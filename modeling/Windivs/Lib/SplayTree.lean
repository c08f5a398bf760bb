import Mathlib.Tactic
import Mathlib.Data.Tree.Basic

/-!
# Splay trees

A node of a tree that is linked to its parent is a subtree and the way up from it: a list of
`Windivs.Frame`s, the nearest parent first, each with the side of the parent the way comes
from and with what hangs on the other side. Splaying a node goes up its way two frames at a
time; removing a node links its parent to what is left below it, and splays the parent.

What the operations do to the *shape* of a tree is of no interest to those who use it as an
ordered list. `Windivs.inorder` is that list, and every operation comes with one lemma that
says what happens to it: `Windivs.inorder_splay`, `Windivs.inorder_delete`. A search that is
told by a comparison which side to go to finds what it looks for when the comparison sorts
the list, `Windivs.Sorts`.
-/

namespace Windivs

open List

variable {α : Type*} {t : BinaryTree α}

/-- The elements of a tree from left to right. -/
def inorder : BinaryTree α → List α
  | .nil => []
  | .node x l r => inorder l ++ x :: inorder r

@[simp] theorem inorder_nil : inorder (.nil : BinaryTree α) = [] := rfl

@[simp] theorem inorder_node (x : α) (l r : BinaryTree α) :
    inorder (.node x l r) = inorder l ++ x :: inorder r := rfl

theorem inorder_eq_nil : inorder t = [] ↔ t = .nil := by
  cases t <;> simp

theorem length_inorder (t : BinaryTree α) : (inorder t).length = t.numNodes := by
  induction t with
  | nil => rfl
  | node x l r ihl ihr =>
    rw [inorder_node, length_append, length_cons, BinaryTree.numNodes]
    omega

/-! ### The way up -/

/-- One step of the way from a node to the root: its parent, and the other child of the
parent. -/
inductive Frame (α : Type*) where
  /-- The node is the left child of `x`. -/
  | left (x : α) (r : BinaryTree α)
  /-- The node is the right child of `x`. -/
  | right (x : α) (l : BinaryTree α)

/-- The elements to the left of a node, outside its subtree. -/
def before : List (Frame α) → List α
  | [] => []
  | .left _ _ :: p => before p
  | .right x l :: p => before p ++ (inorder l ++ [x])

/-- The elements to the right of a node, outside its subtree. -/
def after : List (Frame α) → List α
  | [] => []
  | .left x r :: p => x :: inorder r ++ after p
  | .right _ _ :: p => after p

@[simp] theorem before_nil : before ([] : List (Frame α)) = [] := rfl

@[simp] theorem before_left (x : α) (r : BinaryTree α) (p : List (Frame α)) :
    before (.left x r :: p) = before p := rfl

@[simp] theorem before_right (x : α) (l : BinaryTree α) (p : List (Frame α)) :
    before (.right x l :: p) = before p ++ (inorder l ++ [x]) := rfl

@[simp] theorem after_nil : after ([] : List (Frame α)) = [] := rfl

@[simp] theorem after_left (x : α) (r : BinaryTree α) (p : List (Frame α)) :
    after (.left x r :: p) = x :: inorder r ++ after p := rfl

@[simp] theorem after_right (x : α) (l : BinaryTree α) (p : List (Frame α)) :
    after (.right x l :: p) = after p := rfl

@[simp] theorem before_append (p q : List (Frame α)) : before (p ++ q) = before q ++ before p := by
  induction p with
  | nil => simp
  | cons f p ih => cases f <;> simp [ih]

@[simp] theorem after_append (p q : List (Frame α)) : after (p ++ q) = after p ++ after q := by
  induction p with
  | nil => simp
  | cons f p ih => cases f <;> simp [ih]

/-! ### Splaying -/

/-- Bring a node to the root: two frames at a time, and the last one alone. -/
def splay (x : α) : BinaryTree α → BinaryTree α → List (Frame α) → BinaryTree α
  | l, r, [] => .node x l r
  | l, r, [.left p pr] => .node x l (.node p r pr)
  | l, r, [.right p pl] => .node x (.node p pl l) r
  | l, r, .left p pr :: .left g gr :: rest => splay x l (.node p r (.node g pr gr)) rest
  | l, r, .right p pl :: .right g gl :: rest => splay x (.node p (.node g gl pl) l) r rest
  | l, r, .left p pr :: .right g gl :: rest => splay x (.node g gl l) (.node p r pr) rest
  | l, r, .right p pl :: .left g gr :: rest => splay x (.node p pl l) (.node g r gr) rest

section

variable (x : α) (l r : BinaryTree α) (p : List (Frame α))

/-- The node is at the root afterwards, and what was to its left is still there. -/
theorem splay_eq :
    ∃ l' r', splay x l r p = .node x l' r' ∧ inorder l' = before p ++ inorder l ∧
      inorder r' = inorder r ++ after p := by
  induction l, r, p using splay.induct with
  | case1 l r => exact ⟨l, r, rfl, by simp, by simp⟩
  | case2 l r p pr => exact ⟨l, .node p r pr, rfl, by simp, by simp⟩
  | case3 l r p pl => exact ⟨.node p pl l, r, rfl, by simp, by simp⟩
  | case4 l r p pr g gr rest ih =>
    obtain ⟨l', r', heq, hl, hr⟩ := ih
    exact ⟨l', r', by rw [splay, heq], by simp [hl], by simp [hr]⟩
  | case5 l r p pl g gl rest ih =>
    obtain ⟨l', r', heq, hl, hr⟩ := ih
    exact ⟨l', r', by rw [splay, heq], by simp [hl], by simp [hr]⟩
  | case6 l r p pr g gl rest ih =>
    obtain ⟨l', r', heq, hl, hr⟩ := ih
    exact ⟨l', r', by rw [splay, heq], by simp [hl], by simp [hr]⟩
  | case7 l r p pl g gr rest ih =>
    obtain ⟨l', r', heq, hl, hr⟩ := ih
    exact ⟨l', r', by rw [splay, heq], by simp [hl], by simp [hr]⟩

/-- **Splaying keeps the order.** -/
theorem inorder_splay :
    inorder (splay x l r p) = before p ++ (inorder l ++ x :: inorder r) ++ after p := by
  obtain ⟨l', r', heq, hl, hr⟩ := splay_eq x l r p
  simp [heq, hl, hr]

/-! ### The ends of a subtree -/

/-- The rightmost node of a tree: its element, its left child and the way up to the root of
the tree and further. -/
def rightmost : α → BinaryTree α → BinaryTree α → List (Frame α) →
    α × BinaryTree α × List (Frame α)
  | x, l, .nil, p => (x, l, p)
  | x, l, .node y l' r', p => rightmost y l' r' (.right x l :: p)

/-- The leftmost node of a tree: its element, its right child and the way up. -/
def leftmost : α → BinaryTree α → BinaryTree α → List (Frame α) →
    α × BinaryTree α × List (Frame α)
  | x, .nil, r, p => (x, r, p)
  | x, .node y l' r', r, p => leftmost y l' r' (.left x r :: p)

theorem rightmost_spec :
    ∃ y m q, rightmost x l r p = (y, m, q) ∧ after q = after p ∧
      before q ++ inorder m ++ [y] = before p ++ inorder (.node x l r) := by
  induction r generalizing x l p with
  | nil => exact ⟨x, l, p, rfl, rfl, by simp⟩
  | node z l' r' _ ih =>
    obtain ⟨y, m, q, heq, hafter, hbefore⟩ := ih z l' (.right x l :: p)
    exact ⟨y, m, q, heq, hafter, by simp [hbefore]⟩

theorem leftmost_spec :
    ∃ y m q, leftmost x l r p = (y, m, q) ∧ before q = before p ∧
      y :: inorder m ++ after q = inorder (.node x l r) ++ after p := by
  induction l generalizing x r p with
  | nil => exact ⟨x, r, p, rfl, rfl, by simp⟩
  | node z l' r' ih _ =>
    obtain ⟨y, m, q, heq, hbefore, hafter⟩ := ih z r' (.left x r :: p)
    refine ⟨y, m, q, heq, hbefore, ?_⟩
    rw [hafter]
    simp

end

/-! ### Removing a node -/

/-- Link the parent of a node to a subtree in the place of the node, and splay the parent. -/
def relink (t : BinaryTree α) : List (Frame α) → BinaryTree α
  | [] => t
  | .left x r :: p => splay x t r p
  | .right x l :: p => splay x l t p

theorem inorder_relink (t : BinaryTree α) (p : List (Frame α)) :
    inorder (relink t p) = before p ++ inorder t ++ after p := by
  rcases p with - | ⟨⟨x, r⟩ | ⟨x, l⟩, p⟩
  · simp [relink]
  · simp [relink, inorder_splay]
  · simp [relink, inorder_splay]

/-- Remove a node with the given children. A node with two changes places with its
predecessor first. -/
def delete : BinaryTree α → BinaryTree α → List (Frame α) → BinaryTree α
  | .nil, r, p => relink r p
  | l, .nil, p => relink l p
  | .node y a b, r, p =>
    let (z, m, q) := rightmost y a b []
    relink m (q ++ .left z r :: p)

/-- **Removing a node** keeps the order of the others. -/
theorem inorder_delete (l r : BinaryTree α) (p : List (Frame α)) :
    inorder (delete l r p) = before p ++ (inorder l ++ inorder r) ++ after p := by
  rcases l with - | ⟨y, a, b⟩
  · simp [delete, inorder_relink]
  · rcases r with - | ⟨x, c, d⟩
    · simp [delete, inorder_relink]
    · obtain ⟨z, m, q, heq, hafter, hbefore⟩ := rightmost_spec y a b []
      rw [delete, heq, inorder_relink]
      · simp only [after_append, hafter]
        rw [← show before q ++ inorder m ++ [z] = inorder (.node y a b) by simpa using hbefore]
        simp
      · simp

/-- What is left to remove: the only subtree below the node, and the way to it, after a node with
two subtrees has changed places with its predecessor. -/
def lowered : BinaryTree α → BinaryTree α → List (Frame α) → BinaryTree α × List (Frame α)
  | .nil, r, p => (r, p)
  | l, .nil, p => (l, p)
  | .node y a b, r, p =>
    let (z, m, q) := rightmost y a b []
    (m, q ++ .left z r :: p)

theorem delete_eq_relink (l r : BinaryTree α) (way : List (Frame α)) :
    delete l r way = relink (lowered l r way).1 (lowered l r way).2 := by
  rcases l with - | ⟨y, a, b⟩
  · rfl
  · rcases r with - | ⟨z, c, d⟩
    · rfl
    · rfl

/-! ### Searching -/

/-- Where a search ends. -/
inductive Found (α : Type*) where
  /-- At a node with the given children and the way up from it. -/
  | node (x : α) (l r : BinaryTree α) (p : List (Frame α))
  /-- Below the last node of the way, where there is no child. -/
  | vacant (p : List (Frame α))

/-- Go down a tree as the comparison says. -/
def search (c : α → Ordering) : BinaryTree α → List (Frame α) → Found α
  | .nil, p => .vacant p
  | .node x l r, p =>
    match c x with
    | .lt => search c l (.left x r :: p)
    | .gt => search c r (.right x l :: p)
    | .eq => .node x l r p

/-- A comparison sorts a list: first come the elements it is greater than, last those it is
less than. -/
def Sorts (c : α → Ordering) (l : List α) : Prop :=
  l.Pairwise fun x y => (c x = .lt → c y = .lt) ∧ (c y = .gt → c x = .gt)

variable {c : α → Ordering} {p q : List (Frame α)}

/-- What a search that ends at a node has found. -/
theorem search_node {x : α} {l r : BinaryTree α} (h : search c t p = .node x l r q) :
    c x = .eq ∧ ∃ a b, inorder t = a ++ (inorder l ++ x :: inorder r) ++ b ∧
      before q = before p ++ a ∧ after q = b ++ after p := by
  induction t generalizing p with
  | nil => cases h
  | node y l' r' ihl ihr =>
    rw [search] at h
    split at h
    · obtain ⟨hx, a, b, heq, hbefore, hafter⟩ := ihl h
      exact ⟨hx, a, b ++ y :: inorder r', by simp [heq], hbefore, by simp [hafter]⟩
    · obtain ⟨hx, a, b, heq, hbefore, hafter⟩ := ihr h
      exact ⟨hx, inorder l' ++ y :: a, b, by simp [heq], by simp [hbefore], hafter⟩
    · next hy =>
      cases h
      exact ⟨hy, [], [], by simp, by simp, by simp⟩

/-- An element has a property, and none on the way to it from the root does. -/
inductive Highest (P : α → Prop) : BinaryTree α → α → Prop
  | root {x : α} {l r : BinaryTree α} (hx : P x) : Highest P (.node x l r) x
  | left {x y : α} {l r : BinaryTree α} (hy : ¬P y) (hx : Highest P l x) :
    Highest P (.node y l r) x
  | right {x y : α} {l r : BinaryTree α} (hy : ¬P y) (hx : Highest P r x) :
    Highest P (.node y l r) x

theorem Highest.mem {P : α → Prop} {x : α} (h : Highest P t x) : x ∈ inorder t ∧ P x := by
  induction h with
  | root hx => exact ⟨by simp, hx⟩
  | left _ _ ih => exact ⟨by simp [ih.1], ih.2⟩
  | right _ _ ih => exact ⟨by simp [ih.1], ih.2⟩

/-- The element at which a search ends is the highest one that the comparison is equal to. -/
theorem highest_of_search {x : α} {l r : BinaryTree α} (h : search c t p = .node x l r q) :
    Highest (c · = .eq) t x := by
  induction t generalizing p with
  | nil => cases h
  | node y l' r' ihl ihr =>
    rw [search] at h
    split at h
    · next hlt => exact .left (by simp [hlt]) (ihl h)
    · next hgt => exact .right (by simp [hgt]) (ihr h)
    · next heq =>
      cases h
      exact .root heq

/-- **A search in a sorted tree** comes to the highest element. -/
theorem Highest.search {x : α} (h : Highest (c · = .eq) t x) (hs : Sorts c (inorder t))
    (p : List (Frame α)) : ∃ l r q, search c t p = .node x l r q := by
  induction h generalizing p with
  | root hx => exact ⟨_, _, p, by rw [Windivs.search, hx]⟩
  | @left x y l r hy hx ih =>
    obtain ⟨hl, -, hcross⟩ := pairwise_append.1 hs
    obtain ⟨hmem, heq⟩ := hx.mem
    -- were the search to go right, everything on the left would be smaller
    have hlt : c y = .lt := by
      cases hc : c y with
      | lt => rfl
      | eq => exact absurd hc hy
      | gt => exact absurd heq (by simp [(hcross x hmem y mem_cons_self).2 hc])
    rw [Windivs.search, hlt]
    exact ih hl _
  | @right x y l r hy hx ih =>
    obtain ⟨-, hyr, -⟩ := pairwise_append.1 hs
    obtain ⟨hright, hr⟩ := pairwise_cons.1 hyr
    obtain ⟨hmem, heq⟩ := hx.mem
    have hgt : c y = .gt := by
      cases hc : c y with
      | gt => rfl
      | eq => exact absurd hc hy
      | lt => exact absurd heq (by simp [(hright x hmem).1 hc])
    rw [Windivs.search, hgt]
    exact ih hr _

/-- A search that ends below a node has passed between two parts of the list. -/
theorem search_vacant (hs : Sorts c (inorder t)) (h : search c t p = .vacant q) :
    ∃ a b, inorder t = a ++ b ∧ before q = before p ++ a ∧ after q = b ++ after p ∧
      (∀ x ∈ a, c x = .gt) ∧ ∀ x ∈ b, c x = .lt := by
  induction t generalizing p with
  | nil =>
    cases h
    exact ⟨[], [], by simp, by simp, by simp, by simp, by simp⟩
  | node y l r ihl ihr =>
    obtain ⟨hl, hyr, hcross⟩ := pairwise_append.1 hs
    obtain ⟨hy, hr⟩ := pairwise_cons.1 hyr
    rw [search] at h
    split at h
    · next hlt =>
      obtain ⟨a, b, heq, hbefore, hafter, ha, hb⟩ := ihl hl h
      refine ⟨a, b ++ y :: inorder r, by simp [heq], hbefore, by simp [hafter], ha,
        fun x hx => ?_⟩
      rcases mem_append.1 hx with hx | hx
      · exact hb x hx
      · rcases mem_cons.1 hx with rfl | hx
        · exact hlt
        · exact (hy x hx).1 hlt
    · next hgt =>
      obtain ⟨a, b, heq, hbefore, hafter, ha, hb⟩ := ihr hr h
      refine ⟨inorder l ++ y :: a, b, by simp [heq], by simp [hbefore], hafter,
        fun x hx => ?_, hb⟩
      rcases mem_append.1 hx with hx | hx
      · exact (hcross x hx y mem_cons_self).2 hgt
      · rcases mem_cons.1 hx with rfl | hx
        · exact hgt
        · exact ha x hx
    · cases h

end Windivs

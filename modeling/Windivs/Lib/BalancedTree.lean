import Windivs.Lib.LinkedTree

/-!
# Balanced trees

A tree is balanced if the heights of the two subtrees of every node differ by one at most, and
its nodes carry notes of the difference: the height on the right minus the height on the left.
`Windivs.Balanced` says both of a tree and its notes.

A routine that repairs a tree on the way up needs the same of the rest of the tree, *as if* the
subtree it has come from had a given height. That is `Windivs.BalancedAbove`; `Windivs.rise` is
the height of the whole tree then. The three rotations are stated with a side, for a node with a
subtree that is two levels higher than the other.
-/

namespace Windivs

namespace Side

/-- The note of a node whose subtree on this side is the higher one. -/
def sign : Side → ℤ
  | left => -1
  | right => 1

@[simp, grind =] theorem sign_left : left.sign = -1 := rfl

@[simp, grind =] theorem sign_right : right.sign = 1 := rfl

@[simp, grind =] theorem sign_other (d : Side) : d.other.sign = -d.sign := by
  cases d <;> rfl

theorem sign_ne_zero (d : Side) : d.sign ≠ 0 := by
  cases d <;> decide

end Side

variable {α : Type*} {b b' : α → ℤ} {d : Side} {x y z : α} {t u A B C D : BinaryTree α}
  {f : Frame α} {p : List (Frame α)} {h : ℕ}

theorem height_branch (d : Side) (x : α) (t u : BinaryTree α) :
    (branch d x t u).height = max t.height u.height + 1 := by
  cases d
  · rfl
  · rw [branch_right, BinaryTree.height, max_comm]

theorem height_map {β : Type*} (σ : α → β) (t : BinaryTree α) : (t.map σ).height = t.height := by
  induction t with
  | nil => rfl
  | node x l r ihl ihr => rw [BinaryTree.map, BinaryTree.height, BinaryTree.height, ihl, ihr]

/-- The three notes a node can have, for the heights `h` and `k` on the given side and on the
other. -/
theorem note_cases {v : ℤ} {h k : ℕ} (hv : v = d.sign * (h - k) ∧ -1 ≤ v ∧ v ≤ 1) :
    v = 0 ∧ k = h ∨ v = d.sign ∧ h = k + 1 ∨ v = -d.sign ∧ k = h + 1 := by
  cases d <;> simp only [Side.sign] at hv ⊢ <;> omega

/-- The notes of a tree are right, and none of the differences is more than one. -/
def Balanced (b : α → ℤ) : BinaryTree α → Prop
  | .nil => True
  | .node x l r => (b x = r.height - l.height ∧ -1 ≤ b x ∧ b x ≤ 1) ∧ Balanced b l ∧ Balanced b r

@[simp] theorem balanced_nil (b : α → ℤ) : Balanced b .nil := trivial

theorem balanced_branch : Balanced b (branch d x t u) ↔
    (b x = d.sign * (t.height - u.height) ∧ -1 ≤ b x ∧ b x ≤ 1) ∧
      Balanced b t ∧ Balanced b u := by
  cases d with
  | left =>
    rw [branch, Balanced, Side.sign_left, neg_one_mul, neg_sub]
  | right =>
    rw [branch_right, Balanced, Side.sign_right, one_mul]
    tauto

theorem Balanced.congr (ht : Balanced b t) (hb : ∀ x ∈ inorder t, b' x = b x) : Balanced b' t := by
  induction t with
  | nil => trivial
  | node x l r ihl ihr =>
    obtain ⟨hx, hl, hr⟩ := ht
    refine ⟨?_, ihl hl fun y hy => hb y (by simp [hy]), ihr hr fun y hy => hb y (by simp [hy])⟩
    rwa [hb x (by simp)]

theorem Balanced.map {β : Type*} {c : β → ℤ} (σ : α → β) (ht : Balanced b t)
    (hc : ∀ x ∈ inorder t, c (σ x) = b x) : Balanced c (t.map σ) := by
  induction t with
  | nil => trivial
  | node x l r ihl ihr =>
    obtain ⟨hx, hl, hr⟩ := ht
    refine ⟨?_, ihl hl fun y hy => hc y (by simp [hy]), ihr hr fun y hy => hc y (by simp [hy])⟩
    rwa [hc x (by simp), height_map, height_map]

/-! ### The rest of a tree -/

/-- The notes on a way and on its other sides are right for a subtree of the given height. -/
def BalancedAbove (b : α → ℤ) : ℕ → List (Frame α) → Prop
  | _, [] => True
  | h, f :: p =>
    (b f.elem = f.side.sign * (h - f.rest.height) ∧ -1 ≤ b f.elem ∧ b f.elem ≤ 1) ∧
      Balanced b f.rest ∧ BalancedAbove b (max h f.rest.height + 1) p

/-- The height of a tree with a subtree of the given height at the end of a way. -/
def rise : ℕ → List (Frame α) → ℕ
  | h, [] => h
  | h, f :: p => rise (max h f.rest.height + 1) p

theorem height_plug (t : BinaryTree α) (p : List (Frame α)) :
    (plug t p).height = rise t.height p := by
  induction p generalizing t with
  | nil => rfl
  | cons f p ih => rw [plug, ih, rise, height_branch]

theorem balanced_plug : Balanced b (plug t p) ↔ Balanced b t ∧ BalancedAbove b t.height p := by
  induction p generalizing t with
  | nil => simp [plug, BalancedAbove]
  | cons f p ih =>
    rw [plug, ih, balanced_branch, height_branch, BalancedAbove]
    tauto

theorem BalancedAbove.congr (hp : BalancedAbove b h p) (hb : ∀ x ∈ outside p, b' x = b x) :
    BalancedAbove b' h p := by
  induction p generalizing h with
  | nil => trivial
  | cons f p ih =>
    obtain ⟨hf, hrest, hp⟩ := hp
    refine ⟨?_, hrest.congr fun x hx => hb x (mem_outside_cons.2 (.inr (.inl hx))),
      ih hp fun x hx => hb x (mem_outside_cons.2 (.inr (.inr hx)))⟩
    rwa [hb f.elem (mem_outside_cons.2 (.inl rfl))]

/-! ### The rotations

The node `x` has on the side `d` a subtree with the root `y` that is two levels higher than `C`.
-/

section Rotations

variable (hy : Balanced b (branch d y A B)) (hC : Balanced b C)
  (hheight : (branch d y A B).height = C.height + 2)

include hy hC hheight

/-- **The single rotation**, when `y` is higher on the same side or, after a removal, even. In the
second case the tree is as high as before. -/
theorem balanced_single (hb : b y = d.sign ∨ b y = 0) (hby : b' y = b y - d.sign)
    (hbx : b' x = d.sign - b y) (hA : ∀ w ∈ inorder A, b' w = b w)
    (hB : ∀ w ∈ inorder B, b' w = b w) (hC' : ∀ w ∈ inorder C, b' w = b w) :
    Balanced b' (branch d y A (branch d x B C)) ∧
      (branch d y A (branch d x B C)).height = C.height + if b y = 0 then 3 else 2 := by
  obtain ⟨⟨hnote, -, -⟩, hbA, hbB⟩ := balanced_branch.1 hy
  rw [height_branch] at hheight
  have hheights : A.height = C.height + 1 ∧ B.height = C.height + if b y = 0 then 1 else 0 := by
    cases d <;> simp only [Side.sign] at hb hnote <;> grind
  simp only [balanced_branch, height_branch, hbA.congr hA, hbB.congr hB, hC.congr hC', hby, hbx]
  refine ⟨⟨⟨?_, ?_, ?_⟩, trivial, ⟨?_, ?_, ?_⟩, trivial, trivial⟩, by grind⟩ <;>
    cases d <;> simp only [Side.sign] at hb ⊢ <;> grind

end Rotations

/-- **The double rotation**, when `y` is higher on the other side. The note of its child `z` says
which of the two gets the lower subtree. -/
theorem balanced_double (hy : Balanced b (branch d y A (branch d z B D))) (hC : Balanced b C)
    (hheight : (branch d y A (branch d z B D)).height = C.height + 2) (hb : b y = -d.sign)
    (hbz : b' z = 0) (hby : b' y = if b z = -d.sign then d.sign else 0)
    (hbx : b' x = if b z = d.sign then -d.sign else 0)
    (hA : ∀ w ∈ inorder A, b' w = b w) (hB : ∀ w ∈ inorder B, b' w = b w)
    (hD : ∀ w ∈ inorder D, b' w = b w) (hC' : ∀ w ∈ inorder C, b' w = b w) :
    Balanced b' (branch d z (branch d y A B) (branch d x D C)) ∧
      (branch d z (branch d y A B) (branch d x D C)).height = C.height + 2 := by
  simp only [balanced_branch, height_branch] at hy hheight
  obtain ⟨⟨hnote, -, -⟩, hbA, ⟨hnote', hlow, hhigh⟩, hbB, hbD⟩ := hy
  simp only [balanced_branch, height_branch, hbA.congr hA, hbB.congr hB, hbD.congr hD,
    hC.congr hC', hbz, hby, hbx]
  refine ⟨⟨⟨?_, ?_, ?_⟩, ⟨⟨?_, ?_, ?_⟩, trivial, trivial⟩, ⟨?_, ?_, ?_⟩, trivial, trivial⟩,
    ?_⟩ <;> cases d <;> simp only [Side.sign] at * <;> (try split_ifs) <;> omega

end Windivs

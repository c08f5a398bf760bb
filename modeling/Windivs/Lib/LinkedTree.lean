import Windivs.Lib.SplayTree

/-!
# Trees of linked nodes

A node in memory has a pointer to its parent and one to each child; the root is its own parent.
`Windivs.Links` is such a memory, over any type of addresses, and `Windivs.Links.Holds` says that
it holds a tree at the end of a way: the pointers of every node are those that the tree and the
frames of the way tell.

The two sides of a tree are treated alike. A `Windivs.Side` names one of them, and
`Windivs.branch` makes a node with its first subtree on that side, so that an operation and its
mirror image are one definition and one proof.

A routine that changes pointers is described by what every pointer is afterwards. Subtrees whose
nodes it does not touch are carried over by `Windivs.Links.Linked.move`, which also gives a subtree
to another parent, and the rest of the tree by `Windivs.Links.Above.move`.
-/

namespace Windivs

open List Windivs.Frame

/-! ### Sides -/

/-- A side of a node. -/
inductive Side where
  | left
  | right
  deriving DecidableEq, Repr

namespace Side

/-- The other side. -/
def other : Side → Side
  | left => right
  | right => left

@[simp, grind =] theorem other_left : left.other = right := rfl

@[simp, grind =] theorem other_right : right.other = left := rfl

@[simp, grind =] theorem other_other (d : Side) : d.other.other = d := by
  cases d <;> rfl

@[simp, grind .] theorem other_ne (d : Side) : d.other ≠ d := by
  cases d <;> decide

theorem eq_or_eq_other (d e : Side) : e = d ∨ e = d.other := by
  cases d <;> cases e <;> decide

end Side

section Trees

variable {α : Type*} {t : BinaryTree α} {x : α} {β : Type*} {p q : List (Frame α)}
  {a b : BinaryTree α} {f : Frame α} {p : List (Frame α)} {σ : α → α}

/-- The node at the top of a tree. -/
def rootOf : BinaryTree α → Option α
  | .nil => none
  | .node x _ _ => some x

/-- A node with its first subtree on a given side. -/
def branch : Side → α → BinaryTree α → BinaryTree α → BinaryTree α
  | .left, x, a, b => .node x a b
  | .right, x, a, b => .node x b a

theorem branch_right (x : α) (a b : BinaryTree α) : branch .right x a b = .node x b a := rfl

theorem branch_other (d : Side) (x : α) (a b : BinaryTree α) :
    branch d.other x a b = branch d x b a := by
  cases d <;> rfl

@[simp, grind =] theorem rootOf_nil : rootOf (.nil : BinaryTree α) = none := rfl

@[simp, grind =] theorem rootOf_node (x : α) (l r : BinaryTree α) :
    rootOf (.node x l r) = some x := rfl

@[simp, grind =] theorem rootOf_branch (d : Side) (x : α) (a b : BinaryTree α) :
    rootOf (branch d x a b) = some x := by
  cases d <;> rfl

theorem exists_branch (d : Side) (h : rootOf t = some x) : ∃ a b, t = branch d x a b := by
  cases t with
  | nil => cases h
  | node y l r =>
    cases h
    cases d
    exacts [⟨l, r, rfl⟩, ⟨r, l, rfl⟩]

theorem rootOf_eq_none : rootOf t = none ↔ t = .nil := by
  cases t <;> simp

@[grind =] theorem mem_inorder_branch {d : Side} {x y : α} :
    x ∈ inorder (branch d y a b) ↔ x = y ∨ x ∈ inorder a ∨ x ∈ inorder b := by
  cases d <;> simp only [branch, inorder_node, mem_append, mem_cons] <;> tauto

@[grind →] theorem mem_inorder_of_rootOf (h : rootOf t = some x) : x ∈ inorder t := by
  cases t with
  | nil => cases h
  | node y l r =>
    cases h
    simp

theorem nodup_inorder_branch {d : Side} {y : α} :
    (inorder (branch d y a b)).Nodup ↔ y ∉ inorder a ∧ y ∉ inorder b ∧
      (∀ x ∈ inorder a, x ∉ inorder b) ∧ (inorder a).Nodup ∧ (inorder b).Nodup := by
  have key : ∀ l r : BinaryTree α, (inorder (.node y l r)).Nodup ↔ y ∉ inorder l ∧ y ∉ inorder r ∧
      (∀ x ∈ inorder l, x ∉ inorder r) ∧ (inorder l).Nodup ∧ (inorder r).Nodup := fun l r => by
    rw [inorder_node, perm_middle.nodup_iff, nodup_cons, mem_append, not_or, nodup_append']
    tauto
  cases d with
  | left => exact key a b
  | right =>
    rw [branch_right, key]
    have hsymm : (∀ x ∈ inorder b, x ∉ inorder a) ↔ ∀ x ∈ inorder a, x ∉ inorder b :=
      ⟨fun h x ha hb => h x hb ha, fun h x hb ha => h x ha hb⟩
    tauto

/-! ### Ways -/

namespace Frame

/-- A step of a way that comes from the given side of its node. -/
def of : Side → α → BinaryTree α → Frame α
  | .left, x, t => .left x t
  | .right, x, t => .right x t

/-- The side of the node the way comes from. -/
def side : Frame α → Side
  | .left _ _ => .left
  | .right _ _ => .right

/-- The node of a step. -/
def elem : Frame α → α
  | .left x _ => x
  | .right x _ => x

/-- What hangs on the other side. -/
def rest : Frame α → BinaryTree α
  | .left _ r => r
  | .right _ l => l

section

variable (d : Side) (x : α) (t : BinaryTree α)

@[simp, grind =] theorem side_of : (of d x t).side = d := by
  cases d <;> rfl

@[simp, grind =] theorem elem_of : (of d x t).elem = x := by
  cases d <;> rfl

@[simp, grind =] theorem rest_of : (of d x t).rest = t := by
  cases d <;> rfl

end

theorem of_eq (f : Frame α) : of f.side f.elem f.rest = f := by
  cases f <;> rfl

end Frame

/-- The tree with a subtree at the end of a way. -/
def plug (t : BinaryTree α) : List (Frame α) → BinaryTree α
  | [] => t
  | f :: p => plug (branch f.side f.elem t f.rest) p

@[simp] theorem inorder_plug (t : BinaryTree α) (p : List (Frame α)) :
    inorder (plug t p) = before p ++ inorder t ++ after p := by
  induction p generalizing t with
  | nil => simp [plug]
  | cons f p ih => cases f <;> simp [plug, ih, Frame.side, Frame.elem, Frame.rest, branch]

theorem length_le_length_before_after (p : List (Frame α)) :
    p.length ≤ (before p).length + (after p).length := by
  induction p with
  | nil => simp
  | cons f p ih => cases f <;> simp <;> omega

/-- A way to a node is shorter than the number of nodes. -/
theorem length_lt_length_inorder_plug (h : rootOf t = some x)
    (p : List (Frame α)) : p.length < (inorder (plug t p)).length := by
  have hway := length_le_length_before_after p
  have hpos : 0 < (inorder t).length := by
    cases t with
    | nil => cases h
    | node y l r => simp
  simp only [inorder_plug, length_append]
  omega

/-- The nodes of a tree outside the subtree at the end of a way. -/
def outside (p : List (Frame α)) : List α := before p ++ after p

@[simp, grind =] theorem mem_outside_nil : x ∈ outside ([] : List (Frame α)) ↔ False := by
  simp [outside]

@[grind =] theorem mem_outside_cons :
    x ∈ outside (f :: p) ↔ x = f.elem ∨ x ∈ inorder f.rest ∨ x ∈ outside p := by
  cases f <;> simp [outside, Frame.elem, Frame.rest] <;> tauto

theorem outside_cons_perm (f : Frame α) (p : List (Frame α)) :
    (outside (f :: p)).Perm (f.elem :: (inorder f.rest ++ outside p)) := by
  cases f with
  | left x r =>
    simp only [outside, after_left, cons_append]
    refine perm_middle.trans (List.Perm.cons x ?_)
    rw [← append_assoc, ← append_assoc]
    exact perm_append_comm.append_right _
  | right x l =>
    simp only [outside, before_right, append_assoc]
    rw [← append_assoc]
    refine perm_middle.trans (List.Perm.cons x ?_)
    rw [← append_assoc]
    exact perm_append_comm.append_right _

theorem nodup_outside_cons :
    (outside (f :: p)).Nodup ↔ f.elem ∉ inorder f.rest ∧ f.elem ∉ outside p ∧
      (∀ x ∈ inorder f.rest, x ∉ outside p) ∧ (inorder f.rest).Nodup ∧ (outside p).Nodup := by
  rw [(outside_cons_perm f p).nodup_iff, nodup_cons, mem_append, not_or, nodup_append']
  tauto

/-- The parent pointer of a node at the end of a way. -/
def upper : List (Frame α) → α → α
  | [], x => x
  | f :: _, _ => f.elem

@[simp, grind =] theorem upper_nil (x : α) : upper [] x = x := rfl

@[simp, grind =] theorem upper_cons (f : Frame α) (p : List (Frame α)) (x : α) :
    upper (f :: p) x = f.elem := rfl

/-- The pointer at the end of a way: a side of a node. -/
def IsHole : List (Frame α) → Side → α → Prop
  | [], _, _ => False
  | f :: _, d, x => d = f.side ∧ x = f.elem

@[simp, grind =] theorem isHole_nil (d : Side) (x : α) : IsHole [] d x ↔ False := Iff.rfl

@[simp, grind =] theorem isHole_cons (f : Frame α) (p : List (Frame α)) (d : Side) (x : α) :
    IsHole (f :: p) d x ↔ d = f.side ∧ x = f.elem := Iff.rfl

instance [DecidableEq α] : (p : List (Frame α)) → (d : Side) → (x : α) → Decidable (IsHole p d x)
  | [], _, _ => inferInstanceAs (Decidable False)
  | _ :: _, _, _ => inferInstanceAs (Decidable (_ ∧ _))

/-- A search that ends below a node ends at the end of a way. -/
theorem plug_of_search_vacant {c : α → Ordering}
    (h : search c t p = .vacant q) : plug .nil q = plug t p := by
  induction t generalizing p with
  | nil =>
    cases h
    rfl
  | node x l r ihl ihr =>
    rw [search] at h
    split at h
    · exact ihl h
    · exact ihr h
    · cases h

theorem erase_middle [DecidableEq α] {A B : List α} {x : α} (h : (A ++ x :: B).Nodup) :
    (A ++ x :: B).erase x = A ++ B := by
  have hx : x ∉ A := fun hx => disjoint_of_nodup_append h hx mem_cons_self
  rw [erase_append_right _ hx, erase_cons_head]

/-- Every node of a tree is at the end of a way. -/
theorem exists_plug_eq (h : x ∈ inorder t) : ∃ l r p, plug (.node x l r) p = t := by
  suffices H : ∀ q, ∃ l r p, plug (.node x l r) p = plug t q from H []
  induction t with
  | nil => simp at h
  | node y l r ihl ihr =>
    intro q
    rw [inorder_node, mem_append, mem_cons] at h
    rcases h with h | rfl | h
    · exact ihl h (.left y r :: q)
    · exact ⟨l, r, q, rfl⟩
    · exact ihr h (.right y l :: q)

/-! ### Renaming nodes -/

@[simp] theorem inorder_map (σ : α → β) (t : BinaryTree α) :
    inorder (t.map σ) = (inorder t).map σ := by
  induction t with
  | nil => rfl
  | node x l r ihl ihr => simp [BinaryTree.map, ihl, ihr]

@[simp] theorem rootOf_map (σ : α → β) (t : BinaryTree α) :
    rootOf (t.map σ) = (rootOf t).map σ := by
  cases t <;> rfl

theorem map_eq_self (h : ∀ x ∈ inorder t, σ x = x) : t.map σ = t := by
  induction t with
  | nil => rfl
  | node x l r ihl ihr =>
    rw [BinaryTree.map, h x (by simp), ihl fun y hy => h y (by simp [hy]),
      ihr fun y hy => h y (by simp [hy])]

/-- A step of a way with its nodes renamed. -/
def Frame.map {β : Type*} (σ : α → β) : Frame α → Frame β
  | .left x r => .left (σ x) (r.map σ)
  | .right x l => .right (σ x) (l.map σ)

theorem Frame.map_eq (σ : α → β) (f : Frame α) :
    f.map σ = .of f.side (σ f.elem) (f.rest.map σ) := by
  cases f <;> rfl

theorem map_branch (σ : α → β) (d : Side) (x : α) (a b : BinaryTree α) :
    (branch d x a b).map σ = branch d (σ x) (a.map σ) (b.map σ) := by
  cases d <;> rfl

theorem map_plug (σ : α → β) (t : BinaryTree α) (p : List (Frame α)) :
    (plug t p).map σ = plug (t.map σ) (p.map (map σ)) := by
  induction p generalizing t with
  | nil => rfl
  | cons f p ih => rw [plug, ih, map_branch, map_cons, plug, map_eq, side_of,
      elem_of, rest_of]

theorem map_way_eq_self (h : ∀ x ∈ outside p, σ x = x) : p.map (Frame.map σ) = p := by
  induction p with
  | nil => rfl
  | cons f p ih =>
    rw [map_cons, ih fun x hx => h x (mem_outside_cons.2 (.inr (.inr hx))), map_eq,
      h f.elem (mem_outside_cons.2 (.inl rfl)),
      map_eq_self fun x hx => h x (mem_outside_cons.2 (.inr (.inl hx))), of_eq]

theorem plug_append (t : BinaryTree α) (p q : List (Frame α)) :
    plug t (p ++ q) = plug (plug t p) q := by
  induction p generalizing t with
  | nil => rfl
  | cons f p ih => rw [cons_append, plug, ih, plug]

/-- The top of a tree does not change with what is plugged in below it. -/
theorem rootOf_plug_cons (t u : BinaryTree α) (f : Frame α) (p : List (Frame α)) :
    rootOf (plug t (f :: p)) = rootOf (plug u (f :: p)) := by
  induction p generalizing t u f with
  | nil => simp [plug]
  | cons g p ih =>
    rw [plug, ih _ (branch f.side f.elem u f.rest)]
    rfl

theorem mem_outside_append : x ∈ outside (p ++ q) ↔ x ∈ outside p ∨ x ∈ outside q := by
  simp only [outside, before_append, after_append, mem_append]
  tauto

theorem nodup_outside_append : (outside (p ++ q)).Nodup ↔
      (outside p).Nodup ∧ (outside q).Nodup ∧ ∀ x ∈ outside p, x ∉ outside q := by
  have hperm : (outside (p ++ q)).Perm (outside p ++ outside q) := by
    simp only [outside, before_append, after_append]
    rw [append_assoc, append_assoc]
    refine (perm_append_comm_assoc _ _ _).trans ?_
    refine List.Perm.append_left _ ?_
    exact perm_append_comm_assoc _ _ _
  rw [hperm.nodup_iff, nodup_append']
  rfl

/-- The rightmost node of a tree, with what is below it and the way to it, is the tree. -/
theorem plug_rightmost (x : α) (l r : BinaryTree α) (p : List (Frame α)) :
    ∃ y m q, rightmost x l r p = (y, m, q) ∧ plug (.node y m .nil) q = plug (.node x l r) p := by
  induction r generalizing x l p with
  | nil => exact ⟨x, l, p, rfl, rfl⟩
  | node z l' r' _ ih => exact ih z l' (.right x l :: p)

theorem inorder_plug_lowered (l r : BinaryTree α) (way : List (Frame α)) :
    inorder (plug (lowered l r way).1 (lowered l r way).2) =
      before way ++ (inorder l ++ inorder r) ++ after way := by
  rw [inorder_plug, ← inorder_relink, ← delete_eq_relink, inorder_delete]

/-- The way to what is left to remove is not longer than the number of nodes. -/
theorem length_lowered_le (x : α) (l r : BinaryTree α) (p : List (Frame α)) :
    (lowered l r p).2.length ≤ (inorder (plug (.node x l r) p)).length := by
  have hway := length_le_length_before_after p
  rcases l with - | ⟨y, a, b⟩
  · simp only [lowered, inorder_plug, length_append]
    omega
  rcases r with - | ⟨w, c, d⟩
  · simp only [lowered, inorder_plug, length_append]
    omega
  · obtain ⟨z, m, q, hright, hplug⟩ := plug_rightmost y a b []
    have hq := length_lt_length_inorder_plug (rootOf_node z m .nil) q
    rw [hplug, plug] at hq
    rw [lowered, hright]
    · simp only [length_append, length_cons, inorder_plug, inorder_node] at hq ⊢
      omega
    · simp

end Trees

/-! ### Linked nodes -/

/-- A memory of nodes: the pointers of each one. -/
structure Links (α : Type*) where
  parent : α → α
  child : Side → α → Option α

namespace Links

variable {α : Type*} {s s' : Links α} {a b t : BinaryTree α} {d : Side} {p : List (Frame α)} {x : α}

section Updates

variable [DecidableEq α]

/-- Write a parent pointer. -/
def setParent (s : Links α) (x p : α) : Links α :=
  { s with parent := fun y => if y = x then p else s.parent y }

/-- Write a child pointer. -/
def setChild (s : Links α) (d : Side) (x : α) (c : Option α) : Links α :=
  { s with child := fun e y => if e = d ∧ y = x then c else s.child e y }

/-- Write the parent pointer of a child, if there is one. -/
def adopt (s : Links α) (c : Option α) (p : α) : Links α :=
  { s with parent := fun y => if c = some y then p else s.parent y }

section

variable (s : Links α)

@[simp, grind =] theorem parent_setParent (x p y : α) :
    (s.setParent x p).parent y = if y = x then p else s.parent y := rfl

@[simp, grind =] theorem child_setParent (x p : α) (d : Side) (y : α) :
    (s.setParent x p).child d y = s.child d y := rfl

@[simp, grind =] theorem parent_setChild (d : Side) (x : α) (c : Option α) (y : α) :
    (s.setChild d x c).parent y = s.parent y := rfl

@[simp, grind =] theorem child_setChild (d : Side) (x : α) (c : Option α) (e : Side) (y : α) :
    (s.setChild d x c).child e y = if e = d ∧ y = x then c else s.child e y := rfl

@[simp, grind =] theorem parent_adopt (c : Option α) (p y : α) :
    (s.adopt c p).parent y = if c = some y then p else s.parent y := rfl

@[simp, grind =] theorem child_adopt (c : Option α) (p : α) (d : Side) (y : α) :
    (s.adopt c p).child d y = s.child d y := rfl

end

end Updates

/-- The pointers of the nodes of a tree are as the tree tells, and its root has the given
parent. -/
def Linked (s : Links α) (p : α) : BinaryTree α → Prop
  | .nil => True
  | .node x l r => s.parent x = p ∧ s.child .left x = rootOf l ∧ s.child .right x = rootOf r ∧
      Linked s x l ∧ Linked s x r

@[simp, grind =] theorem linked_nil (s : Links α) (p : α) : s.Linked p .nil ↔ True := Iff.rfl

theorem linked_branch {p : α} :
    s.Linked p (branch d x a b) ↔ s.parent x = p ∧ s.child d x = rootOf a ∧
      s.child d.other x = rootOf b ∧ s.Linked x a ∧ s.Linked x b := by
  cases d with
  | left => exact Iff.rfl
  | right =>
    simp only [branch_right, Linked]
    tauto

/-- The root of a linked tree has the parent it is linked to. -/
@[grind →] theorem Linked.parent_eq {p x : α} (h : s.Linked p t)
    (hx : rootOf t = some x) : s.parent x = p := by
  cases t with
  | nil => cases hx
  | node y l r =>
    cases hx
    exact h.1

/-- **Carrying a subtree over**: its inner pointers are the same in another memory, and its root
has the parent it should have there. -/
theorem Linked.move {p q : α} (h : s.Linked q t) (hnodup : (inorder t).Nodup)
    (hroot : ∀ x, rootOf t = some x → s'.parent x = p)
    (hparent : ∀ x ∈ inorder t, rootOf t ≠ some x → s'.parent x = s.parent x)
    (hchild : ∀ d, ∀ x ∈ inorder t, s'.child d x = s.child d x) : s'.Linked p t := by
  induction t generalizing p q with
  | nil => trivial
  | node x l r ihl ihr =>
    obtain ⟨-, hl, hr, hll, hlr⟩ := h
    obtain ⟨hxl, hxr, hlr', hnl, hnr⟩ := nodup_inorder_branch (d := .left).1 hnodup
    -- below the root, the parent pointers are the old ones
    have hsub : ∀ u : BinaryTree α, (∀ y ∈ inorder u, y ∈ inorder (.node x l r)) →
        x ∉ inorder u → ∀ y ∈ inorder u, s'.parent y = s.parent y := fun u hu hx y hy =>
      hparent y (hu y hy) fun heq => hx (by rw [Option.some_inj.1 heq]; exact hy)
    have hml : ∀ y ∈ inorder l, y ∈ inorder (.node x l r) := fun y hy => by simp [hy]
    have hmr : ∀ y ∈ inorder r, y ∈ inorder (.node x l r) := fun y hy => by simp [hy]
    refine ⟨hroot x rfl, ?_, ?_, ihl hll hnl ?_ ?_ ?_, ihr hlr hnr ?_ ?_ ?_⟩
    · rw [hchild .left x (by simp), hl]
    · rw [hchild .right x (by simp), hr]
    · intro y hy
      rw [hsub l hml hxl y (mem_inorder_of_rootOf hy), hll.parent_eq hy]
    · exact fun y hy _ => hsub l hml hxl y hy
    · exact fun d y hy => hchild d y (hml y hy)
    · intro y hy
      rw [hsub r hmr hxr y (mem_inorder_of_rootOf hy), hlr.parent_eq hy]
    · exact fun y hy _ => hsub r hmr hxr y hy
    · exact fun d y hy => hchild d y (hmr y hy)

/-- The nodes of a way, and what hangs on its other sides, are linked. The pointer at its end is
left open. -/
def Above (s : Links α) : List (Frame α) → Prop
  | [] => True
  | f :: p => s.parent f.elem = upper p f.elem ∧ s.child f.side.other f.elem = rootOf f.rest ∧
      s.Linked f.elem f.rest ∧ (∀ d x, IsHole p d x → s.child d x = some f.elem) ∧ Above s p

@[simp] theorem above_nil (s : Links α) : s.Above [] := trivial

@[grind →] theorem isHole_mem_outside (h : IsHole p d x) : x ∈ outside p := by
  cases p with
  | nil => cases h
  | cons f p => exact mem_outside_cons.2 (.inl h.2)

/-- The other child of the last node of a way is not a node outside of it. -/
theorem Above.child_other_ne {x y : α} (h : s.Above p)
    (hx : IsHole p d x) (hy : y ∉ outside p) : s.child d.other x ≠ some y := by
  cases p with
  | nil => cases hx
  | cons f p =>
    obtain ⟨rfl, rfl⟩ := hx
    intro heq
    have hroot := h.2.1.symm.trans heq
    exact hy (mem_outside_cons.2 (.inr (.inl (mem_inorder_of_rootOf hroot))))

/-- **Carrying a way over** to another memory. -/
theorem Above.move (h : s.Above p) (hnodup : (outside p).Nodup)
    (hparent : ∀ x ∈ outside p, s'.parent x = s.parent x)
    (hchild : ∀ d, ∀ x ∈ outside p, ¬ IsHole p d x → s'.child d x = s.child d x) : s'.Above p := by
  induction p with
  | nil => trivial
  | cons f p ih =>
    obtain ⟨hup, hother, hrest, hhole, hp⟩ := h
    obtain ⟨hfr, hfp, hrp, hnr, hnp⟩ := nodup_outside_cons.1 hnodup
    have hmp : ∀ x ∈ outside p, x ∈ outside (f :: p) ∧ x ≠ f.elem := fun x hx =>
      ⟨mem_outside_cons.2 (.inr (.inr hx)), fun heq => hfp (heq ▸ hx)⟩
    have hmr : ∀ x ∈ inorder f.rest, x ∈ outside (f :: p) ∧ x ≠ f.elem := fun x hx =>
      ⟨mem_outside_cons.2 (.inr (.inl hx)), fun heq => hfr (heq ▸ hx)⟩
    refine ⟨?_, ?_, hrest.move hnr (fun x hx => ?_) (fun x hx _ => hparent x (hmr x hx).1)
      fun d x hx => hchild d x (hmr x hx).1 fun hh => (hmr x hx).2 hh.2, fun d x hx => ?_, ?_⟩
    · rw [hparent _ (mem_outside_cons.2 (.inl rfl)), hup]
    · rw [hchild _ _ (mem_outside_cons.2 (.inl rfl)) fun hh => Side.other_ne _ hh.1, hother]
    · have hmem := hmr x (mem_inorder_of_rootOf hx)
      rw [hparent x hmem.1, hrest.parent_eq hx]
    · have hmem := hmp x (isHole_mem_outside hx)
      rw [hchild d x hmem.1 fun hh => hmem.2 hh.2, hhole d x hx]
    · exact ih hp hnp (fun x hx => hparent x (hmp x hx).1) fun d x hx _ =>
        hchild d x (hmp x hx).1 fun hh => (hmp x hx).2 hh.2

/-- **A memory holds a tree at the end of a way.** -/
structure Holds (s : Links α) (t : BinaryTree α) (p : List (Frame α)) : Prop where
  linked : ∀ x, rootOf t = some x → s.Linked (upper p x) t
  hole : ∀ d x, IsHole p d x → s.child d x = rootOf t
  above : s.Above p
  nodup : (inorder t).Nodup
  nodup_outside : (outside p).Nodup
  disjoint : ∀ x ∈ inorder t, x ∉ outside p

theorem Holds.parent_cons {f : Frame α}
    (h : s.Holds t (f :: p)) (hx : rootOf t = some x) : s.parent x = f.elem :=
  (h.linked x hx).parent_eq hx

theorem Holds.not_mem_outside (h : s.Holds t p) (hx : rootOf t = some x) : x ∉ outside p :=
  h.disjoint x (mem_inorder_of_rootOf hx)

/-- A memory holds a node with two subtrees. -/
theorem holds_branch :
    s.Holds (branch d x a b) p ↔
      (s.parent x = upper p x ∧ s.child d x = rootOf a ∧ s.child d.other x = rootOf b ∧
        s.Linked x a ∧ s.Linked x b) ∧
      (∀ e y, IsHole p e y → s.child e y = some x) ∧ s.Above p ∧
      (x ∉ inorder a ∧ x ∉ inorder b ∧ (∀ y ∈ inorder a, y ∉ inorder b) ∧
        (inorder a).Nodup ∧ (inorder b).Nodup) ∧
      (outside p).Nodup ∧ x ∉ outside p ∧ (∀ y ∈ inorder a, y ∉ outside p) ∧
      ∀ y ∈ inorder b, y ∉ outside p := by
  constructor
  · intro h
    refine ⟨linked_branch.1 (h.linked x (rootOf_branch d x a b)), fun e y hy => ?_, h.above,
      nodup_inorder_branch.1 h.nodup, h.nodup_outside, ?_, ?_, ?_⟩
    · rw [h.hole e y hy, rootOf_branch]
    · exact h.disjoint x (mem_inorder_branch.2 (.inl rfl))
    · exact fun y hy => h.disjoint y (mem_inorder_branch.2 (.inr (.inl hy)))
    · exact fun y hy => h.disjoint y (mem_inorder_branch.2 (.inr (.inr hy)))
  · rintro ⟨hlinked, hhole, habove, hnodup, hout, hx, ha, hb⟩
    refine ⟨fun y hy => ?_, fun e y hy => ?_, habove, nodup_inorder_branch.2 hnodup, hout,
      fun y hy => ?_⟩
    · rw [rootOf_branch, Option.some_inj] at hy
      subst hy
      exact linked_branch.2 hlinked
    · rw [hhole e y hy, rootOf_branch]
    · rcases mem_inorder_branch.1 hy with rfl | hy | hy
      exacts [hx, ha y hy, hb y hy]

/-- **Going down a side.** -/
theorem holds_of_iff : s.Holds a (.of d x b :: p) ↔ s.Holds (branch d x a b) p := by
  rw [holds_branch]
  constructor
  · intro h
    have habove := h.above
    rw [Above, elem_of, side_of, rest_of] at habove
    obtain ⟨hup, hother, hrest, hhole, hp⟩ := habove
    have hnodup := h.nodup_outside
    rw [nodup_outside_cons, elem_of, rest_of] at hnodup
    obtain ⟨hxb, hxp, hbp, hnb, hnp⟩ := hnodup
    have hdisj : ∀ y ∈ inorder a, y ≠ x ∧ y ∉ inorder b ∧ y ∉ outside p := fun y hy => by
      have hy' := h.disjoint y hy
      rw [mem_outside_cons, elem_of, rest_of, not_or, not_or] at hy'
      exact hy'
    have hlinked : s.Linked x a := by
      cases ha : rootOf a with
      | none =>
        rw [rootOf_eq_none.1 ha]
        trivial
      | some y =>
        have hl := h.linked y ha
        rwa [upper_cons, elem_of] at hl
    refine ⟨⟨hup, ?_, hother, hlinked, hrest⟩, hhole, hp,
      ⟨fun hx => (hdisj x hx).1 rfl, hxb, fun y hy => (hdisj y hy).2.1, h.nodup, hnb⟩, hnp, hxp,
      fun y hy => (hdisj y hy).2.2, hbp⟩
    exact h.hole d x ⟨(side_of d x b).symm, (elem_of d x b).symm⟩
  · rintro ⟨⟨hup, hchild, hother, hla, hlb⟩, hhole, hp, ⟨hxa, hxb, hab, hna, hnb⟩, hnp, hxp, hap,
      hbp⟩
    refine ⟨fun y hy => ?_, fun e y hy => ?_, ?_, hna, ?_, fun y hy => ?_⟩
    · rwa [upper_cons, elem_of]
    · rw [isHole_cons, side_of, elem_of] at hy
      rw [hy.1, hy.2, hchild]
    · rw [Above, elem_of, side_of, rest_of]
      exact ⟨hup, hother, hlb, hhole, hp⟩
    · rw [nodup_outside_cons, elem_of, rest_of]
      exact ⟨hxb, hxp, hbp, hnb, hnp⟩
    · rw [mem_outside_cons, elem_of, rest_of, not_or, not_or]
      exact ⟨fun heq => hxa (heq ▸ hy), hab y hy, hap y hy⟩

/-- A tree at the end of a way is the tree with the subtree plugged in. -/
theorem holds_plug : s.Holds (plug t p) [] ↔ s.Holds t p := by
  induction p generalizing t with
  | nil => rfl
  | cons f p ih => rw [plug, ih, ← holds_of_iff, of_eq]

theorem linked_map (σ : α → α) {p : α} (h : s.Linked p t)
    (hparent : ∀ x ∈ inorder t, s'.parent (σ x) = σ (s.parent x))
    (hchild : ∀ d, ∀ x ∈ inorder t, s'.child d (σ x) = (s.child d x).map σ) :
    s'.Linked (σ p) (t.map σ) := by
  induction t generalizing p with
  | nil => trivial
  | node x l r ihl ihr =>
    obtain ⟨hp, hl, hr, hll, hlr⟩ := h
    refine ⟨?_, ?_, ?_, ?_, ?_⟩
    · rw [hparent x (by simp), hp]
    · rw [hchild .left x (by simp), hl, rootOf_map]
    · rw [hchild .right x (by simp), hr, rootOf_map]
    · exact ihl hll (fun y hy => hparent y (by simp [hy])) fun d y hy => hchild d y (by simp [hy])
    · exact ihr hlr (fun y hy => hparent y (by simp [hy])) fun d y hy => hchild d y (by simp [hy])

/-- **Renaming the nodes of a tree** by a permutation of the addresses. -/
theorem Holds.rename (σ : Equiv.Perm α) (h : s.Holds t [])
    (hparent : ∀ x ∈ inorder t, s'.parent (σ x) = σ (s.parent x))
    (hchild : ∀ d, ∀ x ∈ inorder t, s'.child d (σ x) = (s.child d x).map σ) :
    s'.Holds (t.map σ) [] := by
  refine ⟨fun x hx => ?_, by simp, trivial, ?_, by simp [outside], by simp⟩
  · rw [rootOf_map, Option.map_eq_some_iff] at hx
    obtain ⟨y, hy, rfl⟩ := hx
    exact linked_map σ (h.linked y hy) hparent hchild
  · rw [inorder_map]
    exact h.nodup.map σ.injective

/-! ### The pointers of a tree, one by one -/

/-- What the pointers of the nodes of a tree are to each other. -/
structure Consistent (s : Links α) (nodes : List α) : Prop where
  child_mem : ∀ {d x c}, x ∈ nodes → s.child d x = some c → c ∈ nodes ∧ s.parent c = x ∧ c ≠ x
  apart : ∀ {x c}, x ∈ nodes → s.child .left x = some c → s.child .right x ≠ some c
  parent_mem : ∀ {x}, x ∈ nodes → s.parent x ≠ x →
    s.parent x ∈ nodes ∧ ∃ d, s.child d (s.parent x) = some x
  root : ∀ {x y}, x ∈ nodes → y ∈ nodes → s.parent x = x → s.parent y = y → x = y
  acyclic : ∀ {x y}, x ∈ nodes → s.parent x = y → s.parent y = x → x = y

/-- A parent pointer that leads to the node itself is that of the root. -/
theorem Holds.eq_nil_of_parent (h : s.Holds t p)
    (hx : rootOf t = some x) (hparent : s.parent x = x) : p = [] := by
  cases p with
  | nil => rfl
  | cons f p =>
    refine absurd (mem_outside_cons.2 (.inl ?_)) (h.not_mem_outside hx)
    rw [← h.parent_cons hx, hparent]

/-- **The pointers of a tree are consistent.** -/
theorem Holds.consistent (h : s.Holds t []) : s.Consistent (inorder t) := by
  have hat : ∀ (d : Side) {x}, x ∈ inorder t →
      ∃ a b p, s.Holds (branch d x a b) p ∧ plug (branch d x a b) p = t := fun d {x} hx => by
    obtain ⟨l, r, p, rfl⟩ := exists_plug_eq hx
    obtain ⟨a, b, hab⟩ := exists_branch d (rootOf_node x l r)
    rw [hab] at h ⊢
    exact ⟨a, b, p, holds_plug.1 h, rfl⟩
  have hmem : ∀ {u : BinaryTree α} {p : List (Frame α)} {y : α},
      y ∈ inorder (plug u p) ↔ y ∈ inorder u ∨ y ∈ outside p := fun {u p y} => by
    simp only [inorder_plug, outside, mem_append]
    tauto
  refine ⟨fun {d x c} hx hc => ?_, fun {x c} hx hl hr => ?_, fun {x} hx hne => ?_,
    fun {x y} hx hy hpx hpy => ?_, fun {x y} hx hxy hyx => ?_⟩
  · obtain ⟨a, b, p, hs, rfl⟩ := hat d hx
    obtain ⟨⟨-, hchild, -, hla, -⟩, -, -, ⟨hxa, -⟩, -⟩ := holds_branch.1 hs
    rw [hchild] at hc
    have hca := mem_inorder_of_rootOf hc
    refine ⟨hmem.2 (.inl (mem_inorder_branch.2 (.inr (.inl hca)))), hla.parent_eq hc, ?_⟩
    rintro rfl
    exact hxa hca
  · obtain ⟨a, b, p, hs, rfl⟩ := hat .left hx
    obtain ⟨⟨-, hcl, hcr, -⟩, -, -, ⟨-, -, hab, -⟩, -⟩ := holds_branch.1 hs
    rw [hcl] at hl
    rw [Side.other_left, hr] at hcr
    exact hab c (mem_inorder_of_rootOf hl) (mem_inorder_of_rootOf hcr.symm)
  · obtain ⟨a, b, p, hs, rfl⟩ := hat .left hx
    rcases p with - | ⟨f, p⟩
    · exact absurd ((hs.linked x (rootOf_branch _ _ _ _)).parent_eq (rootOf_branch _ _ _ _)) hne
    · rw [hs.parent_cons (rootOf_branch _ _ _ _)]
      refine ⟨hmem.2 (.inr (mem_outside_cons.2 (.inl rfl))), f.side, ?_⟩
      rw [hs.hole f.side f.elem ⟨rfl, rfl⟩, rootOf_branch]
  · obtain ⟨a, b, p, hs, heq⟩ := hat .left hx
    obtain ⟨a', b', p', hs', heq'⟩ := hat .left hy
    obtain rfl := hs.eq_nil_of_parent (rootOf_branch _ _ _ _) hpx
    obtain rfl := hs'.eq_nil_of_parent (rootOf_branch _ _ _ _) hpy
    have hroot := congrArg rootOf (heq.trans heq'.symm)
    exact Option.some_inj.1 (by simpa only [plug, rootOf_branch] using hroot)
  · obtain ⟨a, b, p, hs, rfl⟩ := hat .left hx
    rcases p with - | ⟨f, p⟩
    · rw [← hxy]
      exact ((hs.linked x (rootOf_branch _ _ _ _)).parent_eq (rootOf_branch _ _ _ _)).symm
    · -- the parent of the parent lies further up
      have hy : f.elem = y := (hs.parent_cons (rootOf_branch _ _ _ _)).symm.trans hxy
      have hup : s.Holds (branch f.side f.elem (branch .left x a b) f.rest) p := by
        rwa [← holds_of_iff, of_eq]
      rcases p with - | ⟨g, p⟩
      · rw [← hyx, ← hy]
        exact (hup.linked f.elem (rootOf_branch _ _ _ _)).parent_eq (rootOf_branch _ _ _ _)
      · have hg := hup.parent_cons (rootOf_branch _ _ _ _)
        rw [hy, hyx] at hg
        refine absurd (mem_outside_cons.2 (.inl hg)) (hup.disjoint x ?_)
        exact mem_inorder_branch.2 (.inr (.inl (mem_inorder_branch.2 (.inl rfl))))

end Links

end Windivs

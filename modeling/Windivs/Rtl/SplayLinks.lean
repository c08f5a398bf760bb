import Windivs.Lib.Loop
import Windivs.Lib.LinkedTree

/-!
# Splay trees of the run-time library

`RtlSplay` over the pointers of `RTL_SPLAY_LINKS`. The loop brings a node to the root, two levels
at a time: the parent `P` and the grandparent `G` go below the node `N`, two subtrees get a new
parent, and whoever referenced `G` references `N` afterwards.

The six cases of the source are kept as they are written, left and right. What each of them does
to every pointer is one of three descriptions, `Windivs.Links.ZigZig`, `Windivs.Links.ZigZag` and
`Windivs.Links.Zig`, taken with a side; what becomes of the tree is proved from the description.
-/

namespace Windivs

open Side

namespace Links

variable {α : Type} [DecidableEq α] {s s' : Links α}

/-! ### The macros -/

/-- `RtlIsRoot`. -/
def isRoot (s : Links α) (x : α) : Bool := s.parent x = x

/-- `RtlIsLeftChild` and `RtlIsRightChild`. -/
def isChild (s : Links α) (d : Side) (x : α) : Bool := s.child d (s.parent x) = some x

/-- `RtlInsertAsLeftChild` and `RtlInsertAsRightChild`. -/
def insertAsChild (s : Links α) (d : Side) (parent child : α) : Links α :=
  (s.setChild d parent (some child)).setParent child parent

/-! ### RtlSplay -/

/-- `N` takes the place of `G`: it gets the parent of `G`, whose reference to `G` is changed. -/
def takePlace (s : Links α) (g n : α) : Links α :=
  if s.isRoot g then s.setParent n n
  else
    let s := s.setParent n (s.parent g)
    if s.isChild .left g then s.setChild .left (s.parent g) (some n)
    else s.setChild .right (s.parent g) (some n)

/-- Case 1: `N` is the left child of `P` and `P` is the left child of `G`. -/
def splayCase1 (s : Links α) (n p g : α) : Links α :=
  let s := s.setChild .left p (s.child .right n)
  let s := s.setChild .left g (s.child .right p)
  let s := s.adopt (s.child .left p) p
  let s := s.adopt (s.child .left g) g
  let s := s.takePlace g n
  let s := s.setChild .right n (some p)
  let s := s.setParent p n
  let s := s.setChild .right p (some g)
  s.setParent g p

/-- Case 2: `N` is the right child of `P` and `P` is the right child of `G`. -/
def splayCase2 (s : Links α) (n p g : α) : Links α :=
  let s := s.setChild .right g (s.child .left p)
  let s := s.setChild .right p (s.child .left n)
  let s := s.adopt (s.child .right g) g
  let s := s.adopt (s.child .right p) p
  let s := s.takePlace g n
  let s := s.setChild .left n (some p)
  let s := s.setParent p n
  let s := s.setChild .left p (some g)
  s.setParent g p

/-- Case 3: `N` is the left child of `P` and `P` is the right child of `G`. -/
def splayCase3 (s : Links α) (n p g : α) : Links α :=
  let s := s.setChild .right g (s.child .left n)
  let s := s.setChild .left p (s.child .right n)
  let s := s.adopt (s.child .right g) g
  let s := s.adopt (s.child .left p) p
  let s := s.takePlace g n
  let s := s.setChild .left n (some g)
  let s := s.setParent g n
  let s := s.setChild .right n (some p)
  s.setParent p n

/-- Case 4: `N` is the right child of `P` and `P` is the left child of `G`. -/
def splayCase4 (s : Links α) (n p g : α) : Links α :=
  let s := s.setChild .right p (s.child .left n)
  let s := s.setChild .left g (s.child .right n)
  let s := s.adopt (s.child .right p) p
  let s := s.adopt (s.child .left g) g
  let s := s.takePlace g n
  let s := s.setChild .left n (some p)
  let s := s.setParent g n
  let s := s.setChild .right n (some g)
  s.setParent p n

/-- The "Finally" case: `P` is the root, and `N` its left child. -/
def splayFinallyLeft (s : Links α) (n p : α) : Links α :=
  let s := s.setChild .left p (s.child .right n)
  let s := s.adopt (s.child .left p) p
  let s := s.setParent n n
  let s := s.setChild .right n (some p)
  s.setParent p n

/-- The "Finally" case: `P` is the root, and `N` its right child. -/
def splayFinallyRight (s : Links α) (n p : α) : Links α :=
  let s := s.setChild .right p (s.child .left n)
  let s := s.adopt (s.child .right p) p
  let s := s.setParent n n
  let s := s.setChild .left n (some p)
  s.setParent p n

/-- One turn of the loop of `RtlSplay`. -/
def splayTurn (n : α) (s : Links α) : Turn (Links α) (Run (Links α)) :=
  if s.isRoot n then .leave (.ok s)
  else
    let p := s.parent n
    let g := s.parent p
    .again <|
      if s.isChild .left n then
        if s.isChild .left p then s.splayCase1 n p g
        else if s.isChild .right p then s.splayCase3 n p g
        else s.splayFinallyLeft n p
      else
        if s.isChild .right p then s.splayCase2 n p g
        else if s.isChild .left p then s.splayCase4 n p g
        else s.splayFinallyRight n p

/-- `RtlSplay`, with so many turns at most. -/
def rtlSplay (budget : ℕ) (s : Links α) (links : α) : Run (Links α × α) := do
  let s ← runLoop (splayTurn links) budget s
  assert (s.isRoot links)
  return (s, links)

/-! ### What the cases do to the pointers -/

/-- The pointers after a step with `N` and `P` on the same side. -/
structure ZigZig (d : Side) (s s' : Links α) (n p g : α) (rest : List (Frame α)) : Prop where
  parent : ∀ y, s'.parent y =
    if y = n then upper rest n else if y = p then n else if y = g then p
    else if s.child d.other p = some y then g else if s.child d.other n = some y then p
    else s.parent y
  child : ∀ e y, s'.child e y =
    if y = n then (if e = d then s.child d n else some p)
    else if y = p then (if e = d then s.child d.other n else some g)
    else if y = g then (if e = d then s.child d.other p else s.child e g)
    else if IsHole rest e y then some n else s.child e y

/-- The pointers after a step with `N` on the side `d` of `P`, and `P` on the other one of `G`. -/
structure ZigZag (d : Side) (s s' : Links α) (n p g : α) (rest : List (Frame α)) : Prop where
  parent : ∀ y, s'.parent y =
    if y = n then upper rest n else if y = p then n else if y = g then n
    else if s.child d n = some y then g else if s.child d.other n = some y then p
    else s.parent y
  child : ∀ e y, s'.child e y =
    if y = n then (if e = d then some g else some p)
    else if y = p then (if e = d then s.child d.other n else s.child e p)
    else if y = g then (if e = d then s.child d g else s.child d n)
    else if IsHole rest e y then some n else s.child e y

/-- The pointers after a step with the root as the parent. -/
structure Zig (d : Side) (s s' : Links α) (n p : α) : Prop where
  parent : ∀ y, s'.parent y =
    if y = n then n else if y = p then n
    else if s.child d.other n = some y then p else s.parent y
  child : ∀ e y, s'.child e y =
    if y = n then (if e = d then s.child d n else some p)
    else if y = p then (if e = d then s.child d.other n else s.child e p)
    else s.child e y

/-- The pointers after a rotation that brings `n`, on the side `d` of `p`, into the place of
`p`. -/
structure Promoted (d : Side) (s s' : Links α) (n p : α) (rest : List (Frame α)) : Prop where
  parent : ∀ y, s'.parent y =
    if y = n then upper rest n else if y = p then n
    else if s.child d.other n = some y then p else s.parent y
  child : ∀ e y, s'.child e y =
    if y = n then (if e = d then s.child d n else some p)
    else if y = p then (if e = d then s.child d.other n else s.child e p)
    else if IsHole rest e y then some n else s.child e y

/-- `N` in the place of `G`. -/
theorem takePlace_eq (s : Links α) {n g : α} (rest : List (Frame α)) (hng : n ≠ g)
    (hparent : s.parent g = upper rest g)
    (hhole : ∀ e y, IsHole rest e y → y ≠ g ∧ s.child e y = some g ∧ s.child e.other y ≠ some g) :
    (∀ y, (s.takePlace g n).parent y = if y = n then upper rest n else s.parent y) ∧
      ∀ e y, (s.takePlace g n).child e y = if IsHole rest e y then some n else s.child e y := by
  rcases rest with - | ⟨f, rest⟩
  · simp [takePlace, isRoot, hparent]
  · obtain ⟨hfg, hchild, hother⟩ := hhole f.side f.elem ⟨rfl, rfl⟩
    cases hside : f.side with
    | left =>
      rw [hside] at hchild
      simp [takePlace, isRoot, isChild, hparent, hfg, hng.symm, hchild, hside]
    | right =>
      rw [hside, other_right] at hother
      simp [takePlace, isRoot, isChild, hparent, hfg, hng.symm, hother, hside]

section Cases

variable {n p g : α} {A B C D : BinaryTree α} {rest : List (Frame α)}

/-- What the nodes of a step with `N`, `P` and `G` are to each other. -/
structure StepNodes (s : Links α) (n p g : α) (rest : List (Frame α)) : Prop where
  n_ne_p : n ≠ p
  n_ne_g : n ≠ g
  p_ne_g : p ≠ g
  parent : s.parent g = upper rest g
  hole : ∀ e y, IsHole rest e y →
    y ≠ n ∧ y ≠ p ∧ y ≠ g ∧ s.child e y = some g ∧ s.child e.other y ≠ some g
  child_n : ∀ e, s.child e n ≠ some g
  child_p : ∀ e, s.child e p ≠ some g
  apart : ∀ e e' y, s.child e n = some y → s.child e' p ≠ some y
  apart_n : ∀ y, s.child .left n = some y → s.child .right n ≠ some y

section

variable (h : StepNodes s n p g rest)
include h

theorem zigZig_splayCase1 : ZigZig .left s (s.splayCase1 n p g) n p g rest := by
  obtain ⟨hnp, hng, hpg, hparent, hhole, hcn, hcp, hapart, hapart'⟩ := h
  rw [splayCase1]
  simp only [child_setChild, child_adopt, hpg, hpg.symm, and_true, and_false, if_true, if_false,
    reduceCtorEq]
  obtain ⟨hpar, hchi⟩ := takePlace_eq ((((s.setChild .left p (s.child .right n)).setChild
    .left g (s.child .right p)).adopt (s.child .right n) p).adopt (s.child .right p) g)
    rest hng (by grind) (by grind)
  generalize takePlace _ g n = T at *
  refine ⟨fun y => ?_, fun e y => ?_⟩
  · simp only [parent_setParent, parent_setChild, hpar, parent_adopt, other_left]
    grind
  · simp only [child_setParent, child_setChild, hchi, child_adopt, other_left]
    cases e <;> grind

theorem zigZig_splayCase2 : ZigZig .right s (s.splayCase2 n p g) n p g rest := by
  obtain ⟨hnp, hng, hpg, hparent, hhole, hcn, hcp, hapart, hapart'⟩ := h
  rw [splayCase2]
  simp only [child_setChild, child_adopt, hng, hpg, hpg.symm, and_true, and_false, if_true, if_false,
    reduceCtorEq]
  obtain ⟨hpar, hchi⟩ := takePlace_eq ((((s.setChild .right g (s.child .left p)).setChild
    .right p (s.child .left n)).adopt (s.child .left p) g).adopt (s.child .left n) p)
    rest hng (by grind) (by grind)
  generalize takePlace _ g n = T at *
  refine ⟨fun y => ?_, fun e y => ?_⟩
  · simp only [parent_setParent, parent_setChild, hpar, parent_adopt, other_right]
    grind
  · simp only [child_setParent, child_setChild, hchi, child_adopt, other_right]
    cases e <;> grind

theorem zigZag_splayCase3 : ZigZag .left s (s.splayCase3 n p g) n p g rest := by
  obtain ⟨hnp, hng, hpg, hparent, hhole, hcn, hcp, hapart, hapart'⟩ := h
  rw [splayCase3]
  simp only [child_setChild, child_adopt, hng, hpg, hpg.symm, and_true, and_false, if_true, if_false,
    reduceCtorEq]
  obtain ⟨hpar, hchi⟩ := takePlace_eq ((((s.setChild .right g (s.child .left n)).setChild
    .left p (s.child .right n)).adopt (s.child .left n) g).adopt (s.child .right n) p)
    rest hng (by grind) (by grind)
  generalize takePlace _ g n = T at *
  refine ⟨fun y => ?_, fun e y => ?_⟩
  · simp only [parent_setParent, parent_setChild, hpar, parent_adopt, other_left]
    grind
  · simp only [child_setParent, child_setChild, hchi, child_adopt, other_left]
    cases e <;> grind

theorem zigZag_splayCase4 : ZigZag .right s (s.splayCase4 n p g) n p g rest := by
  obtain ⟨hnp, hng, hpg, hparent, hhole, hcn, hcp, hapart, hapart'⟩ := h
  rw [splayCase4]
  simp only [child_setChild, child_adopt, hnp, hpg, hpg.symm, and_true, and_false, if_true, if_false,
    reduceCtorEq]
  obtain ⟨hpar, hchi⟩ := takePlace_eq ((((s.setChild .right p (s.child .left n)).setChild
    .left g (s.child .right n)).adopt (s.child .left n) p).adopt (s.child .right n) g)
    rest hng (by grind) (by grind)
  generalize takePlace _ g n = T at *
  refine ⟨fun y => ?_, fun e y => ?_⟩
  · simp only [parent_setParent, parent_setChild, hpar, parent_adopt, other_right]
    grind
  · simp only [child_setParent, child_setChild, hchi, child_adopt, other_right]
    cases e <;> grind

end

theorem zig_splayFinallyLeft (hnp : n ≠ p) : Zig .left s (s.splayFinallyLeft n p) n p := by
  refine ⟨fun y => ?_, fun e y => ?_⟩
  · simp only [splayFinallyLeft, parent_setParent, parent_setChild, parent_adopt, child_setChild,
      other_left]
    grind
  · simp only [splayFinallyLeft, child_setParent, child_setChild, child_adopt, other_left]
    cases e <;> grind

theorem zig_splayFinallyRight (hnp : n ≠ p) : Zig .right s (s.splayFinallyRight n p) n p := by
  refine ⟨fun y => ?_, fun e y => ?_⟩
  · simp only [splayFinallyRight, parent_setParent, parent_setChild, parent_adopt, child_setChild,
      other_right]
    grind
  · simp only [splayFinallyRight, child_setParent, child_setChild, child_adopt, other_right]
    cases e <;> grind

omit [DecidableEq α] in
theorem Holds.stepNodes {d e f : Side}
    (h : s.Holds (branch d g (branch e p (branch f n A B) C) D) rest) : StepNodes s n p g rest := by
  rw [holds_branch] at h
  simp only [linked_branch, nodup_inorder_branch, mem_inorder_branch, rootOf_branch, not_or, or_imp,
    forall_and, forall_eq] at h
  obtain ⟨⟨hg, hgd, hgo, ⟨hp, hpe, hpo, ⟨hn, hnf, hno, -, -⟩, -⟩, -⟩, hhole, habove, hnodup, -,
    hout⟩ := h
  refine ⟨by grind, by grind, by grind, hg, fun e' y hy => ?_, fun e' => ?_, fun e' => ?_,
    fun e' e'' y => ?_, fun y => ?_⟩
  · have hother := habove.child_other_ne hy hout.1
    grind
  · rcases eq_or_eq_other f e' with rfl | rfl <;> grind
  · rcases eq_or_eq_other e e' with rfl | rfl <;> grind
  · rcases eq_or_eq_other f e' with rfl | rfl <;>
      rcases eq_or_eq_other e e'' with rfl | rfl <;> grind
  · cases f <;> grind

theorem ZigZig.holds {d : Side} (h : ZigZig d s s' n p g rest)
    (hs : s.Holds (branch d g (branch d p (branch d n A B) C) D) rest) :
    s'.Holds (branch d n A (branch d p B (branch d g C D))) rest := by
  obtain ⟨hparent, hchild⟩ := h
  rw [holds_branch] at hs ⊢
  simp only [linked_branch, nodup_inorder_branch, mem_inorder_branch, rootOf_branch, not_or, or_imp,
    forall_and, forall_eq] at hs ⊢
  obtain ⟨⟨hg, hgd, hgo, ⟨hp, hpd, hpo, ⟨hn, hnd, hno, hA, hB⟩, hC⟩, hD⟩, hhole, habove, hnodup,
    hout, hdisj⟩ := hs
  have hA' : s'.Linked n A := hA.move (by grind) (by grind) (by grind) (by grind)
  have hB' : s'.Linked p B := hB.move (by grind) (by grind) (by grind) (by grind)
  have hC' : s'.Linked g C := hC.move (by grind) (by grind) (by grind) (by grind)
  have hD' : s'.Linked g D := hD.move (by grind) (by grind) (by grind) (by grind)
  have habove' : s'.Above rest := habove.move hout (by grind) (by grind)
  and_intros <;> grind

theorem ZigZag.holds {d : Side} (h : ZigZag d s s' n p g rest)
    (hs : s.Holds (branch d.other g (branch d p (branch d n A B) C) D) rest) :
    s'.Holds (branch d n (branch d g D A) (branch d p B C)) rest := by
  obtain ⟨hparent, hchild⟩ := h
  rw [holds_branch] at hs ⊢
  simp only [linked_branch, nodup_inorder_branch, mem_inorder_branch, rootOf_branch, not_or, or_imp,
    forall_and, forall_eq, other_other] at hs ⊢
  obtain ⟨⟨hg, hgd, hgo, ⟨hp, hpd, hpo, ⟨hn, hnd, hno, hA, hB⟩, hC⟩, hD⟩, hhole, habove, hnodup,
    hout, hdisj⟩ := hs
  have hA' : s'.Linked g A := hA.move (by grind) (by grind) (by grind) (by grind)
  have hB' : s'.Linked p B := hB.move (by grind) (by grind) (by grind) (by grind)
  have hC' : s'.Linked p C := hC.move (by grind) (by grind) (by grind) (by grind)
  have hD' : s'.Linked g D := hD.move (by grind) (by grind) (by grind) (by grind)
  have habove' : s'.Above rest := habove.move hout (by grind) (by grind)
  and_intros <;> grind

theorem Promoted.holds {d : Side} (h : Promoted d s s' n p rest)
    (hs : s.Holds (branch d p (branch d n A B) C) rest) :
    s'.Holds (branch d n A (branch d p B C)) rest := by
  obtain ⟨hparent, hchild⟩ := h
  rw [holds_branch] at hs ⊢
  simp only [linked_branch, nodup_inorder_branch, mem_inorder_branch, rootOf_branch, not_or, or_imp,
    forall_and, forall_eq] at hs ⊢
  obtain ⟨⟨hp, hpd, hpo, ⟨hn, hnd, hno, hA, hB⟩, hC⟩, hhole, habove, hnodup, hout, hdisj⟩ := hs
  have hA' : s'.Linked n A := hA.move (by grind) (by grind) (by grind) (by grind)
  have hB' : s'.Linked p B := hB.move (by grind) (by grind) (by grind) (by grind)
  have hC' : s'.Linked p C := hC.move (by grind) (by grind) (by grind) (by grind)
  have habove' : s'.Above rest := habove.move hout (by grind) (by grind)
  and_intros <;> grind

/-- At the root this is a rotation. -/
theorem Zig.holds {d : Side} (h : Zig d s s' n p)
    (hs : s.Holds (branch d p (branch d n A B) C) []) :
    s'.Holds (branch d n A (branch d p B C)) [] := by
  have hpromoted : Promoted d s s' n p [] :=
    ⟨h.parent, fun e y => by simpa using h.child e y⟩
  exact hpromoted.holds hs

end Cases

/-! ### The loop -/

section Turns

variable {x : α} {t : BinaryTree α} {f : Frame α} {way : List (Frame α)} {l r : BinaryTree α}

theorem Holds.isRoot_nil (h : s.Holds t []) (hx : rootOf t = some x) : s.isRoot x = true :=
  decide_eq_true ((h.linked x hx).parent_eq hx)

theorem Holds.isRoot_cons (h : s.Holds t (f :: way)) (hx : rootOf t = some x) :
    s.isRoot x = false := by
  refine decide_eq_false fun heq => h.not_mem_outside hx ?_
  rw [h.parent_cons hx] at heq
  exact mem_outside_cons.2 (.inl heq.symm)

/-- The root is nobody's child, not even its own. -/
theorem Holds.isChild_nil (h : s.Holds t []) (hx : rootOf t = some x) (d : Side) :
    s.isChild d x = false := by
  obtain ⟨a, b, rfl⟩ := exists_branch d hx
  obtain ⟨⟨hparent, hchild, -⟩, -, -, ⟨hxa, -⟩, -⟩ := holds_branch.1 h
  refine decide_eq_false fun heq => hxa ?_
  rw [hparent, upper_nil, hchild] at heq
  exact mem_inorder_of_rootOf heq

/-- Another node is the child of its parent on one side only. -/
theorem Holds.isChild_cons (h : s.Holds t (f :: way)) (hx : rootOf t = some x) (d : Side) :
    s.isChild d x = decide (d = f.side) := by
  rw [isChild, h.parent_cons hx]
  have hhole : IsHole (f :: way) f.side f.elem := ⟨rfl, rfl⟩
  rcases eq_or_eq_other f.side d with rfl | rfl
  · simp [h.hole _ _ hhole, hx]
  · simp [h.above.child_other_ne hhole (h.not_mem_outside hx)]

/-- **A turn of the loop** brings the node up, as splaying the tree does. -/
theorem Holds.splayTurn_again (h : s.Holds (.node x l r) (f :: way)) :
    ∃ s' l' r' way', splayTurn x s = .again s' ∧ s'.Holds (.node x l' r') way' ∧
      splay x l' r' way' = splay x l r (f :: way) ∧ way'.length ≤ way.length := by
  have hp : s.parent x = f.elem := h.parent_cons rfl
  rcases way with - | ⟨g, rest⟩
  · have h' : s.Holds (branch f.side f.elem (.node x l r) f.rest) [] := by
      rwa [← holds_of_iff, Frame.of_eq]
    have hne : x ≠ f.elem := fun heq => (holds_branch.1 h').2.2.2.1.1 (by simp [heq])
    have hchild : ∀ d, s.isChild d f.elem = false := h'.isChild_nil (rootOf_branch _ _ _ _)
    have hturn : splayTurn x s = .again
        (if f.side = .left then s.splayFinallyLeft x f.elem
        else s.splayFinallyRight x f.elem) := by
      cases hf : f.side <;>
        simp [splayTurn, h.isRoot_cons rfl, h.isChild_cons rfl, hp, hchild, hf]
    rw [hturn]
    cases f with
    | left p C => exact ⟨_, _, _, [], rfl, (zig_splayFinallyLeft hne).holds h', rfl, le_rfl⟩
    | right p C => exact ⟨_, _, _, [], rfl, (zig_splayFinallyRight hne).holds h', rfl, le_rfl⟩
  · have h₂ : s.Holds (branch f.side f.elem (.node x l r) f.rest) (g :: rest) := by
      rwa [← holds_of_iff, Frame.of_eq]
    have h3 : s.Holds (branch g.side g.elem (branch f.side f.elem (.node x l r) f.rest) g.rest)
        rest := by
      rwa [← holds_of_iff, Frame.of_eq]
    have hnodes : StepNodes s x f.elem g.elem rest := h3.stepNodes (f := .left)
    have hg : s.parent f.elem = g.elem := h₂.parent_cons (rootOf_branch _ _ _ _)
    have hturn : splayTurn x s = .again
        (if f.side = .left then
          if g.side = .left then s.splayCase1 x f.elem g.elem else s.splayCase3 x f.elem g.elem
        else
          if g.side = .left then s.splayCase4 x f.elem g.elem
          else s.splayCase2 x f.elem g.elem) := by
      cases hf : f.side <;> cases hgs : g.side <;>
        simp [splayTurn, h.isRoot_cons rfl, h.isChild_cons rfl, hp, hg,
          h₂.isChild_cons (rootOf_branch _ _ _ _), hf, hgs]
    rw [hturn]
    cases f with
    | left p C =>
      cases g with
      | left g D => exact ⟨_, _, _, rest, rfl, (zigZig_splayCase1 hnodes).holds h3, rfl, by simp⟩
      | right g D => exact ⟨_, _, _, rest, rfl, (zigZag_splayCase3 hnodes).holds h3, rfl, by simp⟩
    | right p C =>
      cases g with
      | left g D => exact ⟨_, _, _, rest, rfl, (zigZag_splayCase4 hnodes).holds h3, rfl, by simp⟩
      | right g D => exact ⟨_, _, _, rest, rfl, (zigZig_splayCase2 hnodes).holds h3, rfl, by simp⟩

/-- The loop splays the tree. -/
theorem Holds.runLoop_splayTurn {budget : ℕ} (h : s.Holds (.node x l r) way)
    (hbudget : way.length < budget) :
    ∃ s', runLoop (splayTurn x) budget s = .ok s' ∧ s'.Holds (splay x l r way) [] := by
  induction budget generalizing s l r way with
  | zero => omega
  | succ n ih =>
    rcases way with - | ⟨f, way⟩
    · refine ⟨s, runLoop_leave n ?_, h⟩
      rw [splayTurn, if_pos (h.isRoot_nil rfl)]
    · obtain ⟨s', l', r', way', hturn, hs', hsplay, hle⟩ := h.splayTurn_again
      rw [runLoop_again n hturn, ← hsplay]
      rw [List.length_cons] at hbudget
      exact ih hs' (by omega)

/-- **`RtlSplay` splays the tree**, given a turn for every level and one to leave. -/
theorem Holds.rtlSplay_eq (h : s.Holds (.node x l r) way) :
    ∃ s', (∀ budget, way.length < budget → rtlSplay budget s x = .ok (s', x)) ∧
      s'.Holds (splay x l r way) [] := by
  obtain ⟨s', hrun, hs'⟩ := h.runLoop_splayTurn (Nat.lt_succ_self way.length)
  obtain ⟨l', r', heq, -⟩ := splay_eq x l r way
  have hroot : s'.isRoot x = true := hs'.isRoot_nil (by rw [heq, rootOf_node])
  refine ⟨s', fun budget hbudget => ?_, hs'⟩
  rw [rtlSplay, runLoop_mono hrun hbudget]
  show (assert (s'.isRoot x = true) >>= fun _ => _) = _
  rw [assert_of hroot]
  rfl

end Turns

/-- **`RtlSplay` keeps the sequence.** From a node of a tree it returns, and the node is then the
root of a tree with the same nodes in the same order. -/
theorem rtlSplay_inorder {t : BinaryTree α} (h : s.Holds t []) {x : α} (hx : x ∈ inorder t) :
    ∃ s' t', (∀ budget, (inorder t).length ≤ budget → rtlSplay budget s x = .ok (s', x)) ∧
      s'.Holds t' [] ∧ rootOf t' = some x ∧ inorder t' = inorder t := by
  obtain ⟨l, r, way, rfl⟩ := exists_plug_eq hx
  obtain ⟨s', hrun, hs'⟩ := (holds_plug.1 h).rtlSplay_eq
  obtain ⟨l', r', heq, -⟩ := splay_eq x l r way
  refine ⟨s', splay x l r way, fun budget hbudget => hrun budget ?_, hs', ?_, ?_⟩
  · have hlength := length_lt_length_inorder_plug (rootOf_node x l r) way
    omega
  · rw [heq, rootOf_node]
  · rw [inorder_splay, inorder_plug, inorder_node]

/-- A memory with three nodes, each the left child of the next. -/
def threeNodes : Links (Fin 3) where
  parent := ![1, 2, 2]
  child
    | .left => ![none, some 0, some 1]
    | .right => ![none, none, none]

theorem holds_threeNodes :
    threeNodes.Holds (.node 2 (.node 1 (.node 0 .nil .nil) .nil) .nil) [] := by
  refine (holds_branch (d := .left)).2 ?_
  simp [Linked, threeNodes, outside]

/-- The lowest of three nodes. -/
theorem rtlSplay_inorder_threeNodes :
    ∃ s' t', (∀ budget, 3 ≤ budget → rtlSplay budget threeNodes 0 = .ok (s', 0)) ∧
      s'.Holds t' [] ∧ rootOf t' = some 0 ∧ inorder t' = [0, 1, 2] :=
  rtlSplay_inorder holds_threeNodes (by decide)

end Links

end Windivs

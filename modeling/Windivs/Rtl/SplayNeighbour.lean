import Windivs.Rtl.SplayDelete

/-!
# The neighbours of a node

`RtlRealPredecessor` and `RtlRealSuccessor`: the node before and the node after a given one, in
the order of the whole tree. The two routines are mirror images. On the side the neighbour lies on,
a node with a child there has it at the far end of the subtree; a node without one has it up the
tree, where the way first comes from the other side.
-/

namespace Windivs

/-- The element of a list at the end of the given side. -/
def Side.outermost {α : Type*} : Side → List α → Option α
  | .left, l => l.head?
  | .right, l => l.getLast?

/-- The nodes on one side of a subtree, outside of it. -/
def flank {α : Type*} : Side → List (Frame α) → List α
  | .left, p => before p
  | .right, p => after p

/-- The nodes on one side of a node: in its subtree there, and outside. -/
def beyond {α : Type*} : Side → BinaryTree α → List (Frame α) → List α
  | .left, a, p => before p ++ inorder a
  | .right, a, p => inorder a ++ after p

namespace Links

variable {α : Type} {s : Links α} {x : α} {t a c : BinaryTree α} {way : List (Frame α)} {d : Side}
  {l r : BinaryTree α} {q : List (Frame α)}

/-! ### The routines -/

section Routines

variable [DecidableEq α]

/-- Go up to the first node that is not the child of its parent on the given side. -/
def climb (budget : ℕ) (s : Links α) (d : Side) (child : α) : Run α :=
  runLoop
    (fun child => if s.isChild d child then .again (s.parent child) else .leave (.ok child))
    budget child

/-- The neighbour of a node on the given side. -/
def rtlRealNeighbour (d : Side) (budget : ℕ) (s : Links α) (links : α) : Run (Option α) :=
  match s.child d links with
  | some child => do
    let child ← s.lastChild budget d.other child
    return some child
  | none => do
    let child ← s.climb budget d links
    if s.isChild d.other child then return some (s.parent child) else return none

/-- `RtlRealPredecessor`. -/
def rtlRealPredecessor : ℕ → Links α → α → Run (Option α) := rtlRealNeighbour .left

/-- `RtlRealSuccessor`. -/
def rtlRealSuccessor : ℕ → Links α → α → Run (Option α) := rtlRealNeighbour .right

end Routines

/-! ### The end of a subtree -/

/-- **The last child on a side** is a node without a child there, and what the tree has at its end
on that side. -/
theorem Holds.lastChild_eq (d : Side) (h : s.Holds t way) (hx : rootOf t = some x) :
    ∃ y m q, (∀ budget, (inorder t).length ≤ budget → s.lastChild budget d x = .ok y) ∧
      plug (branch d y .nil m) q = t ∧ ∀ f ∈ q, f.side = d := by
  -- by the number of nodes, since it depends on the side which subtree to go down to
  induction hn : (inorder t).length using Nat.strong_induction_on generalizing t way x with
  | _ n ih =>
    obtain ⟨a, c, rfl⟩ := exists_branch d hx
    have hchild := (holds_branch.1 h).1.2.1
    have hlength : (inorder (branch d x a c)).length =
        (inorder a).length + (inorder c).length + 1 := by
      cases d <;> simp [branch] <;> omega
    cases ha : rootOf a with
    | none =>
      rw [ha] at hchild
      refine ⟨x, c, [], fun budget hb => ?_, by rw [plug, rootOf_eq_none.1 ha], by simp⟩
      obtain ⟨k, rfl⟩ : ∃ k, budget = k + 1 := ⟨budget - 1, by omega⟩
      exact runLoop_leave k (by simp [hchild])
    | some z =>
      rw [ha] at hchild
      obtain ⟨y, m, q, hlast, hplug, hsides⟩ := ih _ (by omega) (holds_of_iff.2 h) ha rfl
      refine ⟨y, m, q ++ [.of d x c], fun budget hb => ?_, ?_, fun f hf => ?_⟩
      · obtain ⟨k, rfl⟩ : ∃ k, budget = k + 1 := ⟨budget - 1, by omega⟩
        rw [← hlast k (by omega)]
        exact runLoop_again k (by simp [hchild])
      · rw [plug_append, hplug, plug, plug, Frame.side_of, Frame.elem_of, Frame.rest_of]
      · rcases List.mem_append.1 hf with hf | hf
        · exact hsides f hf
        · rw [List.mem_singleton.1 hf, Frame.side_of]

/-- A way that goes along one side has nothing beyond it on that side. -/
theorem flank_eq_nil (h : ∀ f ∈ q, f.side = d) : flank d q = [] := by
  induction q with
  | nil => cases d <;> rfl
  | cons f q ih =>
    have hq := ih fun g hg => h g (List.mem_cons_of_mem f hg)
    have hf := h f List.mem_cons_self
    cases f <;> cases hf <;> exact hq

theorem outermost_inorder_plug {y : α} {m : BinaryTree α}
    (h : ∀ f ∈ q, f.side = d) : d.outermost (inorder (plug (branch d y .nil m) q)) = some y := by
  have hq := flank_eq_nil h
  cases d with
  | left =>
    rw [flank] at hq
    simp [Side.outermost, hq, branch]
  | right =>
    rw [flank] at hq
    simp [Side.outermost, hq, branch]

/-! ### Going up -/

variable [DecidableEq α]

/-- **The way up** ends below the nearest node outside the subtree on the given side. -/
theorem Holds.climb_eq (d : Side) {budget : ℕ} (h : s.Holds t way) (hx : rootOf t = some x)
    (hbudget : way.length < budget) :
    ∃ y, s.climb budget d x = .ok y ∧
      (if s.isChild d.other y then some (s.parent y) else none) =
        d.other.outermost (flank d way) := by
  induction budget generalizing t way x with
  | zero => omega
  | succ k ih =>
    rcases way with - | ⟨f, way⟩
    · refine ⟨x, runLoop_leave k (by simp [h.isChild_nil hx]), ?_⟩
      rw [h.isChild_nil hx]
      cases d <;> rfl
    · rcases Side.eq_or_eq_other d f.side with hf | hf
      · have hup : s.Holds (branch f.side f.elem t f.rest) way := by
          rwa [← holds_of_iff, Frame.of_eq]
        obtain ⟨y, hy, heq⟩ := ih hup (rootOf_branch _ _ _ _) (by simpa using hbudget)
        refine ⟨y, ?_, heq.trans ?_⟩
        · rw [← hy]
          refine runLoop_again k ?_
          rw [if_pos (by rw [h.isChild_cons hx, hf]; simp), h.parent_cons hx]
        · cases f <;> cases hf <;> rfl
      · refine ⟨x, runLoop_leave k ?_, ?_⟩
        · rw [if_neg (by rw [h.isChild_cons hx, hf]; simp [(Side.other_ne d).symm])]
        · rw [h.isChild_cons hx, hf, h.parent_cons hx]
          cases d with
          | left =>
            cases f with
            | left y r => cases hf
            | right y l => simp [Side.outermost, flank, Frame.elem]
          | right =>
            cases f with
            | left y r => simp [Side.outermost, flank, Frame.elem]
            | right y l => cases hf

/-- **The neighbour of a node** is the nearest of the nodes on its side. -/
theorem Holds.rtlRealNeighbour_eq {budget : ℕ} (h : s.Holds (branch d x a c) way)
    (hbudget : (inorder (plug (branch d x a c) way)).length ≤ budget) :
    rtlRealNeighbour d budget s x = .ok (d.other.outermost (beyond d a way)) := by
  have hway := length_lt_length_inorder_plug (rootOf_branch d x a c) way
  have hchild := (holds_branch.1 h).1.2.1
  have happend : d.other.outermost (beyond d a way) =
      (d.other.outermost (inorder a)).or (d.other.outermost (flank d way)) := by
    cases d with
    | left => exact List.getLast?_append
    | right => exact List.head?_append
  rw [rtlRealNeighbour, hchild, happend]
  cases ha : rootOf a with
  | none =>
    obtain ⟨y, hy, heq⟩ := h.climb_eq d (rootOf_branch _ _ _ _) (hway.trans_le hbudget)
    rw [rootOf_eq_none.1 ha, inorder_nil, ← heq]
    rw [hy]
    have hempty : d.other.outermost ([] : List α) = none := by cases d <;> rfl
    rw [hempty]
    show (if s.isChild d.other y = true then _ else _) = _
    split <;> rfl
  | some z =>
    obtain ⟨y, m, q, hlast, hplug, hsides⟩ := (holds_of_iff.2 h).lastChild_eq d.other ha
    have hlength : (inorder a).length ≤ budget := by
      refine le_trans ?_ hbudget
      cases d <;> simp [branch] <;> omega
    show (s.lastChild budget d.other z >>= fun child => _) = _
    rw [hlast budget hlength, ← hplug, outermost_inorder_plug hsides]
    rfl

/-- **`RtlRealPredecessor`** of a node. -/
theorem Holds.rtlRealPredecessor_eq {budget : ℕ}
    (h : s.Holds (.node x l r) way) (hbudget : (inorder (plug (.node x l r) way)).length ≤ budget) :
    rtlRealPredecessor budget s x = .ok (before way ++ inorder l).getLast? :=
  Holds.rtlRealNeighbour_eq (d := .left) h hbudget

/-- **`RtlRealSuccessor`** of a node. -/
theorem Holds.rtlRealSuccessor_eq {budget : ℕ} (h : s.Holds (.node x l r) way)
    (hbudget : (inorder (plug (.node x l r) way)).length ≤ budget) :
    rtlRealSuccessor budget s x = .ok (inorder r ++ after way).head? :=
  Holds.rtlRealNeighbour_eq (d := .right) h hbudget

end Links

end Windivs

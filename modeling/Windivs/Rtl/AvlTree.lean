import Windivs.Lib.BalancedTree
import Windivs.Rtl.SplayNeighbour

/-!
# AVL trees of the run-time library

The nodes of an AVL table have the pointers of a splay tree and a balance: −1, 0 or 1, for a node
that is higher on the left, even, or higher on the right. Above the tree stands a node of the table
itself, `BalancedRoot`. It is its own parent, and the tree is its right child.

Insertion and removal both change one subtree by a level and go up from there, setting balances,
until a node makes up for the level or a rotation does. The balance of `BalancedRoot` is set
beforehand so that the loop stops there at the latest, and tells whether it has.

The routines are here, and what a rotation and `RtlpRebalanceAvlTreeNode` do to a tree; the loops
are the subject of `Windivs.Rtl.AvlUpdate`.
-/

namespace Windivs

/-- `RTL_BALANCED_LINKS` of all nodes: the pointers, and `Balance`. -/
structure BalancedLinks (α : Type) extends Links α where
  balance : α → ℤ

/-- `RtlLeftHeavyAvlTree`. -/
def rtlLeftHeavyAvlTree : ℤ := -1

/-- `RtlBalancedAvlTree`. -/
def rtlBalancedAvlTree : ℤ := 0

/-- `RtlRightHeavyAvlTree`. -/
def rtlRightHeavyAvlTree : ℤ := 1

variable {α : Type} [DecidableEq α]

/-! ### Rotations -/

/-- `RtlpPromoteAvlTreeNode`. -/
def Links.rtlpPromoteAvlTreeNode (s : Links α) (node : α) : Links α :=
  let parentNode := s.parent node
  let superParentNode := s.parent parentNode
  let d : Side := if s.isChild .left node then .left else .right
  let s := s.setChild d parentNode (s.child d.other node)
  let s := s.adopt (s.child d parentNode) parentNode
  let s := s.setChild d.other node (some parentNode)
  let s := s.setParent parentNode node
  let e : Side := if s.child .left superParentNode = some parentNode then .left else .right
  let s := s.setChild e superParentNode (some node)
  s.setParent node superParentNode

namespace BalancedLinks

/-- `RtlSetBalance`. -/
def setBalance (s : BalancedLinks α) (node : α) (balance : ℤ) : BalancedLinks α :=
  { s with balance := fun y => if y = node then balance else s.balance y }

/-- `RtlpPromoteAvlTreeNode`, which leaves the balances alone. -/
def promote (s : BalancedLinks α) (node : α) : BalancedLinks α :=
  { s with toLinks := s.toLinks.rtlpPromoteAvlTreeNode node }

/-- `RtlpRebalanceAvlTreeNode`. -/
def rtlpRebalanceAvlTreeNode (s : BalancedLinks α) (node : α) : Run (BalancedLinks α × Bool) := do
  assert (s.parent node ≠ node)
  let balance := s.balance node
  let d : Side := if balance = rtlRightHeavyAvlTree then .right else .left
  match s.child d node with
  | none => .error .accessViolation
  | some childNode =>
    if s.balance childNode = balance then
      let s := s.promote childNode
      let s := s.setBalance childNode rtlBalancedAvlTree
      return (s.setBalance node rtlBalancedAvlTree, false)
    else if s.balance childNode = -balance then
      match s.child d.other childNode with
      | none => .error .accessViolation
      | some subChildNode =>
        let s := s.promote subChildNode
        let s := s.promote subChildNode
        let s :=
          if s.balance subChildNode = balance then
            (s.setBalance childNode rtlBalancedAvlTree).setBalance node (-balance)
          else if s.balance subChildNode = -balance then
            (s.setBalance childNode balance).setBalance node rtlBalancedAvlTree
          else (s.setBalance childNode rtlBalancedAvlTree).setBalance node rtlBalancedAvlTree
        return (s.setBalance subChildNode rtlBalancedAvlTree, false)
    else
      let s := s.promote childNode
      return (s.setBalance childNode (-balance), true)

end BalancedLinks

/-! ### Tables -/

/-- `RTL_AVL_TABLE`, with the memory of the nodes. -/
structure RtlAvlTable (α β : Type) extends BalancedLinks α where
  /-- The address of `BalancedRoot`. -/
  balancedRoot : α
  userData : α → β
  depthOfTree : ℕ
  numberGenericTableElements : ℕ
  deleteCount : ℕ
  whichOrderedElement : ℕ
  orderedPointer : Option α
  restartKey : Option α

/-- `TABLE_SEARCH_RESULT`, with what is returned in `NodeOrParent`. -/
inductive TableSearchResult (α : Type) where
  | tableEmptyTree
  | tableFoundNode (node : α)
  /-- `TableInsertAsLeft` and `TableInsertAsRight`. -/
  | tableInsertAs (d : Side) (parent : α)
  deriving DecidableEq, Repr

namespace RtlAvlTable

variable {β : Type}

/-- The table with its nodes changed. -/
def withLinks (t : RtlAvlTable α β) (s : BalancedLinks α) : RtlAvlTable α β :=
  { t with toBalancedLinks := s }

/-! ### Insertion -/

/-- One turn of the loop of `RtlpInsertAvlTreeNode`, with `NewNode` and `NodeOrParent`. -/
def insertTurn : RtlAvlTable α β × α × α →
    Turn (RtlAvlTable α β × α × α) (Run (RtlAvlTable α β))
  | (t, newNode, nodeOrParent) =>
    let balance := if t.isChild .left newNode then rtlLeftHeavyAvlTree else rtlRightHeavyAvlTree
    if t.balance nodeOrParent = rtlBalancedAvlTree then
      let t := t.withLinks (t.setBalance nodeOrParent balance)
      .again (t, nodeOrParent, t.parent nodeOrParent)
    else if t.balance nodeOrParent ≠ balance then
      let t := t.withLinks (t.setBalance nodeOrParent rtlBalancedAvlTree)
      .leave (.ok (if t.balance t.balancedRoot = rtlBalancedAvlTree
        then { t with depthOfTree := t.depthOfTree + 1 } else t))
    else
      .leave do
        let (s, _) ← t.rtlpRebalanceAvlTreeNode nodeOrParent
        return t.withLinks s

/-- The part of `RtlpInsertAvlTreeNode` for a tree that is not empty. -/
def insertBelow (budget : ℕ) (t : RtlAvlTable α β) (newNode : α) (d : Side) (parent : α) :
    Run (RtlAvlTable α β) :=
  let t := t.withLinks { t.toBalancedLinks with toLinks := t.insertAsChild d parent newNode }
  let t := t.withLinks (t.setBalance t.balancedRoot rtlLeftHeavyAvlTree)
  runLoop insertTurn budget (t, newNode, parent)

/-- `RtlpInsertAvlTreeNode`. A result `TableFoundNode` would take the branch of
`TableInsertAsRight`. -/
def rtlpInsertAvlTreeNode (budget : ℕ) (t : RtlAvlTable α β) (newNode : α)
    (searchResult : TableSearchResult α) : Run (RtlAvlTable α β) :=
  let s := (t.setChild .right newNode none).setChild .left newNode none
  let t := t.withLinks (BalancedLinks.setBalance ⟨s, t.balance⟩ newNode rtlBalancedAvlTree)
  let t := { t with numberGenericTableElements := t.numberGenericTableElements + 1 }
  match searchResult with
  | .tableEmptyTree => do
    let t := t.withLinks { t.toBalancedLinks with
      toLinks := t.insertAsChild .right t.balancedRoot newNode }
    assert (t.depthOfTree = 0)
    return { t with depthOfTree := 1 }
  | .tableInsertAs d parent => t.insertBelow budget newNode d parent
  | .tableFoundNode parent => t.insertBelow budget newNode .right parent

/-! ### Removal -/

/-- The end of a turn of the loop of `RtlpDeleteAvlTreeNode`: the next `ParentNode` and
`Balance`. -/
def iterateUp (t : RtlAvlTable α β) (parentNode : α) : RtlAvlTable α β × α × ℤ :=
  (t, t.parent parentNode,
    if t.isChild .right parentNode then rtlRightHeavyAvlTree else rtlLeftHeavyAvlTree)

/-- One turn of the loop of `RtlpDeleteAvlTreeNode`, with `ParentNode` and `Balance`. -/
def deleteTurn : RtlAvlTable α β × α × ℤ →
    Turn (RtlAvlTable α β × α × ℤ) (Run (RtlAvlTable α β))
  | (t, parentNode, balance) =>
    if t.balance parentNode = balance then
      let t := t.withLinks (t.setBalance parentNode rtlBalancedAvlTree)
      .again (t.iterateUp parentNode)
    else if t.balance parentNode = rtlBalancedAvlTree then
      let t := t.withLinks (t.setBalance parentNode (-balance))
      .leave (.ok (if t.balance t.balancedRoot ≠ rtlBalancedAvlTree
        then { t with depthOfTree := t.depthOfTree - 1 } else t))
    else
      match t.rtlpRebalanceAvlTreeNode parentNode with
      | .error e => .leave (.error e)
      | .ok (s, true) => .leave (.ok (t.withLinks s))
      | .ok (s, false) => .again ((t.withLinks s).iterateUp (s.parent parentNode))

/-- The node to take out: the one to be deleted, or its neighbour on the higher side. -/
def chooseDeleteNode (budget : ℕ) (t : RtlAvlTable α β) (node : α) : Run α :=
  match t.child .left node, t.child .right node with
  | some left, some right =>
    if rtlBalancedAvlTree ≤ t.balance node then t.lastChild budget .left right
    else t.lastChild budget .right left
  | _, _ => .ok node

/-- The node that was taken out is put in the place of the one to be deleted: `RtlpCopyAvlNodeData`
and what follows it. -/
def replaceNode (s : BalancedLinks α) (deleteNode node : α) : BalancedLinks α :=
  let l := s.setLinks deleteNode (s.parent node) (s.child .left node) (s.child .right node)
  let balance := (s.setBalance deleteNode (s.balance node)).balance
  let l :=
    if l.isChild .left node then l.setChild .left (l.parent deleteNode) (some deleteNode)
    else l.setChild .right (l.parent deleteNode) (some deleteNode)
  let l := l.adopt (l.child .left deleteNode) deleteNode
  let l := l.adopt (l.child .right deleteNode) deleteNode
  ⟨l, balance⟩

/-- The middle of `RtlpDeleteAvlTreeNode`: a node with one child at most is taken out, and the loop
goes up. -/
def unlinkNode (budget : ℕ) (t : RtlAvlTable α β) (deleteNode : α) : Run (RtlAvlTable α β) :=
  let parentNode := t.parent deleteNode
  let child :=
    if (t.child .left deleteNode).isSome then t.child .left deleteNode
    else t.child .right deleteNode
  let balance :=
    if t.isChild .left deleteNode then rtlLeftHeavyAvlTree else rtlRightHeavyAvlTree
  let s := (t.replaceReference deleteNode child).adopt child parentNode
  let t := t.withLinks (BalancedLinks.setBalance ⟨s, t.balance⟩ t.balancedRoot rtlBalancedAvlTree)
  runLoop deleteTurn budget (t, parentNode, balance)

/-- `RtlpDeleteAvlTreeNode`. -/
def rtlpDeleteAvlTreeNode (budget : ℕ) (t : RtlAvlTable α β) (node : α) :
    Run (RtlAvlTable α β) := do
  let deleteNode ← t.chooseDeleteNode budget node
  let t ← t.unlinkNode budget deleteNode
  if node = deleteNode then return t
  else return t.withLinks (replaceNode t.toBalancedLinks deleteNode node)

end RtlAvlTable

/-! ### What a rotation does -/

namespace Links

variable {s s' : Links α} {d : Side} {p n : α} {A B C : BinaryTree α} {f : Frame α}
  {rest : List (Frame α)}

theorem Holds.promoted (h : s.Holds (branch d p (branch d n A B) C) (f :: rest)) :
    Promoted d s (s.rtlpPromoteAvlTreeNode n) n p (f :: rest) := by
  have hdown := holds_of_iff.2 h
  have hside : (if s.isChild .left n then Side.left else Side.right) = d := by
    rw [hdown.isChild_cons (rootOf_branch _ _ _ _), Frame.side_of]
    cases d <;> rfl
  have hparent : s.parent n = p := by
    rw [hdown.parent_cons (rootOf_branch _ _ _ _), Frame.elem_of]
  have hsuper : s.parent p = f.elem := h.parent_cons (rootOf_branch _ _ _ _)
  have hhole : s.child f.side f.elem = some p := by
    rw [h.hole f.side f.elem ⟨rfl, rfl⟩, rootOf_branch]
  have hother := h.above.child_other_ne ⟨rfl, rfl⟩ (h.not_mem_outside (rootOf_branch _ _ _ _))
  have hfp : f.elem ≠ p := fun heq => h.not_mem_outside (rootOf_branch _ _ _ _)
    (mem_outside_cons.2 (.inl heq.symm))
  have hfn : f.elem ≠ n := fun heq => h.disjoint n (by simp [mem_inorder_branch])
    (mem_outside_cons.2 (.inl heq.symm))
  have hnp : n ≠ p := by
    rintro rfl
    exact (holds_branch.1 h).2.2.2.1.1 (by simp [mem_inorder_branch])
  rw [rtlpPromoteAvlTreeNode, hside, hparent, hsuper]
  simp only [child_setParent, child_setChild, child_adopt, hfp, hfn, and_false, if_false, if_true,
    and_true]
  -- the place of `p` below its parent
  have hplace : (if s.child .left f.elem = some p then Side.left else Side.right) = f.side := by
    cases hf : f.side <;> rw [hf] at hhole hother
    · exact if_pos hhole
    · exact if_neg hother
  rw [hplace]
  refine ⟨fun y => ?_, fun e y => ?_⟩
  · simp only [parent_setParent, parent_setChild, parent_adopt, upper_cons]
  · simp only [child_setParent, child_setChild, child_adopt, isHole_cons]
    rcases Side.eq_or_eq_other d e with rfl | rfl <;> grind

/-- **A rotation** brings a node above its parent. -/
theorem Holds.rtlpPromoteAvlTreeNode (h : s.Holds (branch d p (branch d n A B) C) (f :: rest)) :
    (s.rtlpPromoteAvlTreeNode n).Holds (branch d n A (branch d p B C)) (f :: rest) :=
  h.promoted.holds h

omit [DecidableEq α] in
theorem Holds.parent_inner {e : Side} {x y : α} {a b c : BinaryTree α}
    (h : s.Holds (branch d y a (branch e x b c)) rest) : s.parent x = y :=
  (holds_branch.1 h).1.2.2.2.2.parent_eq (rootOf_branch _ _ _ _)

end Links

/-! ### Rebalancing -/

namespace BalancedLinks

variable {s : BalancedLinks α} {d : Side} {x : α} {u C : BinaryTree α} {f : Frame α}
  {rest : List (Frame α)}

@[simp] theorem balance_setBalance (s : BalancedLinks α) (x y : α) (v : ℤ) :
    (s.setBalance x v).balance y = if y = x then v else s.balance y := rfl

theorem setBalance_eq_self {v : ℤ} (h : s.balance x = v) : s.setBalance x v = s := by
  rw [setBalance]
  congr
  funext y
  split
  · next hy => rw [hy, h]
  · rfl

@[simp] theorem balance_promote (s : BalancedLinks α) (x : α) :
    (s.promote x).balance = s.balance := rfl

/-- A subtree has been balanced again: it has a known height and the same nodes in the same order,
and no other node has got another balance. -/
structure Rebalanced (s s' : BalancedLinks α) (t t' : BinaryTree α) (height : ℕ)
    (way : List (Frame α)) : Prop where
  holds : s'.Holds t' way
  balanced : Balanced s'.balance t'
  height_eq : t'.height = height
  inorder : inorder t' = inorder t
  frame : ∀ y ∉ Windivs.inorder t, s'.balance y = s.balance y

/-- The turn to the side of the higher child. -/
theorem side_of_sign (d : Side) :
    (if d.sign = rtlRightHeavyAvlTree then Side.right else Side.left) = d := by
  cases d <;> rfl

section Cases

variable {y z : α} {A B D : BinaryTree α}

/-- **The single rotation** of `RtlpRebalanceAvlTreeNode`, with the balances it leaves. -/
theorem rebalanced_single {v w : ℤ} {height : ℕ} (h : s.Holds (branch d x (branch d y A B) C) (f :: rest))
    (hbalanced : ∀ b' : α → ℤ, b' y = v → b' x = w → (∀ a ∈ inorder A, b' a = s.balance a) →
      (∀ a ∈ inorder B, b' a = s.balance a) → (∀ a ∈ inorder C, b' a = s.balance a) →
      Balanced b' (branch d y A (branch d x B C)) ∧
        (branch d y A (branch d x B C)).height = height) :
    Rebalanced s (((s.promote y).setBalance y v).setBalance x w)
      (branch d x (branch d y A B) C) (branch d y A (branch d x B C)) height (f :: rest) := by
  have hnodup := nodup_inorder_branch.1 h.nodup
  simp only [nodup_inorder_branch] at hnodup
  obtain ⟨hb, hheight⟩ := hbalanced (((s.promote y).setBalance y v).setBalance x w).balance
    (by simp only [balance_setBalance]; grind) (by simp)
    (by simp only [balance_setBalance, balance_promote]; grind)
    (by simp only [balance_setBalance, balance_promote]; grind)
    (by simp only [balance_setBalance, balance_promote]; grind)
  refine ⟨h.rtlpPromoteAvlTreeNode, hb, hheight, ?_, fun a ha => ?_⟩
  · cases d <;> simp [branch]
  · simp only [mem_inorder_branch] at ha
    simp only [balance_setBalance, balance_promote]
    grind

/-- **The double rotation** of `RtlpRebalanceAvlTreeNode`, with the balances it leaves. -/
theorem rebalanced_double {s' : BalancedLinks α} {v w : ℤ} {height : ℕ}
    (h : s.Holds (branch d x (branch d y A (branch d z B D)) C) (f :: rest))
    (hlinks : s'.toLinks = ((s.promote z).promote z).toLinks) (hbalance : ∀ a, s'.balance a =
      if a = z then 0 else if a = x then w else if a = y then v else s.balance a)
    (hbalanced : ∀ b' : α → ℤ, b' z = 0 → b' y = v → b' x = w →
      (∀ a ∈ inorder A, b' a = s.balance a) → (∀ a ∈ inorder B, b' a = s.balance a) →
      (∀ a ∈ inorder D, b' a = s.balance a) → (∀ a ∈ inorder C, b' a = s.balance a) →
      Balanced b' (branch d z (branch d y A B) (branch d x D C)) ∧
        (branch d z (branch d y A B) (branch d x D C)).height = height) :
    Rebalanced s s' (branch d x (branch d y A (branch d z B D)) C)
      (branch d z (branch d y A B) (branch d x D C)) height (f :: rest) := by
  have hnodup := nodup_inorder_branch.1 h.nodup
  simp only [nodup_inorder_branch, mem_inorder_branch, not_or] at hnodup
  -- the first rotation takes place one step further down, towards the other side
  have h₁ : s.Holds (branch d.other y (branch d.other z D B) A) (.of d x C :: f :: rest) := by
    rw [Links.holds_of_iff, branch_other, branch_other]
    exact h
  have h₂ := Links.holds_of_iff.1 h₁.rtlpPromoteAvlTreeNode
  rw [branch_other, branch_other] at h₂
  obtain ⟨hb, hheight⟩ := hbalanced s'.balance (by simp [hbalance]) (by grind) (by grind)
    (by grind) (by grind) (by grind) (by grind)
  refine ⟨?_, hb, hheight, ?_, fun a ha => ?_⟩
  · rw [hlinks]
    exact h₂.rtlpPromoteAvlTreeNode
  · cases d <;> simp [branch]
  · simp only [mem_inorder_branch, not_or] at ha
    grind

end Cases

/-- **`RtlpRebalanceAvlTreeNode`** balances a node with a subtree `u` that is two levels higher
than the other, `C`. The tree is as high as before only if the root of `u` was even. -/
theorem rtlpRebalanceAvlTreeNode_eq (h : s.Holds (branch d x u C) (f :: rest))
    (hx : s.balance x = d.sign) (hu : Balanced s.balance u) (hC : Balanced s.balance C)
    (hheight : u.height = C.height + 2) :
    ∃ s' t' kept, s.rtlpRebalanceAvlTreeNode x = .ok (s', kept) ∧
      Rebalanced s s' (branch d x u C) t' (C.height + if kept then 3 else 2) (f :: rest) ∧
      (kept = false → rootOf t' = some (s'.parent x)) ∧
      (kept = true → ∀ y, rootOf u = some y → s.balance y = 0) := by
  obtain ⟨y, hy⟩ : ∃ y, rootOf u = some y := by
    cases u with
    | nil => simp [BinaryTree.height] at hheight
    | node y l r => exact ⟨y, rfl⟩
  obtain ⟨A, B, rfl⟩ := exists_branch d hy
  have hparent : s.parent x ≠ x := fun heq =>
    List.cons_ne_nil _ _ (h.eq_nil_of_parent (rootOf_branch _ _ _ _) heq)
  have hchild : s.child d x = some y := by
    rw [(Links.holds_branch.1 h).1.2.1, rootOf_branch]
  have hne : -d.sign ≠ d.sign := by cases d <;> decide
  rw [rtlpRebalanceAvlTreeNode, assert_bind hparent]
  dsimp only
  rw [hx, side_of_sign, hchild]
  dsimp only
  rcases note_cases (balanced_branch.1 hu).1 with ⟨heven, -⟩ | ⟨hsame, -⟩ | ⟨hopp, hB⟩
  · rw [if_neg (by rw [heven]; exact d.sign_ne_zero.symm),
      if_neg (by rw [heven]; exact (neg_ne_zero.2 d.sign_ne_zero).symm)]
    have hre := rebalanced_single h fun b' hby hbx => balanced_single hu hC hheight (.inr heven)
      (by rw [hby, heven, zero_sub]) (by rw [hbx, heven, sub_zero])
    rw [if_pos heven] at hre
    -- the balance of the node stays as it is
    have hxy : x ≠ y := by
      rintro rfl
      exact (Links.holds_branch.1 h).2.2.2.1.1 (by simp [mem_inorder_branch])
    rw [setBalance_eq_self (by simp [hxy, hx])] at hre
    refine ⟨_, _, true, rfl, hre, by simp, fun _ w hw => ?_⟩
    rw [rootOf_branch, Option.some_inj] at hw
    rwa [← hw]
  · rw [if_pos hsame]
    have hre := rebalanced_single h fun b' hby hbx => balanced_single hu hC hheight (.inl hsame)
      (by rw [hby, hsame, sub_self]) (by rw [hbx, hsame, sub_self])
    rw [hsame, if_neg d.sign_ne_zero] at hre
    refine ⟨_, _, false, rfl, hre, fun _ => ?_, by simp⟩
    rw [rootOf_branch]
    exact congrArg some hre.holds.parent_inner.symm
  · rw [if_neg (by rw [hopp]; exact hne), if_pos hopp]
    obtain ⟨z, hz⟩ : ∃ z, rootOf B = some z := by
      cases B with
      | nil => simp [BinaryTree.height] at hB
      | node z l r => exact ⟨z, rfl⟩
    obtain ⟨B, D, rfl⟩ := exists_branch d hz
    have hchild' : s.child d.other y = some z := by
      have hdown := (Links.holds_branch.1 (Links.holds_of_iff.2 h)).1.2.2.1
      rw [hdown, rootOf_branch]
    rw [hchild']
    dsimp only
    rw [balance_promote, balance_promote]
    obtain ⟨s', hs'⟩ : ∃ s', s' = BalancedLinks.setBalance (if s.balance z = d.sign then
        (((s.promote z).promote z).setBalance y rtlBalancedAvlTree).setBalance x (-d.sign)
      else if s.balance z = -d.sign then
        (((s.promote z).promote z).setBalance y d.sign).setBalance x rtlBalancedAvlTree
      else (((s.promote z).promote z).setBalance y rtlBalancedAvlTree).setBalance x
        rtlBalancedAvlTree) z rtlBalancedAvlTree := ⟨_, rfl⟩
    have hlinks : s'.toLinks = ((s.promote z).promote z).toLinks := by
      rw [hs']
      split_ifs <;> rfl
    have hre := rebalanced_double h hlinks
      (fun a => by
        rw [hs', balance_setBalance]
        split_ifs <;> simp_all [rtlBalancedAvlTree])
      fun b' hbz hby hbx hA' hB' hD' hC' =>
        balanced_double hu hC hheight hopp hbz hby hbx hA' hB' hD' hC'
    refine ⟨s', _, false, by rw [hs']; rfl, hre, fun _ => ?_, by simp⟩
    rw [rootOf_branch]
    exact congrArg some hre.holds.parent_inner.symm

end BalancedLinks

end Windivs

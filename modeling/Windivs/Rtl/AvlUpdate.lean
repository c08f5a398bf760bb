import Windivs.Rtl.AvlTree

/-!
# Insertion and removal in an AVL tree

The loops of `RtlpInsertAvlTreeNode` and `RtlpDeleteAvlTreeNode` go up from a subtree that has
gained or lost a level. Below them the tree is balanced; above, the balances are still those for
the old height, `Windivs.BalancedAbove`. Each turn moves one node from the second part to the
first, by induction along the way.

The main results are `Windivs.RtlAvlTable.rtlpInsertAvlTreeNode_eq` and
`Windivs.RtlAvlTable.rtlpDeleteAvlTreeNode_eq`: the tree is balanced afterwards, `DepthOfTree` is
its height, and its nodes are those it had, in their order, with one more or one less.
-/

namespace Windivs

open List Links

variable {α : Type} [DecidableEq α]

/-! ### Going up -/

/-- The nodes below `root` are a balanced tree. -/
structure IsAvl (s : BalancedLinks α) (root : α) (T : BinaryTree α) : Prop where
  holds : s.Holds T [.right root .nil]
  balanced : Balanced s.balance T

omit [DecidableEq α] in
theorem Links.holds_plug_append {s : Links α} {t : BinaryTree α} {p q : List (Frame α)} :
    s.Holds (plug t p) q ↔ s.Holds t (p ++ q) := by
  rw [← holds_plug, ← plug_append, holds_plug]

namespace RtlAvlTable

variable {β : Type} {t : RtlAvlTable α β} {T c : BinaryTree α} {n : α} {f : Frame α}
  {q : List (Frame α)} {h budget : ℕ} {A B L : List α} {g : Frame α} {r : List (Frame α)}
  {s : BalancedLinks α} {x z : α}

/-- What both loops come to: the links have become those of a balanced tree, and the depth its
height. -/
def Settles (t : RtlAvlTable α β) (nodes : List α) (r : Run (RtlAvlTable α β)) : Prop :=
  ∃ s T, r = .ok { t with toBalancedLinks := s, depthOfTree := T.height } ∧
    IsAvl s t.balancedRoot T ∧ inorder T = nodes

omit [DecidableEq α] in
/-- A tree that has grown or shrunk to the height it had is what a loop can stop at. -/
theorem settles_of_plug {t : RtlAvlTable α β} {s : BalancedLinks α} {T₁ : BinaryTree α}
    (hs : s.Holds T₁ (q ++ [.right t.balancedRoot .nil])) (hb : Balanced s.balance T₁)
    (hq : BalancedAbove s.balance T₁.height q) (hdepth : t.depthOfTree = rise T₁.height q) :
    Settles t (inorder (plug T₁ q)) (.ok (t.withLinks s)) := by
  refine ⟨s, plug T₁ q, ?_, ⟨holds_plug_append.2 hs, balanced_plug.2 ⟨hb, hq⟩⟩, rfl⟩
  rw [height_plug, ← hdepth]
  rfl

/-- The side a node hangs on, as the loops read it. -/
theorem sign_of_isChild_left {s : Links α} {f : Frame α} {way : List (Frame α)}
    (hs : s.Holds T (f :: way)) (hn : rootOf T = some n) :
    (if s.isChild .left n then rtlLeftHeavyAvlTree else rtlRightHeavyAvlTree) = f.side.sign := by
  rw [hs.isChild_cons hn]
  cases f.side <;> rfl

/-- What the last node above a subtree is to the rest. -/
structure TopFrame (t : RtlAvlTable α β) (f : Frame α) (q : List (Frame α)) : Prop where
  ne_root : f.elem ≠ t.balancedRoot
  not_mem_rest : f.elem ∉ inorder f.rest
  not_mem_outside : f.elem ∉ outside q

omit [DecidableEq α] in
theorem topFrame (hs : t.Holds T (f :: (q ++ [.right t.balancedRoot .nil]))) :
    TopFrame t f q ∧ f.elem ∉ inorder T := by
  obtain ⟨hrest, hout, -⟩ := nodup_outside_cons.1 hs.nodup_outside
  rw [mem_outside_append, not_or] at hout
  refine ⟨⟨fun heq => hout.2 ?_, hrest, hout.1⟩, fun hmem => hs.disjoint _ hmem ?_⟩
  · rw [heq]
    exact mem_outside_cons.2 (.inl rfl)
  · exact mem_outside_cons.2 (.inl rfl)

/-- The note of a node above a subtree is set, and everything else keeps its note. -/
theorem balanced_setBalance {v : ℤ} (hf : TopFrame t f q) (hfT : f.elem ∉ inorder T)
    (hb : Balanced t.balance T) (hrest : Balanced t.balance f.rest)
    (hv : v = f.side.sign * (T.height - f.rest.height) ∧ -1 ≤ v ∧ v ≤ 1) :
    Balanced (t.setBalance f.elem v).balance (branch f.side f.elem T f.rest) := by
  refine balanced_branch.2 ⟨?_, hb.congr fun y hy => ?_, hrest.congr fun y hy => ?_⟩
  · rwa [BalancedLinks.balance_setBalance, if_pos rfl]
  · exact if_neg (ne_of_mem_of_not_mem hy hfT)
  · exact if_neg (ne_of_mem_of_not_mem hy hf.not_mem_rest)

theorem balancedAbove_setBalance (v : ℤ) (hf : TopFrame t f q)
    (hq : BalancedAbove t.balance h q) : BalancedAbove (t.setBalance f.elem v).balance h q :=
  hq.congr fun _ hy => if_neg (ne_of_mem_of_not_mem hy hf.not_mem_outside)

theorem balance_root_setBalance (v : ℤ) (hf : TopFrame t f q) :
    (t.setBalance f.elem v).balance t.balancedRoot = t.balance t.balancedRoot :=
  if_neg hf.ne_root.symm

omit [DecidableEq α] in
theorem exists_cons_append_root (t : RtlAvlTable α β) (q : List (Frame α)) :
    ∃ g r, q ++ [.right t.balancedRoot .nil] = g :: r := by
  cases q with
  | nil => exact ⟨_, _, rfl⟩
  | cons g q => exact ⟨_, _, rfl⟩

omit [DecidableEq α] in
/-- The rest of the tree does not see a rotation. -/
theorem rebalanced_above {s s' : BalancedLinks α} {T T' : BinaryTree α}
    {k : ℕ} {g : Frame α} {r : List (Frame α)} {root : α} (hs : s.Holds T (g :: r))
    (hre : s.Rebalanced s' T T' k (g :: r)) (hg : q ++ [.right root .nil] = g :: r)
    (hq : BalancedAbove s.balance h q) : BalancedAbove s'.balance h q := by
  refine hq.congr fun y hy => hre.frame y fun hmem => hs.disjoint y hmem ?_
  rw [← hg]
  exact mem_outside_append.2 (.inl hy)

/-- **The loop of an insertion**: a subtree has grown by a level. -/
theorem runLoop_insertTurn (hs : t.Holds T (q ++ [.right t.balancedRoot .nil]))
    (hn : rootOf T = some n) (hb : Balanced t.balance T) (hheight : T.height = h + 1)
    (hq : BalancedAbove t.balance h q)
    (hroot : t.balance t.balancedRoot = rtlLeftHeavyAvlTree) (heven : h ≠ 0 → t.balance n ≠ 0)
    (hdepth : t.depthOfTree = rise h q) (hbudget : q.length < budget) :
    Settles t (inorder (plug T q)) (runLoop insertTurn budget (t, n, t.parent n)) := by
  obtain ⟨k, rfl⟩ : ∃ k, budget = k + 1 := ⟨budget - 1, by omega⟩
  induction q generalizing t T n h k with
  | nil =>
    -- the whole tree has grown, and the balance of the root of the table tells so
    have hside := sign_of_isChild_left hs hn
    have hparent : t.parent n = t.balancedRoot := hs.parent_cons hn
    refine ⟨t.setBalance t.balancedRoot rtlBalancedAvlTree, T, ?_, ⟨hs, ?_⟩, by simp [plug]⟩
    · refine runLoop_leave k ?_
      rw [insertTurn, hside, hparent, if_neg (by rw [hroot]; decide),
        if_pos (by rw [hroot, Frame.side]; decide)]
      dsimp only [withLinks]
      rw [if_pos (by simp), hdepth, hheight]
      rfl
    · refine hb.congr fun y hy => if_neg fun heq => hs.disjoint y hy ?_
      exact mem_outside_cons.2 (.inl heq)
  | cons f q ih =>
    have hside := sign_of_isChild_left hs hn
    have hparent : t.parent n = f.elem := hs.parent_cons hn
    obtain ⟨hf, hfT⟩ := topFrame hs
    obtain ⟨hnote, hrest, hq'⟩ := hq
    have hup : t.Holds (branch f.side f.elem T f.rest) (q ++ [.right t.balancedRoot .nil]) := by
      rwa [← holds_of_iff, Frame.of_eq]
    rw [length_cons] at hbudget
    rw [rise] at hdepth
    rw [hparent, plug]
    rcases note_cases hnote with ⟨hzero, heq⟩ | ⟨hsame, heq⟩ | ⟨hopp, heq⟩
    · -- the parent was even, and has grown itself
      have hturn : insertTurn (t, n, f.elem) = .again
          (t.withLinks (t.setBalance f.elem f.side.sign), f.elem, t.parent f.elem) := by
        rw [insertTurn, hside, if_pos (show _ = rtlBalancedAvlTree from hzero)]
        rfl
      obtain ⟨j, rfl⟩ : ∃ j, k = j + 1 := ⟨k - 1, by omega⟩
      rw [runLoop_again _ hturn]
      refine ih (t := t.withLinks (t.setBalance f.elem f.side.sign)) hup (rootOf_branch _ _ _ _)
        (balanced_setBalance hf hfT hb hrest ?_) ?_ (balancedAbove_setBalance _ hf hq') ?_
        (fun _ => ?_) hdepth _ (by omega)
      · cases f.side <;> simp only [Side.sign] <;> omega
      · rw [height_branch]
        omega
      · exact (balance_root_setBalance _ hf).trans hroot
      · exact (if_pos rfl).trans_ne f.side.sign_ne_zero
    · -- the parent was higher on this side, and a rotation takes the level back
      obtain ⟨g, r, hg⟩ := exists_cons_append_root t q
      rw [hg] at hup
      obtain ⟨s', T', kept, hrun, hre, -, hkept⟩ :=
        BalancedLinks.rtlpRebalanceAvlTreeNode_eq hup hsame hb hrest (by omega)
      obtain rfl : kept = false := by
        by_contra hk
        exact heven (by omega) (hkept (Bool.eq_true_of_not_eq_false hk) n hn)
      have hturn : insertTurn (t, n, f.elem) = .leave (.ok (t.withLinks s')) := by
        rw [insertTurn, hside, if_neg (by rw [hsame]; exact f.side.sign_ne_zero),
          if_neg (not_not.2 hsame), hrun]
        rfl
      rw [runLoop_leave _ hturn]
      have hT' : T'.height = max h f.rest.height + 1 := by
        rw [hre.height_eq]
        simp
        omega
      rw [inorder_plug, ← hre.inorder, ← inorder_plug]
      refine settles_of_plug (hg ▸ hre.holds) hre.balanced ?_ ?_
      · rw [hT']
        exact rebalanced_above hup hre hg hq'
      · rw [hT', hdepth]
    · -- the parent was lower on this side, and is as high as before
      have hturn : insertTurn (t, n, f.elem) = .leave
          (.ok (t.withLinks (t.setBalance f.elem rtlBalancedAvlTree))) := by
        have hne : -f.side.sign ≠ f.side.sign := by cases f.side <;> decide
        rw [insertTurn, hside, if_neg (by rw [hopp]; exact neg_ne_zero.2 f.side.sign_ne_zero),
          if_pos (by rw [hopp]; exact hne)]
        dsimp only [withLinks]
        rw [if_neg]
        rw [balance_root_setBalance _ hf, hroot]
        decide
      have hheight' : (branch f.side f.elem T f.rest).height = max h f.rest.height + 1 := by
        rw [height_branch]
        omega
      rw [runLoop_leave _ hturn]
      refine settles_of_plug hup (balanced_setBalance hf hfT hb hrest ?_) ?_ ?_
      · rw [hheight, heq]
        simp [rtlBalancedAvlTree]
      · rw [hheight']
        exact balancedAbove_setBalance _ hf hq'
      · rw [hheight', hdepth]

/-- The end of a turn, seen from the subtree that has been dealt with. -/
theorem iterateUp_eq (hs : t.Holds T (g :: r))
    (hn : rootOf T = some n) : t.iterateUp n = (t, g.elem, g.side.sign) := by
  rw [iterateUp, hs.parent_cons hn, hs.isChild_cons hn]
  cases g.side <;> rfl

/-- **The loop of a removal**: a subtree has lost a level. -/
theorem runLoop_deleteTurn (hs : t.Holds c (q ++ [.right t.balancedRoot .nil]))
    (hb : Balanced t.balance c) (hq : BalancedAbove t.balance (c.height + 1) q)
    (hroot : t.balance t.balancedRoot = rtlBalancedAvlTree)
    (hdepth : t.depthOfTree = rise (c.height + 1) q) (hbudget : q.length < budget)
    (hg : q ++ [.right t.balancedRoot .nil] = g :: r) :
    Settles t (inorder (plug c q)) (runLoop deleteTurn budget (t, g.elem, g.side.sign)) := by
  obtain ⟨k, rfl⟩ : ∃ k, budget = k + 1 := ⟨budget - 1, by omega⟩
  induction q generalizing t c k g r with
  | nil =>
    -- the whole tree has lost a level, and the balance of the root of the table tells so
    obtain ⟨rfl, rfl⟩ := cons.inj hg
    change Settles t _ (runLoop deleteTurn (k + 1) (t, t.balancedRoot, rtlRightHeavyAvlTree))
    refine ⟨t.setBalance t.balancedRoot (-rtlRightHeavyAvlTree), c, ?_, ⟨hs, ?_⟩, by simp [plug]⟩
    · refine runLoop_leave k ?_
      rw [deleteTurn, if_neg (by rw [hroot]; decide), if_pos hroot]
      dsimp only [withLinks]
      rw [if_pos (by simp; decide), hdepth, rise, Nat.add_sub_cancel]
    · refine hb.congr fun y hy => if_neg fun heq => hs.disjoint y hy ?_
      exact mem_outside_cons.2 (.inl heq)
  | cons f q ih =>
    obtain ⟨rfl, rfl⟩ := cons.inj hg
    obtain ⟨hf, hfT⟩ := topFrame hs
    obtain ⟨hnote, hrest, hq'⟩ := hq
    have hup : t.Holds (branch f.side f.elem c f.rest) (q ++ [.right t.balancedRoot .nil]) := by
      rwa [← holds_of_iff, Frame.of_eq]
    obtain ⟨g, r, hg⟩ := exists_cons_append_root t q
    rw [length_cons] at hbudget
    rw [rise] at hdepth
    rw [plug]
    have hne : -f.side.sign ≠ f.side.sign := by cases f.side <;> decide
    obtain ⟨j, rfl⟩ : ∃ j, k = j + 1 := ⟨k - 1, by omega⟩
    rcases note_cases hnote with ⟨hzero, heq⟩ | ⟨hsame, heq⟩ | ⟨hopp, heq⟩
    · -- the node was even, and is as high as before
      have hturn : deleteTurn (t, f.elem, f.side.sign) = .leave
          (.ok (t.withLinks (t.setBalance f.elem (-f.side.sign)))) := by
        rw [deleteTurn, if_neg (by rw [hzero]; exact f.side.sign_ne_zero.symm),
          if_pos (show _ = rtlBalancedAvlTree from hzero)]
        dsimp only [withLinks]
        rw [balance_root_setBalance _ hf, hroot]
        simp
      have hheight : (branch f.side f.elem c f.rest).height =
          max (c.height + 1) f.rest.height + 1 := by
        rw [height_branch]
        omega
      rw [runLoop_leave _ hturn]
      refine settles_of_plug hup (balanced_setBalance hf hfT hb hrest ?_) ?_ ?_
      · cases f.side <;> simp only [Side.sign] <;> omega
      · rw [hheight]
        exact balancedAbove_setBalance _ hf hq'
      · rw [hheight, hdepth]
    · -- the node was higher on this side, and has lost a level itself
      have hturn : deleteTurn (t, f.elem, f.side.sign) = .again
          ((t.withLinks (t.setBalance f.elem rtlBalancedAvlTree)).iterateUp f.elem) := by
        rw [deleteTurn, if_pos hsame]
      have hheight : (branch f.side f.elem c f.rest).height + 1 =
          max (c.height + 1) f.rest.height + 1 := by
        rw [height_branch]
        omega
      rw [runLoop_again _ hturn, iterateUp_eq (hg ▸ hup) (rootOf_branch _ _ _ _)]
      refine ih (t := t.withLinks (t.setBalance f.elem rtlBalancedAvlTree)) hup
        (balanced_setBalance hf hfT hb hrest ?_) ?_ ?_ ?_ hg _ (by omega)
      · rw [show f.rest.height = c.height by omega]
        simp [rtlBalancedAvlTree]
      · rw [hheight]
        exact balancedAbove_setBalance _ hf hq'
      · exact (balance_root_setBalance _ hf).trans hroot
      · rw [hheight]
        exact hdepth
    · -- the node was higher on the other side
      rw [hg] at hup
      rw [← branch_other] at hup ⊢
      obtain ⟨s', T', kept, hrun, hre, hparent, -⟩ :=
        BalancedLinks.rtlpRebalanceAvlTreeNode_eq hup (by rw [hopp, Side.sign_other]) hrest hb
          (by omega)
      have hturn : deleteTurn (t, f.elem, f.side.sign) =
          if kept then .leave (.ok (t.withLinks s'))
          else .again ((t.withLinks s').iterateUp (s'.parent f.elem)) := by
        rw [deleteTurn, if_neg (by rw [hopp]; exact hne),
          if_neg (by rw [hopp]; exact neg_ne_zero.2 f.side.sign_ne_zero), hrun]
        cases kept <;> rfl
      have habove : ∀ {m}, BalancedAbove t.balance m q → BalancedAbove s'.balance m q :=
        rebalanced_above hup hre hg
      rw [inorder_plug, ← hre.inorder, ← inorder_plug]
      cases kept with
      | true =>
        have hT' : T'.height = max (c.height + 1) f.rest.height + 1 := by
          rw [hre.height_eq]
          simp
          omega
        rw [runLoop_leave _ hturn]
        refine settles_of_plug (hg ▸ hre.holds) hre.balanced ?_ ?_
        · rw [hT']
          exact habove hq'
        · rw [hT', hdepth]
      | false =>
        have hT' : T'.height + 1 = max (c.height + 1) f.rest.height + 1 := by
          rw [hre.height_eq]
          simp
          omega
        have hiter : (t.withLinks s').iterateUp (s'.parent f.elem) =
            (t.withLinks s', g.elem, g.side.sign) :=
          iterateUp_eq (t := t.withLinks s') hre.holds (hparent rfl)
        rw [runLoop_again _ hturn, hiter]
        refine ih (t := t.withLinks s') (hg ▸ hre.holds) hre.balanced ?_ ?_ ?_ hg _ (by omega)
        · rw [hT']
          exact habove hq'
        · refine (hre.frame _ fun hmem => hup.disjoint _ hmem ?_).trans hroot
          rw [← hg]
          exact mem_outside_append.2 (.inr (mem_outside_cons.2 (.inl rfl)))
        · rw [hT']
          exact hdepth

/-! ### A node comes in -/

omit β in
/-- A new node without children is linked in at the end of a way. -/
theorem holds_insertAsChild {s : Links α} {way : List (Frame α)} (hs : s.Holds .nil (f :: way))
    (hn : n ∉ outside (f :: way)) :
    (((s.setChild .right n none).setChild .left n none).insertAsChild f.side f.elem n).Holds
      (.node n .nil .nil) (f :: way) := by
  have hfn : n ≠ f.elem := fun heq => hn (mem_outside_cons.2 (.inl heq))
  refine (holds_branch (d := .left)).2 ⟨⟨?_, ?_, ?_, trivial, trivial⟩, fun e y hy => ?_,
    hs.above.move hs.nodup_outside (fun y hy => ?_) (fun e y hy hole => ?_), by simp,
    hs.nodup_outside, hn, by simp, by simp⟩
  · simp [insertAsChild]
  · simp [insertAsChild, hfn]
  · simp [insertAsChild, hfn]
  · obtain ⟨rfl, rfl⟩ := hy
    simp [insertAsChild]
  · have hyn : y ≠ n := fun heq => hn (heq ▸ hy)
    simp [insertAsChild, hyn]
  · have hyn : y ≠ n := fun heq => hn (heq ▸ hy)
    rw [isHole_cons] at hole
    simp [insertAsChild, hyn, hole]

/-- The search result that leads to the end of a way. -/
def vacancy : List (Frame α) → TableSearchResult α
  | [] => .tableEmptyTree
  | f :: _ => .tableInsertAs f.side f.elem

/-- **`RtlpInsertAvlTreeNode`** puts a new node where the search has ended. -/
theorem rtlpInsertAvlTreeNode_eq (ht : IsAvl t.toBalancedLinks t.balancedRoot (plug .nil q))
    (hdepth : t.depthOfTree = (plug (.nil : BinaryTree α) q).height)
    (hn : n ∉ inorder (plug (.nil : BinaryTree α) q)) (hroot : n ≠ t.balancedRoot)
    (hbudget : q.length < budget) :
    ∃ s T, t.rtlpInsertAvlTreeNode budget n (vacancy q) =
        .ok { t with
          toBalancedLinks := s
          depthOfTree := T.height
          numberGenericTableElements := t.numberGenericTableElements + 1 } ∧
      IsAvl s t.balancedRoot T ∧ inorder T = before q ++ n :: after q := by
  have hway := holds_plug_append.1 ht.holds
  have hout : n ∉ outside (q ++ [.right t.balancedRoot .nil]) := by
    rw [mem_outside_append, mem_outside_cons, not_or]
    refine ⟨fun hmem => hn ?_, by simp [Frame.elem, Frame.rest, hroot]⟩
    simpa [outside] using hmem
  have hq := (balanced_plug.1 ht.balanced).2
  rw [height_plug] at hdepth
  cases q with
  | nil =>
    have hholds := holds_insertAsChild hway hout
    rw [rise, BinaryTree.height] at hdepth
    refine ⟨⟨((t.setChild .right n none).setChild .left n none).insertAsChild .right
      t.balancedRoot n, (t.setBalance n rtlBalancedAvlTree).balance⟩, .node n .nil .nil, ?_,
      ⟨hholds, ?_⟩, by simp⟩
    · show (assert (t.depthOfTree = 0) >>= fun _ => _) = _
      rw [assert_bind hdepth]
      rfl
    · simp [Balanced, BinaryTree.height, rtlBalancedAvlTree]
  | cons f q =>
    have hroot' : n ∉ outside (f :: q) ∧ t.balancedRoot ∉ outside (f :: q) := by
      have hnodup := nodup_outside_append.1 hway.nodup_outside
      rw [mem_outside_append, not_or] at hout
      exact ⟨hout.1, fun hmem => hnodup.2.2 _ hmem (mem_outside_cons.2 (.inl rfl))⟩
    have hholds := holds_insertAsChild hway hout
    -- the table when the loop begins
    obtain ⟨u, hu⟩ : ∃ u : RtlAvlTable α β, u = { t with
        toLinks := ((t.setChild .right n none).setChild .left n none).insertAsChild f.side f.elem n
        balance := ((t.setBalance n rtlBalancedAvlTree).setBalance t.balancedRoot
          rtlLeftHeavyAvlTree).balance
        numberGenericTableElements := t.numberGenericTableElements + 1 } := ⟨_, rfl⟩
    have hbalance : ∀ y, u.balance y =
        if y = t.balancedRoot then -1 else if y = n then 0 else t.balance y := fun y => by
      rw [hu]
      rfl
    have hparent : u.parent n = f.elem := by
      rw [hu]
      exact hholds.parent_cons rfl
    have hleaf : Balanced u.balance (.node n .nil .nil) := by
      simp [Balanced, BinaryTree.height, hbalance, hroot]
    have hq' : BalancedAbove u.balance 0 (f :: q) := hq.congr fun y hy => by
      rw [hbalance, if_neg (ne_of_mem_of_not_mem hy hroot'.2),
        if_neg (ne_of_mem_of_not_mem hy hroot'.1)]
    have hloop : Settles u (inorder (plug (.node n .nil .nil) (f :: q)))
        (runLoop insertTurn budget (u, n, u.parent n)) :=
      runLoop_insertTurn (by rw [hu]; exact hholds) rfl hleaf rfl hq'
        (by rw [hbalance, hu]; exact if_pos rfl) (by simp) (by rw [hu]; exact hdepth) hbudget
    obtain ⟨s, T, hrun, hT, hnodes⟩ := hloop
    rw [hparent] at hrun
    subst hu
    exact ⟨s, T, hrun, hT, by simp [hnodes]⟩

/-! ### A node goes out -/

/-- **A node with one child at most is taken out.** -/
theorem unlinkNode_eq {e : Side}
    (hs : t.Holds (branch e z c .nil) (q ++ [.right t.balancedRoot .nil]))
    (hb : Balanced t.balance (plug (branch e z c .nil) q))
    (hdepth : t.depthOfTree = (plug (branch e z c .nil) q).height) (hbudget : q.length < budget) :
    Settles t (inorder (plug c q)) (t.unlinkNode budget z) := by
  obtain ⟨hz, hq⟩ := balanced_plug.1 hb
  have hc := (balanced_branch.1 hz).2.1
  have hheight : (branch e z c .nil).height = c.height + 1 := by
    rw [height_branch, BinaryTree.height, Nat.max_zero]
  rw [height_plug, hheight] at hdepth
  rw [hheight] at hq
  obtain ⟨f, r, hfr⟩ := exists_cons_append_root t q
  have hs' := hs
  rw [hfr] at hs'
  -- the one child there may be
  have hchild : (if (t.child .left z).isSome then t.child .left z else t.child .right z) =
      rootOf c := by
    obtain ⟨⟨-, hce, hco, -⟩, -⟩ := holds_branch.1 hs'
    cases e <;> simp_all
  have hcut := hs'.cut_cons
  rw [unlinkNode, hs'.parent_cons (rootOf_branch _ _ _ _), hchild,
    sign_of_isChild_left hs' (rootOf_branch _ _ _ _)]
  have hroot : t.balancedRoot ∉ inorder c ∧ t.balancedRoot ∉ outside q := by
    have hdisj := fun y hy => hs.disjoint y (mem_inorder_branch.2 (.inr (.inl hy)))
    have hmem : t.balancedRoot ∈ outside [Frame.right t.balancedRoot .nil] :=
      mem_outside_cons.2 (.inl rfl)
    refine ⟨fun hy => hdisj _ hy (mem_outside_append.2 (.inr hmem)), fun hy => ?_⟩
    exact (nodup_outside_append.1 hs.nodup_outside).2.2 _ hy hmem
  refine runLoop_deleteTurn (t := t.withLinks (BalancedLinks.setBalance
    ⟨(t.replaceReference z (rootOf c)).adopt (rootOf c) f.elem, t.balance⟩ t.balancedRoot
      rtlBalancedAvlTree)) (hfr ▸ hcut) (hc.congr fun y hy => ?_) (hq.congr fun y hy => ?_)
    (if_pos rfl) hdepth hbudget hfr
  · exact if_neg (ne_of_mem_of_not_mem hy hroot.1)
  · exact if_neg (ne_of_mem_of_not_mem hy hroot.2)

/-- The pointers after a node has taken the place of another one. -/
theorem replaceNode_eq (hx : x ≠ z) (hz : s.parent x ≠ z)
    (hchild : ∃ d, s.child d (s.parent x) = some x)
    (hapart : s.child .left (s.parent x) = some x → s.child .right (s.parent x) ≠ some x) :
    (∀ y, (replaceNode s z x).parent y =
      if s.child .left x = some y ∨ s.child .right x = some y then z
      else if y = z then s.parent x else s.parent y) ∧
    (∀ e y, (replaceNode s z x).child e y =
      if y = s.parent x ∧ s.child e y = some x then some z
      else if y = z then s.child e x else s.child e y) ∧
    ∀ y, (replaceNode s z x).balance y = if y = z then s.balance x else s.balance y := by
  have hside : (s.setLinks z (s.parent x) (s.child .left x) (s.child .right x)).isChild .left x =
      decide (s.child .left (s.parent x) = some x) := by
    simp [isChild, setLinks, hx, hz]
  refine ⟨fun y => ?_, fun e y => ?_, fun y => rfl⟩
  · rw [replaceNode, hside]
    simp only [setLinks]
    split <;> simp [hz.symm] <;> grind
  · rw [replaceNode, hside]
    obtain ⟨d, hd⟩ := hchild
    simp only [setLinks]
    cases d <;> cases e <;> simp [hz.symm, hd] <;> grind

/-- **A node takes the place of another one**, with its pointers and its balance. -/
theorem isAvl_replaceNode {root x z : α} (ht : IsAvl s root T)
    (hx : x ∈ inorder T) (hz : z ∉ inorder T) (hroot : z ≠ root) :
    IsAvl (replaceNode s z x) root (T.map (Equiv.swap x z)) := by
  have hW : s.Holds (branch .right root T .nil) [] := holds_of_iff.1 ht.holds
  have hc := hW.consistent
  have hxW : x ∈ inorder (branch .right root T .nil) := mem_inorder_branch.2 (.inr (.inl hx))
  have hzW : z ∉ inorder (branch .right root T .nil) := by
    simp [mem_inorder_branch, hz, hroot]
  have hxroot : x ≠ root := by
    rintro rfl
    exact (holds_branch.1 hW).2.2.2.1.1 hx
  have hself : s.parent x ≠ x := fun heq =>
    hxroot (hc.root hxW (mem_inorder_branch.2 (.inl rfl)) heq (holds_branch.1 hW).1.1)
  obtain ⟨hPW, hP⟩ := hc.parent_mem hxW hself
  obtain ⟨hpar, hchi, hbal⟩ := replaceNode_eq (s := s) (ne_of_mem_of_not_mem hx hz)
    (ne_of_mem_of_not_mem hPW hzW) hP (hc.apart hPW)
  generalize replaceNode s z x = s' at *
  have hparent : ∀ y ∈ inorder (branch .right root T .nil),
      s'.parent (Equiv.swap x z y) = Equiv.swap x z (s.parent y) := by
    intro y hy
    have hup := fun hne => hc.parent_mem hy hne
    have hl := fun c => hc.child_mem (d := .left) (c := c) hxW
    have hr := fun c => hc.child_mem (d := .right) (c := c) hxW
    have hside : ∀ d, s.child d x = s.child .left x ∨ s.child d x = s.child .right x := by
      intro d
      cases d <;> simp
    simp only [Equiv.swap_apply_def, hpar]
    grind
  have hchild : ∀ d, ∀ y ∈ inorder (branch .right root T .nil),
      s'.child d (Equiv.swap x z y) = (s.child d y).map (Equiv.swap x z) := by
    intro d y hy
    have hdown := fun c => hc.child_mem (d := d) (c := c) hy
    rw [hchi]
    cases hcy : s.child d y with
    | none =>
      simp only [Equiv.swap_apply_def, Option.map_none]
      grind
    | some c =>
      simp only [Equiv.swap_apply_def, Option.map_some]
      grind
  have hrename := hW.rename (Equiv.swap x z) hparent hchild
  rw [map_branch, Equiv.swap_apply_of_ne_of_ne hxroot.symm hroot.symm] at hrename
  refine ⟨holds_of_iff.2 hrename, ht.balanced.map _ fun y hy => ?_⟩
  simp only [Equiv.swap_apply_def, hbal]
  grind

omit [DecidableEq α] in
theorem not_mem_of_neighbours (hL : L.Nodup) (h : L = A ++ x :: z :: B ∨ L = A ++ z :: x :: B) :
    x ∉ A ∧ z ∉ A ∧ x ∉ B ∧ z ∉ B ∧ z ≠ x := by
  rcases h with rfl | rfl <;> simp [nodup_append, nodup_cons] at hL <;> grind

/-- A list with two neighbours, of which the one has taken the place of the other. -/
theorem map_swap_eq_erase (hL : L.Nodup) (h : L = A ++ x :: z :: B ∨ L = A ++ z :: x :: B) :
    (A ++ x :: B).map (Equiv.swap x z) = L.erase x := by
  have hfix : ∀ C : List α, x ∉ C → z ∉ C → C.map (Equiv.swap x z) = C := fun C hx hz =>
    (map_congr_left fun a ha => Equiv.swap_apply_of_ne_of_ne (ne_of_mem_of_not_mem ha hx)
      (ne_of_mem_of_not_mem ha hz)).trans (map_id C)
  obtain ⟨hxA, hzA, hxB, hzB, hne⟩ := not_mem_of_neighbours hL h
  rw [map_append, map_cons, hfix A hxA hzA, hfix B hxB hzB, Equiv.swap_apply_left]
  rcases h with rfl | rfl
  · rw [erase_append_right _ hxA, erase_cons_head]
  · rw [erase_append_right _ hxA, erase_cons_tail (by simpa using hne), erase_cons_head]

/-- A removal that takes out the node itself. -/
theorem rtlpDeleteAvlTreeNode_self {nodes : List α} (hchoose : t.chooseDeleteNode budget x = .ok x)
    (hunlink : Settles t nodes (t.unlinkNode budget x)) :
    Settles t nodes (t.rtlpDeleteAvlTreeNode budget x) := by
  obtain ⟨s, T', hrun, hT', hnodes⟩ := hunlink
  refine ⟨s, T', ?_, hT', hnodes⟩
  rw [rtlpDeleteAvlTreeNode, hchoose]
  show (t.unlinkNode budget x >>= fun t => _) = _
  rw [hrun]
  exact if_pos rfl

/-- A removal that takes out a neighbour in the place of the node. -/
theorem rtlpDeleteAvlTreeNode_other (hL : L.Nodup) (h : L = A ++ x :: z :: B ∨ L = A ++ z :: x :: B)
    (hroot : z ≠ t.balancedRoot) (hchoose : t.chooseDeleteNode budget x = .ok z)
    (hunlink : Settles t (A ++ x :: B) (t.unlinkNode budget z)) :
    Settles t (L.erase x) (t.rtlpDeleteAvlTreeNode budget x) := by
  obtain ⟨s, T', hrun, hT', hnodes⟩ := hunlink
  obtain ⟨-, hzA, -, hzB, hne⟩ := not_mem_of_neighbours hL h
  have hx : x ∈ inorder T' := by
    rw [hnodes]
    simp
  have hz : z ∉ inorder T' := by
    rw [hnodes]
    simp [hzA, hzB, hne]
  refine ⟨_, _, ?_, isAvl_replaceNode hT' hx hz hroot, ?_⟩
  swap
  · rw [inorder_map, hnodes, map_swap_eq_erase hL h]
  rw [rtlpDeleteAvlTreeNode, hchoose, height_map]
  show (t.unlinkNode budget z >>= fun t => _) = _
  rw [hrun]
  exact if_neg hne.symm

/-- A node with two children: its neighbour on one side is taken out in its place. -/
theorem rtlpDeleteAvlTreeNode_neighbour {x y : α} {a b : BinaryTree α} {p : List (Frame α)}
    (d : Side) (ht : IsAvl t.toBalancedLinks t.balancedRoot (plug (branch d x a b) p))
    (hdepth : t.depthOfTree = (plug (branch d x a b) p).height)
    (hbudget : (inorder (plug (branch d x a b) p)).length ≤ budget) (hy : rootOf a = some y)
    (hchoose : t.chooseDeleteNode budget x = t.lastChild budget d.other y) :
    Settles t ((inorder (plug (branch d x a b) p)).erase x) (t.rtlpDeleteAvlTreeNode budget x) := by
  have hdown := holds_of_iff.2 (holds_plug_append.1 ht.holds)
  obtain ⟨z, m, q', hlast, rfl, hsides⟩ := hdown.lastChild_eq d.other hy
  have hflank := flank_eq_nil hsides
  have hplug : plug (branch d x (plug (branch d.other z .nil m) q') b) p =
      plug (branch d z m .nil) (q' ++ .of d x b :: p) := by
    rw [plug_append]
    cases d <;> rfl
  rw [hlast budget (by cases d <;> simp [branch] at hbudget ⊢ <;> omega)] at hchoose
  rw [hplug] at ht hdepth hbudget ⊢
  have hlong := length_lt_length_inorder_plug (rootOf_branch d z m .nil) (q' ++ .of d x b :: p)
  have hunlink := unlinkNode_eq (holds_plug_append.1 ht.holds) ht.balanced hdepth
    (hlong.trans_le hbudget)
  have hroot : z ≠ t.balancedRoot := fun heq =>
    ht.holds.disjoint z (by cases d <;> simp [branch]) (mem_outside_cons.2 (.inl heq))
  cases d with
  | left =>
    refine rtlpDeleteAvlTreeNode_other (A := before p ++ before q' ++ inorder m)
      (B := inorder b ++ after p) ht.holds.nodup (.inr ?_) hroot hchoose ?_
    · simp_all [flank, branch, Frame.of]
    · simpa [flank, Frame.of, show after q' = [] from hflank] using hunlink
  | right =>
    refine rtlpDeleteAvlTreeNode_other (A := before p ++ inorder b)
      (B := inorder m ++ after q' ++ after p) ht.holds.nodup (.inl ?_) hroot hchoose ?_
    · simp_all [flank, branch, Frame.of]
    · simpa [flank, Frame.of, show before q' = [] from hflank] using hunlink

/-- **`RtlpDeleteAvlTreeNode`** takes a node out of the tree. -/
theorem rtlpDeleteAvlTreeNode_eq (ht : IsAvl t.toBalancedLinks t.balancedRoot T)
    (hdepth : t.depthOfTree = T.height) (hx : x ∈ inorder T)
    (hbudget : (inorder T).length ≤ budget) :
    Settles t ((inorder T).erase x) (t.rtlpDeleteAvlTreeNode budget x) := by
  obtain ⟨l, r, p, rfl⟩ := exists_plug_eq hx
  have hs := holds_plug_append.1 ht.holds
  have hlength := length_lt_length_inorder_plug (rootOf_node x l r) p
  have hnodup := ht.holds.nodup
  obtain ⟨-, hleft, hright, -⟩ := hs.linked x rfl
  have herase : (inorder (plug (.node x l r) p)).erase x =
      before p ++ inorder l ++ (inorder r ++ after p) := by
    have hT : inorder (plug (.node x l r) p) =
        before p ++ inorder l ++ x :: (inorder r ++ after p) := by
      simp
    rw [hT] at hnodup ⊢
    exact erase_middle hnodup
  rcases hl : rootOf l with - | y
  · -- no child on the left
    obtain rfl := rootOf_eq_none.1 hl
    have hchoose : t.chooseDeleteNode budget x = .ok x := by
      rw [chooseDeleteNode, hleft]
      rfl
    have hunlink := unlinkNode_eq (e := .right) (c := r) hs ht.balanced hdepth
      (hlength.trans_le hbudget)
    rw [herase, inorder_nil, append_nil, ← append_assoc, ← inorder_plug]
    exact rtlpDeleteAvlTreeNode_self hchoose hunlink
  rcases hr : rootOf r with - | w
  · -- no child on the right
    obtain rfl := rootOf_eq_none.1 hr
    have hchoose : t.chooseDeleteNode budget x = .ok x := by
      rw [chooseDeleteNode, hleft, hright, hl]
      rfl
    have hunlink := unlinkNode_eq (e := .left) (c := l) hs ht.balanced hdepth
      (hlength.trans_le hbudget)
    rw [herase, inorder_nil, nil_append, ← inorder_plug]
    exact rtlpDeleteAvlTreeNode_self hchoose hunlink
  rw [hl] at hleft
  rw [hr] at hright
  by_cases hbal : rtlBalancedAvlTree ≤ t.balance x
  · -- the successor
    refine rtlpDeleteAvlTreeNode_neighbour .right ht hdepth hbudget hr ?_
    rw [chooseDeleteNode, hleft, hright]
    exact if_pos hbal
  · -- the predecessor
    refine rtlpDeleteAvlTreeNode_neighbour .left ht hdepth hbudget hl ?_
    rw [chooseDeleteNode, hleft, hright]
    exact if_neg hbal

end RtlAvlTable

end Windivs

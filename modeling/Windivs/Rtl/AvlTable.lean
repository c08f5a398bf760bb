import Windivs.Rtl.AvlUpdate

/-!
# AVL tables

The calls of `RTL_AVL_TABLE`: an element is found with the compare routine of the table, inserted
if there is none that compares equal, and deleted. The memory of the nodes comes from the allocation
routine, which may fail, and goes back to the free routine.

A table that a sequence of calls has led to is `Windivs.RtlAvlTable.Reached`; two things are noted
along with it that the code does not have, the nodes that are allocated and the elements that have
been inserted and not deleted. `Windivs.RtlAvlTable.reached_sound` says what holds of such a table:
a balanced tree, sorted, with the elements it should have.
-/

namespace Windivs

open List

namespace RtlAvlTable

variable {α β : Type} [DecidableEq α]

/-! ### The calls -/

/-- `MAXULONG`. -/
def maxUlong : ℕ := 0xFFFFFFFF

/-- `RtlInitializeGenericTableAvl`, on any memory. -/
def rtlInitializeGenericTableAvl (memory : BalancedLinks α) (userData : α → β) (balancedRoot : α) :
    RtlAvlTable α β where
  parent := fun y => if y = balancedRoot then balancedRoot else memory.parent y
  child := fun d y => if y = balancedRoot then none else memory.child d y
  balance := fun y => if y = balancedRoot then 0 else memory.balance y
  balancedRoot := balancedRoot
  userData := userData
  depthOfTree := 0
  numberGenericTableElements := 0
  deleteCount := 0
  whichOrderedElement := 0
  orderedPointer := none
  restartKey := none

/-- One turn of the loop of `RtlpFindAvlTableNodeOrParent`. -/
def findTurn (compare : β → β → Ordering) (t : RtlAvlTable α β) (buffer : β) (currentNode : α) :
    Turn α (Run (TableSearchResult α)) :=
  match compare buffer (t.userData currentNode) with
  | .lt =>
    match t.child .left currentNode with
    | some childNode => .again childNode
    | none => .leave (.ok (.tableInsertAs .left currentNode))
  | .gt =>
    match t.child .right currentNode with
    | some childNode => .again childNode
    | none => .leave (.ok (.tableInsertAs .right currentNode))
  | .eq => .leave (.ok (.tableFoundNode currentNode))

/-- `RtlpFindAvlTableNodeOrParent`. -/
def rtlpFindAvlTableNodeOrParent (compare : β → β → Ordering) (budget : ℕ) (t : RtlAvlTable α β)
    (buffer : β) : Run (TableSearchResult α) :=
  if t.numberGenericTableElements = 0 then .ok .tableEmptyTree
  else
    match t.child .right t.balancedRoot with
    | none => .error .accessViolation
    | some currentNode => runLoop (findTurn compare t buffer) budget currentNode

/-- `RtlInsertElementGenericTableFullAvl`: the node whose data is returned, `*NewElement`, and the
table. `allocated` is what the allocation routine returns if it is called. -/
def rtlInsertElementGenericTableFullAvl (budget : ℕ) (t : RtlAvlTable α β) (buffer : β)
    (allocated : Option α) (searchResult : TableSearchResult α) :
    Run (Option α × Bool × RtlAvlTable α β) :=
  match searchResult with
  | .tableFoundNode node => .ok (some node, false, t)
  | _ => do
    assert (t.numberGenericTableElements ≠ maxUlong - 1)
    match allocated with
    | none => return (none, false, t)
    | some newNode => do
      let t ← t.rtlpInsertAvlTreeNode budget newNode searchResult
      let userData := fun y => if y = newNode then buffer else t.userData y
      return (some newNode, true, { t with userData := userData })

/-- `RtlInsertElementGenericTableAvl`. -/
def rtlInsertElementGenericTableAvl (compare : β → β → Ordering) (budget : ℕ)
    (t : RtlAvlTable α β) (buffer : β) (allocated : Option α) :
    Run (Option α × Bool × RtlAvlTable α β) := do
  let result ← t.rtlpFindAvlTableNodeOrParent compare budget buffer
  t.rtlInsertElementGenericTableFullAvl budget buffer allocated result

/-- `RtlLookupElementGenericTableAvl`: the node whose data is returned. -/
def rtlLookupElementGenericTableAvl (compare : β → β → Ordering) (budget : ℕ)
    (t : RtlAvlTable α β) (buffer : β) : Run (Option α) := do
  let result ← t.rtlpFindAvlTableNodeOrParent compare budget buffer
  match result with
  | .tableFoundNode node => return some node
  | _ => return none

/-- `RestartKey` when a node is about to be deleted. -/
def restartKeyWithout (budget : ℕ) (t : RtlAvlTable α β) (node : α) : Run (Option α) :=
  if t.restartKey = some node then t.rtlRealPredecessor budget node else .ok t.restartKey

/-- `RtlDeleteElementGenericTableAvl`: the node that is given to the free routine, if the call
returns `TRUE`, and the table. -/
def rtlDeleteElementGenericTableAvl (compare : β → β → Ordering) (budget : ℕ)
    (t : RtlAvlTable α β) (buffer : β) : Run (Option α × RtlAvlTable α β) := do
  let searchResult ← t.rtlpFindAvlTableNodeOrParent compare budget buffer
  match searchResult with
  | .tableFoundNode node => do
    let restartKey ← t.restartKeyWithout budget node
    let t := { t with restartKey := restartKey, deleteCount := t.deleteCount + 1 }
    let t ← t.rtlpDeleteAvlTreeNode budget node
    return (some node, { t with
      numberGenericTableElements := t.numberGenericTableElements - 1
      whichOrderedElement := 0
      orderedPointer := none })
  | _ => return (none, t)

/-! ### Valid tables -/

variable {compare : β → β → Ordering} {t : RtlAvlTable α β} {T : BinaryTree α} {buffer : β}
  {live : Finset α} {kept : Set β} {a b : List α} {budget : ℕ} {T' : BinaryTree α}
  {t' : RtlAvlTable α β}

/-- A table with the given tree: balanced, sorted, and counted. -/
structure Valid (compare : β → β → Ordering) (t : RtlAvlTable α β) (T : BinaryTree α) : Prop where
  isAvl : IsAvl t.toBalancedLinks t.balancedRoot T
  depth : t.depthOfTree = T.height
  number : t.numberGenericTableElements = (inorder T).length
  sorted : (inorder T).Pairwise fun x y => compare (t.userData x) (t.userData y) = .lt

omit [DecidableEq α] in
/-- Seen from the node of the table itself, the tree hangs to its right. -/
theorem Valid.holds_root (ht : Valid compare t T) : t.Holds (.node t.balancedRoot .nil T) [] :=
  (Links.holds_of_iff (d := .right)).1 ht.isAvl.holds

omit [DecidableEq α] in
theorem Valid.sorts [Std.TransCmp compare] (ht : Valid compare t T) (buffer : β) :
    Sorts (fun x => compare buffer (t.userData x)) (inorder T) :=
  ht.sorted.imp fun hxy =>
    ⟨fun hlt => Std.TransCmp.lt_trans hlt hxy,
      fun hgt => Std.TransCmp.gt_trans hgt (Std.OrientedCmp.gt_iff_lt.2 hxy)⟩

/-- What a search finds, as the code returns it. -/
def resultOf : Found α → TableSearchResult α
  | .node x _ _ _ => .tableFoundNode x
  | .vacant q => vacancy q

omit [DecidableEq α] in
/-- **The loop goes down** as the search in the tree does. -/
theorem runLoop_findTurn {way p : List (Frame α)} {n : α} (hs : t.Holds T way)
    (hn : rootOf T = some n) (hbudget : (inorder T).length ≤ budget) :
    runLoop (findTurn compare t buffer) budget n =
      .ok (resultOf (search (fun x => compare buffer (t.userData x)) T p)) := by
  induction T generalizing way p n budget with
  | nil => cases hn
  | node x l r ihl ihr =>
    cases hn
    obtain ⟨-, hleft, hright, -⟩ := hs.linked x rfl
    simp only [inorder_node, length_append, length_cons] at hbudget
    obtain ⟨k, rfl⟩ : ∃ k, budget = k + 1 := ⟨budget - 1, by omega⟩
    rw [search]
    cases hc : compare buffer (t.userData x) with
    | eq => exact runLoop_leave k (by simp only [findTurn, hc]; rfl)
    | lt =>
      cases hl : rootOf l with
      | none =>
        rw [rootOf_eq_none.1 hl] at hleft ⊢
        exact runLoop_leave k (by simp only [findTurn, hc, hleft]; rfl)
      | some y =>
        refine (runLoop_again k ?_).trans
          (ihl ((Links.holds_of_iff (d := .left)).2 hs) hl (by omega))
        simp only [findTurn, hc, hleft, hl]
    | gt =>
      cases hr : rootOf r with
      | none =>
        rw [rootOf_eq_none.1 hr] at hright ⊢
        exact runLoop_leave k (by simp only [findTurn, hc, hright]; rfl)
      | some y =>
        refine (runLoop_again k ?_).trans
          (ihr ((Links.holds_of_iff (d := .right)).2 hs) hr (by omega))
        simp only [findTurn, hc, hright, hr]

omit [DecidableEq α] in
/-- **`RtlpFindAvlTableNodeOrParent`** searches the tree. -/
theorem Valid.rtlpFindAvlTableNodeOrParent_eq (ht : Valid compare t T)
    (hbudget : (inorder T).length ≤ budget) :
    t.rtlpFindAvlTableNodeOrParent compare budget buffer =
      .ok (resultOf (search (fun x => compare buffer (t.userData x)) T [])) := by
  rw [rtlpFindAvlTableNodeOrParent, ht.number]
  have hchild : t.child .right t.balancedRoot = rootOf T := ht.isAvl.holds.hole _ _ ⟨rfl, rfl⟩
  cases hT : rootOf T with
  | none =>
    obtain rfl := rootOf_eq_none.1 hT
    rfl
  | some n =>
    have hpos : (inorder T).length ≠ 0 := by
      rw [Ne, length_eq_zero_iff]
      exact ne_nil_of_mem (mem_inorder_of_rootOf hT)
    rw [if_neg hpos, hchild, hT]
    exact runLoop_findTurn ht.isAvl.holds hT hbudget

/-- The table has no element that compares equal. -/
def Absent (compare : β → β → Ordering) (t : RtlAvlTable α β) (T : BinaryTree α) (buffer : β) :
    Prop :=
  ∀ x ∈ inorder T, compare buffer (t.userData x) ≠ .eq

omit [DecidableEq α] in
/-- **What a search finds**: a node that compares equal, or the place where one would be. -/
theorem Valid.find_cases [Std.TransCmp compare] (ht : Valid compare t T) (buffer : β) :
    (∃ x ∈ inorder T, compare buffer (t.userData x) = .eq ∧
      ∀ budget, (inorder T).length ≤ budget →
        t.rtlpFindAvlTableNodeOrParent compare budget buffer = .ok (.tableFoundNode x)) ∨
    Absent compare t T buffer ∧ ∃ q, plug .nil q = T ∧
      (∀ x ∈ before q, compare (t.userData x) buffer = .lt) ∧
      (∀ x ∈ after q, compare buffer (t.userData x) = .lt) ∧
      ∀ budget, (inorder T).length ≤ budget →
        t.rtlpFindAvlTableNodeOrParent compare budget buffer = .ok (vacancy q) := by
  have hfind : ∀ budget, (inorder T).length ≤ budget →
      t.rtlpFindAvlTableNodeOrParent compare budget buffer =
        .ok (resultOf (search (fun x => compare buffer (t.userData x)) T [])) :=
    fun budget hb => ht.rtlpFindAvlTableNodeOrParent_eq hb
  cases hsearch : search (fun x => compare buffer (t.userData x)) T [] with
  | node x l r q =>
    obtain ⟨hx, a, b, hT, -⟩ := search_node hsearch
    rw [hsearch] at hfind
    exact .inl ⟨x, by simp [hT], hx, hfind⟩
  | vacant q =>
    obtain ⟨a, b, hT, hbefore, hafter, ha, hb⟩ := search_vacant (ht.sorts buffer) hsearch
    rw [before_nil, nil_append] at hbefore
    rw [after_nil, append_nil] at hafter
    rw [hsearch] at hfind
    refine .inr ⟨fun x hx => ?_, q, plug_of_search_vacant hsearch, fun x hx => ?_, fun x hx => ?_,
      hfind⟩
    · rw [hT] at hx
      rcases mem_append.1 hx with hx | hx
      · rw [ha x hx]
        decide
      · rw [hb x hx]
        decide
    · exact Std.OrientedCmp.gt_iff_lt.1 (ha x (hbefore ▸ hx))
    · exact hb x (hafter ▸ hx)

/-! ### Insertion -/

/-- An element that compares equal is returned, and nothing happens. -/
theorem Valid.insert_found [Std.TransCmp compare] (ht : Valid compare t T)
    (hfound : ¬Absent compare t T buffer) (allocated : Option α) :
    ∃ x ∈ inorder T, compare buffer (t.userData x) = .eq ∧
      ∀ budget, (inorder T).length ≤ budget →
        t.rtlInsertElementGenericTableAvl compare budget buffer allocated =
          .ok (some x, false, t) := by
  rcases ht.find_cases buffer with ⟨x, hx, heq, hfind⟩ | ⟨habsent, -⟩
  · refine ⟨x, hx, heq, fun budget hb => ?_⟩
    rw [rtlInsertElementGenericTableAvl, hfind budget hb]
    rfl
  · exact absurd habsent hfound

theorem fullAvl_vacancy (q : List (Frame α)) (allocated : Option α) :
    t.rtlInsertElementGenericTableFullAvl budget buffer allocated (vacancy q) = (do
      assert (t.numberGenericTableElements ≠ maxUlong - 1)
      match allocated with
      | none => return (none, false, t)
      | some newNode => do
        let t ← t.rtlpInsertAvlTreeNode budget newNode (vacancy q)
        let userData := fun y => if y = newNode then buffer else t.userData y
        return (some newNode, true, { t with userData := userData })) := by
  cases q <;> rfl

omit compare in
/-- A sorted list with a new element between two parts of it. -/
theorem pairwise_insert {compare : β → β → Ordering} {data : α → β} {n : α}
    (h : (a ++ b).Pairwise fun x y => compare (data x) (data y) = .lt) (ha : n ∉ a) (hb : n ∉ b)
    (hbefore : ∀ x ∈ a, compare (data x) buffer = .lt)
    (hafter : ∀ x ∈ b, compare buffer (data x) = .lt) :
    (a ++ n :: b).Pairwise fun x y =>
      compare (if x = n then buffer else data x) (if y = n then buffer else data y) = .lt := by
  obtain ⟨hpa, hpb, hab⟩ := pairwise_append.1 h
  have hna : ∀ x ∈ a, x ≠ n := fun x hx => ne_of_mem_of_not_mem hx ha
  have hnb : ∀ x ∈ b, x ≠ n := fun x hx => ne_of_mem_of_not_mem hx hb
  refine pairwise_append.2 ⟨hpa.imp_of_mem fun hx hy hxy => ?_,
    pairwise_cons.2 ⟨fun y hy => ?_, hpb.imp_of_mem fun hx hy hxy => ?_⟩, fun x hx y hy => ?_⟩
  · rwa [if_neg (hna _ hx), if_neg (hna _ hy)]
  · rw [if_pos rfl, if_neg (hnb y hy)]
    exact hafter y hy
  · rwa [if_neg (hnb _ hx), if_neg (hnb _ hy)]
  · rw [if_neg (hna x hx)]
    rcases mem_cons.1 hy with rfl | hy
    · rw [if_pos rfl]
      exact hbefore x hx
    · rw [if_neg (hnb y hy)]
      exact hab x hx y hy

/-- **Without an element that compares equal**, there is an assertion on the number of elements, the
allocation may fail, and otherwise the element is new. -/
theorem Valid.insert_absent [Std.TransCmp compare] (ht : Valid compare t T)
    (habsent : Absent compare t T buffer) (hbudget : (inorder T).length < budget) :
    (t.numberGenericTableElements = maxUlong - 1 → ∀ allocated,
      t.rtlInsertElementGenericTableAvl compare budget buffer allocated = .error .assertion) ∧
    (t.numberGenericTableElements ≠ maxUlong - 1 →
      t.rtlInsertElementGenericTableAvl compare budget buffer none = .ok (none, false, t) ∧
      ∀ n ∉ inorder T, n ≠ t.balancedRoot → ∃ t' T' a b,
        t.rtlInsertElementGenericTableAvl compare budget buffer (some n) =
          .ok (some n, true, t') ∧
        Valid compare t' T' ∧ inorder T = a ++ b ∧ inorder T' = a ++ n :: b ∧
        t'.balancedRoot = t.balancedRoot ∧
        ∀ y, t'.userData y = if y = n then buffer else t.userData y) := by
  obtain ⟨-, q, rfl, hbefore, hafter, hfind⟩ :=
    (ht.find_cases buffer).resolve_left fun ⟨x, hx, heq, _⟩ => habsent x hx heq
  have hcall : ∀ allocated, t.rtlInsertElementGenericTableAvl compare budget buffer allocated =
      t.rtlInsertElementGenericTableFullAvl budget buffer allocated (vacancy q) := by
    intro allocated
    rw [rtlInsertElementGenericTableAvl, hfind budget hbudget.le]
    rfl
  refine ⟨fun hmax allocated => ?_, fun hmax => ⟨?_, fun n hn hroot => ?_⟩⟩
  · rw [hcall, fullAvl_vacancy, assert, if_neg (not_not.2 hmax)]
    rfl
  · rw [hcall, fullAvl_vacancy, assert_bind hmax]
    rfl
  · have hlength : q.length < budget := by
      refine lt_of_le_of_lt ?_ hbudget
      simpa using length_le_length_before_after q
    obtain ⟨s, T', hrun, hT', hnodes⟩ :=
      rtlpInsertAvlTreeNode_eq ht.isAvl ht.depth hn hroot hlength
    refine ⟨{ t with
        toBalancedLinks := s
        userData := fun y => if y = n then buffer else t.userData y
        depthOfTree := T'.height
        numberGenericTableElements := t.numberGenericTableElements + 1 }, T', before q, after q, ?_,
      ⟨hT', rfl, ?_, ?_⟩, by simp, hnodes, rfl, fun y => rfl⟩
    · rw [hcall, fullAvl_vacancy, assert_bind hmax]
      show (t.rtlpInsertAvlTreeNode budget n (vacancy q) >>= fun t => _) = _
      rw [hrun]
      rfl
    · rw [hnodes, ht.number]
      simp
      omega
    · have hsorted := ht.sorted
      rw [inorder_plug, inorder_nil, append_nil] at hsorted hn
      rw [mem_append, not_or] at hn
      rw [hnodes]
      exact pairwise_insert hsorted hn.1 hn.2 hbefore hafter

/-! ### Lookup and deletion -/

omit [DecidableEq α] in
/-- **`RtlLookupElementGenericTableAvl`** finds an element exactly if there is one. -/
theorem Valid.lookup [Std.TransCmp compare] (ht : Valid compare t T) (buffer : β) :
    (∃ x ∈ inorder T, compare buffer (t.userData x) = .eq ∧
      ∀ budget, (inorder T).length ≤ budget →
        t.rtlLookupElementGenericTableAvl compare budget buffer = .ok (some x)) ∨
    Absent compare t T buffer ∧ ∀ budget, (inorder T).length ≤ budget →
      t.rtlLookupElementGenericTableAvl compare budget buffer = .ok none := by
  rcases ht.find_cases buffer with ⟨x, hx, heq, hfind⟩ | ⟨habsent, q, -, -, -, hfind⟩
  · refine .inl ⟨x, hx, heq, fun budget hb => ?_⟩
    rw [rtlLookupElementGenericTableAvl, hfind budget hb]
    rfl
  · refine .inr ⟨habsent, fun budget hb => ?_⟩
    rw [rtlLookupElementGenericTableAvl, hfind budget hb]
    cases q <;> rfl

/-- **`RtlDeleteElementGenericTableAvl`** removes the element that compares equal. The key of an
enumeration goes back to the node before, if it stood there: for the first node of the tree, that
is the root of the table. -/
theorem Valid.delete [Std.TransCmp compare] (ht : Valid compare t T) (buffer : β)
    (hbudget : (inorder T).length < budget) :
    (∃ x a b t' T', inorder T = a ++ x :: b ∧ compare buffer (t.userData x) = .eq ∧
      t.rtlDeleteElementGenericTableAvl compare budget buffer = .ok (some x, t') ∧
      Valid compare t' T' ∧ inorder T' = a ++ b ∧
      t'.balancedRoot = t.balancedRoot ∧ t'.userData = t.userData ∧
      t'.restartKey =
        if t.restartKey = some x then (t.balancedRoot :: a).getLast? else t.restartKey) ∨
    Absent compare t T buffer ∧
      t.rtlDeleteElementGenericTableAvl compare budget buffer = .ok (none, t) := by
  rcases ht.find_cases buffer with ⟨x, hx, heq, hfind⟩ | ⟨habsent, q, -, -, -, hfind⟩
  · obtain ⟨l, r, p, rfl⟩ := exists_plug_eq hx
    have hT : inorder (plug (.node x l r) p) = (before p ++ inorder l) ++ x ::
        (inorder r ++ after p) := by
      simp
    have hnodup := ht.isAvl.holds.nodup
    -- the key
    have hpred : t.rtlRealPredecessor budget x =
        .ok (t.balancedRoot :: (before p ++ inorder l)).getLast? := by
      have hs := Links.holds_plug_append.1 ht.isAvl.holds
      rw [hs.rtlRealPredecessor_eq]
      · simp
      · rw [plug_append]
        exact hbudget
    have hkey : t.restartKeyWithout budget x = .ok (if t.restartKey = some x then
        (t.balancedRoot :: (before p ++ inorder l)).getLast? else t.restartKey) := by
      rw [restartKeyWithout]
      split
      · exact hpred
      · rfl
    obtain ⟨key, hkey'⟩ : ∃ key, key = if t.restartKey = some x then
      (t.balancedRoot :: (before p ++ inorder l)).getLast? else t.restartKey := ⟨_, rfl⟩
    rw [← hkey'] at hkey
    obtain ⟨s, T', hrun, hT', hnodes⟩ := rtlpDeleteAvlTreeNode_eq (t := { t with
      restartKey := key
      deleteCount := t.deleteCount + 1 }) ht.isAvl ht.depth hx hbudget.le
    rw [hT] at hnodup hnodes
    rw [erase_middle hnodup] at hnodes
    refine .inl ⟨x, before p ++ inorder l, inorder r ++ after p, { t with
        toBalancedLinks := s
        depthOfTree := T'.height
        numberGenericTableElements := t.numberGenericTableElements - 1
        deleteCount := t.deleteCount + 1
        whichOrderedElement := 0
        orderedPointer := none
        restartKey := key }, T', hT, heq, ?_, ⟨hT', rfl, ?_, ?_⟩, hnodes, rfl, rfl, hkey'⟩
    · rw [rtlDeleteElementGenericTableAvl, hfind budget hbudget.le]
      show (t.restartKeyWithout budget x >>= fun _ => _) = _
      rw [hkey]
      show (rtlpDeleteAvlTreeNode budget _ x >>= fun t => _) = _
      rw [hrun]
      rfl
    · rw [hnodes, ht.number]
      simp
      omega
    · have hsorted := ht.sorted
      rw [hT] at hsorted
      rw [hnodes]
      exact hsorted.sublist ((sublist_cons_self x _).append_left _)
  · refine .inr ⟨habsent, ?_⟩
    rw [rtlDeleteElementGenericTableAvl, hfind budget hbudget.le]
    cases q <;> rfl

/-! ### Sequences of calls -/

/-- The elements after an insertion: it adds one if none compares equal and the allocation
succeeds. -/
def keptAfterInsert (compare : β → β → Ordering) (kept : Set β) (buffer : β)
    (allocated : Option α) : Set β :=
  {e | e ∈ kept ∨ e = buffer ∧ allocated.isSome ∧ ∀ k ∈ kept, compare buffer k ≠ .eq}

/-- **A table that a sequence of calls has led to**, from an empty one. With it go the nodes that the
allocation routine has given out and not got back, of which it does not give out any a second time,
and the elements that have been inserted and not deleted. -/
inductive Reached (compare : β → β → Ordering) : RtlAvlTable α β → Finset α → Set β → Prop where
  | init (memory : BalancedLinks α) (userData : α → β) (balancedRoot : α) :
      Reached compare (rtlInitializeGenericTableAvl memory userData balancedRoot) ∅ ∅
  | insert {t t' : RtlAvlTable α β} {live : Finset α} {kept : Set β} {budget : ℕ} {buffer : β}
      {allocated node : Option α} {newElement : Bool} (ht : Reached compare t live kept)
      (hfresh : ∀ x ∈ allocated, x ∉ live ∧ x ≠ t.balancedRoot)
      (hbudget : t.numberGenericTableElements < budget)
      (hcall : t.rtlInsertElementGenericTableAvl compare budget buffer allocated =
        .ok (node, newElement, t')) :
      Reached compare t' (if newElement then live ∪ allocated.toFinset else live)
        (keptAfterInsert compare kept buffer allocated)
  | delete {t t' : RtlAvlTable α β} {live : Finset α} {kept : Set β} {budget : ℕ} {buffer : β}
      {freed : Option α} (ht : Reached compare t live kept)
      (hbudget : t.numberGenericTableElements < budget)
      (hcall : t.rtlDeleteElementGenericTableAvl compare budget buffer = .ok (freed, t')) :
      Reached compare t' (live \ freed.toFinset) {e ∈ kept | compare buffer e ≠ .eq}

/-- The tree of a table has the nodes that are allocated, with the elements that are kept. -/
structure Represents (t : RtlAvlTable α β) (T : BinaryTree α) (live : Finset α) (kept : Set β) :
    Prop where
  live_iff : ∀ x, x ∈ live ↔ x ∈ inorder T
  kept_iff : ∀ e, e ∈ kept ↔ ∃ x ∈ inorder T, t.userData x = e

omit [DecidableEq α] in
theorem Represents.absent_iff (h : Represents t T live kept)
    (buffer : β) : Absent compare t T buffer ↔ ∀ e ∈ kept, compare buffer e ≠ .eq := by
  constructor
  · intro habsent e he
    obtain ⟨x, hx, rfl⟩ := (h.kept_iff e).1 he
    exact habsent x hx
  · exact fun hkept x hx => hkept _ ((h.kept_iff _).2 ⟨x, hx, rfl⟩)

theorem Represents.insert
    {n : α} (h : Represents t T live kept) (habsent : Absent compare t T buffer)
    (hn : n ∉ inorder T) (hT : inorder T = a ++ b) (hT' : inorder T' = a ++ n :: b)
    (hdata : ∀ y, t'.userData y = if y = n then buffer else t.userData y) :
    Represents t' T' (live ∪ (some n).toFinset) (keptAfterInsert compare kept buffer (some n)) := by
  have hmem : ∀ x, x ∈ inorder T' ↔ x = n ∨ x ∈ inorder T := fun x => by
    simp only [hT, hT', mem_append, mem_cons]
    tauto
  refine ⟨fun x => ?_, fun e => ?_⟩
  · rw [hmem, ← h.live_iff]
    simp
  · have hother : ∀ x ∈ inorder T, t'.userData x = t.userData x := fun x hx => by
      rw [hdata, if_neg (ne_of_mem_of_not_mem hx hn)]
    rw [keptAfterInsert, Set.mem_ofPred_eq, ← h.absent_iff, h.kept_iff]
    simp only [Option.isSome_some, habsent, and_true]
    constructor
    · rintro (⟨x, hx, rfl⟩ | rfl)
      · exact ⟨x, (hmem x).2 (.inr hx), hother x hx⟩
      · exact ⟨n, (hmem n).2 (.inl rfl), by rw [hdata, if_pos rfl]⟩
    · rintro ⟨x, hx, rfl⟩
      rcases (hmem x).1 hx with rfl | hx
      · exact .inr (by rw [hdata, if_pos rfl])
      · exact .inl ⟨x, hx, (hother x hx).symm⟩

theorem Represents.delete [Std.TransCmp compare]
    {x : α} (h : Represents t T live kept) (ht : Valid compare t T) (hT : inorder T = a ++ x :: b)
    (heq : compare buffer (t.userData x) = .eq) (hT' : inorder T' = a ++ b)
    (hdata : t'.userData = t.userData) :
    Represents t' T' (live \ (some x).toFinset) {e ∈ kept | compare buffer e ≠ .eq} := by
  have hnodup := ht.isAvl.holds.nodup
  have hsorted := ht.sorted
  rw [hT] at hnodup hsorted
  have hmem : ∀ y, y ∈ inorder T' ↔ y ∈ inorder T ∧ y ≠ x := fun y => by
    rw [hT', hT]
    rw [nodup_middle, nodup_cons] at hnodup
    constructor
    · exact fun hy => ⟨by simp only [mem_append, mem_cons] at hy ⊢; tauto,
        ne_of_mem_of_not_mem hy hnodup.1⟩
    · rintro ⟨hy, hne⟩
      simp only [mem_append, mem_cons] at hy ⊢
      tauto
  -- no other element compares equal
  have hother : ∀ y ∈ inorder T', compare buffer (t.userData y) ≠ .eq := by
    intro y hy heq'
    rw [hT'] at hy
    have hxy : compare (t.userData x) (t.userData y) = .eq :=
      (Std.TransCmp.congr_left heq).symm.trans heq'
    obtain ⟨-, hxb, hax⟩ := pairwise_append.1 hsorted
    rcases mem_append.1 hy with hy | hy
    · have hlt := hax y hy x mem_cons_self
      rw [Std.OrientedCmp.eq_comm.1 hxy] at hlt
      cases hlt
    · have hlt := (pairwise_cons.1 hxb).1 y hy
      rw [hxy] at hlt
      cases hlt
  refine ⟨fun y => ?_, fun e => ?_⟩
  · rw [hmem, ← h.live_iff]
    simp
  · rw [Set.mem_ofPred_eq, h.kept_iff, hdata]
    constructor
    · rintro ⟨⟨y, hy, rfl⟩, hne⟩
      exact ⟨y, (hmem y).2 ⟨hy, fun hyx => hne (hyx ▸ heq)⟩, rfl⟩
    · rintro ⟨y, hy, rfl⟩
      exact ⟨⟨y, ((hmem y).1 hy).1, rfl⟩, hother y hy⟩

/-- A deletion returns, and removes something exactly if an element compares equal. -/
theorem Represents.delete_returns [Std.TransCmp compare] (h : Represents t T live kept)
    (ht : Valid compare t T) (buffer : β) (hbudget : t.numberGenericTableElements < budget) :
    ∃ freed t', t.rtlDeleteElementGenericTableAvl compare budget buffer = .ok (freed, t') ∧
      (freed.isSome ↔ ∃ e ∈ kept, compare buffer e = .eq) := by
  rw [ht.number] at hbudget
  rcases ht.delete buffer hbudget with ⟨x, a, b, t', -, hab, heq, hcall, -⟩ | ⟨habsent, hcall⟩
  · have hx : t.userData x ∈ kept := (h.kept_iff _).2 ⟨x, by simp [hab], rfl⟩
    exact ⟨some x, t', hcall, fun _ => ⟨_, hx, heq⟩, fun _ => rfl⟩
  · rw [h.absent_iff] at habsent
    refine ⟨none, t, hcall, by simp, ?_⟩
    rintro ⟨e, he, heq⟩
    exact absurd heq (habsent e he)

/-- **What every call preserves.** -/
theorem Reached.valid [Std.TransCmp compare] (h : Reached compare t live kept) :
    ∃ T, Valid compare t T ∧ Represents t T live kept ∧ t.numberGenericTableElements < maxUlong := by
  induction h with
  | init memory userData balancedRoot =>
    refine ⟨.nil, ⟨⟨⟨by simp, ?_, ?_, by simp, by simp [outside], by simp⟩, trivial⟩, rfl, rfl, by simp⟩,
      ⟨by simp, by simp⟩, Nat.zero_lt_succ _⟩
    · rintro d x ⟨rfl, rfl⟩
      simp [rtlInitializeGenericTableAvl]
    · simp [Links.Above, rtlInitializeGenericTableAvl, Frame.elem, Frame.rest, Frame.side]
  | @insert t t' live kept budget buffer allocated node newElement ht hfresh hbudget hcall ih =>
    obtain ⟨T, hT, hrep, hlt⟩ := ih
    rw [hT.number] at hbudget
    by_cases habsent : Absent compare t T buffer
    · obtain ⟨hassert, hnew⟩ := hT.insert_absent habsent hbudget
      by_cases hmax : t.numberGenericTableElements = maxUlong - 1
      · rw [hassert hmax] at hcall
        cases hcall
      obtain ⟨hnone, hsome⟩ := hnew hmax
      cases allocated with
      | none =>
        rw [hnone] at hcall
        cases hcall
        refine ⟨T, hT, ⟨hrep.live_iff, fun e => ?_⟩, hlt⟩
        rw [← hrep.kept_iff e]
        simp [keptAfterInsert]
      | some n =>
        obtain ⟨hn, hroot⟩ := hfresh n rfl
        rw [hrep.live_iff] at hn
        obtain ⟨t'', T', a, b, hcall', hT', hab, hab', -, hdata⟩ := hsome n hn hroot
        rw [hcall'] at hcall
        cases hcall
        refine ⟨T', hT', hrep.insert habsent hn hab hab' hdata, ?_⟩
        have hlength := hT.number
        rw [hab, length_append] at hlength
        rw [hT'.number, hab', length_append, length_cons]
        omega
    · obtain ⟨x, hx, heq, hcall'⟩ := hT.insert_found habsent allocated
      rw [hcall' budget hbudget.le] at hcall
      cases hcall
      refine ⟨T, hT, ⟨hrep.live_iff, fun e => ?_⟩, hlt⟩
      rw [hrep.absent_iff] at habsent
      rw [← hrep.kept_iff e]
      simp only [keptAfterInsert, Set.mem_ofPred_eq, habsent, and_false, or_false]
  | @delete t t' live kept budget buffer freed ht hbudget hcall ih =>
    obtain ⟨T, hT, hrep, hlt⟩ := ih
    rw [hT.number] at hbudget
    rcases hT.delete buffer hbudget with ⟨x, a, b, t'', T', hab, heq, hcall', hT', hab', -, hdata, -⟩ |
      ⟨habsent, hcall'⟩
    · rw [hcall'] at hcall
      cases hcall
      refine ⟨T', hT', hrep.delete hT hab heq hab' hdata, ?_⟩
      have hlength := hT.number
      rw [hab, length_append, length_cons] at hlength
      rw [hT'.number, hab', length_append]
      omega
    · rw [hcall'] at hcall
      cases hcall
      refine ⟨T, hT, ⟨by simpa using hrep.live_iff, fun e => ?_⟩, hlt⟩
      rw [hrep.absent_iff] at habsent
      rw [← hrep.kept_iff e]
      exact ⟨fun he => he.1, fun he => ⟨he, habsent e he⟩⟩

/-- **What holds of a table** with the given allocated nodes and elements. -/
structure Sound (compare : β → β → Ordering) (t : RtlAvlTable α β) (live : Finset α) (kept : Set β) :
    Prop where
  /-- The nodes are a balanced search tree, its height is `DepthOfTree`, and its nodes are counted.
  They carry the elements. -/
  tree : ∃ T, t.Holds (.node t.balancedRoot .nil T) [] ∧ Balanced t.balance T ∧
    t.depthOfTree = T.height ∧ t.numberGenericTableElements = T.numNodes ∧
    ((inorder T).Pairwise fun x y => compare (t.userData x) (t.userData y) = .lt) ∧
    (∀ x, x ∈ live ↔ x ∈ inorder T) ∧ ∀ e, e ∈ kept ↔ ∃ x ∈ inorder T, t.userData x = e
  /-- The number is one that a `ULONG` can have. -/
  number_lt : t.numberGenericTableElements < maxUlong
  /-- A lookup returns, and finds an element that compares equal exactly if there is one. -/
  lookup : ∀ buffer budget, t.numberGenericTableElements < budget →
    ∃ node, t.rtlLookupElementGenericTableAvl compare budget buffer = .ok node ∧
      (∀ x ∈ node, x ∈ live ∧ t.userData x ∈ kept ∧ compare buffer (t.userData x) = .eq) ∧
      (node = none → ∀ e ∈ kept, compare buffer e ≠ .eq)
  /-- An insertion returns, unless it stops at the assertion on the number of elements. It says
  `NewElement` exactly if no element compares equal and the allocation succeeds. -/
  insert : ∀ buffer allocated budget, t.numberGenericTableElements < budget →
    (∀ x ∈ allocated, x ∉ live ∧ x ≠ t.balancedRoot) →
    (t.numberGenericTableElements = maxUlong - 1 → ∃ e ∈ kept, compare buffer e = .eq) →
    ∃ node newElement t', t.rtlInsertElementGenericTableAvl compare budget buffer allocated =
        .ok (node, newElement, t') ∧
      (newElement = true ↔ (∀ e ∈ kept, compare buffer e ≠ .eq) ∧ allocated.isSome)
  /-- A deletion returns, and removes something exactly if an element compares equal. -/
  delete : ∀ buffer budget, t.numberGenericTableElements < budget →
    ∃ freed t', t.rtlDeleteElementGenericTableAvl compare budget buffer = .ok (freed, t') ∧
      (freed.isSome ↔ ∃ e ∈ kept, compare buffer e = .eq)

/-- **An AVL table is a balanced ordered set**, after every sequence of calls. -/
theorem reached_sound [Std.TransCmp compare] {live : Finset α} {kept : Set β}
    (h : Reached compare t live kept) : Sound compare t live kept := by
  obtain ⟨T, hT, hrep, hlt⟩ := h.valid
  have hkept : ∀ {buffer}, ¬(∀ e ∈ kept, compare buffer e ≠ .eq) ↔
      ∃ e ∈ kept, compare buffer e = .eq := by simp
  refine ⟨⟨T, hT.holds_root, hT.isAvl.balanced, hT.depth, ?_, hT.sorted,
    hrep.live_iff, hrep.kept_iff⟩, hlt, fun buffer budget hb => ?_,
    fun buffer allocated budget hb hfresh hmax => ?_, fun buffer budget hb => ?_⟩
  · rw [hT.number, length_inorder]
  · rw [hT.number] at hb
    rcases hT.lookup buffer with ⟨x, hx, heq, hcall⟩ | ⟨habsent, hcall⟩
    · refine ⟨some x, hcall budget hb.le, ?_, by simp⟩
      rintro y ⟨⟩
      exact ⟨(hrep.live_iff x).2 hx, (hrep.kept_iff _).2 ⟨x, hx, rfl⟩, heq⟩
    · exact ⟨none, hcall budget hb.le, by simp, fun _ => (hrep.absent_iff buffer).1 habsent⟩
  · rw [hT.number] at hb
    rw [← hrep.absent_iff]
    by_cases habsent : Absent compare t T buffer
    · have hne : t.numberGenericTableElements ≠ maxUlong - 1 := fun heq =>
        hkept.2 (hmax heq) ((hrep.absent_iff buffer).1 habsent)
      obtain ⟨hnone, hsome⟩ := (hT.insert_absent habsent hb).2 hne
      cases allocated with
      | none => exact ⟨none, false, t, hnone, by simp⟩
      | some n =>
        obtain ⟨hn, hroot⟩ := hfresh n rfl
        rw [hrep.live_iff] at hn
        obtain ⟨t', -, -, -, hcall, -⟩ := hsome n hn hroot
        exact ⟨some n, true, t', hcall, by simp [habsent]⟩
    · obtain ⟨x, -, -, hcall⟩ := hT.insert_found habsent allocated
      exact ⟨some x, false, t, hcall budget hb.le, by simp [habsent]⟩
  · exact hrep.delete_returns hT buffer hb

section

-- a named instance, so that the numerals hold no proof of their own
local instance neZeroFour : NeZero 4 := ⟨by decide⟩

/-- A memory of four nodes, one of them for the table itself. -/
def fourNodes : BalancedLinks (Fin 4) := ⟨⟨fun _ => 0, fun _ _ => none⟩, fun _ => 0⟩

end

/-- Three elements are inserted in order, which takes a rotation, and the one at the root is
deleted. -/
theorem reached_sound_rotation : ∃ (t : RtlAvlTable (Fin 4) ℕ) (live : Finset (Fin 4))
    (kept : Set ℕ), (∀ e, e ∈ kept ↔ e = 5 ∨ e = 7) ∧ Reached Ord.compare t live kept ∧
      Sound Ord.compare t live kept := by
  have h : Reached Ord.compare (rtlInitializeGenericTableAvl fourNodes (fun _ => 0) 0) ∅ ∅ :=
    .init fourNodes (fun _ => 0) 0
  have h₁ := h.insert (by rintro x ⟨⟩; decide) (by decide)
    (show rtlInsertElementGenericTableAvl Ord.compare 4 _ 5 (some 1) = .ok (_, _, _) from rfl)
  have h₂ := h₁.insert (by rintro x ⟨⟩; decide) (by decide)
    (show rtlInsertElementGenericTableAvl Ord.compare 4 _ 6 (some 2) = .ok (_, _, _) from rfl)
  have h₃ := h₂.insert (by rintro x ⟨⟩; decide) (by decide)
    (show rtlInsertElementGenericTableAvl Ord.compare 4 _ 7 (some 3) = .ok (_, _, _) from rfl)
  have h₄ := h₃.delete (by decide)
    (show rtlDeleteElementGenericTableAvl Ord.compare 4 _ 6 = .ok (_, _) from rfl)
  refine ⟨_, _, _, fun e => ?_, h₄, reached_sound h₄⟩
  simp [keptAfterInsert]
  omega

end RtlAvlTable

end Windivs

import Windivs.Rtl.AvlTable

/-!
# Enumerating an AVL table

`RtlEnumerateGenericTableAvl` returns one element after the other. Between two calls the table
keeps the node it has returned, `RestartKey`, and the next call takes its successor. A node that is
deleted hands the key on to its predecessor, and that of the first node is the root of the table:
its successor is the first node that is left.

`Windivs.RtlAvlTable.Enumeration` is an enumeration with deletions in between, after one call that
restarts. `Windivs.RtlAvlTable.enumeration_sound` says that it returns the elements in order, each
once, and leaves out none that is there when its turn comes.
-/

namespace Windivs

open List

namespace RtlAvlTable

variable {α β : Type} [DecidableEq α]

/-! ### The calls -/

/-- `RtlEnumerateGenericTableWithoutSplayingAvl`: the node whose data is returned, and
`*RestartKey`. -/
def rtlEnumerateGenericTableWithoutSplayingAvl (budget : ℕ) (t : RtlAvlTable α β)
    (restartKey : Option α) : Run (Option α × Option α) :=
  if t.numberGenericTableElements = 0 then .ok (none, restartKey)
  else
    match restartKey with
    | none =>
      match t.child .right t.balancedRoot with
      | none => .error .accessViolation
      | some currentNode => do
        let currentNode ← t.lastChild budget .left currentNode
        return (some currentNode, some currentNode)
    | some key => do
      let currentNode ← t.rtlRealSuccessor budget key
      return (currentNode, currentNode.or restartKey)

/-- `RtlEnumerateGenericTableAvl`: the node whose data is returned, and the table. -/
def rtlEnumerateGenericTableAvl (budget : ℕ) (t : RtlAvlTable α β) (restart : Bool) :
    Run (Option α × RtlAvlTable α β) := do
  let restartKey := if restart then none else t.restartKey
  let (node, restartKey) ← t.rtlEnumerateGenericTableWithoutSplayingAvl budget restartKey
  return (node, { t with restartKey := restartKey })

/-! ### The neighbours of the key -/

variable {compare : β → β → Ordering} {t : RtlAvlTable α β} {T : BinaryTree α} {a b : List α}
  {budget : ℕ}

/-- **The successor of the key** is the first of the nodes behind it. -/
theorem Valid.successor (ht : Valid compare t T) (hT : inorder T = a ++ b) {key : α}
    (hkey : (t.balancedRoot :: a).getLast? = some key)
    (hbudget : t.numberGenericTableElements < budget) :
    t.rtlRealSuccessor budget key = .ok b.head? := by
  rw [ht.number] at hbudget
  rcases eq_nil_or_concat a with rfl | ⟨a, x, rfl⟩
  · obtain rfl : t.balancedRoot = key := by simpa using hkey
    rw [ht.holds_root.rtlRealSuccessor_eq]
    · rw [hT]
      simp
    · simpa [plug] using hbudget
  · obtain rfl : x = key := by
      rwa [concat_eq_append, ← cons_append, getLast?_concat, Option.some_inj] at hkey
    have hx : x ∈ inorder T := by simp [hT]
    obtain ⟨l, r, p, rfl⟩ := exists_plug_eq hx
    have hsplit : (before p ++ inorder l) ++ x :: (inorder r ++ after p) = a ++ x :: b := by
      simpa using hT
    have hnodup : (a ++ x :: b).Nodup := by
      have hnodup := ht.isAvl.holds.nodup
      simpa [hT] using hnodup
    rw [nodup_middle, nodup_cons, mem_append, not_or] at hnodup
    have hb : inorder r ++ after p = b :=
      ((append_cons_inj_of_notMem hnodup.1.1 hnodup.1.2).1 hsplit.symm).2.2.symm
    have hway := Links.holds_plug_append.1 ht.isAvl.holds
    rw [hway.rtlRealSuccessor_eq]
    · simp [hb]
    · simpa [plug, branch, Frame.side, Frame.elem, Frame.rest] using hbudget

/-- **A restart** finds the first node. -/
theorem Valid.first (ht : Valid compare t T) (hbudget : t.numberGenericTableElements < budget) :
    t.rtlEnumerateGenericTableAvl budget true =
      .ok ((inorder T).head?, { t with restartKey := (inorder T).head? }) := by
  rw [ht.number] at hbudget
  have hchild : t.child .right t.balancedRoot = rootOf T := ht.isAvl.holds.hole _ _ ⟨rfl, rfl⟩
  rw [rtlEnumerateGenericTableAvl, if_pos rfl, rtlEnumerateGenericTableWithoutSplayingAvl, ht.number,
    hchild]
  cases hT : rootOf T with
  | none =>
    obtain rfl := rootOf_eq_none.1 hT
    rfl
  | some n =>
    obtain ⟨y, m, q, hlast, hplug, hsides⟩ := ht.isAvl.holds.lastChild_eq .left hT
    have hhead : (inorder T).head? = some y := by
      rw [← hplug]
      exact Links.outermost_inorder_plug (d := .left) hsides
    have hpos : (inorder T).length ≠ 0 := by
      rw [Ne, length_eq_zero_iff]
      exact ne_nil_of_mem (mem_inorder_of_rootOf hT)
    rw [if_neg hpos, hhead]
    show (t.lastChild budget .left n >>= fun _ => _ : Run (Option α × Option α)) >>= _ = _
    rw [hlast budget hbudget.le]
    rfl

/-- **The next call** finds the first of the nodes behind the key. -/
theorem Valid.next (ht : Valid compare t T) (hT : inorder T = a ++ b)
    (hkey : inorder T ≠ [] → t.restartKey = (t.balancedRoot :: a).getLast?)
    (hbudget : t.numberGenericTableElements < budget) :
    t.rtlEnumerateGenericTableAvl budget false =
      .ok (b.head?, { t with restartKey := b.head?.or t.restartKey }) := by
  rw [rtlEnumerateGenericTableAvl, rtlEnumerateGenericTableWithoutSplayingAvl.eq_def]
  by_cases hzero : t.numberGenericTableElements = 0
  · have hb : b = [] := by
      rw [ht.number, hT, length_eq_zero_iff] at hzero
      exact (append_eq_nil_iff.1 hzero).2
    rw [if_pos hzero, hb]
    rfl
  · obtain ⟨key, hlast⟩ : ∃ key, (t.balancedRoot :: a).getLast? = some key :=
      ⟨_, getLast?_eq_some_getLast (cons_ne_nil _ _)⟩
    have hne : inorder T ≠ [] := by rwa [ht.number, length_eq_zero_iff] at hzero
    rw [if_neg hzero, hkey hne, hlast]
    show (t.rtlRealSuccessor budget key >>= fun _ => _ : Run (Option α × Option α)) >>= _ = _
    rw [ht.successor hT hlast hbudget]
    rfl

omit [DecidableEq α] in
theorem Valid.setRestartKey (ht : Valid compare t T) (key : Option α) :
    Valid compare { t with restartKey := key } T :=
  ⟨ht.isAvl, ht.depth, ht.number, ht.sorted⟩

/-! ### Enumerations -/

/-- **An enumeration**: one call that restarts, on any table, then further calls, with deletions in
between. With the table go the elements that are in it and those that have been returned. -/
inductive Enumeration (compare : β → β → Ordering) :
    RtlAvlTable α β → Set β → List β → Prop where
  | restart {t t' : RtlAvlTable α β} {T : BinaryTree α} {budget : ℕ} {node : Option α}
      (ht : Valid compare t T) (hbudget : t.numberGenericTableElements < budget)
      (hcall : t.rtlEnumerateGenericTableAvl budget true = .ok (node, t')) :
      Enumeration compare t' {e | ∃ x ∈ inorder T, t.userData x = e} (node.map t.userData).toList
  | next {t t' : RtlAvlTable α β} {present : Set β} {returned : List β} {budget : ℕ}
      {node : Option α} (h : Enumeration compare t present returned)
      (hbudget : t.numberGenericTableElements < budget)
      (hcall : t.rtlEnumerateGenericTableAvl budget false = .ok (node, t')) :
      Enumeration compare t' present (returned ++ (node.map t.userData).toList)
  | delete {t t' : RtlAvlTable α β} {present : Set β} {returned : List β} {budget : ℕ} {buffer : β}
      {freed : Option α} (h : Enumeration compare t present returned)
      (hbudget : t.numberGenericTableElements < budget)
      (hcall : t.rtlDeleteElementGenericTableAvl compare budget buffer = .ok (freed, t')) :
      Enumeration compare t' {e ∈ present | compare buffer e ≠ .eq} returned

/-- The key parts the nodes: those of `a` have been returned, those of `b` are still to come. The
key is the last of `a`, and the node of the table itself if `a` is empty. -/
structure Parted (compare : β → β → Ordering) (t : RtlAvlTable α β) (present : Set β)
    (returned : List β) (T : BinaryTree α) (a b : List α) : Prop where
  valid : Valid compare t T
  split : inorder T = a ++ b
  key : inorder T ≠ [] → t.restartKey = (t.balancedRoot :: a).getLast?
  represents : ∃ live, Represents t T live present
  passed : ∀ x ∈ a, t.userData x ∈ returned
  ahead : ∀ r ∈ returned, ∀ x ∈ b, compare r (t.userData x) = .lt
  increasing : returned.Pairwise fun r r' => compare r r' = .lt

variable {present : Set β} {returned : List β}

omit [DecidableEq α] in
/-- A call moves the first of the nodes to come over to the others. -/
theorem Parted.next (h : Parted compare t present returned T a b) :
    ∃ a' b', Parted compare { t with restartKey := b.head?.or t.restartKey } present
      (returned ++ (b.head?.map t.userData).toList) T a' b' := by
  obtain ⟨live, hrep⟩ := h.represents
  have hrep' : Represents { t with restartKey := b.head?.or t.restartKey } T live present :=
    ⟨hrep.live_iff, hrep.kept_iff⟩
  cases b with
  | nil =>
    refine ⟨a, [], h.valid.setRestartKey _, h.split, h.key, ⟨live, hrep'⟩, ?_, by simp, ?_⟩
    · simpa using h.passed
    · simpa using h.increasing
  | cons x b =>
    have hsorted := h.valid.sorted
    rw [h.split, pairwise_append, pairwise_cons] at hsorted
    refine ⟨a ++ [x], b, h.valid.setRestartKey _, by simp [h.split], fun _ => ?_, ⟨live, hrep'⟩,
      ?_, ?_, ?_⟩
    · rw [← cons_append, getLast?_concat]
      rfl
    · intro y hy
      rcases mem_append.1 hy with hy | hy
      · exact mem_append_left _ (h.passed y hy)
      · obtain rfl := mem_singleton.1 hy
        simp
    · intro r hr y hy
      rcases mem_append.1 hr with hr | hr
      · exact h.ahead r hr y (mem_cons_of_mem x hy)
      · obtain rfl : r = t.userData x := by simpa using hr
        exact hsorted.2.1.1 y hy
    · refine pairwise_append.2 ⟨h.increasing, by simp, fun r hr r' hr' => ?_⟩
      obtain rfl : r' = t.userData x := by simpa using hr'
      exact h.ahead r hr x mem_cons_self

/-- A deletion takes one node out, on this side of the key or on the other. -/
theorem Parted.delete [Std.TransCmp compare] (h : Parted compare t present returned T a b)
    {buffer : β} {freed : Option α} {t' : RtlAvlTable α β}
    (hbudget : t.numberGenericTableElements < budget)
    (hcall : t.rtlDeleteElementGenericTableAvl compare budget buffer = .ok (freed, t')) :
    ∃ T' a' b', Parted compare t' {e ∈ present | compare buffer e ≠ .eq} returned T' a' b' := by
  obtain ⟨live, hrep⟩ := h.represents
  rw [h.valid.number] at hbudget
  rcases h.valid.delete buffer hbudget with
    ⟨x, c, d, t'', T', hT, heq, hcall', hT', hsplit, hroot, hdata, hkey⟩ | ⟨habsent, hcall'⟩
  · rw [hcall'] at hcall
    cases hcall
    have hne : inorder T ≠ [] := by simp [hT]
    have hmoved : ∀ {a' b'}, c ++ d = a' ++ b' → a' ⊆ a → b' ⊆ b →
        t'.restartKey = (t.balancedRoot :: a').getLast? →
        ∃ T' a' b', Parted compare t' {e ∈ present | compare buffer e ≠ .eq} returned T' a' b' := by
      intro a' b' hcd ha hb hlast
      refine ⟨T', a', b', hT', hsplit.trans hcd, fun _ => hroot ▸ hlast,
        ⟨_, hrep.delete h.valid hT heq hsplit hdata⟩, ?_, ?_, h.increasing⟩
      · exact fun y hy => hdata ▸ h.passed y (ha hy)
      · exact fun r hr y hy => hdata ▸ h.ahead r hr y (hb hy)
    have hnodup : (t.balancedRoot :: (c ++ x :: d)).Nodup := by
      simpa [hT] using h.valid.holds_root.nodup
    -- the node is still to come, or it has been returned
    have hside : (∃ e, c = a ++ e ∧ b = e ++ x :: d) ∨ ∃ e, a = c ++ x :: e ∧ d = e ++ b := by
      rcases append_eq_append_iff.1 (h.split.symm.trans hT) with hto | ⟨e, ha, hd⟩
      · exact .inl hto
      · cases e with
        | nil => exact .inl ⟨[], by simpa using ha.symm, by simpa using hd.symm⟩
        | cons y e =>
          obtain ⟨rfl, rfl⟩ := cons_eq_cons.1 hd
          exact .inr ⟨e, ha, rfl⟩
    rcases hside with ⟨e, rfl, rfl⟩ | ⟨e, rfl, rfl⟩
    · refine hmoved (append_assoc a e d) (List.Subset.refl a) (by simp) ?_
      rw [hkey, if_neg, h.key hne]
      intro heq
      have hx : x ∈ t.balancedRoot :: a := mem_of_getLast? ((h.key hne).symm.trans heq)
      simp at hnodup hx
      grind
    · refine hmoved (append_assoc c e b).symm (by simp) (List.Subset.refl b) ?_
      rw [hkey, h.key hne]
      rcases eq_nil_or_concat e with rfl | ⟨e, y, rfl⟩
      · rw [← cons_append, getLast?_concat, if_pos rfl, append_nil]
      · have hlast : ∀ m : List α, (t.balancedRoot :: (m ++ (e ++ [y]))).getLast? = some y := by
          intro m
          rw [← append_assoc, ← cons_append, getLast?_concat]
        have hxy : y ≠ x := by
          simp at hnodup
          grind
        have hold := hlast (c ++ [x])
        have hnew := hlast c
        simp only [append_assoc, singleton_append] at hold
        rw [concat_eq_append, hold, hnew, if_neg (by simpa using hxy)]
  · rw [hcall'] at hcall
    cases hcall
    rw [hrep.absent_iff] at habsent
    have hsame : {e ∈ present | compare buffer e ≠ .eq} = present :=
      Set.sep_eq_self_iff_mem_true.2 habsent
    rw [hsame]
    exact ⟨T, a, b, h⟩

/-- **What every call of an enumeration preserves.** -/
theorem Enumeration.parted [Std.TransCmp compare] (h : Enumeration compare t present returned) :
    ∃ T a b, Parted compare t present returned T a b := by
  induction h with
  | @restart t t' T budget node ht hbudget hcall =>
    rw [ht.first hbudget] at hcall
    cases hcall
    have hrep : Represents { t with restartKey := (inorder T).head? } T (inorder T).toFinset
        {e | ∃ x ∈ inorder T, t.userData x = e} := ⟨by simp, by simp⟩
    cases hT : inorder T with
    | nil =>
      rw [hT] at hrep
      exact ⟨T, [], [], ht.setRestartKey _, hT, by simp [hT], ⟨_, hrep⟩, by simp, by simp, by simp⟩
    | cons x b =>
      have hsorted := ht.sorted
      rw [hT] at hrep hsorted
      refine ⟨T, [x], b, ht.setRestartKey _, hT, fun _ => rfl, ⟨_, hrep⟩, by simp, ?_, by simp⟩
      simpa using (pairwise_cons.1 hsorted).1
  | next h hbudget hcall ih =>
    obtain ⟨T, a, b, hparted⟩ := ih
    rw [hparted.valid.next hparted.split hparted.key hbudget] at hcall
    cases hcall
    exact ⟨T, hparted.next⟩
  | delete h hbudget hcall ih =>
    obtain ⟨T, a, b, hparted⟩ := ih
    exact hparted.delete hbudget hcall

/-- **What holds in an enumeration** with the given elements in the table and the given elements
returned. -/
structure InTurn (compare : β → β → Ordering) (t : RtlAvlTable α β) (present : Set β)
    (returned : List β) : Prop where
  /-- The elements are returned in increasing order, and so each at most once. -/
  increasing : returned.Pairwise fun r r' => compare r r' = .lt
  /-- None that is there is left out. -/
  complete : ∀ e ∈ present, e ∈ returned ∨ ∀ r ∈ returned, compare r e = .lt
  /-- The next call returns the least of the elements to come, and `NULL` once there is none. -/
  next : ∀ budget, t.numberGenericTableElements < budget →
    ∃ node t', t.rtlEnumerateGenericTableAvl budget false = .ok (node, t') ∧
      (∀ x ∈ node, t.userData x ∈ present ∧ (∀ r ∈ returned, compare r (t.userData x) = .lt) ∧
        ∀ e ∈ present, e ∈ returned ∨ e = t.userData x ∨ compare (t.userData x) e = .lt) ∧
      (node = none ↔ ∀ e ∈ present, e ∈ returned)
  /-- A deletion returns, and removes something exactly if an element compares equal. -/
  delete : ∀ buffer budget, t.numberGenericTableElements < budget →
    ∃ freed t', t.rtlDeleteElementGenericTableAvl compare budget buffer = .ok (freed, t') ∧
      (freed.isSome ↔ ∃ e ∈ present, compare buffer e = .eq)

/-- **An enumeration returns every element in its turn**, whatever is deleted between the calls. -/
theorem enumeration_sound [Std.TransCmp compare] (h : Enumeration compare t present returned) :
    InTurn compare t present returned := by
  obtain ⟨T, a, b, hparted⟩ := h.parted
  obtain ⟨live, hrep⟩ := hparted.represents
  have hsorted := hparted.valid.sorted
  rw [hparted.split, pairwise_append] at hsorted
  have hpresent : ∀ e ∈ present, e ∈ returned ∨ ∃ x ∈ b, t.userData x = e := by
    intro e he
    obtain ⟨x, hx, rfl⟩ := (hrep.kept_iff e).1 he
    rw [hparted.split, mem_append] at hx
    exact hx.imp (hparted.passed x) fun hx => ⟨x, hx, rfl⟩
  refine ⟨hparted.increasing, fun e he => ?_, fun budget hbudget => ?_, fun buffer budget hbudget => ?_⟩
  · refine (hpresent e he).imp id ?_
    rintro ⟨x, hx, rfl⟩ r hr
    exact hparted.ahead r hr x hx
  · refine ⟨_, _, hparted.valid.next hparted.split hparted.key hbudget, ?_⟩
    cases b with
    | nil => simpa using hpresent
    | cons x b =>
      have hx : t.userData x ∈ present := (hrep.kept_iff _).2 ⟨x, by simp [hparted.split], rfl⟩
      have hahead := fun r hr => hparted.ahead r hr x mem_cons_self
      refine ⟨?_, by simp, fun hall => ?_⟩
      · rintro y ⟨⟩
        refine ⟨hx, hahead, fun e he => (hpresent e he).imp id ?_⟩
        rintro ⟨y, hy, rfl⟩
        rcases mem_cons.1 hy with rfl | hy
        · exact .inl rfl
        · exact .inr ((pairwise_cons.1 hsorted.2.1).1 y hy)
      · have hself : compare (t.userData x) (t.userData x) = .eq := Std.ReflCmp.compare_self
        have hlt := hahead _ (hall _ hx)
        rw [hself] at hlt
        cases hlt
  · exact hrep.delete_returns hparted.valid buffer hbudget

section

-- a named instance, so that the numerals hold no proof of their own
local instance neZeroThree : NeZero 3 := ⟨by decide⟩

/-- A memory of three nodes, one of them for the table itself. -/
def threeNodes : BalancedLinks (Fin 3) := ⟨⟨fun _ => 0, fun _ _ => none⟩, fun _ => 0⟩

end

/-- The first of two elements is deleted right after it was returned, and the second comes next. -/
theorem enumeration_sound_twoElements : ∃ (t : RtlAvlTable (Fin 3) ℕ) (present : Set ℕ),
    Enumeration Ord.compare t present [5, 7] ∧ InTurn Ord.compare t present [5, 7] := by
  have h : Reached Ord.compare (rtlInitializeGenericTableAvl threeNodes (fun _ => 0) 0) ∅ ∅ :=
    .init threeNodes (fun _ => 0) 0
  have h₁ := h.insert (by rintro x ⟨⟩; decide) (by decide)
    (show rtlInsertElementGenericTableAvl Ord.compare 3 _ 7 (some 1) = .ok (_, _, _) from rfl)
  have h₂ := h₁.insert (by rintro x ⟨⟩; decide) (by decide)
    (show rtlInsertElementGenericTableAvl Ord.compare 3 _ 5 (some 2) = .ok (_, _, _) from rfl)
  obtain ⟨T, hT, -⟩ := h₂.valid
  have e := Enumeration.restart hT (by decide)
    (show rtlEnumerateGenericTableAvl 3 _ true = .ok (_, _) from rfl)
  have e1 := e.delete (by decide)
    (show rtlDeleteElementGenericTableAvl Ord.compare 3 _ 5 = .ok (_, _) from rfl)
  have e2 := e1.next (by decide)
    (show rtlEnumerateGenericTableAvl 3 _ false = .ok (_, _) from rfl)
  exact ⟨_, _, e2, enumeration_sound e2⟩

end RtlAvlTable

end Windivs

import Windivs.Lib.FirstMatch
import Windivs.Se.Token

/-!
# Filtering a token

`SepPerformTokenFiltering` of `tokenlif.c`: a copy of a token without some of its
privileges, with some of its groups for deny only, and with restricting identifiers.

Two loops do the work. The one over the privileges takes entries out of the array
and steps its index back, a sweep in place (`Windivs.Lib.Sweep`); it always ends
(`Windivs.privilegeLoop_eq`). The one over the groups steps its index back too,
although it takes nothing out: a group that was found is looked at again, with its
new attributes, and if it is found again the loop never ends. And what it compares
are not identifiers but the bytes of the two arrays, see `Windivs.arrayView`
(`Windivs.groupLoop_eq`, `Windivs.groupLoop_diverges`).

What the memory manager decides is part of the request: where the copies of the
identifiers are placed, what lies behind the arrays, and whether allocations
succeed. The new restricting identifiers are not copied, only the pointers to them;
they are taken to stay what they are.
-/

namespace Windivs

open List

variable {n : ℕ} {t t' : Token}

/-- `DISABLE_MAX_PRIVILEGE`. -/
def disableMaxPrivilege : Ulong := 0x1
/-- `SANDBOX_INERT`. -/
def sandboxInert : Ulong := 0x2

/-- The arguments of `SepPerformTokenFiltering`, and what the memory manager
decides. -/
structure FilterRequest where
  token : Token
  privilegesToBeDeleted : Option (List LuidAndAttributes)
  sidsToBeDisabled : Option (List SidAndAttributes)
  restrictedSidsIntoToken : Option (Counted SidAndAttributes)
  privilegeFlags : Ulong
  /-- How creating the token object and copying the arrays into it ends. -/
  created : NtStatus
  /-- The pool has room for the dynamic part. -/
  allocate : Bool
  /-- Where the copies of the identifiers of the groups are placed. -/
  groupPlace : ℕ → Ulong
  /-- Where the copies of the restricting identifiers are placed. -/
  restrictedPlace : ℕ → Ulong
  /-- The memory behind the array of groups of the new token. -/
  afterGroups : View
  /-- The memory behind `SidsToBeDisabled`. -/
  afterList : View
  /-- A pointer leads to one identifier. -/
  coherent : ∀ i e, token.userAndGroups.list[i]? = some e → ∀ x ∈ sidsToBeDisabled.getD [],
    groupPlace i = x.pointer → sidValue e.sid = sidValue x.sid

/-! ### The privileges -/

/-- The privilege is to be deleted: everything but `SE_CHANGE_NOTIFY_PRIVILEGE`, or
what is in the list. -/
def deletes (rq : FilterRequest) (luid : Luid) : Bool :=
  if rq.privilegeFlags &&& disableMaxPrivilege ≠ 0 then luid.lowPart != seChangeNotifyPrivilege
  else (rq.privilegesToBeDeleted.getD []).any fun p => luid == p.luid

/-- One turn of the loop over the privileges. -/
def privilegeTurn (rq : FilterRequest) (s : ℕ × Token) : Turn (ℕ × Token) (Run Token) :=
  match s.2.privileges.list[s.1]? with
  | none => .leave (.ok s.2)
  | some p =>
    if deletes rq p.luid then
      match disableAndRemove s.2 s.1 p.attributes with
      | .error fault => .leave (.error fault)
      | .ok t => .again (stepUp (stepDown s.1), t)
    else .again (stepUp s.1, s.2)

/-! ### The groups -/

/-- The group at the head of the rest of the array is found. -/
def groupFound (rq : FilterRequest) (rest : List SidAndAttributes) : Bool :=
  foundInList (arrayView rest rq.afterGroups) rq.afterList (rq.sidsToBeDisabled.getD [])

/-- The attributes of a group that is disabled. -/
def disabledAttributes (a : Ulong) : Ulong :=
  a &&& ~~~(seGroupEnabled ||| seGroupEnabledByDefault) ||| seGroupUseForDenyOnly

/-- A group that is disabled. -/
def SidAndAttributes.disable (e : SidAndAttributes) : SidAndAttributes :=
  e.setAttributes (disabledAttributes e.attributes)

/-- Disable the group at an index. The comparison with `SeAliasAdminsSid` is made with
the bytes of the array. -/
def disableGroup (rq : FilterRequest) (t : Token) (index : ℕ) (e : SidAndAttributes) : Token :=
  { t with
    tokenFlags :=
      if rtlEqualSid seAliasAdminsSid (arrayView (t.userAndGroups.list.drop index) rq.afterGroups)
        then t.tokenFlags &&& ~~~tokenHasAdminGroup else t.tokenFlags
    defaultOwnerIndex := if t.defaultOwnerIndex = index then 0 else t.defaultOwnerIndex
    userAndGroups := t.userAndGroups.set index e.disable }

/-- One turn of the loop over the groups. -/
def groupTurn (rq : FilterRequest) (s : ℕ × Token) : Turn (ℕ × Token) (Run Token) :=
  match s.2.userAndGroups.list[s.1]? with
  | none => .leave (.ok s.2)
  | some e =>
    if groupFound rq (s.2.userAndGroups.list.drop s.1) then
      .again (stepUp (stepDown s.1), disableGroup rq s.2 s.1 e)
    else .again (stepUp s.1, s.2)

/-! ### The whole -/

/-- Copy an array of identifiers with attributes. -/
def relocate (place : ℕ → Ulong) (c : Counted SidAndAttributes) : Counted SidAndAttributes where
  list := c.list.mapIdx fun i e => { e with pointer := place i }
  length_lt := by simpa using c.length_lt

/-- The attributes of a new restricting identifier. -/
def restrictingAttributes : Ulong :=
  seGroupEnabled ||| seGroupEnabledByDefault ||| seGroupMandatory

/-- The restricting identifiers of the new token: the ones the caller gave, or else
those of the token. -/
def restrictingSids (rq : FilterRequest) : Counted SidAndAttributes :=
  match rq.restrictedSidsIntoToken with
  | none => relocate rq.restrictedPlace rq.token.restrictedSids
  | some c =>
    { list := c.list.map fun e => e.setAttributes (e.attributes ||| restrictingAttributes)
      length_lt := by simpa using c.length_lt }

/-- The flags of the new token, before the loops. -/
def startFlags (rq : FilterRequest) : Ulong :=
  let flags := rq.token.tokenFlags &&& ~~~tokenSessionNotReferenced
  let flags := if rq.restrictedSidsIntoToken.isSome then flags ||| tokenIsRestricted else flags
  if rq.privilegeFlags &&& sandboxInert ≠ 0 then flags ||| tokenSandboxInert else flags

/-- `SepFindPrimaryGroupAndDefaultOwner` for the primary group alone. -/
def sepFindPrimaryGroupAndDefaultOwner (groups : List SidAndAttributes) (primaryGroup : View) :
    Except NtStatus SidAndAttributes :=
  match groups.find? fun e => rtlEqualSid e.sid primaryGroup with
  | none => .error .invalidPrimaryGroup
  | some e => .ok e

/-- The new token, before the loops. -/
def copiedToken (rq : FilterRequest) (primary : SidAndAttributes) : Token where
  userAndGroups := relocate rq.groupPlace rq.token.userAndGroups
  restrictedSids := restrictingSids rq
  privileges := rq.token.privileges
  tokenFlags := startFlags rq
  primaryGroup := primary.sid
  defaultOwnerIndex := rq.token.defaultOwnerIndex

/-- The two loops, with a budget of turns for each. -/
def filterLoops (fuel : ℕ) (rq : FilterRequest) (t : Token) : Run Token := do
  let t ← runLoop (privilegeTurn rq) fuel (0, t)
  if rq.sidsToBeDisabled.isSome then runLoop (groupTurn rq) fuel (0, t) else .ok t

/-- `SepPerformTokenFiltering`. -/
def sepPerformTokenFiltering (fuel : ℕ) (rq : FilterRequest) : Run (Except NtStatus Token) :=
  if !rq.created.isSuccess then .ok (.error rq.created)
  else if (rq.restrictedSidsIntoToken.map Counted.list).getD [] |>.any (·.attributes != 0) then
    .ok (.error .invalidParameter)
  else
    match sepFindPrimaryGroupAndDefaultOwner (relocate rq.groupPlace rq.token.userAndGroups).list
      rq.token.primaryGroup with
    | .error status => .ok (.error status)
    | .ok primary =>
      if !rq.allocate then .ok (.error .insufficientResources)
      else (filterLoops fuel rq (copiedToken rq primary)).map .ok

/-! ### The loop over the privileges -/

section Privileges

variable {rq : FilterRequest}

/-- What becomes of a privilege, and of the flags. -/
def visitPrivilege (rq : FilterRequest) (flags : Ulong) (p : LuidAndAttributes) :
    Ulong × Option LuidAndAttributes :=
  if deletes rq p.luid then
    (updateFlags flags { p with attributes := p.attributes &&& ~~~sePrivilegeEnabled }, none)
  else (flags, some p)

/-- The flags after the privileges have been taken out. -/
def flagsAfter (rq : FilterRequest) (flags : Ulong) (l : List LuidAndAttributes) : Ulong :=
  (l.filter fun p => deletes rq p.luid).foldl
    (fun flags p => updateFlags flags { p with attributes := p.attributes &&& ~~~sePrivilegeEnabled })
    flags

theorem sweepList_visitPrivilege (rq : FilterRequest) (flags : Ulong) (l : List LuidAndAttributes) :
    sweepList (visitPrivilege rq) flags l =
      (l.filter fun p => !deletes rq p.luid, flagsAfter rq flags l) := by
  induction l generalizing flags with
  | nil => rfl
  | cons p l ih =>
    cases hp : deletes rq p.luid with
    | true =>
      have hv : visitPrivilege rq flags p = (_, none) := if_pos hp
      rw [sweepList_cons_none l hv, ih, flagsAfter, flagsAfter]
      simp [hp]
    | false =>
      have hv : visitPrivilege rq flags p = (flags, some p) := if_neg (by simp [hp])
      rw [sweepList_cons_some l hv, ih, flagsAfter, flagsAfter]
      simp [hp]

/-- The privileges that are kept. -/
def keptPrivileges (rq : FilterRequest) (c : Counted LuidAndAttributes) :
    Counted LuidAndAttributes where
  list := c.list.filter fun p => !deletes rq p.luid
  length_lt := lt_of_le_of_lt (length_filter_le ..) c.length_lt

/-- **The loop over the privileges ends**, and leaves the privileges that are kept and
the flags without those of the others. -/
theorem privilegeLoop_eq (t : Token) (hn : t.privileges.list.length < n) :
    runLoop (privilegeTurn rq) n (0, t) = .ok { t with
      privileges := keptPrivileges rq t.privileges
      tokenFlags := flagsAfter rq t.tokenFlags t.privileges.list } := by
  have hmap : ∀ s : ℕ × Counted LuidAndAttributes × Ulong,
      privilegeTurn rq (s.1, { t with privileges := s.2.1, tokenFlags := s.2.2 }) =
        (sweepTurn (visitPrivilege rq) s).map
          (fun s => (s.1, { t with privileges := s.2.1, tokenFlags := s.2.2 }))
          fun r => .ok { t with privileges := r.1, tokenFlags := r.2 } := by
    rintro ⟨i, c, flags⟩
    rw [privilegeTurn, sweepTurn]
    cases hp : c.list[i]? with
    | none => rfl
    | some p =>
      dsimp only
      rw [visitPrivilege]
      cases hd : deletes rq p.luid with
      | true =>
        rw [disableAndRemove_eq (t := { t with privileges := c, tokenFlags := flags }) hp]
        rfl
      | false =>
        simp only [Bool.false_eq_true, if_false, Counted.set_self hp]
        rfl
  have hloop := loop_of_map
    (fun s : ℕ × Counted LuidAndAttributes × Ulong =>
      (s.1, { t with privileges := s.2.1, tokenFlags := s.2.2 }))
    (fun r : Counted LuidAndAttributes × Ulong =>
      (.ok { t with privileges := r.1, tokenFlags := r.2 } : Run Token)) hmap n
    (0, t.privileges, t.tokenFlags)
  have hsweep := sweepList_visitPrivilege rq t.tokenFlags t.privileges.list
  rw [loop_sweepTurn t.privileges t.tokenFlags hn, hsweep] at hloop
  rw [runLoop]
  have hrun : loop (privilegeTurn rq) n (0, t) = _ := hloop
  have hkept : t.privileges.sweep (visitPrivilege rq) t.tokenFlags =
      keptPrivileges rq t.privileges := Counted.ext_list (congrArg Prod.fst hsweep)
  rw [hrun, Option.map_some, Option.getD_some, hkept]

end Privileges

/-! ### The loop over the groups -/

section Groups

variable {rq : FilterRequest}

/-- No group is found again once it is disabled. -/
def settles (rq : FilterRequest) : List SidAndAttributes → Bool
  | [] => true
  | e :: rest => !(groupFound rq (e :: rest) && groupFound rq (e.disable :: rest)) && settles rq rest

/-- The groups after the loop. -/
def filteredGroups (rq : FilterRequest) : List SidAndAttributes → List SidAndAttributes
  | [] => []
  | e :: rest => (if groupFound rq (e :: rest) then e.disable else e) :: filteredGroups rq rest

theorem length_filteredGroups (l : List SidAndAttributes) :
    (filteredGroups rq l).length = l.length := by
  induction l with
  | nil => rfl
  | cons e l ih => rw [filteredGroups, length_cons, length_cons, ih]

/-- A group that is disabled is for deny only. -/
theorem disabledAttributes_and (a : Ulong) :
    disabledAttributes a &&& seGroupUseForDenyOnly ≠ 0 ∧
      disabledAttributes a &&& seGroupEnabled = 0 := by
  rw [disabledAttributes]
  constructor
  · refine and_ne_zero_iff.mpr ⟨4, ?_, by decide⟩
    rw [BitVec.getLsbD_or, show seGroupUseForDenyOnly.getLsbD 4 = true by decide, Bool.or_true]
  · refine eq_zero_iff.mpr fun i => ?_
    rw [BitVec.getLsbD_and, BitVec.getLsbD_or, getLsbD_and_not, BitVec.getLsbD_or]
    cases hi : seGroupEnabled.getLsbD i with
    | false => rw [Bool.and_false]
    | true =>
      have hdeny : seGroupUseForDenyOnly.getLsbD i = false := by
        have hlt := BitVec.lt_of_getLsbD hi
        revert hi
        interval_cases i <;> decide
      rw [hdeny]
      simp

/-- Disabling twice is disabling once. -/
theorem disable_disable (e : SidAndAttributes) : e.disable.disable = e.disable := by
  have hattr : ∀ a : Ulong, disabledAttributes (disabledAttributes a) = disabledAttributes a := by
    intro a
    refine BitVec.eq_of_getLsbD_eq fun i hi => ?_
    simp only [disabledAttributes, BitVec.getLsbD_or, BitVec.getLsbD_and, BitVec.getLsbD_not, hi]
    cases a.getLsbD i <;> cases seGroupUseForDenyOnly.getLsbD i <;>
      cases seGroupEnabled.getLsbD i <;> cases seGroupEnabledByDefault.getLsbD i <;> rfl
  rw [SidAndAttributes.disable, SidAndAttributes.disable, SidAndAttributes.setAttributes_setAttributes,
    SidAndAttributes.attributes_setAttributes, hattr]

/-- What the loop over the groups leaves alone, and what it may do to the flags. -/
structure GroupsOnly (t t' : Token) : Prop where
  restrictedSids : t'.restrictedSids = t.restrictedSids
  privileges : t'.privileges = t.privileges
  primaryGroup : t'.primaryGroup = t.primaryGroup
  tokenFlags : t'.tokenFlags = t.tokenFlags ∨ t'.tokenFlags = t.tokenFlags &&& ~~~tokenHasAdminGroup

theorem GroupsOnly.refl (t : Token) : GroupsOnly t t := ⟨rfl, rfl, rfl, .inl rfl⟩

theorem GroupsOnly.trans {t t' t'' : Token} (h : GroupsOnly t t') (h' : GroupsOnly t' t'') :
    GroupsOnly t t'' := by
  refine ⟨h'.restrictedSids.trans h.restrictedSids, h'.privileges.trans h.privileges,
    h'.primaryGroup.trans h.primaryGroup, ?_⟩
  rcases h.tokenFlags with h₁ | h₁ <;> rcases h'.tokenFlags with h₂ | h₂
  · exact .inl (h₂.trans h₁)
  · exact .inr (by rw [h₂, h₁])
  · exact .inr (h₂.trans h₁)
  · exact .inr (by rw [h₂, h₁, BitVec.and_assoc, BitVec.and_self])

theorem groupsOnly_disableGroup (t : Token) (index : ℕ) (e : SidAndAttributes) :
    GroupsOnly t (disableGroup rq t index e) := by
  refine ⟨rfl, rfl, rfl, ?_⟩
  rw [disableGroup]
  split
  · exact .inr rfl
  · exact .inl rfl

section Turns

variable {pre rest : List SidAndAttributes} {e : SidAndAttributes}

section

variable (hg : t.userAndGroups.list = pre ++ e :: rest)
include hg

theorem getElem?_of_groups : t.userAndGroups.list[pre.length]? = some e := by
  rw [hg, getElem?_append_right (le_refl _), Nat.sub_self, getElem?_cons_zero]

theorem length_lt_of_groups : pre.length + 1 < 0x100000000 + 1 := by
  have hlt := t.userAndGroups.length_lt
  rw [hg, length_append] at hlt
  omega

/-- A group that is found is disabled, and looked at again. -/
theorem groupTurn_found (hfound : groupFound rq (e :: rest) = true) :
    groupTurn rq (pre.length, t) = .again (pre.length, disableGroup rq t pre.length e) := by
  have hlt := length_lt_of_groups hg
  rw [groupTurn]
  simp only [getElem?_of_groups hg]
  rw [hg, drop_left, if_pos hfound, stepUp_stepDown (by omega)]

/-- Any other group is passed over. -/
theorem groupTurn_other (hother : groupFound rq (e :: rest) = false) :
    groupTurn rq (pre.length, t) = .again ((pre ++ [e]).length, t) := by
  have hlt := t.userAndGroups.length_lt
  rw [hg, length_append, length_cons] at hlt
  rw [groupTurn]
  simp only [getElem?_of_groups hg]
  rw [hg, drop_left, hother, if_neg (by decide), length_append, length_singleton]
  by_cases hend : pre.length + 1 < 0x100000000
  · rw [stepUp_of_lt hend]
  · omega

end

theorem groups_disableGroup (rq : FilterRequest) (hg : t.userAndGroups.list = pre ++ e :: rest) :
    (disableGroup rq t pre.length e).userAndGroups.list = pre ++ e.disable :: rest := by
  rw [disableGroup, Counted.list_set, hg, set_append_right _ _ (le_refl _), Nat.sub_self,
    set_cons_zero]

end Turns

/-- **The loop over the groups**, from an index with `pre` behind it and `rest` ahead:
if no group is found again, it ends within two turns for each. -/
theorem groupLoop_from (pre rest : List SidAndAttributes) (t : Token) (hn : 2 * rest.length < n)
    (hg : t.userAndGroups.list = pre ++ rest) (hsettles : settles rq rest = true) :
    ∃ t', GroupsOnly t t' ∧ t'.userAndGroups.list = pre ++ filteredGroups rq rest ∧
      loop (groupTurn rq) n (pre.length, t) = some (.ok t') := by
  induction rest generalizing pre t n with
  | nil =>
    rcases n with - | n
    · omega
    refine ⟨t, .refl t, hg, loop_succ_leave n ?_⟩
    rw [groupTurn]
    simp only [hg, append_nil, getElem?_eq_none (le_refl _)]
  | cons e rest ih =>
    rw [settles, Bool.and_eq_true, Bool.not_eq_true', Bool.and_eq_false_iff] at hsettles
    obtain ⟨hagain, hsettles⟩ := hsettles
    rw [length_cons] at hn
    obtain ⟨n, rfl⟩ : ∃ k, n = k + 2 := ⟨n - 2, by omega⟩
    rw [filteredGroups]
    cases hfound : groupFound rq (e :: rest) with
    | false =>
      rw [if_neg (by decide), loop_succ_again (n + 1) (groupTurn_other hg hfound)]
      have hg' : t.userAndGroups.list = (pre ++ [e]) ++ rest := by
        rw [hg, append_assoc, singleton_append]
      obtain ⟨t', hkeep, hlist, hloop⟩ := ih (pre ++ [e]) t (n := n + 1) (by omega) hg' hsettles
      exact ⟨t', hkeep, by rw [hlist, append_assoc, singleton_append], hloop⟩
    | true =>
      -- one turn disables the group, the next one passes over it
      have hnot : groupFound rq (e.disable :: rest) = false := by
        rcases hagain with h | h
        · rw [hfound] at h
          cases h
        · exact h
      have hdis := groups_disableGroup rq hg
      rw [if_pos rfl, loop_succ_again (n + 1) (groupTurn_found hg hfound),
        loop_succ_again n (groupTurn_other hdis hnot)]
      have hg' : (disableGroup rq t pre.length e).userAndGroups.list =
          (pre ++ [e.disable]) ++ rest := by
        rw [hdis, append_assoc, singleton_append]
      obtain ⟨t', hkeep, hlist, hloop⟩ :=
        ih (pre ++ [e.disable]) (disableGroup rq t pre.length e) (n := n) (by omega) hg' hsettles
      exact ⟨t', (groupsOnly_disableGroup t _ e).trans hkeep,
        by rw [hlist, append_assoc, singleton_append], hloop⟩

/-- **The loop over the groups never ends** if a group is found again. -/
theorem groupLoop_diverges_from (pre rest : List SidAndAttributes) (t : Token) (n : ℕ)
    (hg : t.userAndGroups.list = pre ++ rest) (hsettles : settles rq rest = false) :
    loop (groupTurn rq) n (pre.length, t) = none := by
  induction rest generalizing pre t n with
  | nil => cases hsettles
  | cons e rest ih =>
    obtain _ | n := n
    · rfl
    have hdis := groups_disableGroup rq hg
    cases hfound : groupFound rq (e :: rest) with
    | false =>
      rw [settles, hfound] at hsettles
      rw [loop_succ_again n (groupTurn_other hg hfound)]
      exact ih (pre ++ [e]) t n (by rw [hg, append_assoc, singleton_append]) hsettles
    | true =>
      rw [loop_succ_again n (groupTurn_found hg hfound)]
      cases hagain : groupFound rq (e.disable :: rest) with
      | false =>
        rw [settles, hagain, Bool.and_false] at hsettles
        obtain _ | n := n
        · rfl
        rw [loop_succ_again n (groupTurn_other hdis hagain)]
        exact ih (pre ++ [e.disable]) _ n
          (by rw [hdis, append_assoc, singleton_append]) hsettles
      | true =>
        -- found again with the same attributes, over and over
        refine loop_eq_none (fun s : ℕ × Token => s.1 = pre.length ∧
          s.2.userAndGroups.list = pre ++ e.disable :: rest) ?_ ⟨rfl, hdis⟩ n
        rintro ⟨_, t'⟩ ⟨rfl, ht'⟩
        refine ⟨_, groupTurn_found ht' hagain, rfl, ?_⟩
        rw [groups_disableGroup rq ht', disable_disable]

/-- **The loop over the groups.** -/
theorem groupLoop_eq (t : Token) (hn : 2 * t.userAndGroups.list.length < n)
    (hsettles : settles rq t.userAndGroups.list = true) :
    ∃ t', GroupsOnly t t' ∧ t'.userAndGroups.list = filteredGroups rq t.userAndGroups.list ∧
      runLoop (groupTurn rq) n (0, t) = .ok t' := by
  obtain ⟨t', hkeep, hlist, hloop⟩ := groupLoop_from [] t.userAndGroups.list t hn rfl hsettles
  refine ⟨t', hkeep, hlist, ?_⟩
  rw [runLoop, show (0, t) = (([] : List SidAndAttributes).length, t) from rfl, hloop,
    Option.getD_some]

theorem groupLoop_diverges (t : Token) (n : ℕ)
    (hsettles : settles rq t.userAndGroups.list = false) :
    runLoop (groupTurn rq) n (0, t) = .error .noReturn := by
  rw [runLoop, show (0, t) = (([] : List SidAndAttributes).length, t) from rfl,
    groupLoop_diverges_from [] t.userAndGroups.list t n rfl hsettles, Option.getD_none]

end Groups

/-! ### What filtering leaves -/

section Whole

variable {rq : FilterRequest} {primary : SidAndAttributes}

/-- The copies of the groups, before the loop over them. -/
def copiedGroups (rq : FilterRequest) : List SidAndAttributes :=
  (relocate rq.groupPlace rq.token.userAndGroups).list

theorem getElem?_copiedGroups (rq : FilterRequest) (i : ℕ) :
    (copiedGroups rq)[i]? =
      rq.token.userAndGroups.list[i]?.map fun e => { e with pointer := rq.groupPlace i } := by
  rw [copiedGroups, relocate, getElem?_mapIdx]

/-- The flags once the privileges have been taken out. -/
def filteredFlags (rq : FilterRequest) : Ulong :=
  flagsAfter rq (startFlags rq) rq.token.privileges.list

/-- **The filtered token**, as the loops leave it. -/
structure Filtered (rq : FilterRequest) (t' : Token) : Prop where
  privileges : t'.privileges = keptPrivileges rq rq.token.privileges
  userAndGroups : t'.userAndGroups.list = filteredGroups rq (copiedGroups rq)
  restrictedSids : t'.restrictedSids = restrictingSids rq
  tokenFlags : t'.tokenFlags = filteredFlags rq ∨
    t'.tokenFlags = filteredFlags rq &&& ~~~tokenHasAdminGroup

/-- The groups after the loop, one by one. -/
theorem getElem?_filteredGroups (l : List SidAndAttributes) (i : ℕ) :
    (filteredGroups rq l)[i]? =
      l[i]?.map fun e => if groupFound rq (l.drop i) then e.disable else e := by
  induction l generalizing i with
  | nil => rfl
  | cons e l ih =>
    cases i with
    | zero => rfl
    | succ i => exact ih i

/-- Of the flags of the token only these three change at the start. -/
theorem startFlags_and_other {other : Ulong} (hsession : tokenSessionNotReferenced &&& other = 0)
    (hsandbox : tokenSandboxInert &&& other = 0) : startFlags rq &&& other =
      (if rq.restrictedSidsIntoToken.isSome then rq.token.tokenFlags ||| tokenIsRestricted
        else rq.token.tokenFlags) &&& other := by
  rw [startFlags]
  have hinert : ∀ x : Ulong, (x ||| tokenSandboxInert) &&& other = x &&& other :=
    fun x => or_and_of_disjoint hsandbox
  have hnot : ∀ x : Ulong, (x &&& ~~~tokenSessionNotReferenced) &&& other = x &&& other :=
    fun x => and_not_and_of_disjoint hsession
  cases rq.restrictedSidsIntoToken.isSome <;> simp only [Bool.false_eq_true, if_false, if_true] <;>
    split <;> simp only [hinert, hnot, BitVec.and_or_distrib_right]

theorem filteredGroups_of_none (h : rq.sidsToBeDisabled = none) (l : List SidAndAttributes) :
    filteredGroups rq l = l ∧ settles rq l = true := by
  induction l with
  | nil => exact ⟨rfl, rfl⟩
  | cons e l ih =>
    rw [filteredGroups, settles, groupFound, h, ih.1, ih.2]
    exact ⟨rfl, rfl⟩

/-- The token between the two loops. -/
def betweenLoops (rq : FilterRequest) (primary : SidAndAttributes) : Token :=
  { copiedToken rq primary with
    privileges := keptPrivileges rq rq.token.privileges
    tokenFlags := filteredFlags rq }

section

variable (primary : SidAndAttributes)

theorem privilegeLoop_copied (hn : rq.token.privileges.list.length < n) :
    runLoop (privilegeTurn rq) n (0, copiedToken rq primary) = .ok (betweenLoops rq primary) :=
  privilegeLoop_eq (copiedToken rq primary) hn

/-- **The two loops end** if no group is found again. -/
theorem filterLoops_eq (hsettles : settles rq (copiedGroups rq) = true) :
    ∃ t' N, Filtered rq t' ∧ ∀ n ≥ N, filterLoops n rq (copiedToken rq primary) = .ok t' := by
  cases hlist : rq.sidsToBeDisabled with
  | none =>
    refine ⟨betweenLoops rq primary, rq.token.privileges.list.length + 1,
      ⟨rfl, ?_, rfl, .inl rfl⟩, fun n hn => ?_⟩
    · exact (filteredGroups_of_none hlist (copiedGroups rq)).1.symm
    · rw [filterLoops, privilegeLoop_copied primary hn, hlist]
      rfl
  | some list =>
    obtain ⟨t', hkeep, hgroups, hloop⟩ := groupLoop_eq (betweenLoops rq primary)
      (n := 2 * (copiedGroups rq).length + 1) (Nat.lt_succ_self _) hsettles
    refine ⟨t', rq.token.privileges.list.length + 1 + (2 * (copiedGroups rq).length + 1),
      ⟨hkeep.privileges, hgroups, hkeep.restrictedSids, hkeep.tokenFlags⟩, fun n hn => ?_⟩
    rw [filterLoops, privilegeLoop_copied primary (by omega), hlist]
    exact runLoop_mono hloop (by omega)

/-- **They never end** otherwise. -/
theorem filterLoops_diverges (hsettles : settles rq (copiedGroups rq) = false) (n : ℕ) :
    filterLoops n rq (copiedToken rq primary) = .error .noReturn := by
  have hsome : rq.sidsToBeDisabled.isSome = true := by
    by_contra hnone
    rw [Bool.not_eq_true, Option.isSome_eq_false_iff, Option.isNone_iff_eq_none] at hnone
    rw [(filteredGroups_of_none hnone _).2] at hsettles
    cases hsettles
  have hfirst := privilegeLoop_copied primary (Nat.lt_succ_self rq.token.privileges.list.length)
  rw [filterLoops]
  rcases runLoop_eq_or hfirst n with h | h
  · rw [h, hsome]
    exact groupLoop_diverges (betweenLoops rq primary) n hsettles
  · rw [h]
    rfl

end

/-- A larger budget changes nothing once the loops have ended. -/
theorem filterLoops_mono {n k : ℕ} (h : filterLoops n rq t = .ok t') (hk : n ≤ k) :
    filterLoops k rq t = .ok t' := by
  rw [filterLoops] at h ⊢
  cases hp : runLoop (privilegeTurn rq) n (0, t) with
  | error fault =>
    rw [hp] at h
    cases h
  | ok t1 =>
    rw [hp] at h
    rw [runLoop_mono hp hk]
    cases hsome : rq.sidsToBeDisabled.isSome with
    | false =>
      rw [hsome] at h
      exact h
    | true =>
      rw [hsome] at h
      exact runLoop_mono (s := (0, t1)) h hk

/-- What comes before the loops goes well. -/
structure Proceeds (rq : FilterRequest) (primary : SidAndAttributes) : Prop where
  created : rq.created.isSuccess = true
  attributes : ∀ e ∈ (rq.restrictedSidsIntoToken.map Counted.list).getD [], e.attributes = 0
  primary : sepFindPrimaryGroupAndDefaultOwner (copiedGroups rq) rq.token.primaryGroup = .ok primary
  allocate : rq.allocate = true

theorem any_attributes_eq_false_iff {l : List SidAndAttributes} :
    (l.any fun e => e.attributes != 0) = false ↔ ∀ e ∈ l, e.attributes = 0 := by
  simp [any_eq_false]

theorem sepPerformTokenFiltering_of_proceeds (h : Proceeds rq primary) (n : ℕ) :
    sepPerformTokenFiltering n rq = (filterLoops n rq (copiedToken rq primary)).map .ok := by
  rw [sepPerformTokenFiltering, h.created, any_attributes_eq_false_iff.mpr h.attributes]
  rw [show (relocate rq.groupPlace rq.token.userAndGroups).list = copiedGroups rq from rfl, h.primary]
  simp only [h.allocate, Bool.not_true, Bool.false_eq_true, if_false]

/-- **A token that is returned is the filtered one.** -/
theorem filtered_of_ok (h : sepPerformTokenFiltering n rq = .ok (.ok t')) : Filtered rq t' := by
  have hproceeds : ∃ primary, Proceeds rq primary := by
    rw [sepPerformTokenFiltering] at h
    split at h
    · cases h
    rename_i hcreated
    split at h
    · cases h
    rename_i hattr
    split at h
    · cases h
    rename_i primary hprimary
    split at h
    · cases h
    rename_i halloc
    exact ⟨primary, by simpa using hcreated,
      any_attributes_eq_false_iff.mp (by simpa using hattr), hprimary, by simpa using halloc⟩
  obtain ⟨primary, hproceeds⟩ := hproceeds
  rw [sepPerformTokenFiltering_of_proceeds hproceeds] at h
  cases hsettles : settles rq (copiedGroups rq) with
  | false =>
    rw [filterLoops_diverges primary hsettles] at h
    cases h
  | true =>
    obtain ⟨t'', N, hfiltered, hloops⟩ := filterLoops_eq primary hsettles
    cases hn : filterLoops n rq (copiedToken rq primary) with
    | error fault =>
      rw [hn] at h
      cases h
    | ok t0 =>
      rw [hn] at h
      cases h
      have hsame := (filterLoops_mono hn (le_max_left n N)).symm.trans (hloops _ (le_max_right n N))
      cases hsame
      exact hfiltered

end Whole

end Windivs

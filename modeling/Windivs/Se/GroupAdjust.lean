import Windivs.Se.Token

/-!
# Adjusting the groups of a token

`SepAdjustGroups` of `tokenadj.c` is meant to enable and disable groups as a list
asks, or to bring all of them back to their default. `Windivs.GroupsAdjusted` says so,
and `Windivs.groupsPromise_iff` says when it does.

Three things stand in the way. The comparison is made with the addresses of the `Sid`
fields, so it compares the bytes of the two arrays and finds a group only if the list
has it with the same pointer and the same attributes (`Windivs.exists_of_foundInList`).
A group that is found is disabled, whatever the list asks for. And `NewAttributes` is
applied to a group that is not found as well: the test that should skip it stands
inside the search, where its condition is never true. The variable is not set in that
turn, so the group gets the attributes computed for an earlier one, or whatever the
variable held before anything was written to it (`Windivs.GroupRequest.uninitialised`).

When the groups are reset, enabling is written to the token in place, and neither
counted nor subject to `ApplyChanges`; disabling is computed and not written.
-/

namespace Windivs

open List

variable {a : Ulong} {e : SidAndAttributes} {rq : GroupRequest}

/-! ### The code -/

/-- `TOKEN_GROUPS` of the caller: a count, and the memory behind it. -/
structure TokenGroups where
  groupCount : ℕ
  groups : ℕ → SidAndAttributes

/-- The arguments of `SepAdjustGroups`, and what lies in memory. -/
structure GroupRequest where
  token : Token
  newState : List SidAndAttributes
  applyChanges : Bool
  resetToDefaultStates : Bool
  previousGroupsState : Option TokenGroups
  /-- What `NewAttributes` holds before anything is written to it. -/
  uninitialised : Ulong
  /-- The memory behind the array of groups. -/
  afterGroups : View
  /-- The memory behind `NewState`. -/
  afterList : View
  /-- A pointer leads to one identifier. -/
  coherent : ∀ e ∈ token.userAndGroups.list, ∀ x ∈ newState, e.pointer = x.pointer →
    sidValue e.sid = sidValue x.sid

/-- The variables of the loop. -/
structure GroupVars where
  newAttributes : Ulong
  groupsCount : ℕ
  changeCount : ℕ
  changesMade : Bool
  previousGroupsState : Option TokenGroups

/-- The loop over `NewState`, for the group `e` with `rest` behind it: the value of
`NewAttributes` afterwards, or the status to return with. -/
def lookUpGroup (rq : GroupRequest) (newAttributes : Ulong) (e : SidAndAttributes)
    (rest : List SidAndAttributes) : List SidAndAttributes → Except NtStatus Ulong
  | [] => .ok newAttributes
  | x :: list =>
    if rtlEqualSid (arrayView (e :: rest) rq.afterGroups) (arrayView (x :: list) rq.afterList) then
      if e.attributes &&& seGroupMandatory ≠ 0 ∧ x.attributes &&& seGroupEnabled = 0 then
        .error .cantDisableMandatory
      else if e.attributes &&& seGroupUseForDenyOnly ≠ 0 ∧ x.attributes &&& seGroupEnabled ≠ 0 then
        .error .cantEnableDenyOnly
      else
        -- what is asked for is written to `NewAttributes`, and then overwritten
        .ok (e.attributes &&& ~~~seGroupEnabled)
    else lookUpGroup rq newAttributes e rest list

/-- A group brought back to its default, as far as that is written to the token. -/
def resetGroup (e : SidAndAttributes) : SidAndAttributes :=
  if e.attributes &&& seGroupEnabledByDefault ≠ 0 ∧ e.attributes &&& seGroupEnabled = 0 then
    e.setAttributes (e.attributes ||| seGroupEnabled)
  else e

/-- `NewAttributes` after a turn that resets a group. -/
def resetNewAttributes (newAttributes : Ulong) (e : SidAndAttributes) : Ulong :=
  let newAttributes :=
    if e.attributes &&& seGroupEnabledByDefault ≠ 0 ∧ e.attributes &&& seGroupEnabled = 0 then
      e.attributes ||| seGroupEnabled
    else newAttributes
  let e := resetGroup e
  if e.attributes &&& seGroupEnabledByDefault = 0 ∧ e.attributes &&& seGroupEnabled ≠ 0 then
    e.attributes &&& ~~~seGroupEnabled
  else newAttributes

/-- The end of a turn that does not reset: compare, save, write and count. -/
def changeGroup (rq : GroupRequest) (v : GroupVars) (e : SidAndAttributes) :
    SidAndAttributes × GroupVars :=
  if e.attributes ≠ v.newAttributes then
    (if rq.applyChanges then e.setAttributes v.newAttributes else e,
      { v with
        changeCount := v.changeCount + 1
        changesMade := rq.applyChanges || v.changesMade
        previousGroupsState := v.previousGroupsState.map fun b =>
          { b with groups := Function.update b.groups v.changeCount e } })
  else (e, v)

/-- One turn of the loop over the groups. -/
def adjustGroup (rq : GroupRequest) (v : GroupVars) (e : SidAndAttributes)
    (rest : List SidAndAttributes) : Except NtStatus (SidAndAttributes × GroupVars) :=
  if rq.resetToDefaultStates then
    .ok (resetGroup e, { v with newAttributes := resetNewAttributes v.newAttributes e })
  else
    match lookUpGroup rq v.newAttributes e rest rq.newState with
    | .error status => .error status
    | .ok a => .ok (changeGroup rq { v with newAttributes := a, groupsCount := v.groupsCount + 1 } e)

/-- The loop over the groups: the groups and the variables when it ends, and the status
if it returns early. -/
def adjustGroups (rq : GroupRequest) (v : GroupVars) :
    List SidAndAttributes → List SidAndAttributes × GroupVars × Option NtStatus
  | [] => ([], v, none)
  | e :: rest =>
    match adjustGroup rq v e rest with
    | .error status => (e :: rest, v, some status)
    | .ok (e', v') => ((e' :: (adjustGroups rq v' rest).1), (adjustGroups rq v' rest).2)

theorem length_adjustGroups (rq : GroupRequest) (v : GroupVars) (l : List SidAndAttributes) :
    (adjustGroups rq v l).1.length = l.length := by
  induction l generalizing v with
  | nil => rfl
  | cons e rest ih =>
    rw [adjustGroups]
    split
    · rfl
    · rw [length_cons, length_cons, ih]

/-- What `SepAdjustGroups` returns and writes. -/
structure GroupResult where
  status : NtStatus
  token : Token
  previousGroupsState : Option TokenGroups
  /-- `none` if nothing was written to it. -/
  changedGroups : Option ℕ
  changesMade : Bool

/-- The variables before the loop. -/
def GroupRequest.start (rq : GroupRequest) : GroupVars :=
  ⟨rq.uninitialised, 0, 0, false, rq.previousGroupsState⟩

/-- The token after the loop. -/
def GroupRequest.tokenAfter (rq : GroupRequest) : Token :=
  { rq.token with
    userAndGroups :=
      { list := (adjustGroups rq rq.start rq.token.userAndGroups.list).1
        length_lt := by simpa [length_adjustGroups] using rq.token.userAndGroups.length_lt } }

/-- `SepAdjustGroups`. -/
def sepAdjustGroups (rq : GroupRequest) : GroupResult :=
  match (adjustGroups rq rq.start rq.token.userAndGroups.list).2 with
  | (v, some status) => ⟨status, rq.tokenAfter, v.previousGroupsState, none, v.changesMade⟩
  | (v, none) =>
    { status :=
        if !rq.resetToDefaultStates && v.groupsCount < rq.newState.length then .notAllAssigned
        else .success
      token := rq.tokenAfter
      previousGroupsState := v.previousGroupsState.map fun b => { b with groupCount := v.changeCount }
      changedGroups := some v.changeCount
      changesMade := v.changesMade }

/-! ### What it is for -/

/-- The attributes a group should have afterwards, if a list asks. -/
def wantedAttributes (rq : GroupRequest) (e : SidAndAttributes) : Ulong :=
  match rq.newState.find? fun x => rtlEqualSid e.sid x.sid with
  | some x => x.attributes &&& seGroupEnabled ||| e.attributes &&& ~~~seGroupEnabled
  | none => e.attributes

/-- **What adjusting groups promises**, in identifiers. -/
structure GroupsAdjusted (rq : GroupRequest) (r : GroupResult) : Prop where
  listed : rq.resetToDefaultStates = false →
    ∀ (i : ℕ) (e e' : SidAndAttributes), rq.token.userAndGroups.list[i]? = some e →
      r.token.userAndGroups.list[i]? = some e' → ∀ x ∈ rq.newState, sidValue e.sid = sidValue x.sid →
        e'.attributes = x.attributes &&& seGroupEnabled ||| e.attributes &&& ~~~seGroupEnabled
  others : rq.resetToDefaultStates = false →
    ∀ (i : ℕ) (e e' : SidAndAttributes), rq.token.userAndGroups.list[i]? = some e →
      r.token.userAndGroups.list[i]? = some e' →
        (∀ x ∈ rq.newState, sidValue e.sid ≠ sidValue x.sid) → e' = e
  default : rq.resetToDefaultStates = true → ∀ e' ∈ r.token.userAndGroups.list,
    (e'.attributes &&& seGroupEnabled ≠ 0 ↔ e'.attributes &&& seGroupEnabledByDefault ≠ 0)
  changedGroups : r.changedGroups = some
    ((rq.token.userAndGroups.list.zip r.token.userAndGroups.list).countP fun p =>
      p.1.attributes != p.2.attributes)

/-- With a status that is not an error, the groups are adjusted. -/
def GroupsPromise (rq : GroupRequest) : Prop :=
  (sepAdjustGroups rq).status.isSuccess = true → GroupsAdjusted rq (sepAdjustGroups rq)

/-! ### Adjusting as a list asks -/

section List

variable {rest l : List SidAndAttributes}

/-- The group at the head of the rest of the array is found in the list. -/
def groupMatches (rq : GroupRequest) (l : List SidAndAttributes) : Bool :=
  foundInList (arrayView l rq.afterGroups) rq.afterList rq.newState

/-- A group that is found and must not be changed to what it is: mandatory and
disabled, or for deny only and enabled. -/
def Refused (e : SidAndAttributes) : Prop :=
  e.attributes &&& seGroupMandatory ≠ 0 ∧ e.attributes &&& seGroupEnabled = 0 ∨
    e.attributes &&& seGroupUseForDenyOnly ≠ 0 ∧ e.attributes &&& seGroupEnabled ≠ 0

/-- The search leaves `NewAttributes` alone if it finds nothing. If it finds the group,
it refuses or disables it. -/
theorem lookUpGroup_cases (rq : GroupRequest) (a : Ulong) (e : SidAndAttributes)
    (rest list : List SidAndAttributes) :
    (foundInList (arrayView (e :: rest) rq.afterGroups) rq.afterList list = false ∧
        lookUpGroup rq a e rest list = .ok a) ∨
      foundInList (arrayView (e :: rest) rq.afterGroups) rq.afterList list = true ∧
        ((Refused e ∧ ∃ status : NtStatus, status.isSuccess = false ∧
            lookUpGroup rq a e rest list = .error status) ∨
          ¬Refused e ∧ lookUpGroup rq a e rest list = .ok (e.attributes &&& ~~~seGroupEnabled)) := by
  induction list with
  | nil => exact .inl ⟨rfl, rfl⟩
  | cons x list ih =>
    rw [foundInList, lookUpGroup]
    cases heq : rtlEqualSid (arrayView (e :: rest) rq.afterGroups)
      (arrayView (x :: list) rq.afterList) with
    | false =>
      exact ih
    | true =>
      rw [← (rtlEqualSid_arrayView heq).2]
      refine .inr ⟨rfl, ?_⟩
      by_cases hmandatory : e.attributes &&& seGroupMandatory ≠ 0 ∧
          e.attributes &&& seGroupEnabled = 0
      · rw [if_pos hmandatory]
        exact .inl ⟨.inl hmandatory, _, rfl, rfl⟩
      · rw [if_neg hmandatory]
        by_cases hdeny : e.attributes &&& seGroupUseForDenyOnly ≠ 0 ∧
            e.attributes &&& seGroupEnabled ≠ 0
        · rw [if_pos hdeny]
          exact .inl ⟨.inr hdeny, _, rfl, rfl⟩
        · rw [if_neg hdeny]
          exact .inr ⟨fun h => h.elim hmandatory hdeny, rfl⟩

/-- Some group is refused. -/
def SomeRefused (rq : GroupRequest) : List SidAndAttributes → Prop
  | [] => False
  | e :: rest => (groupMatches rq (e :: rest) = true ∧ Refused e) ∨ SomeRefused rq rest

/-- `NewAttributes` after a turn that refuses nothing. -/
def carried (rq : GroupRequest) (a : Ulong) (e : SidAndAttributes) (rest : List SidAndAttributes) :
    Ulong :=
  if groupMatches rq (e :: rest) then e.attributes &&& ~~~seGroupEnabled else a

/-- The groups after the loop, if nothing is refused. -/
def groupsAfter (rq : GroupRequest) : Ulong → List SidAndAttributes → List SidAndAttributes
  | _, [] => []
  | a, e :: rest =>
    e.setAttributes (carried rq a e rest) :: groupsAfter rq (carried rq a e rest) rest

section

variable (hreset : rq.resetToDefaultStates = false)
include hreset

/-- One turn. -/
theorem adjustGroup_cases (v : GroupVars) (e : SidAndAttributes) (rest : List SidAndAttributes) :
    ((groupMatches rq (e :: rest) = true ∧ Refused e) ∧ ∃ status : NtStatus,
        status.isSuccess = false ∧ adjustGroup rq v e rest = .error status) ∨
      ¬(groupMatches rq (e :: rest) = true ∧ Refused e) ∧ adjustGroup rq v e rest =
        .ok (changeGroup rq { v with
          newAttributes := carried rq v.newAttributes e rest
          groupsCount := v.groupsCount + 1 } e) := by
  rw [adjustGroup, hreset, carried, groupMatches]
  rcases lookUpGroup_cases rq v.newAttributes e rest rq.newState with
    ⟨hno, hlook⟩ | ⟨hyes, ⟨hrefused, status, hstatus, hlook⟩ | ⟨hrefused, hlook⟩⟩
  · rw [hlook, hno]
    exact .inr ⟨fun h => absurd h.1 Bool.false_ne_true, rfl⟩
  · rw [hlook]
    exact .inl ⟨⟨hyes, hrefused⟩, status, hstatus, rfl⟩
  · rw [hlook, hyes]
    exact .inr ⟨fun h => hrefused h.2, rfl⟩

/-- A group that is refused ends the loop. -/
theorem adjustGroups_refused (v : GroupVars)
    (h : SomeRefused rq l) : ∃ v' status, (adjustGroups rq v l).2 = (v', some status) ∧
      status.isSuccess = false := by
  induction l generalizing v with
  | nil => exact h.elim
  | cons e rest ih =>
    rw [adjustGroups]
    rcases adjustGroup_cases hreset v e rest with ⟨-, status, hstatus, hturn⟩ | ⟨hno, hturn⟩
    · rw [hturn]
      exact ⟨v, status, rfl, hstatus⟩
    · rw [hturn]
      exact ih _ (h.resolve_left hno)

omit hreset in
/-- The end of a turn, when changes are applied. -/
theorem changeGroup_apply (happly : rq.applyChanges = true) (v : GroupVars) (e : SidAndAttributes) :
    (changeGroup rq v e).1 = e.setAttributes v.newAttributes ∧
      (changeGroup rq v e).2.newAttributes = v.newAttributes ∧
      (changeGroup rq v e).2.changeCount =
        v.changeCount + if e.attributes != v.newAttributes then 1 else 0 := by
  rw [changeGroup, happly]
  by_cases heq : e.attributes = v.newAttributes
  · rw [if_neg (not_not_intro heq), ← heq]
    refine ⟨rfl, rfl, ?_⟩
    simp
  · rw [if_pos heq]
    refine ⟨rfl, rfl, ?_⟩
    simp [heq]

/-- **The loop, if nothing is refused**: every group gets what `NewAttributes` holds,
and the groups that differ are counted. -/
theorem adjustGroups_eq (happly : rq.applyChanges = true) (v : GroupVars) (h : ¬SomeRefused rq l) :
    ∃ v', adjustGroups rq v l = (groupsAfter rq v.newAttributes l, v', none) ∧
      v'.changeCount = v.changeCount +
        (l.zip (groupsAfter rq v.newAttributes l)).countP fun p => p.1.attributes != p.2.attributes := by
  induction l generalizing v with
  | nil => exact ⟨v, rfl, rfl⟩
  | cons e rest ih =>
    rw [SomeRefused, not_or] at h
    rcases adjustGroup_cases hreset v e rest with ⟨hyes, -⟩ | ⟨-, hturn⟩
    · exact absurd hyes h.1
    · obtain ⟨hgroup, hnew, hcount⟩ := changeGroup_apply happly
        { v with
          newAttributes := carried rq v.newAttributes e rest
          groupsCount := v.groupsCount + 1 } e
      obtain ⟨v', hloop, hchange⟩ := ih (changeGroup rq { v with
        newAttributes := carried rq v.newAttributes e rest
        groupsCount := v.groupsCount + 1 } e).2 h.2
      rw [hnew] at hloop hchange
      refine ⟨v', ?_, ?_⟩
      · rw [adjustGroups, hturn]
        dsimp only
        rw [hloop, hgroup, groupsAfter]
      · rw [hchange, hcount, groupsAfter, zip_cons_cons, countP_cons, Nat.add_assoc,
          Nat.add_comm (countP _ _)]
        rfl

end

/-- The groups as they are wanted come out in step: a group that is found is disabled
already, and one that is not found wants what the group before it wants, the first one
what `NewAttributes` happens to hold. -/
def InStep (rq : GroupRequest) : Ulong → List SidAndAttributes → Prop
  | _, [] => True
  | a, e :: rest =>
    (if groupMatches rq (e :: rest) then e.attributes &&& seGroupEnabled = 0
      else wantedAttributes rq e = a) ∧
    InStep rq (wantedAttributes rq e) rest

theorem and_not_enabled_eq_iff : a &&& ~~~seGroupEnabled = a ↔ a &&& seGroupEnabled = 0 := by
  constructor
  · intro h
    rw [← h, BitVec.and_assoc]
    exact BitVec.and_zero
  · intro h
    refine BitVec.eq_of_getLsbD_eq fun i hi => ?_
    have hbit := congrArg (fun w : Ulong => w.getLsbD i) h
    simp only [BitVec.getLsbD_and] at hbit ⊢
    cases ha : a.getLsbD i <;> simp_all

theorem or_self_enabled (a : Ulong) : a &&& seGroupEnabled ||| a &&& ~~~seGroupEnabled = a := by
  refine BitVec.eq_of_getLsbD_eq fun i hi => ?_
  simp only [BitVec.getLsbD_or, BitVec.getLsbD_and, BitVec.getLsbD_not, hi]
  cases a.getLsbD i <;> cases seGroupEnabled.getLsbD i <;> rfl

section

variable (hlist : (rq.newState.map fun x => sidValue x.sid).Nodup)
include hlist

/-- **What is wanted**, in identifiers: as the list says, or as it was. -/
theorem eq_wantedAttributes_iff {b : Ulong} :
    b = wantedAttributes rq e ↔
      (∀ x ∈ rq.newState, sidValue e.sid = sidValue x.sid →
        b = x.attributes &&& seGroupEnabled ||| e.attributes &&& ~~~seGroupEnabled) ∧
      ((∀ x ∈ rq.newState, sidValue e.sid ≠ sidValue x.sid) → b = e.attributes) := by
  rw [wantedAttributes]
  cases hfind : rq.newState.find? fun x => rtlEqualSid e.sid x.sid with
  | none =>
    have hno : ∀ x ∈ rq.newState, sidValue e.sid ≠ sidValue x.sid := by
      intro x hx heq
      exact find?_eq_none.mp hfind x hx (rtlEqualSid_iff.mpr heq)
    exact ⟨fun h => ⟨fun x hx heq => absurd heq (hno x hx), fun _ => h⟩, fun h => h.2 hno⟩
  | some y =>
    have hy := mem_of_find?_eq_some hfind
    have heq : sidValue e.sid = sidValue y.sid := rtlEqualSid_iff.mp (by simpa using find?_some hfind)
    constructor
    · refine fun h => ⟨fun x hx hsid => ?_, fun hno => absurd heq (hno y hy)⟩
      rw [inj_on_of_nodup_map hlist hx hy (hsid.symm.trans heq)]
      exact h
    · exact fun h => h.1 y hy heq

/-- A group that is found is asked to be what it is. -/
theorem wantedAttributes_of_matches (he : e ∈ rq.token.userAndGroups.list)
    (h : groupMatches rq (e :: rest) = true) : wantedAttributes rq e = e.attributes := by
  obtain ⟨x, hx, hpointer, hattributes⟩ := exists_of_foundInList h
  have hwanted := ((eq_wantedAttributes_iff (e := e) hlist).mp rfl).1 x hx (rq.coherent e he x hx hpointer)
  rw [hwanted, ← hattributes, or_self_enabled]

/-- **The groups come out as wanted exactly if they are in step.** -/
theorem groupsAfter_eq_wanted_iff (hl : ∀ e ∈ l, e ∈ rq.token.userAndGroups.list) (a : Ulong) :
    groupsAfter rq a l = l.map (fun e => e.setAttributes (wantedAttributes rq e)) ↔
      InStep rq a l := by
  induction l generalizing a with
  | nil => exact iff_of_true rfl trivial
  | cons e rest ih =>
    have hhead : carried rq a e rest = wantedAttributes rq e ↔
        if groupMatches rq (e :: rest) then e.attributes &&& seGroupEnabled = 0
          else wantedAttributes rq e = a := by
      rw [carried]
      split
      · rename_i hmatches
        rw [wantedAttributes_of_matches hlist (hl e mem_cons_self) hmatches, and_not_enabled_eq_iff]
      · exact eq_comm
    rw [groupsAfter, map_cons, InStep, ← hhead, cons.injEq]
    constructor
    · rintro ⟨hset, hrest⟩
      have hcarried : carried rq a e rest = wantedAttributes rq e :=
        congrArg SidAndAttributes.attributes hset
      rw [hcarried] at hrest
      exact ⟨hcarried, (ih (fun e he => hl e (mem_cons_of_mem _ he)) _).mp hrest⟩
    · rintro ⟨hcarried, hrest⟩
      rw [hcarried]
      exact ⟨rfl, (ih (fun e he => hl e (mem_cons_of_mem _ he)) _).mpr hrest⟩

omit hlist in
theorem getElem?_groupsAfter {i : ℕ} {e e' : SidAndAttributes} (he : l[i]? = some e)
    (he' : (groupsAfter rq a l)[i]? = some e') : e' = e.setAttributes e'.attributes := by
  induction l generalizing a i with
  | nil => cases he
  | cons f rest ih =>
    cases i with
    | zero =>
      cases he
      cases he'
      rfl
    | succ i => exact ih he he'

omit hlist in
theorem length_groupsAfter (rq : GroupRequest) (a : Ulong) (l : List SidAndAttributes) :
    (groupsAfter rq a l).length = l.length := by
  induction l generalizing a with
  | nil => rfl
  | cons e rest ih => rw [groupsAfter, length_cons, length_cons, ih]

/-- The groups are as wanted, one by one. -/
theorem groupsAfter_eq_iff (a : Ulong) :
    groupsAfter rq a l = l.map (fun e => e.setAttributes (wantedAttributes rq e)) ↔
      (∀ (i : ℕ) (e e' : SidAndAttributes), l[i]? = some e → (groupsAfter rq a l)[i]? = some e' →
        ∀ x ∈ rq.newState, sidValue e.sid = sidValue x.sid →
          e'.attributes = x.attributes &&& seGroupEnabled ||| e.attributes &&& ~~~seGroupEnabled) ∧
      ∀ (i : ℕ) (e e' : SidAndAttributes), l[i]? = some e → (groupsAfter rq a l)[i]? = some e' →
        (∀ x ∈ rq.newState, sidValue e.sid ≠ sidValue x.sid) → e' = e := by
  constructor
  · intro h
    have hwanted : ∀ (i : ℕ) (e e' : SidAndAttributes), l[i]? = some e →
        (groupsAfter rq a l)[i]? = some e' → e' = e.setAttributes (wantedAttributes rq e) := by
      intro i e e' he he'
      rw [h, getElem?_map, he, Option.map_some, Option.some.injEq] at he'
      exact he'.symm
    refine ⟨fun i e e' he he' => ?_, fun i e e' he he' hno => ?_⟩
    · rw [hwanted i e e' he he']
      exact ((eq_wantedAttributes_iff hlist).mp rfl).1
    · rw [hwanted i e e' he he', ((eq_wantedAttributes_iff (e := e) hlist).mp rfl).2 hno]
      exact SidAndAttributes.setAttributes_attributes e
  · rintro ⟨hlisted, hothers⟩
    refine ext_getElem (by rw [length_groupsAfter, length_map]) fun i hi hi' => ?_
    rw [length_groupsAfter] at hi
    have he : l[i]? = some l[i] := getElem?_eq_getElem hi
    have he' := getElem?_eq_getElem (l := groupsAfter rq a l) (by rwa [length_groupsAfter])
    rw [getElem_map, getElem?_groupsAfter he he']
    congr 1
    refine (eq_wantedAttributes_iff hlist).mpr ⟨hlisted i _ _ he he', fun hno => ?_⟩
    rw [hothers i _ _ he he' hno]

end

end List

/-! ### Bringing the groups back to their default -/

section Reset

/-- The loop that resets writes to every group and counts nothing. -/
theorem adjustGroups_reset (hreset : rq.resetToDefaultStates = true) (v : GroupVars)
    (l : List SidAndAttributes) :
    ∃ a, adjustGroups rq v l = (l.map resetGroup, { v with newAttributes := a }, none) := by
  induction l generalizing v with
  | nil => exact ⟨v.newAttributes, rfl⟩
  | cons e rest ih =>
    obtain ⟨a, ha⟩ := ih { v with newAttributes := resetNewAttributes v.newAttributes e }
    refine ⟨a, ?_⟩
    rw [adjustGroups, adjustGroup, hreset, if_pos rfl]
    dsimp only
    rw [ha]
    rfl

theorem countP_zip_map {α : Type*} (f : α → α) (q : α × α → Bool) (l : List α) :
    (l.zip (l.map f)).countP q = l.countP fun a => q (a, f a) := by
  induction l with
  | nil => rfl
  | cons a l ih => rw [map_cons, zip_cons_cons, countP_cons, countP_cons, ih]

/-- A group is in its default state. -/
def AtDefault (e : SidAndAttributes) : Prop :=
  e.attributes &&& seGroupEnabled ≠ 0 ↔ e.attributes &&& seGroupEnabledByDefault ≠ 0

/-- A group in its default state stays. -/
theorem resetGroup_of_atDefault (h : AtDefault e) : resetGroup e = e :=
  if_neg fun hc => h.mpr hc.1 hc.2

end Reset

/-! ### The exact condition -/

/-- **When adjusting groups keeps its promise.** -/
def GroupsKept (rq : GroupRequest) : Prop :=
  if rq.resetToDefaultStates then ∀ e ∈ rq.token.userAndGroups.list, AtDefault e
  else SomeRefused rq rq.token.userAndGroups.list ∨
    InStep rq rq.uninitialised rq.token.userAndGroups.list

theorem groupsPromise_reset (hreset : rq.resetToDefaultStates = true) :
    GroupsPromise rq ↔ ∀ e ∈ rq.token.userAndGroups.list, AtDefault e := by
  obtain ⟨a, hloop⟩ := adjustGroups_reset hreset rq.start rq.token.userAndGroups.list
  have hgroups : (sepAdjustGroups rq).token.userAndGroups.list =
      rq.token.userAndGroups.list.map resetGroup := by
    rw [sepAdjustGroups, hloop]
    exact congrArg Prod.fst hloop
  have hchanged : (sepAdjustGroups rq).changedGroups = some 0 := by
    rw [sepAdjustGroups, hloop]
    rfl
  have hstatus : (sepAdjustGroups rq).status.isSuccess = true := by
    rw [sepAdjustGroups, hloop, hreset]
    rfl
  have hcount : (rq.token.userAndGroups.list.zip (rq.token.userAndGroups.list.map resetGroup)).countP
      (fun p => p.1.attributes != p.2.attributes) = 0 ↔
        ∀ e ∈ rq.token.userAndGroups.list, e.attributes = (resetGroup e).attributes := by
    rw [countP_zip_map, countP_eq_zero]
    simp only [bne_iff_ne, not_not]
  rw [GroupsPromise, forall_prop_of_true hstatus]
  constructor
  · intro h e he
    have hdefault := h.default hreset (resetGroup e) (by rw [hgroups]; exact mem_map_of_mem he)
    have hzero := h.changedGroups
    rw [hchanged, hgroups, Option.some.injEq, eq_comm, hcount] at hzero
    rwa [← hzero e he] at hdefault
  · intro h
    have hsame : rq.token.userAndGroups.list.map resetGroup = rq.token.userAndGroups.list := by
      rw [map_congr_left fun e he => resetGroup_of_atDefault (h e he), map_id']
    refine ⟨fun hc => ?_, fun hc => ?_, fun _ e' he' => ?_, ?_⟩
    · rw [hreset] at hc
      cases hc
    · rw [hreset] at hc
      cases hc
    · rw [hgroups, hsame] at he'
      exact h e' he'
    · rw [hchanged, hgroups, Option.some.injEq, eq_comm, hcount]
      exact fun e he => by rw [resetGroup_of_atDefault (h e he)]

theorem groupsPromise_list (hreset : rq.resetToDefaultStates = false)
    (happly : rq.applyChanges = true) (hlist : (rq.newState.map fun x => sidValue x.sid).Nodup) :
    GroupsPromise rq ↔ SomeRefused rq rq.token.userAndGroups.list ∨
      InStep rq rq.uninitialised rq.token.userAndGroups.list := by
  by_cases hrefused : SomeRefused rq rq.token.userAndGroups.list
  · obtain ⟨v', status, hloop, hstatus⟩ := adjustGroups_refused hreset rq.start hrefused
    refine iff_of_true (fun hc => ?_) (.inl hrefused)
    rw [sepAdjustGroups, hloop, hstatus] at hc
    cases hc
  · obtain ⟨v', hloop, hcount⟩ := adjustGroups_eq hreset happly rq.start hrefused
    have hgroups : (sepAdjustGroups rq).token.userAndGroups.list =
        groupsAfter rq rq.uninitialised rq.token.userAndGroups.list := by
      rw [sepAdjustGroups, hloop]
      exact congrArg Prod.fst hloop
    have hchanged : (sepAdjustGroups rq).changedGroups = some v'.changeCount := by
      rw [sepAdjustGroups, hloop]
    have hstatus : (sepAdjustGroups rq).status.isSuccess = true := by
      rw [sepAdjustGroups, hloop]
      dsimp only
      split <;> rfl
    rw [GroupsPromise, forall_prop_of_true hstatus, or_iff_right hrefused,
      ← groupsAfter_eq_wanted_iff hlist (fun _ he => he), groupsAfter_eq_iff hlist, ← hgroups]
    constructor
    · exact fun h => ⟨h.listed hreset, h.others hreset⟩
    · rintro ⟨hlisted, hothers⟩
      refine ⟨fun _ => hlisted, fun _ => hothers, fun hc => ?_, ?_⟩
      · rw [hreset] at hc
        cases hc
      · rw [hchanged, hcount, hgroups]
        exact congrArg some (Nat.zero_add _)

/-- **Adjusting groups** does what it is for exactly under `Windivs.GroupsKept`. -/
theorem groupsPromise_iff (rq : GroupRequest) (happly : rq.applyChanges = true)
    (hlist : (rq.newState.map fun x => sidValue x.sid).Nodup) :
    GroupsPromise rq ↔ GroupsKept rq := by
  rw [GroupsKept]
  cases hreset : rq.resetToDefaultStates with
  | true => exact groupsPromise_reset hreset
  | false => exact groupsPromise_list hreset happly hlist

/-! ### A list that is not followed -/

/-- A token with World as its user and S-1-5-10 as a group. -/
def twoGroupToken (user group : Ulong) : Token where
  userAndGroups :=
    ⟨[⟨0x1000, seWorldSid, user⟩, ⟨0x1010, sePrincipalSelfSid, group⟩],
      show 2 < 0x100000000 by decide⟩
  restrictedSids := ⟨[], by decide⟩
  privileges := ⟨[], by decide⟩
  tokenFlags := 0
  primaryGroup := seWorldSid
  defaultOwnerIndex := 0

/-- Ask for S-1-5-10 to be enabled or not, by a list that has it at another place. -/
def oneGroupRequest (user group asked uninitialised : Ulong) : GroupRequest where
  token := twoGroupToken user group
  newState := [⟨0x2000, sePrincipalSelfSid, asked⟩]
  applyChanges := true
  resetToDefaultStates := false
  previousGroupsState := none
  uninitialised := uninitialised
  afterGroups := seWorldSid
  afterList := seWorldSid
  coherent := by
    intro e he x hx hpointer
    cases mem_singleton.mp hx
    rcases mem_cons.mp he with rfl | he
    · exact absurd hpointer (by show (0x1000 : Ulong) ≠ 0x2000; decide)
    · cases mem_singleton.mp he
      rfl

/-- If the variable happens to hold the attributes both groups have, and the list asks
for nothing else, all is well. -/
theorem groupsPromise_byChance : GroupsPromise (oneGroupRequest 0x6 0x6 0x4 0x6) := by
  refine (groupsPromise_iff _ rfl (by decide)).mpr ?_
  refine .inr ⟨?_, ?_, trivial⟩
  · decide
  · decide

/-- **A list that is not followed.** The user is enabled and S-1-5-10 is not; the list
asks to enable it. Both get what the variable held before, the status is not an error,
and whatever it was, the groups are not adjusted. -/
theorem groups_not_adjusted :
    ((twoGroupToken 0x6 0).userAndGroups.list.map fun e => sidValue e.sid).Nodup ∧
      ∀ uninitialised, let rq := oneGroupRequest 0x6 0 0x4 uninitialised
        (rq.newState.map fun x => sidValue x.sid).Nodup ∧
          (sepAdjustGroups rq).status.isSuccess = true ∧
            ¬GroupsAdjusted rq (sepAdjustGroups rq) := by
  refine ⟨by decide, fun uninitialised => ?_⟩
  intro rq
  have hfirst : groupMatches rq rq.token.userAndGroups.list = false := rfl
  have hsecond : groupMatches rq [⟨0x1010, sePrincipalSelfSid, 0⟩] = false := rfl
  have hlist : (rq.newState.map fun x => sidValue x.sid).Nodup := nodup_singleton _
  have hpromise : ¬GroupsPromise rq := by
    rw [groupsPromise_list rfl rfl hlist]
    rintro ((⟨hmatches, -⟩ | ⟨hmatches, -⟩ | hnil) | ⟨-, hstep, -⟩)
    · exact absurd (hfirst.symm.trans hmatches) Bool.false_ne_true
    · exact absurd (hsecond.symm.trans hmatches) Bool.false_ne_true
    · exact hnil
    · have hwanted : (0x4 : Ulong) = 0x6 := hstep
      exact absurd hwanted (by decide)
  exact ⟨hlist, Classical.not_imp.mp hpromise⟩

end Windivs

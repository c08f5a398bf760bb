import Windivs.Se.TokenFilter

/-!
# The effect of filtering, against what was asked for

`Windivs.FilteredExactly` says what filtering is for, in identifiers: the privileges
that were asked for are gone, the groups whose identifier is in the list are for
deny only, everything else is as it was, and no flag stands for a privilege that is
not there and enabled.

`SepPerformTokenFiltering` compares bytes of arrays where identifiers are meant, so
it does this only if the bytes happen to agree; and if they agree once more after
the group was disabled, it does not return. `Windivs.filteredExactly_iff` is the
exact condition.
-/

namespace Windivs

open List

variable {rq : FilterRequest}

variable {e : SidAndAttributes} {flag : Ulong} {i : ℕ} {luid : Luid} {t' : Token}

/-- The identifier of a group is in `SidsToBeDisabled`. -/
def Listed (rq : FilterRequest) (e : SidAndAttributes) : Prop :=
  ∃ x ∈ rq.sidsToBeDisabled.getD [], sidValue e.sid = sidValue x.sid

/-- For deny only, and not enabled. -/
def DenyOnly (attributes : Ulong) : Prop :=
  attributes &&& seGroupUseForDenyOnly ≠ 0 ∧ attributes &&& seGroupEnabled = 0

/-- `SeChangeNotifyPrivilege`. -/
def seChangeNotifyPrivilegeLuid : Luid := ⟨seChangeNotifyPrivilege, 0⟩

/-- The privilege is asked to be deleted. -/
def asksToDelete (rq : FilterRequest) (luid : Luid) : Bool :=
  if rq.privilegeFlags &&& disableMaxPrivilege ≠ 0 then luid != seChangeNotifyPrivilegeLuid
  else (rq.privilegesToBeDeleted.getD []).any fun p => luid == p.luid

/-- **What was asked for**, in privileges and identifiers. -/
structure FilteredExactly (rq : FilterRequest) (t' : Token) : Prop where
  privileges : t'.privileges.list =
    rq.token.privileges.list.filter fun p => !asksToDelete rq p.luid
  length_groups : t'.userAndGroups.list.length = rq.token.userAndGroups.list.length
  groups : ∀ (i : ℕ) (e e' : SidAndAttributes), rq.token.userAndGroups.list[i]? = some e →
    t'.userAndGroups.list[i]? = some e' →
      e'.sid = e.sid ∧ (Listed rq e → DenyOnly e'.attributes) ∧
        (¬Listed rq e → e'.attributes = e.attributes)
  flags : ∀ luid flag, privilegeFlag luid = some flag → t'.tokenFlags &&& flag ≠ 0 →
    HasEnabled t'.privileges.list luid

/-- Filtering comes back, and a token it returns is what was asked for. -/
def FilterKeepsPromise (rq : FilterRequest) : Prop :=
  ∃ fuel result, sepPerformTokenFiltering fuel rq = .ok result ∧
    ∀ t', result = .ok t' → FilteredExactly rq t'

/-! ### Groups -/

section Groups

theorem drop_copiedGroups (he : rq.token.userAndGroups.list[i]? = some e) :
    (copiedGroups rq).drop i =
      { e with pointer := rq.groupPlace i } :: (copiedGroups rq).drop (i + 1) := by
  have hi := getElem?_copiedGroups rq i
  rw [he] at hi
  obtain ⟨hlt, hget⟩ := List.getElem?_eq_some_iff.mp hi
  rw [drop_eq_getElem_cons hlt, hget]

/-- **Only listed groups are found.** -/
theorem listed_of_groupFound (he : rq.token.userAndGroups.list[i]? = some e)
    (hfound : groupFound rq ((copiedGroups rq).drop i) = true) : Listed rq e := by
  rw [drop_copiedGroups he] at hfound
  obtain ⟨x, hx, hpointer, -⟩ := exists_of_foundInList hfound
  exact ⟨x, hx, rq.coherent i e he x hx hpointer⟩

/-- **When the groups come out as asked for**: those that are listed are found, or
were for deny only before. -/
theorem groups_exact_iff :
    (∀ (i : ℕ) (e e' : SidAndAttributes), rq.token.userAndGroups.list[i]? = some e →
      (filteredGroups rq (copiedGroups rq))[i]? = some e' →
        e'.sid = e.sid ∧ (Listed rq e → DenyOnly e'.attributes) ∧
          (¬Listed rq e → e'.attributes = e.attributes)) ↔
      ∀ (i : ℕ) (e : SidAndAttributes), rq.token.userAndGroups.list[i]? = some e → Listed rq e →
        groupFound rq ((copiedGroups rq).drop i) = true ∨ DenyOnly e.attributes := by
  have hafter : ∀ (i : ℕ) (e : SidAndAttributes), rq.token.userAndGroups.list[i]? = some e →
      (filteredGroups rq (copiedGroups rq))[i]? = some
        (if groupFound rq ((copiedGroups rq).drop i)
          then SidAndAttributes.disable { e with pointer := rq.groupPlace i }
          else { e with pointer := rq.groupPlace i }) := by
    intro i e he
    rw [getElem?_filteredGroups, getElem?_copiedGroups, he]
    rfl
  constructor
  · intro h i e he hlisted
    obtain ⟨-, hdeny, -⟩ := h i e _ he (hafter i e he)
    cases hfound : groupFound rq ((copiedGroups rq).drop i) with
    | true => exact .inl rfl
    | false =>
      rw [hfound] at hdeny
      exact .inr (hdeny hlisted)
  · intro h i e e' he he'
    rw [hafter i e he, Option.some.injEq] at he'
    subst he'
    cases hfound : groupFound rq ((copiedGroups rq).drop i) with
    | true =>
      exact ⟨rfl, fun _ => disabledAttributes_and e.attributes,
        fun hno => absurd (listed_of_groupFound he hfound) hno⟩
    | false =>
      refine ⟨rfl, fun hlisted => ?_, fun _ => rfl⟩
      rcases h i e he hlisted with hc | hdeny
      · rw [hfound] at hc
        cases hc
      · exact hdeny

end Groups

/-! ### Privileges and flags -/

section Privileges

/-- Two filters of a list agree if and only if they do on every element. -/
theorem filter_eq_filter_iff {α : Type*} {l : List α} {p q : α → Bool} :
    l.filter p = l.filter q ↔ ∀ x ∈ l, p x = q x := by
  constructor
  · intro h x hx
    have hmem : x ∈ l.filter p ↔ x ∈ l.filter q := by rw [h]
    simp only [mem_filter, hx, true_and] at hmem
    exact Bool.eq_iff_iff.mpr hmem
  · exact filter_congr

/-- Under `DISABLE_MAX_PRIVILEGE` only the low part of a privilege is looked at. -/
def LowPartsDecide (rq : FilterRequest) : Prop :=
  rq.privilegeFlags &&& disableMaxPrivilege ≠ 0 → ∀ p ∈ rq.token.privileges.list,
    p.luid.lowPart = seChangeNotifyPrivilege → p.luid.highPart = 0

theorem privileges_exact_iff :
    ((keptPrivileges rq rq.token.privileges).list =
        rq.token.privileges.list.filter fun p => !asksToDelete rq p.luid) ↔ LowPartsDecide rq := by
  rw [keptPrivileges, filter_eq_filter_iff, LowPartsDecide]
  by_cases hmax : rq.privilegeFlags &&& disableMaxPrivilege ≠ 0
  · simp only [deletes, asksToDelete, hmax, ne_eq, not_false_eq_true, true_implies]
    refine forall₂_congr fun p _ => ?_
    rcases p with ⟨⟨low, high⟩, attributes⟩
    simp [seChangeNotifyPrivilegeLuid, bne, Luid.mk.injEq]
  · refine iff_of_true (fun p _ => ?_) fun h => absurd h hmax
    rw [deletes, asksToDelete, if_neg hmax, if_neg hmax]

/-- The flags the loops start from, as far as privileges go. -/
theorem startFlags_and (h : privilegeFlag luid = some flag) :
    startFlags rq &&& flag = rq.token.tokenFlags &&& flag := by
  obtain ⟨-, hrestricted, hsession, hsandbox, -⟩ := privilegeFlag_and_others h
  rw [startFlags_and_other hsession hsandbox]
  split
  · exact or_and_of_disjoint hrestricted
  · rfl

/-- **A flag survives** if no privilege it stands for is taken out. -/
theorem flagsAfter_and (h : privilegeFlag luid = some flag)
    (flags : Ulong) (l : List LuidAndAttributes) :
    flagsAfter rq flags l &&& flag ≠ 0 ↔
      flags &&& flag ≠ 0 ∧ ∀ p ∈ l, p.luid = luid → deletes rq luid = false := by
  induction l generalizing flags with
  | nil => simp [flagsAfter]
  | cons p l ih =>
    cases hp : deletes rq p.luid with
    | false =>
      have hskip : flagsAfter rq flags (p :: l) = flagsAfter rq flags l := by
        simp [flagsAfter, hp]
      rw [hskip, ih, forall_mem_cons]
      refine and_congr_right fun _ => ⟨fun hall => ⟨fun hluid => ?_, hall⟩, fun hall => hall.2⟩
      rwa [← hluid]
    | true =>
      have hstep : flagsAfter rq flags (p :: l) = flagsAfter rq (updateFlags flags
          { p with attributes := p.attributes &&& ~~~sePrivilegeEnabled }) l := by
        simp [flagsAfter, hp]
      have hoff : (p.attributes &&& ~~~sePrivilegeEnabled) &&& sePrivilegeEnabled = 0 := by
        rw [BitVec.and_assoc]
        exact BitVec.and_zero
      rw [hstep, ih, updateFlags_and h, forall_mem_cons]
      by_cases hluid : p.luid = luid
      · rw [if_pos hluid, if_neg (not_not_intro hoff)]
        refine iff_of_false (fun hc => hc.1 rfl) fun hc => ?_
        rw [← hluid, hp] at hc
        exact absurd (hc.2.1 rfl) (by simp)
      · rw [if_neg hluid]
        simp only [hluid, false_implies, true_and]

/-- No flag is left over: a flag that survives stands for a privilege that is kept and
enabled. -/
def FlagsKept (rq : FilterRequest) : Prop :=
  ∀ luid flag, privilegeFlag luid = some flag → rq.token.tokenFlags &&& flag ≠ 0 →
    (∀ p ∈ rq.token.privileges.list, p.luid = luid → deletes rq luid = false) →
      HasEnabled rq.token.privileges.list luid

theorem flags_exact_iff (hfiltered : Filtered rq t') :
    (∀ luid flag, privilegeFlag luid = some flag → t'.tokenFlags &&& flag ≠ 0 →
      HasEnabled t'.privileges.list luid) ↔ FlagsKept rq := by
  have hflag : ∀ luid flag, privilegeFlag luid = some flag → (t'.tokenFlags &&& flag ≠ 0 ↔
      rq.token.tokenFlags &&& flag ≠ 0 ∧
        ∀ p ∈ rq.token.privileges.list, p.luid = luid → deletes rq luid = false) := by
    intro luid flag h
    rw [← startFlags_and h, ← flagsAfter_and h]
    rcases hfiltered.tokenFlags with heq | heq
    · rw [heq, filteredFlags]
    · rw [heq, and_not_and_of_disjoint (privilegeFlag_and_others h).1, filteredFlags]
  have hkept : ∀ luid, (∀ p ∈ rq.token.privileges.list, p.luid = luid → deletes rq luid = false) →
      (HasEnabled t'.privileges.list luid ↔ HasEnabled rq.token.privileges.list luid) := by
    intro luid hall
    rw [hfiltered.privileges, keptPrivileges]
    refine exists_congr fun p => ?_
    rw [mem_filter, and_assoc]
    refine and_congr_right fun hp => ⟨fun h => h.2, fun h => ⟨?_, h⟩⟩
    rw [h.1, hall p hp h.1]
    rfl
  constructor
  · intro h luid flag hluid hset hall
    exact (hkept luid hall).mp (h luid flag hluid ((hflag luid flag hluid).mpr ⟨hset, hall⟩))
  · intro h luid flag hluid hset
    obtain ⟨hstart, hall⟩ := (hflag luid flag hluid).mp hset
    exact (hkept luid hall).mpr (h luid flag hluid hstart hall)

end Privileges

/-! ### The exact condition -/

/-- No group of the token is its primary group, so nothing is returned. -/
def NoPrimaryGroup (rq : FilterRequest) : Prop :=
  ∀ e ∈ rq.token.userAndGroups.list, rtlEqualSid e.sid rq.token.primaryGroup = false

/-- **When filtering does what was asked for**: no group is found again once it is
disabled, the listed groups are found or were for deny only before, only
`SeChangeNotifyPrivilege` has its low part, and no flag is left over. -/
def FilterKept (rq : FilterRequest) : Prop :=
  NoPrimaryGroup rq ∨
    settles rq (copiedGroups rq) = true ∧
      (∀ (i : ℕ) (e : SidAndAttributes), rq.token.userAndGroups.list[i]? = some e → Listed rq e →
        groupFound rq ((copiedGroups rq).drop i) = true ∨ DenyOnly e.attributes) ∧
      LowPartsDecide rq ∧ FlagsKept rq

/-- A filtered token is what was asked for under the same condition. -/
theorem filteredExactly_of_filtered_iff (h : Filtered rq t') :
    FilteredExactly rq t' ↔
      (∀ (i : ℕ) (e : SidAndAttributes), rq.token.userAndGroups.list[i]? = some e → Listed rq e →
        groupFound rq ((copiedGroups rq).drop i) = true ∨ DenyOnly e.attributes) ∧
      LowPartsDecide rq ∧ FlagsKept rq := by
  have hlength : t'.userAndGroups.list.length = rq.token.userAndGroups.list.length := by
    rw [h.userAndGroups, length_filteredGroups, copiedGroups, relocate, length_mapIdx]
  rw [← groups_exact_iff, ← privileges_exact_iff, ← flags_exact_iff h, ← h.userAndGroups,
    ← h.privileges]
  exact ⟨fun hx => ⟨hx.groups, hx.privileges, hx.flags⟩, fun hx => ⟨hx.2.1, hlength, hx.1, hx.2.2⟩⟩

/-- The primary group is searched in the copies, which have the same identifiers. -/
theorem sepFindPrimaryGroupAndDefaultOwner_copied (rq : FilterRequest) :
    (NoPrimaryGroup rq ∧ sepFindPrimaryGroupAndDefaultOwner (copiedGroups rq)
        rq.token.primaryGroup = .error .invalidPrimaryGroup) ∨
      ¬NoPrimaryGroup rq ∧ ∃ primary, sepFindPrimaryGroupAndDefaultOwner (copiedGroups rq)
        rq.token.primaryGroup = .ok primary := by
  have hiff : NoPrimaryGroup rq ↔ ∀ e ∈ copiedGroups rq,
      ¬rtlEqualSid e.sid rq.token.primaryGroup = true := by
    constructor
    · intro h e he
      obtain ⟨i, hi, rfl⟩ := mem_mapIdx.mp he
      simpa using h _ (getElem_mem hi)
    · intro h e he
      obtain ⟨i, hi, rfl⟩ := mem_iff_getElem.mp he
      simpa using h _ (mem_mapIdx.mpr ⟨i, hi, rfl⟩)
  rw [sepFindPrimaryGroupAndDefaultOwner]
  cases hfind : (copiedGroups rq).find? fun e => rtlEqualSid e.sid rq.token.primaryGroup with
  | none => exact .inl ⟨hiff.mpr (find?_eq_none.mp hfind), rfl⟩
  | some e =>
    refine .inr ⟨fun hno => hiff.mp hno e (mem_of_find?_eq_some hfind) ?_, e, rfl⟩
    exact find?_some (p := fun e : SidAndAttributes => rtlEqualSid e.sid _) hfind

/-- **The effect of filtering.** With allocations that succeed and restricting
identifiers without attributes, filtering comes back with what was asked for exactly
under `Windivs.FilterKept`. -/
theorem filteredExactly_iff (rq : FilterRequest) (hcreated : rq.created = .success)
    (hallocate : rq.allocate = true)
    (hattributes : ∀ e ∈ (rq.restrictedSidsIntoToken.map Counted.list).getD [], e.attributes = 0) :
    FilterKeepsPromise rq ↔ FilterKept rq := by
  have hcreated' : rq.created.isSuccess = true := by rw [hcreated]; rfl
  rw [FilterKept]
  rcases sepFindPrimaryGroupAndDefaultOwner_copied rq with ⟨hno, hfind⟩ | ⟨hsome, primary, hfind⟩
  · refine iff_of_true ⟨0, .error .invalidPrimaryGroup, ?_, fun t' h => nomatch h⟩ (.inl hno)
    rw [sepPerformTokenFiltering, hcreated', any_attributes_eq_false_iff.mpr hattributes]
    simp only [Bool.not_true, Bool.false_eq_true, if_false]
    rw [show (relocate rq.groupPlace rq.token.userAndGroups).list = copiedGroups rq from rfl, hfind]
  · have hproceeds : Proceeds rq primary := ⟨hcreated', hattributes, hfind, hallocate⟩
    rw [or_iff_right hsome]
    cases hsettles : settles rq (copiedGroups rq) with
    | false =>
      refine iff_of_false ?_ fun h => absurd h.1 (by decide)
      rintro ⟨fuel, result, hrun, -⟩
      rw [sepPerformTokenFiltering_of_proceeds hproceeds, filterLoops_diverges primary hsettles] at hrun
      cases hrun
    | true =>
      rw [and_iff_right rfl]
      constructor
      · rintro ⟨fuel, result, hfuel, hexact⟩
        have hresult : ∃ t', result = .ok t' := by
          rw [sepPerformTokenFiltering_of_proceeds hproceeds] at hfuel
          cases hloops : filterLoops fuel rq (copiedToken rq primary) with
          | error fault =>
            rw [hloops] at hfuel
            cases hfuel
          | ok t' =>
            rw [hloops] at hfuel
            cases hfuel
            exact ⟨t', rfl⟩
        obtain ⟨t', rfl⟩ := hresult
        exact (filteredExactly_of_filtered_iff (filtered_of_ok hfuel)).mp (hexact t' rfl)
      · intro hkept
        obtain ⟨t', N, hfiltered, hloops⟩ := filterLoops_eq primary hsettles
        refine ⟨N, .ok t', ?_, fun t'' h => ?_⟩
        · rw [sepPerformTokenFiltering_of_proceeds hproceeds, hloops N (le_refl N)]
          rfl
        · cases h
          exact (filteredExactly_of_filtered_iff hfiltered).mpr hkept

/-! ### A listed group that stays enabled -/

/-- A token whose only group, World, is enabled. -/
def worldUserToken : Token where
  userAndGroups := ⟨[⟨0x1000, seWorldSid, 0x7⟩], by decide⟩
  restrictedSids := ⟨[], Counted.length_nil_lt⟩
  privileges := ⟨[⟨seChangeNotifyPrivilegeLuid, sePrivilegeEnabled⟩], by decide⟩
  tokenFlags := tokenHasTraversePrivilege
  primaryGroup := seWorldSid
  defaultOwnerIndex := 0

/-- A request to disable World, where the copy of its identifier is placed at `place`
and the list has it at `listed`. -/
def disableWorld (place listed : Ulong) : FilterRequest where
  token := worldUserToken
  privilegesToBeDeleted := none
  sidsToBeDisabled := some [⟨listed, seWorldSid, 0x7⟩]
  restrictedSidsIntoToken := none
  privilegeFlags := 0
  created := .success
  allocate := true
  groupPlace := fun _ => place
  restrictedPlace := fun _ => 0
  afterGroups := seWorldSid
  afterList := seWorldSid
  coherent := by
    intro i e he x hx _
    cases i with
    | zero =>
      cases he
      cases mem_singleton.mp hx
      rfl
    | succ i => cases he

/-- A request to disable the administrators, who are for deny only already, and to delete a
privilege. -/
def disableTwice : FilterRequest :=
  { disableWorld 0 0 with
    token := { worldUserToken with
      userAndGroups := ⟨[⟨0x1000, seWorldSid, 0x7⟩, ⟨0x1010, seAliasAdminsSid,
        seGroupUseForDenyOnly⟩], by decide⟩
      privileges := ⟨[⟨⟨8, 0⟩, 0⟩, ⟨seChangeNotifyPrivilegeLuid, sePrivilegeEnabled⟩], by decide⟩ }
    privilegesToBeDeleted := some [⟨⟨8, 0⟩, 0⟩]
    sidsToBeDisabled := some [⟨0x3000, seAliasAdminsSid, 0⟩]
    groupPlace := fun i => if i = 0 then 0x2000 else 0x2010
    coherent := by
      intro i e _ x hx hplace
      obtain rfl := mem_singleton.mp hx
      split at hplace <;> exact absurd hplace (by decide) }

/-- Filtering keeps its promise, as the group that is not found is for deny only already. -/
theorem filteredExactly_denyOnly : FilterKeepsPromise disableTwice := by
  refine (filteredExactly_iff _ rfl rfl (fun e he => absurd he not_mem_nil)).mpr
    (.inr ⟨?_, ?_, ?_, ?_⟩)
  · decide
  · intro i e he hlisted
    match i with
    | 0 =>
      -- World is not in the list
      cases he
      obtain ⟨x, hx, heq⟩ := hlisted
      obtain rfl := mem_singleton.mp hx
      exact absurd heq (by decide)
    | 1 =>
      cases he
      exact .inr ⟨by decide, by decide⟩
    | _ + 2 => cases he
  · exact fun h => absurd h (by decide)
  · intro luid flag hluid hset _
    have htable : ∀ x ∈ flagTable, worldUserToken.tokenFlags &&& x.2 ≠ 0 →
        x.1 = seChangeNotifyPrivilegeLuid := by decide
    have hnotify : luid = seChangeNotifyPrivilegeLuid := htable _ (mem_flagTable hluid) hset
    exact ⟨_, mem_cons_of_mem _ (mem_singleton_self _), hnotify.symm, by decide⟩

/-- **A listed group stays enabled.** World is in the list, by another pointer, and
the filtered token has it enabled as before. -/
theorem listed_stays_enabled : let rq := disableWorld 0x2000 0x3000
    rq.created = .success ∧ rq.allocate = true ∧ rq.restrictedSidsIntoToken = none ∧
      ∃ fuel t', sepPerformTokenFiltering fuel rq = .ok (.ok t') ∧
        (∃ e ∈ t'.userAndGroups.list, Listed rq e ∧ ¬DenyOnly e.attributes) ∧
        ¬FilteredExactly rq t' := by
  intro rq
  have hlisted : ∀ e : SidAndAttributes, e.sid = seWorldSid → Listed rq e :=
    fun e he => ⟨_, mem_singleton_self _, by rw [he]⟩
  have henabled : ¬DenyOnly 0x7 := fun h => absurd h.1 (by decide)
  have hproceeds : Proceeds rq ⟨0x2000, seWorldSid, 0x7⟩ :=
    ⟨rfl, fun e he => absurd he not_mem_nil, rfl, rfl⟩
  obtain ⟨t', fuel, hfiltered, hloops⟩ :=
    filterLoops_eq ⟨0x2000, seWorldSid, 0x7⟩ (show settles rq (copiedGroups rq) = true by decide)
  have hok : sepPerformTokenFiltering fuel rq = .ok (.ok t') := by
    rw [sepPerformTokenFiltering_of_proceeds hproceeds, hloops fuel (le_refl fuel)]
    rfl
  have hgroups : t'.userAndGroups.list = [⟨0x2000, seWorldSid, 0x7⟩] := by
    have hnot : groupFound rq [⟨0x2000, seWorldSid, 0x7⟩] = false := by decide
    rw [hfiltered.userAndGroups, show copiedGroups rq = [⟨0x2000, seWorldSid, 0x7⟩] from rfl]
    rfl
  refine ⟨rfl, rfl, rfl, fuel, t', hok,
    ⟨⟨0x2000, seWorldSid, 0x7⟩, ?_, hlisted _ rfl, henabled⟩, fun hexact => ?_⟩
  · rw [hgroups]
    exact mem_singleton_self _
  · exact henabled ((hexact.groups 0 _ _ rfl (by rw [hgroups]; rfl)).2.1 (hlisted _ rfl))

end Windivs

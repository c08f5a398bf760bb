import Windivs.Se.AccessCheck

/-!
# What an access check decides

Without an object type list, a DACL is a rule list and an access check is its
meaning, right by right: `Windivs.daclRules` keeps the entries that count for a
token – not inherit-only, allow or deny, with an identifier that is in the token
for that purpose – and `Windivs.aceVerdict` is the verdict of the first of them
that has the right.

The two sweeps of `SepAnalyzeAcesFromDacl` are the two sweeps of
`Windivs.Lib.FirstMatch` on these rules (`Windivs.maximumLoop_noList`,
`Windivs.regularLoop_noList`), so what `SepAccessCheckWorker` decides can be said
in verdicts alone. For a restricted token there are two rule lists, one for the
identifiers of the token and one for its restricting identifiers; regular mode
wants a right allowed by both, while maximum mode sweeps them one after the other.
-/

namespace Windivs

open List

open BitVec

variable {c : AceContext} {desired granted previous rem wanted x : AccessMask} {i : ℕ} {r : Rule 32}
  {s : AnalysisState}

/-! ### A DACL as a rule list -/

/-- The rule an entry is for a token, if it counts. -/
def aceRule (c : AceContext) (ace : Ace) : Option (Rule 32) :=
  if !ace.effective then none
  else
    match ace.aceType with
    | .accessAllowed | .accessAllowedObject =>
      if sidInToken c ace false then some ⟨.allow, rtlMapGenericMask c.genericMapping ace.mask⟩
      else none
    | .accessDenied | .accessDeniedObject =>
      if sidInToken c ace true then some ⟨.deny, rtlMapGenericMask c.genericMapping ace.mask⟩
      else none
    | _ => none

/-- The entries of a DACL that count for a token. -/
def daclRules (c : AceContext) (dacl : List Ace) : List (Rule 32) := dacl.filterMap (aceRule c)

/-- **The verdict of a DACL on a right**: what the first entry says that counts and
has the right in its mapped mask. -/
def aceVerdict (c : AceContext) (dacl : List Ace) (r : ℕ) : Option Effect :=
  verdict (daclRules c dacl) r

variable {ace : Ace}

theorem daclRules_cons_none (dacl : List Ace)
    (h : aceRule c ace = none) : daclRules c (ace :: dacl) = daclRules c dacl :=
  filterMap_cons_none h

theorem daclRules_cons_some (dacl : List Ace)
    (h : aceRule c ace = some r) : daclRules c (ace :: dacl) = r :: daclRules c dacl :=
  filterMap_cons_some h

/-- The mask of a rule is a mapped mask. -/
theorem mask_of_aceRule (h : aceRule c ace = some r) :
    r.mask = rtlMapGenericMask c.genericMapping ace.mask := by
  rw [aceRule] at h
  split at h
  · cases h
  · revert h
    cases ace.aceType <;> dsimp only <;> intro h
    case accessAllowed | accessAllowedObject | accessDenied | accessDeniedObject =>
      split at h
      · cases h
        rfl
      · cases h
    all_goals cases h

/-- A DACL says nothing about generic rights. -/
theorem aceVerdict_generic (c : AceContext) (dacl : List Ace) {r : ℕ} (hr : 28 ≤ r) :
    aceVerdict c dacl r = none := by
  refine verdict_eq_none fun rule hrule => ?_
  obtain ⟨ace, -, hace⟩ := mem_filterMap.mp hrule
  rw [mask_of_aceRule hace]
  by_cases h32 : r < 32
  · have hgeneric : genericAccess.getLsbD r = true := by interval_cases r <;> decide
    rw [rtlMapGenericMask, getLsbD_and_not, hgeneric]
    simp
  · exact getLsbD_of_ge _ _ (by omega)

/-! ### What an entry of a DACL says -/

section Readings

variable {c : AceContext} {r : ℕ}

/-- Allow or deny, for the types that are one of them. -/
def AceType.effect : AceType → Option Effect
  | .accessAllowed | .accessAllowedObject => some .allow
  | .accessDenied | .accessDeniedObject => some .deny
  | _ => none

/-- The entry is about a right, apart from whom it is about. -/
def Ace.Says (m : GenericMapping) (ace : Ace) (e : Effect) (r : ℕ) : Prop :=
  ace.effective = true ∧ ace.aceType.effect = some e ∧
    (rtlMapGenericMask m ace.mask).getLsbD r = true

/-- An effect, as the flag of `SepSidInTokenEx`. -/
def Effect.isDeny : Effect → Bool
  | .allow => false
  | .deny => true

/-- **An entry speaks for those it names.** -/
theorem reading_aceRule_iff (e : Effect) :
    reading (aceRule c) r ace = some e ↔
      ace.Says c.genericMapping e r ∧ sidInToken c ace e.isDeny = true := by
  rw [reading, aceRule, Ace.Says]
  cases ace.effective with
  | false => simp
  | true =>
    cases ace.aceType <;> dsimp only [AceType.effect]
    case accessAllowed | accessAllowedObject =>
      cases hs : sidInToken c ace false <;> cases e <;> simp [Effect.isDeny, hs]
    case accessDenied | accessDeniedObject =>
      cases hs : sidInToken c ace true <;> cases e <;> simp [Effect.isDeny, hs]
    all_goals simp

/-- An entry that says something names someone. -/
theorem Ace.Says.exists_sid {m : GenericMapping} {e : Effect} (h : ace.Says m e r) :
    ∃ sid, sepGetSidFromAce ace = some sid := by
  obtain ⟨-, heffect, -⟩ := h
  rw [sepGetSidFromAce]
  cases haceType : ace.aceType with
  | unsupported =>
    rw [haceType] at heffect
    cases heffect
  | _ => exact ⟨_, rfl⟩

/-- The identifier an entry names, with the principal put in. -/
def Ace.target (self : Option View) (ace : Ace) : Option View :=
  (sepGetSidFromAce ace).map (sidToFind self)

theorem sidInToken_iff (deny : Bool) :
    sidInToken c ace deny = true ↔ ∃ x, ace.target c.principalSelfSid = some x ∧
      sidLoop x deny c.isTokenRestricted 0 (if c.isTokenRestricted
        then c.accessToken.restrictedSids.list else c.accessToken.userAndGroups.list) = true := by
  rw [sidInToken, Ace.target]
  cases sepGetSidFromAce ace with
  | none => simp
  | some sid => simp [sepSidInTokenEx]

end Readings

section Sweeps

/-- The rights granted and denied so far. -/
def AccessCheckRights.decided (r : AccessCheckRights) : AccessMask × AccessMask :=
  (r.grantedAccessRights, r.deniedAccessRights)

/-- One entry in maximum mode is one rule of the accumulating sweep. -/
theorem maximumAce_noList (ace : Ace) (hs : s.objectTypeList = []) :
    (maximumAce c s ace).objectTypeList = [] ∧
      (maximumAce c s ace).accessCheckRights.decided =
        ((aceRule c ace).map (accumulateRule s.accessCheckRights.decided)).getD
          s.accessCheckRights.decided := by
  have hempty : s.objectTypeList.isEmpty = true := by rw [hs]; rfl
  rw [maximumAce, aceRule]
  cases ace.effective with
  | false => exact ⟨hs, rfl⟩
  | true =>
    simp only [hempty, aceAccess_eq]
    cases ace.aceType <;> dsimp only
    case accessAllowed | accessAllowedObject =>
      cases sidInToken c ace false
      · exact ⟨hs, rfl⟩
      · exact ⟨hs, rfl⟩
    case accessDenied | accessDeniedObject =>
      cases sidInToken c ace true
      · exact ⟨hs, rfl⟩
      · exact ⟨hs, rfl⟩
    all_goals exact ⟨hs, rfl⟩

/-- **Maximum mode is the accumulating sweep.** -/
theorem maximumLoop_noList (dacl : List Ace) (hs : s.objectTypeList = []) :
    (dacl.foldl (maximumAce c) s).objectTypeList = [] ∧
      (dacl.foldl (maximumAce c) s).accessCheckRights.decided =
        accumulate s.accessCheckRights.decided (daclRules c dacl) := by
  induction dacl generalizing s with
  | nil => exact ⟨hs, rfl⟩
  | cons ace dacl ih =>
    obtain ⟨hlist, hdecided⟩ := maximumAce_noList (c := c) ace hs
    obtain ⟨ihlist, ihdecided⟩ := ih hlist
    refine ⟨ihlist, ihdecided.trans ?_⟩
    rw [hdecided]
    cases hrule : aceRule c ace with
    | none => rw [daclRules_cons_none dacl hrule, Option.map_none, Option.getD_none]
    | some r =>
      rw [daclRules_cons_some dacl hrule, Option.map_some, Option.getD_some, accumulate,
        accumulate, foldl_cons]

/-- One entry in regular mode, on the rights still asked for. -/
theorem regularAce_noList (ace : Ace) (hs : s.objectTypeList = []) :
    (regularAce c s ace).1.objectTypeList = [] ∧
      match aceRule c ace with
      | none => regularAce c s ace = (s, false)
      | some ⟨.allow, m⟩ => (regularAce c s ace).2 = false ∧
          (regularAce c s ace).1.accessCheckRights.remainingAccessRights =
            s.accessCheckRights.remainingAccessRights &&& ~~~m
      | some ⟨.deny, m⟩ =>
          (regularAce c s ace).2 = decide (s.accessCheckRights.remainingAccessRights &&& m ≠ 0) ∧
          (regularAce c s ace).1.accessCheckRights.remainingAccessRights =
            s.accessCheckRights.remainingAccessRights := by
  have hempty : s.objectTypeList.isEmpty = true := by rw [hs]; rfl
  have hrefuse : ∀ m, (refuse m s).1.objectTypeList = [] ∧
      (refuse m s).2 = decide (s.accessCheckRights.remainingAccessRights &&& m ≠ 0) ∧
      (refuse m s).1.accessCheckRights.remainingAccessRights =
        s.accessCheckRights.remainingAccessRights := by
    intro m
    rw [refuse]
    by_cases hm : s.accessCheckRights.remainingAccessRights &&& m ≠ 0
    · rw [if_pos hm, decide_eq_true hm]
      exact ⟨hs, rfl, rfl⟩
    · rw [if_neg hm, decide_eq_false hm]
      exact ⟨hs, rfl, rfl⟩
  rw [regularAce, aceRule]
  cases ace.effective with
  | false => exact ⟨hs, rfl⟩
  | true =>
    simp only [hempty, aceAccess_eq]
    cases ace.aceType <;> dsimp only
    case accessAllowed | accessAllowedObject =>
      cases sidInToken c ace false
      · exact ⟨hs, rfl⟩
      · exact ⟨hs, rfl, rfl⟩
    case accessDenied | accessDeniedObject =>
      cases sidInToken c ace true
      · exact ⟨hs, rfl⟩
      · exact hrefuse _
    all_goals exact ⟨hs, rfl⟩

/-- **Regular mode is the requesting sweep.** -/
theorem regularLoop_noList (dacl : List Ace) (hs : s.objectTypeList = []) :
    (regularLoop c s dacl).objectTypeList = [] ∧
      (regularLoop c s dacl).accessCheckRights.remainingAccessRights =
        request s.accessCheckRights.remainingAccessRights (daclRules c dacl) := by
  induction dacl generalizing s with
  | nil => exact ⟨hs, rfl⟩
  | cons ace dacl ih =>
    obtain ⟨hlist, hace⟩ := regularAce_noList (c := c) ace hs
    rw [regularLoop]
    rcases hr : regularAce c s ace with ⟨s', stop⟩
    rw [hr] at hlist hace
    rcases hrule : aceRule c ace with _ | ⟨_ | _, m⟩
    · rw [hrule] at hace
      cases hace
      rw [daclRules_cons_none dacl hrule]
      exact ih hs
    · rw [hrule] at hace
      obtain ⟨hstop, hrem⟩ := hace
      dsimp only at hstop hrem hlist
      rw [daclRules_cons_some dacl hrule, request, ← hrem, hstop]
      exact ih hlist
    · rw [hrule] at hace
      obtain ⟨hstop, hrem⟩ := hace
      dsimp only at hstop hrem hlist
      rw [daclRules_cons_some dacl hrule, request, hstop]
      by_cases hm : s.accessCheckRights.remainingAccessRights &&& m ≠ 0
      · rw [decide_eq_true hm, if_pos hm]
        exact ⟨hlist, hrem⟩
      · rw [decide_eq_false hm, if_neg hm, ← hrem]
        exact ih hlist

end Sweeps

/-! ### The sweeps of a request -/

section Requests

variable {rq : AccessRequest} {dacl : List Ace}

/-- The rules maximum mode goes through: those of the token, and after them those
of the restricting identifiers. -/
def maximumRules (rq : AccessRequest) (dacl : List Ace) : List (Rule 32) :=
  daclRules (rq.context false) dacl ++
    if seTokenIsRestricted rq.token then daclRules (rq.context true) dacl else []

/-- **What maximum mode grants.** -/
theorem getLsbD_maximumSweeps (rq : AccessRequest) (hlist : rq.objectTypeList = []) :
    (maximumSweeps rq dacl).accessCheckRights.grantedAccessRights.getLsbD i =
      (verdict (maximumRules rq dacl) i == some .allow) := by
  obtain ⟨hnil, hdecided⟩ := maximumLoop_noList (c := rq.context false) (s := rq.start) dacl hlist
  rw [← getLsbD_accumulate_zero]
  rw [maximumSweeps, maximumRules]
  cases hr : seTokenIsRestricted rq.token with
  | false =>
    rw [if_neg (by decide), if_neg (by decide), append_nil]
    exact congrArg (fun d : AccessMask × AccessMask => d.1.getLsbD i) hdecided
  | true =>
    rw [accumulate, foldl_append]
    obtain ⟨-, hdecided'⟩ := maximumLoop_noList (c := rq.context true) dacl hnil
    rw [hdecided] at hdecided'
    exact congrArg (fun d : AccessMask × AccessMask => d.1.getLsbD i) hdecided'

/-- A regular sweep grants what every right of it is allowed by. -/
theorem accessIsGranted_regular (dacl : List Ace) (rem : AccessMask) (hs : s.objectTypeList = []) :
    (sepAnalyzeAcesFromDacl c .accessCheckRegular rem dacl s).objectTypeList = [] ∧
      (accessIsGranted (sepAnalyzeAcesFromDacl c .accessCheckRegular rem dacl s) = true ↔
        ∀ i, rem.getLsbD i = true → aceVerdict c dacl i = some .allow) := by
  have hstart : (startRegular rem s).objectTypeList = [] := by rw [startRegular, hs]; rfl
  obtain ⟨hnil, hrem⟩ := regularLoop_noList (c := c) dacl hstart
  refine ⟨hnil, ?_⟩
  rw [accessIsGranted, sepAnalyzeAcesFromDacl]
  simp only [hnil, isEmpty_nil, if_true, beq_iff_eq, hrem]
  exact request_eq_zero_iff rem (daclRules c dacl)

/-- **What regular mode wants**: every right allowed to the token, and for a
restricted token also to its restricting identifiers. -/
theorem regularSweeps_iff (rq : AccessRequest) (dacl : List Ace) (rem : AccessMask)
    (hlist : rq.objectTypeList = []) :
    regularSweeps rq rem dacl = true ↔
      (∀ i, rem.getLsbD i = true → aceVerdict (rq.context false) dacl i = some .allow) ∧
      (seTokenIsRestricted rq.token = true →
        ∀ i, rem.getLsbD i = true → aceVerdict (rq.context true) dacl i = some .allow) := by
  obtain ⟨hnil, hfirst⟩ :=
    accessIsGranted_regular (c := rq.context false) (s := rq.start) dacl rem hlist
  obtain ⟨-, hsecond⟩ := accessIsGranted_regular (c := rq.context true) dacl rem hnil
  rw [regularSweeps, Bool.and_eq_true, Bool.or_eq_true, Bool.not_eq_true', hfirst, hsecond,
    ← Bool.not_eq_true, imp_iff_not_or]

/-! ### The end of a check -/

theorem getLsbD_maximumAllowed : maximumAllowed.getLsbD i = decide (i = 25) := by
  rw [show maximumAllowed = twoPow 32 25 by decide]
  simp [eq_comm]

/-- The end of maximum mode: nothing else remains, and something is granted. -/
theorem concludeMaximum_fst (rem granted previous : AccessMask) :
    (concludeMaximum rem granted previous).1 = .success ↔
      (∀ i, rem.getLsbD i = true → i ≠ 25 → granted.getLsbD i = true) ∧
        previous ||| granted ≠ 0 := by
  have hrem : rem &&& ~~~(maximumAllowed ||| granted) = 0 ↔
      ∀ i, rem.getLsbD i = true → i ≠ 25 → granted.getLsbD i = true := by
    rw [eq_zero_iff]
    refine forall_congr' fun i => ?_
    rw [getLsbD_and_not, getLsbD_or, getLsbD_maximumAllowed]
    by_cases hi : i = 25
    · simp [hi]
    · simp [hi]
  rw [concludeMaximum]
  by_cases h : rem &&& ~~~(maximumAllowed ||| granted) = 0
  · rw [if_neg (not_not_intro h)]
    by_cases hp : previous ||| granted = 0
    · simp [hp]
    · rw [if_pos hp]
      exact iff_of_true rfl ⟨hrem.mp h, hp⟩
  · rw [if_pos h]
    exact iff_of_false (by decide) fun hall => h (hrem.mpr hall.1)

theorem concludeMaximum_snd (h : (concludeMaximum rem granted previous).1 = .success) :
    (concludeMaximum rem granted previous).2 = previous ||| granted := by
  rw [concludeMaximum] at h ⊢
  split at h
  · cases h
  · rw [if_neg ‹_›]
    split <;> rfl

/-- A check that returns the common status succeeds if the status says so. -/
@[simp] theorem granted_returnCommonStatus (status : NtStatus) (granted : AccessMask)
    (privileges : Option (List LuidAndAttributes)) :
    (returnCommonStatus rq status granted privileges).granted = status.isSuccess := by
  rw [returnCommonStatus]
  split <;> rfl

theorem grantedAccessList_returnCommonStatus (huse : rq.useResultList = false) (status : NtStatus)
    (granted : AccessMask) (privileges : Option (List LuidAndAttributes)) :
    (returnCommonStatus rq status granted privileges).grantedAccessList = some [granted] := by
  rw [returnCommonStatus, huse]
  rfl

end Requests

/-! ### The privileges -/

section Policy

variable {rq : AccessRequest}

/-- The rights `SePrivilegePolicyCheck` grants for a privilege, if it does not fail
on the way. -/
def policyMask (desiredAccess : AccessMask) (t : Token) (mode : KProcessorMode) : AccessMask :=
  (if desiredAccess &&& accessSystemSecurity ≠ 0 then accessSystemSecurity else 0) |||
    if desiredAccess &&& writeOwner ≠ 0 ∧ sepSinglePrivilegeCheck seTakeOwnershipPrivilege t mode
      then writeOwner else 0

/-- The right to the audit list is asked for without the privilege for it. -/
def PolicyRefuses (desiredAccess : AccessMask) (t : Token) (mode : KProcessorMode) : Prop :=
  desiredAccess &&& accessSystemSecurity ≠ 0 ∧
    sepSinglePrivilegeCheck seSecurityPrivilege t mode = false

/-- **`SePrivilegePolicyCheck`**, in its three outcomes. -/
theorem sePrivilegePolicyCheck_cases (rq : AccessRequest) :
    (PolicyRefuses rq.mappedDesired rq.token rq.accessMode ∧
      rq.policy = ⟨.privilegeNotHeld, rq.mappedDesired, rq.mappedPrevious, none⟩) ∨
    ¬PolicyRefuses rq.mappedDesired rq.token rq.accessMode ∧
      let mask := policyMask rq.mappedDesired rq.token rq.accessMode
      rq.policy.desiredAccess = rq.mappedDesired &&& ~~~mask ∧
      rq.policy.grantedAccess = rq.mappedPrevious ||| mask ∧
      rq.policy.status = if rq.wantPrivileges = true ∧ mask ≠ 0 ∧ rq.allocate = false
        then .insufficientResources else .success := by
  rw [AccessRequest.policy]
  generalize rq.mappedDesired = desired, rq.mappedPrevious = granted, rq.token = t,
    rq.wantPrivileges = want, rq.allocate = allocate, rq.accessMode = mode
  by_cases h : PolicyRefuses desired t mode
  · have hyes : (desired &&& accessSystemSecurity != 0 &&
        !sepSinglePrivilegeCheck seSecurityPrivilege t mode) = true := by
      rw [h.2, Bool.not_false, Bool.and_true, bne_iff_ne]
      exact h.1
    refine .inl ⟨h, ?_⟩
    simp only [sePrivilegePolicyCheck, hyes, if_true]
  · refine .inr ⟨h, ?_⟩
    have hno : (desired &&& accessSystemSecurity != 0 &&
        !sepSinglePrivilegeCheck seSecurityPrivilege t mode) = false := by
      rw [PolicyRefuses, not_and_or] at h
      rcases h with h | h
      · rw [not_not.mp h]
        rfl
      · rw [Bool.not_eq_false] at h
        rw [h, Bool.not_true, Bool.and_false]
    simp only [sePrivilegePolicyCheck, hno]
    have hmask : (if (desired &&& accessSystemSecurity != 0) = true
        then accessSystemSecurity else 0) ||| (if desired &&& writeOwner ≠ 0 ∧
          sepSinglePrivilegeCheck seTakeOwnershipPrivilege t mode = true then writeOwner else 0) =
        policyMask desired t mode := by
      rw [policyMask]
      simp only [bne_iff_ne]
    rw [hmask]
    by_cases hset : want = true ∧ policyMask desired t mode ≠ 0
    · rw [if_pos hset]
      cases allocate
      · exact ⟨rfl, rfl, (if_pos ⟨hset.1, hset.2, rfl⟩).symm⟩
      · exact ⟨rfl, rfl, (if_neg fun hc => absurd hc.2.2 (by decide)).symm⟩
    · rw [if_neg hset]
      exact ⟨rfl, rfl, (if_neg fun hc => hset ⟨hc.1, hc.2.1⟩).symm⟩

/-- A word with one bit that is shared is contained. -/
theorem getLsbD_of_and_twoPow {k i : ℕ} (h : x &&& twoPow 32 k ≠ 0)
    (hi : (twoPow 32 k).getLsbD i = true) : x.getLsbD i = true := by
  obtain ⟨j, hx, hj⟩ := and_ne_zero_iff.mp h
  simp only [getLsbD_twoPow, Bool.and_eq_true, decide_eq_true_eq] at hi hj
  rwa [← hi.2, hj.2]

/-- Privileges grant only what is desired. -/
theorem getLsbD_policyMask {t : Token} {mode : KProcessorMode}
    (h : (policyMask desired t mode).getLsbD i = true) : desired.getLsbD i = true := by
  rw [policyMask, getLsbD_or, Bool.or_eq_true] at h
  rw [show accessSystemSecurity = twoPow 32 24 by decide,
    show writeOwner = twoPow 32 19 by decide] at h
  rcases h with h | h
  · split at h
    · exact getLsbD_of_and_twoPow ‹_› h
    · exact absurd h (by simp)
  · split at h
    · rename_i hc
      exact getLsbD_of_and_twoPow hc.1 h
    · exact absurd h (by simp)

/-- What remains after the privileges is part of what is desired. -/
theorem getLsbD_policy_desiredAccess (h : rq.policy.desiredAccess.getLsbD i = true) :
    rq.mappedDesired.getLsbD i = true := by
  rcases sePrivilegePolicyCheck_cases rq with ⟨-, heq⟩ | ⟨-, hdesired, -⟩
  · rwa [heq] at h
  · rw [hdesired, getLsbD_and_not, Bool.and_eq_true] at h
    exact h.1

/-- What the privileges grant is part of what is desired, so together with the
desired rights it is nothing new. -/
theorem policy_grantedAccess_or :
    rq.policy.grantedAccess ||| rq.mappedDesired = rq.mappedPrevious ||| rq.mappedDesired := by
  rcases sePrivilegePolicyCheck_cases rq with ⟨-, heq⟩ | ⟨-, -, hgranted, -⟩
  · rw [heq]
  · rw [hgranted]
    refine eq_of_getLsbD_eq fun i _ => ?_
    rw [getLsbD_or, getLsbD_or, getLsbD_or]
    cases hm : (policyMask rq.mappedDesired rq.token rq.accessMode).getLsbD i with
    | false => rw [Bool.or_false]
    | true => rw [getLsbD_policyMask hm, Bool.or_true, Bool.or_true]

theorem isSuccess_policy_iff : rq.policy.status.isSuccess = true ↔ rq.policy.status = .success := by
  refine NtStatus.isSuccess_iff ?_
  rcases sePrivilegePolicyCheck_cases rq with ⟨-, heq⟩ | ⟨-, -, -, hstatus⟩
  · rw [heq]
    exact NtStatus.noConfusion
  · rw [hstatus]
    split <;> decide

end Policy

/-! ### The worker, step by step -/

section Worker

variable {rq : AccessRequest} {dacl : List Ace} {privileges : Option (List LuidAndAttributes)}

/-- Rights can only remain if some were desired. -/
theorem desiredAccess_ne_zero (hrem : rq.policy.desiredAccess ≠ 0) : rq.desiredAccess ≠ 0 := by
  intro h0
  refine hrem (eq_zero_iff.mpr fun i => ?_)
  by_contra hi
  have hbit := getLsbD_policy_desiredAccess (Bool.not_eq_false _ ▸ hi)
  rw [AccessRequest.mappedDesired, h0, rtlMapGenericMask_of_eq_zero _ (by decide)] at hbit
  exact absurd hbit (by simp)

/-- If rights remain, something is granted together with what is desired. -/
theorem or_mappedDesired_ne_zero (hrem : rq.policy.desiredAccess ≠ 0) (x : AccessMask) :
    x ||| rq.mappedDesired ≠ 0 := by
  obtain ⟨r, hr⟩ := exists_getLsbD_of_ne_zero hrem
  refine ne_zero_of_getLsbD (i := r) ?_
  rw [getLsbD_or, getLsbD_policy_desiredAccess hr, Bool.or_true]

theorem sepAccessCheckWorker_of_nothing (h0 : rq.desiredAccess = 0) :
    sepAccessCheckWorker rq =
      if rq.previouslyGrantedAccess = 0 then
        .ok (returnCommonStatus rq .accessDenied rq.previouslyGrantedAccess none)
      else if rq.wantPrivileges then
        .ok (returnCommonStatus rq .success rq.previouslyGrantedAccess none)
      else .error .accessViolation := by
  rw [sepAccessCheckWorker, if_pos h0]

theorem sepAccessCheckWorker_of_policy_error (h0 : rq.desiredAccess ≠ 0)
    (hpolicy : rq.policy.status ≠ .success) :
    sepAccessCheckWorker rq = .ok (returnCommonStatus rq rq.policy.status rq.policy.grantedAccess
      rq.policy.privilegeSet) := by
  have hno : rq.policy.status.isSuccess = false := by
    rw [← Bool.not_eq_true, isSuccess_policy_iff]
    exact hpolicy
  rw [sepAccessCheckWorker, if_neg h0, hno]
  rfl

theorem sepAccessCheckWorker_of_done (h0 : rq.desiredAccess ≠ 0)
    (hpolicy : rq.policy.status = .success) (hrem : rq.policy.desiredAccess = 0) :
    sepAccessCheckWorker rq = .ok (returnCommonStatus rq .success rq.policy.grantedAccess
      rq.policy.privilegeSet) := by
  rw [sepAccessCheckWorker, if_neg h0, isSuccess_policy_iff.mpr hpolicy, if_neg (by decide),
    if_pos hrem]

theorem sepAccessCheckWorker_of_remaining (hpolicy : rq.policy.status = .success)
    (hrem : rq.policy.desiredAccess ≠ 0) :
    sepAccessCheckWorker rq = .ok (checkDescriptor rq rq.mappedDesired
      (rq.mappedDesired ||| rq.mappedPrevious) rq.policy.desiredAccess rq.policy.grantedAccess
      rq.policy.privilegeSet) := by
  rw [sepAccessCheckWorker, if_neg (desiredAccess_ne_zero hrem), isSuccess_policy_iff.mpr hpolicy,
    if_neg (by decide), if_neg hrem]

/-- With a DACL that has entries, the mode is all that is left to choose. -/
theorem checkDescriptor_of_dacl (rq : AccessRequest) (hmap : rq.genericMapping ≠ ⟨0, 0, 0, 0⟩)
    (hsd : rtlGetDaclSecurityDescriptor rq.securityDescriptor = .ok (true, some dacl))
    (hne : dacl ≠ []) :
    checkDescriptor rq desired wanted rem previous privileges =
      if desired &&& maximumAllowed ≠ 0 ∨ rq.useResultList = true then
        checkMaximum rq desired wanted rem previous dacl privileges
      else checkRegular rq desired rem previous dacl privileges := by
  rw [checkDescriptor, if_neg hmap, hsd]
  simp only [if_neg (mt length_eq_zero_iff.mp hne)]

/-- The end of maximum mode without a list. -/
theorem checkMaximum_noList (rq : AccessRequest) (hlist : rq.objectTypeList = []) :
    checkMaximum rq desired wanted rem previous dacl privileges =
      returnCommonStatus rq
        (concludeMaximum rem (maximumSweeps rq dacl).accessCheckRights.grantedAccessRights
          previous).1
        (concludeMaximum rem (maximumSweeps rq dacl).accessCheckRights.grantedAccessRights
          previous).2 privileges := by
  rw [checkMaximum]
  simp only [hlist, isEmpty_nil, if_true]

theorem isSuccess_concludeMaximum :
    (concludeMaximum rem granted previous).1.isSuccess = true ↔
      (concludeMaximum rem granted previous).1 = .success := by
  refine NtStatus.isSuccess_iff ?_
  rw [concludeMaximum]
  split
  · exact NtStatus.noConfusion
  · split <;> exact NtStatus.noConfusion

/-- The end of regular mode. -/
theorem checkRegular_granted :
    (checkRegular rq desired rem previous dacl privileges).granted = true ↔
      regularSweeps rq rem dacl = true ∧ previous ||| desired ≠ 0 := by
  rw [checkRegular]
  cases regularSweeps rq rem dacl with
  | false => simp [NtStatus.isSuccess]
  | true =>
    rw [if_neg (by decide)]
    by_cases h0 : previous ||| desired = 0
    · rw [if_pos h0, granted_returnCommonStatus]
      exact iff_of_false (by decide) fun h => h.2 h0
    · rw [if_neg h0, granted_returnCommonStatus]
      exact iff_of_true rfl ⟨rfl, h0⟩

/-- The rights maximum mode grants from the DACL. -/
def maximumGrant (rq : AccessRequest) (dacl : List Ace) : AccessMask :=
  (maximumSweeps rq dacl).accessCheckRights.grantedAccessRights

theorem getLsbD_maximumGrant (rq : AccessRequest) (hlist : rq.objectTypeList = []) :
    (maximumGrant rq dacl).getLsbD i = true ↔ verdict (maximumRules rq dacl) i = some .allow := by
  rw [maximumGrant, getLsbD_maximumSweeps rq hlist, beq_iff_eq]

/-- **Maximum mode without a list**, in verdicts. -/
theorem checkMaximum_granted (rq : AccessRequest) (dacl : List Ace)
    (desired wanted rem previous : AccessMask) (privileges : Option (List LuidAndAttributes))
    (hlist : rq.objectTypeList = []) :
    ((checkMaximum rq desired wanted rem previous dacl privileges).granted = true ↔
      (∀ i, rem.getLsbD i = true → i ≠ 25 → verdict (maximumRules rq dacl) i = some .allow) ∧
        previous ||| maximumGrant rq dacl ≠ 0) ∧
    ((checkMaximum rq desired wanted rem previous dacl privileges).granted = true →
      rq.useResultList = false →
      (checkMaximum rq desired wanted rem previous dacl privileges).grantedAccessList =
        some [previous ||| maximumGrant rq dacl]) := by
  rw [checkMaximum_noList rq hlist, granted_returnCommonStatus, isSuccess_concludeMaximum]
  refine ⟨?_, fun hsuccess huse => ?_⟩
  · rw [concludeMaximum_fst]
    simp only [← getLsbD_maximumGrant rq hlist]
    rfl
  · rw [grantedAccessList_returnCommonStatus huse, concludeMaximum_snd hsuccess]
    rfl

theorem maximumRules_unrestricted (h : seTokenIsRestricted rq.token = false) :
    maximumRules rq dacl = daclRules (rq.context false) dacl := by
  rw [maximumRules, h, if_neg (by decide), append_nil]

/-- The bit of `MAXIMUM_ALLOWED`. -/
theorem and_maximumAllowed_iff : x &&& maximumAllowed ≠ 0 ↔ x.getLsbD 25 = true := by
  rw [and_ne_zero_iff]
  constructor
  · rintro ⟨i, hx, hi⟩
    rw [getLsbD_maximumAllowed, decide_eq_true_eq] at hi
    rwa [← hi]
  · intro hx
    exact ⟨25, hx, by rw [getLsbD_maximumAllowed]; rfl⟩

/-- **First match.** For an unrestricted token and a DACL with entries, without an
object type list, and once the privileges have been looked at without an error and
rights remain: a check for a set of rights succeeds exactly if every right that
remains has verdict allow, and grants what was granted before and what is desired;
a check with `MAXIMUM_ALLOWED` succeeds exactly if every other right that remains
has verdict allow and something is granted, and grants what was granted before and
the rights with verdict allow. -/
theorem sepAccessCheckWorker_firstMatch (rq : AccessRequest) {dacl : List Ace}
    (hsd : rtlGetDaclSecurityDescriptor rq.securityDescriptor = .ok (true, some dacl))
    (hne : dacl ≠ []) (hunrestricted : seTokenIsRestricted rq.token = false)
    (hlist : rq.objectTypeList = []) (hmap : rq.genericMapping ≠ ⟨0, 0, 0, 0⟩)
    (hpolicy : rq.policy.status = .success) (hrem : rq.policy.desiredAccess ≠ 0) :
    ∃ result, sepAccessCheckWorker rq = .ok result ∧
      (rq.mappedDesired &&& maximumAllowed = 0 →
        (result.granted = true ↔ ∀ r, rq.policy.desiredAccess.getLsbD r = true →
          aceVerdict (rq.context false) dacl r = some .allow) ∧
        (result.granted = true → rq.useResultList = false →
          result.grantedAccessList = some [rq.mappedPrevious ||| rq.mappedDesired])) ∧
      (rq.mappedDesired &&& maximumAllowed ≠ 0 →
        ∃ granted : AccessMask,
          (∀ r, granted.getLsbD r = (rq.policy.grantedAccess.getLsbD r ||
            aceVerdict (rq.context false) dacl r == some .allow)) ∧
          (result.granted = true ↔
            (∀ r, rq.policy.desiredAccess.getLsbD r = true → r ≠ 25 →
              aceVerdict (rq.context false) dacl r = some .allow) ∧ granted ≠ 0) ∧
          (result.granted = true → rq.useResultList = false →
            result.grantedAccessList = some [granted])) := by
  have hbit : ∀ r, (maximumGrant rq dacl).getLsbD r =
      (aceVerdict (rq.context false) dacl r == some .allow) := by
    intro r
    rw [maximumGrant, getLsbD_maximumSweeps rq hlist, maximumRules_unrestricted hunrestricted]
    rfl
  refine ⟨_, sepAccessCheckWorker_of_remaining hpolicy hrem, fun hmax => ?_, fun hmax => ?_⟩
  · rw [checkDescriptor_of_dacl rq hmap hsd hne]
    by_cases huse : rq.useResultList = true
    · -- a result list without a list: maximum mode, and every right asked for is needed
      rw [if_pos (.inr huse), (checkMaximum_granted rq dacl _ _ _ _ _ hlist).1,
        maximumRules_unrestricted hunrestricted]
      refine ⟨⟨fun h r hr => h.1 r hr ?_, fun h => ⟨fun r hr _ => h r hr, ?_⟩⟩,
        fun _ hno => absurd huse (by rw [hno]; decide)⟩
      · rintro rfl
        exact and_maximumAllowed_iff.mpr (getLsbD_policy_desiredAccess hr) hmax
      · obtain ⟨r, hr⟩ := exists_getLsbD_of_ne_zero hrem
        refine ne_zero_of_getLsbD (i := r) ?_
        rw [getLsbD_or, hbit, h r hr, beq_self_eq_true, Bool.or_true]
    · have hregular : ¬(rq.mappedDesired &&& maximumAllowed ≠ 0 ∨ rq.useResultList = true) :=
        not_or_intro (not_not_intro hmax) huse
      rw [if_neg hregular, checkRegular_granted, regularSweeps_iff rq dacl _ hlist, policy_grantedAccess_or]
      have hdesired := or_mappedDesired_ne_zero hrem rq.mappedPrevious
      refine ⟨⟨fun h => h.1.1, fun h => ⟨⟨h, fun hr => ?_⟩, hdesired⟩⟩, fun h huse' => ?_⟩
      · rw [hunrestricted] at hr
        cases hr
      · rw [checkRegular, (regularSweeps_iff rq dacl _ hlist).mpr h.1, if_neg (by decide),
          policy_grantedAccess_or, if_neg hdesired, grantedAccessList_returnCommonStatus huse']
  · rw [checkDescriptor_of_dacl rq hmap hsd hne, if_pos (.inl hmax)]
    obtain ⟨hiff, hgrant⟩ := checkMaximum_granted rq dacl rq.mappedDesired
      (rq.mappedDesired ||| rq.mappedPrevious) rq.policy.desiredAccess rq.policy.grantedAccess
      rq.policy.privilegeSet hlist
    refine ⟨rq.policy.grantedAccess ||| maximumGrant rq dacl, fun r => ?_, ?_, hgrant⟩
    · rw [getLsbD_or, hbit]
    · rw [hiff, maximumRules_unrestricted hunrestricted]
      rfl

end Worker

/-! ### What a check without a list comes down to -/

section Concluded

variable {rq : AccessRequest} {dacl : List Ace} {privileges : Option (List LuidAndAttributes)}
  {status : NtStatus} {P : Prop}

/-- What a DACL has to say to the rights that remain after the privileges. -/
def DaclGrants (rq : AccessRequest) (dacl : List Ace) : Prop :=
  if dacl.length = 0 then
    rq.policy.desiredAccess = maximumAllowed ∧ rq.policy.grantedAccess ≠ 0
  else if rq.mappedDesired &&& maximumAllowed = 0 then
    (∀ r, rq.policy.desiredAccess.getLsbD r = true →
      aceVerdict (rq.context false) dacl r = some .allow) ∧
    (seTokenIsRestricted rq.token = true → ∀ r, rq.policy.desiredAccess.getLsbD r = true →
      aceVerdict (rq.context true) dacl r = some .allow)
  else
    (∀ r, rq.policy.desiredAccess.getLsbD r = true → r ≠ 25 →
      verdict (maximumRules rq dacl) r = some .allow) ∧
    rq.policy.grantedAccess ||| maximumGrant rq dacl ≠ 0

/-- What the descriptor has to say to them. -/
def DescriptorGrants (rq : AccessRequest) : Prop :=
  if rq.genericMapping = ⟨0, 0, 0, 0⟩ then seTokenIsAdmin rq.token = true
  else rq.securityDescriptor.revision = 1 ∧
    ∀ dacl, sepGetDaclFromDescriptor rq.securityDescriptor = some dacl → DaclGrants rq dacl

/-- What a check comes down to that some access is desired for: the privileges are looked at
without an error, and what remains is granted by the descriptor. -/
def FullCheckGrants (rq : AccessRequest) : Prop :=
  rq.policy.status = .success ∧ (rq.policy.desiredAccess = 0 ∨ DescriptorGrants rq)

/-- A result is a success exactly under a condition, and then everything desired is granted. -/
structure Concludes (rq : AccessRequest) (result : AccessResult) (P : Prop) : Prop where
  granted_iff : result.granted = true ↔ P
  rights : P → ∃ granted, result.grantedAccessList = some [granted] ∧
    ∀ r, rq.mappedDesired.getLsbD r = true → r ≠ 25 → granted.getLsbD r = true

theorem concludes_granted (huse : rq.useResultList = false) (hP : P)
    (hall : ∀ r, rq.mappedDesired.getLsbD r = true → r ≠ 25 → granted.getLsbD r = true) :
    Concludes rq (returnCommonStatus rq .success granted privileges) P :=
  ⟨iff_of_true (granted_returnCommonStatus ..) hP,
    fun _ => ⟨granted, grantedAccessList_returnCommonStatus huse .., hall⟩⟩

theorem concludes_refused (hstatus : status.isSuccess = false) (hP : ¬P) :
    Concludes rq (returnCommonStatus rq status granted privileges) P :=
  ⟨iff_of_false (by rw [granted_returnCommonStatus, hstatus]; decide) hP, fun h => absurd h hP⟩

/-- What was granted before or by privilege, or remains, is all that is desired. -/
theorem getLsbD_desired_cases (hpolicy : rq.policy.status = .success)
    (hi : rq.mappedDesired.getLsbD i = true) :
    rq.policy.grantedAccess.getLsbD i = true ∨ rq.policy.desiredAccess.getLsbD i = true := by
  rcases sePrivilegePolicyCheck_cases rq with ⟨-, heq⟩ | ⟨-, hdesired, hgranted, -⟩
  · rw [heq] at hpolicy
    cases hpolicy
  · rw [hdesired, hgranted, getLsbD_or, getLsbD_and_not, hi]
    cases (policyMask rq.mappedDesired rq.token rq.accessMode).getLsbD i <;> simp

/-- The two modes, against a DACL with entries. -/
theorem concludes_entries (hlist : rq.objectTypeList = []) (huse : rq.useResultList = false)
    (hpolicy : rq.policy.status = .success) (hrem : rq.policy.desiredAccess ≠ 0)
    (hne : dacl.length ≠ 0) :
    Concludes rq (if rq.mappedDesired &&& maximumAllowed ≠ 0 ∨ rq.useResultList = true then
        checkMaximum rq rq.mappedDesired wanted rq.policy.desiredAccess rq.policy.grantedAccess dacl
          privileges
      else checkRegular rq rq.mappedDesired rq.policy.desiredAccess rq.policy.grantedAccess dacl
        privileges) (DaclGrants rq dacl) := by
  rw [DaclGrants, if_neg hne]
  by_cases hmax : rq.mappedDesired &&& maximumAllowed = 0
  · rw [if_pos hmax, if_neg (not_or_intro (not_not_intro hmax) (by rw [huse]; decide))]
    have hsweeps := regularSweeps_iff rq dacl rq.policy.desiredAccess hlist
    have hsome := or_mappedDesired_ne_zero hrem rq.policy.grantedAccess
    refine ⟨checkRegular_granted.trans ((and_iff_left hsome).trans hsweeps),
      fun h => ⟨rq.policy.grantedAccess ||| rq.mappedDesired, ?_, fun r hr _ => by
        rw [getLsbD_or, hr, Bool.or_true]⟩⟩
    rw [checkRegular, hsweeps.mpr h, if_neg (by decide), if_neg hsome,
      grantedAccessList_returnCommonStatus huse]
  · rw [if_neg hmax, if_pos (.inl hmax)]
    obtain ⟨hiff, hout⟩ := checkMaximum_granted rq dacl rq.mappedDesired wanted
      rq.policy.desiredAccess rq.policy.grantedAccess privileges hlist
    refine ⟨hiff, fun h => ⟨_, hout (hiff.mpr h) huse, fun r hr hne => ?_⟩⟩
    rw [getLsbD_or, Bool.or_eq_true]
    exact (getLsbD_desired_cases hpolicy hr).imp_right fun hleft =>
      (getLsbD_maximumGrant rq hlist).mpr (h.1 r hleft hne)

/-- The check against the descriptor. -/
theorem checkDescriptor_concludes (hlist : rq.objectTypeList = [])
    (huse : rq.useResultList = false) (hpolicy : rq.policy.status = .success)
    (hrem : rq.policy.desiredAccess ≠ 0) :
    Concludes rq (checkDescriptor rq rq.mappedDesired wanted rq.policy.desiredAccess
      rq.policy.grantedAccess privileges) (DescriptorGrants rq) := by
  have hall : ∀ r, rq.mappedDesired.getLsbD r = true →
      (rq.policy.grantedAccess ||| rq.policy.desiredAccess).getLsbD r = true := fun r hr => by
    rw [getLsbD_or, Bool.or_eq_true]
    exact getLsbD_desired_cases hpolicy hr
  rw [checkDescriptor, DescriptorGrants]
  by_cases hmap : rq.genericMapping = ⟨0, 0, 0, 0⟩
  · rw [if_pos hmap, if_pos hmap]
    cases seTokenIsAdmin rq.token with
    | true => exact concludes_granted huse rfl fun r hr _ => hall r hr
    | false => exact concludes_refused rfl (by decide)
  rw [if_neg hmap, if_neg hmap, rtlGetDaclSecurityDescriptor]
  by_cases hrev : rq.securityDescriptor.revision = 1
  · rw [if_neg (not_not_intro hrev), and_iff_right hrev]
    cases hdacl : sepGetDaclFromDescriptor rq.securityDescriptor with
    | none =>
      have hgranted : Concludes rq (returnCommonStatus rq .success
          (if rq.policy.desiredAccess &&& maximumAllowed ≠ 0 then
            (rq.policy.grantedAccess ||| rq.policy.desiredAccess) &&& ~~~maximumAllowed |||
              rq.genericMapping.genericAll
          else rq.policy.grantedAccess ||| rq.policy.desiredAccess) privileges)
          (∀ dacl, none = some dacl → DaclGrants rq dacl) := by
        refine concludes_granted huse nofun fun r hr hne => ?_
        split
        · rw [getLsbD_or, getLsbD_and_not, hall r hr, getLsbD_maximumAllowed, decide_eq_false hne,
            Bool.not_false, Bool.and_self, Bool.true_or]
        · exact hall r hr
      cases rq.securityDescriptor.daclPresent <;> exact hgranted
    | some dacl =>
      have hpresent : rq.securityDescriptor.daclPresent = true := by
        by_contra hc
        rw [sepGetDaclFromDescriptor, if_neg hc] at hdacl
        cases hdacl
      simp only [hpresent, Option.some.injEq, forall_eq']
      by_cases hne : dacl.length = 0
      · rw [if_pos hne, DaclGrants, if_pos hne]
        split
        · rename_i h
          refine concludes_granted huse h fun r hr hne => ?_
          refine (getLsbD_desired_cases hpolicy hr).resolve_right fun hleft => ?_
          rw [h.1, getLsbD_maximumAllowed] at hleft
          exact hne (of_decide_eq_true hleft)
        · exact concludes_refused rfl ‹_›
      · rw [if_neg hne]
        exact concludes_entries hlist huse hpolicy hrem hne
  · rw [if_pos hrev]
    exact concludes_refused rfl fun h => hrev h.1

/-- **What a check without a list comes down to**, if some access is desired. -/
theorem sepAccessCheckWorker_concludes (hlist : rq.objectTypeList = [])
    (huse : rq.useResultList = false) (h0 : rq.desiredAccess ≠ 0) :
    ∃ result, sepAccessCheckWorker rq = .ok result ∧ Concludes rq result (FullCheckGrants rq) := by
  rw [FullCheckGrants]
  by_cases hpolicy : rq.policy.status = .success
  · rw [and_iff_right hpolicy]
    by_cases hrem : rq.policy.desiredAccess = 0
    · refine ⟨_, sepAccessCheckWorker_of_done h0 hpolicy hrem,
        concludes_granted huse (.inl hrem) fun r hr _ => ?_⟩
      refine (getLsbD_desired_cases hpolicy hr).resolve_right fun hleft => ?_
      rw [hrem] at hleft
      exact absurd hleft (by simp)
    · rw [or_iff_right hrem]
      exact ⟨_, sepAccessCheckWorker_of_remaining hpolicy hrem,
        checkDescriptor_concludes hlist huse hpolicy hrem⟩
  · refine ⟨_, sepAccessCheckWorker_of_policy_error h0 hpolicy, concludes_refused ?_ fun h =>
      hpolicy h.1⟩
    rw [← Bool.not_eq_true, isSuccess_policy_iff]
    exact hpolicy

end Concluded

/-! ### A token that is everyone -/

/-- A token whose user is World, without groups and privileges. -/
def worldToken : Token where
  userAndGroups := ⟨[⟨0x1000, seWorldSid, 0x7⟩], show 1 < 0x100000000 by decide⟩
  restrictedSids := ⟨[], Counted.length_nil_lt⟩
  privileges := ⟨[], Counted.length_nil_lt⟩
  tokenFlags := 0
  primaryGroup := seWorldSid
  defaultOwnerIndex := 0

/-- An entry that allows World the rights of a mask. -/
def allowWorld (mask : AccessMask) : Ace := ⟨.accessAllowed, 0, mask, 0, seWorldSid⟩

/-- A check for a token against a DACL, with the generic mapping of files. -/
def requestFor (t : Token) (dacl : List Ace) (desired : AccessMask) : AccessRequest where
  securityDescriptor := ⟨1, true, some dacl⟩
  clientAccessToken := none
  primaryAccessToken := t
  principalSelfSid := none
  desiredAccess := desired
  objectTypeList := []
  previouslyGrantedAccess := 0
  genericMapping := ⟨0x120089, 0x120116, 0x1200a0, 0x1f01ff⟩
  accessMode := .userMode
  useResultList := false
  wantPrivileges := true
  allocate := true

/-- World is allowed to read, and a request to read is granted. -/
theorem sepAccessCheckWorker_firstMatch_world :
    ∃ result, sepAccessCheckWorker (requestFor worldToken [allowWorld 0x1] 0x1) = .ok result ∧
      result.granted = true ∧ result.grantedAccessList = some [0x1] := by
  obtain ⟨result, hrun, hregular, -⟩ := sepAccessCheckWorker_firstMatch
    (requestFor worldToken [allowWorld 0x1] 0x1)
    (show _ = Except.ok (true, some [allowWorld 0x1]) from rfl) (cons_ne_nil _ _)
    (by decide) rfl (by decide) (by decide) (by decide)
  obtain ⟨hiff, hlist⟩ := hregular (by decide)
  have hgranted : result.granted = true := by
    refine hiff.mpr fun r hr => ?_
    have hlt := lt_of_getLsbD hr
    interval_cases r <;> first | decide | exact absurd hr (by decide)
  exact ⟨result, hrun, hgranted, (hlist hgranted rfl).trans (by decide)⟩

/-- **The privilege comes first.** World is allowed the right to the audit list, so
every right that is asked for has verdict allow, and still the check fails: the
token does not hold the privilege that `SePrivilegePolicyCheck` wants for it. -/
theorem verdict_allow_not_enough :
    let rq := requestFor worldToken [allowWorld accessSystemSecurity] accessSystemSecurity
    seTokenIsRestricted rq.token = false ∧ rq.policy.desiredAccess ≠ 0 ∧
      rq.mappedDesired &&& maximumAllowed = 0 ∧
      (∀ r, rq.policy.desiredAccess.getLsbD r = true →
        aceVerdict (rq.context false) [allowWorld accessSystemSecurity] r = some .allow) ∧
      sepAccessCheckWorker rq =
        .ok ⟨.privilegeNotHeld, some [0], some [.privilegeNotHeld], none⟩ := by
  refine ⟨by decide, by decide, by decide, fun r hr => ?_, by rfl⟩
  have hlt := lt_of_getLsbD hr
  interval_cases r <;> first | decide | exact absurd hr (by decide)

end Windivs

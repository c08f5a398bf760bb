import Windivs.Se.Verdict

/-!
# Asking for the maximum, and asking for one right

A check with `MAXIMUM_ALLOWED` tells what a token may do with an object; a check
for a single right tells whether it may do that. The first should never promise
what the second refuses. Two things come in between.

* For a restricted token, regular mode wants a right allowed to the token and to
  its restricting identifiers. Maximum mode sweeps the DACL for the one and then for
  the other on the same records, so a right allowed by the first sweep stays granted
  whatever the second would have said, and one that the first leaves open is granted
  by the second alone.
* The right to the audit list is granted by a DACL entry in maximum mode, and only
  by a privilege in regular mode.

`Windivs.maximum_imp_regular_iff` says for which rights the promise is kept.
-/

namespace Windivs

open BitVec

/-- A single right. -/
def singleRight (r : ℕ) : AccessMask := BitVec.twoPow 32 r

namespace AccessRequest

/-- The same request for other rights, with nothing granted before. -/
def ask (rq : AccessRequest) (desired : AccessMask) : AccessRequest :=
  { rq with desiredAccess := desired, previouslyGrantedAccess := 0 }

/-- The check succeeds. -/
def Succeeds (rq : AccessRequest) : Prop :=
  ∃ result, sepAccessCheckWorker rq = .ok result ∧ result.granted = true

/-- The check succeeds and the right is among those granted. -/
def Grants (rq : AccessRequest) (r : ℕ) : Prop :=
  ∃ result granted, sepAccessCheckWorker rq = .ok result ∧ result.granted = true ∧
    result.grantedAccessList = some [granted] ∧ granted.getLsbD r = true

/-- The set of privileges can be returned, if it is wanted. -/
def HasRoom (rq : AccessRequest) : Prop := rq.wantPrivileges = true → rq.allocate = true

end AccessRequest

section MaximumAllowed

variable {rq : AccessRequest} {dacl : List Ace} {r : ℕ}

/-- Neither of the two rights that privileges can grant is asked for. -/
theorem policyMask_eq_zero {desired : AccessMask} {t : Token} {mode : KProcessorMode}
    (hsecurity : desired &&& accessSystemSecurity = 0) (howner : desired &&& writeOwner = 0 ∨
      sepSinglePrivilegeCheck seTakeOwnershipPrivilege t mode = false) :
    policyMask desired t mode = 0 := by
  rw [policyMask, if_neg (not_not_intro hsecurity), if_neg]
  · decide
  · rintro ⟨hwants, hheld⟩
    rcases howner with h | h
    · exact hwants h
    · rw [h] at hheld
      cases hheld

/-- Without privileges in play, the masks stay as they are. -/
theorem policy_of_policyMask_eq_zero (rq : AccessRequest)
    (hrefuse : ¬PolicyRefuses rq.mappedDesired rq.token rq.accessMode)
    (hmask : policyMask rq.mappedDesired rq.token rq.accessMode = 0) :
    rq.policy.status = .success ∧ rq.policy.desiredAccess = rq.mappedDesired ∧
      rq.policy.grantedAccess = rq.mappedPrevious := by
  rcases sePrivilegePolicyCheck_cases rq with ⟨hc, -⟩ | ⟨-, hdesired, hgranted, hstatus⟩
  · exact absurd hc hrefuse
  · rw [hdesired, hgranted, hstatus, hmask, if_neg fun hc => hc.2.1 rfl]
    exact ⟨rfl, and_allOnes, or_zero⟩

theorem mappedDesired_ask (rq : AccessRequest) {desired : AccessMask}
    (h : desired &&& genericAccess = 0) : (rq.ask desired).mappedDesired = desired :=
  rtlMapGenericMask_of_eq_zero _ h

theorem mappedPrevious_ask (rq : AccessRequest) (desired : AccessMask) :
    (rq.ask desired).mappedPrevious = 0 :=
  if_neg (not_not_intro rfl)

/-- **What maximum mode promises**, in verdicts. -/
theorem grants_maximumAllowed_iff
    (hsd : rtlGetDaclSecurityDescriptor rq.securityDescriptor = .ok (true, some dacl))
    (hne : dacl ≠ []) (hlist : rq.objectTypeList = []) (hr : r ≠ 25) :
    (rq.ask maximumAllowed).Grants r ↔
      rq.useResultList = false ∧ rq.genericMapping ≠ ⟨0, 0, 0, 0⟩ ∧
        verdict (maximumRules rq dacl) r = some .allow := by
  have hdesired : (rq.ask maximumAllowed).mappedDesired = maximumAllowed :=
    mappedDesired_ask rq (by decide)
  obtain ⟨hstatus, hrem, hprevious⟩ := policy_of_policyMask_eq_zero (rq.ask maximumAllowed)
    (by rw [hdesired]; exact fun hc => hc.1 (by decide))
    (by rw [hdesired]; exact policyMask_eq_zero (by decide) (.inl (by decide)))
  rw [hdesired] at hrem
  rw [mappedPrevious_ask] at hprevious
  have hworker := sepAccessCheckWorker_of_remaining hstatus (by rw [hrem]; decide)
  rw [hdesired, hrem, hprevious] at hworker
  have hgrant : (maximumGrant (rq.ask maximumAllowed) dacl).getLsbD r = true ↔
      verdict (maximumRules rq dacl) r = some .allow :=
    getLsbD_maximumGrant (rq.ask maximumAllowed) hlist
  by_cases hmap : rq.genericMapping = ⟨0, 0, 0, 0⟩
  · -- an administrator is granted `MAXIMUM_ALLOWED` itself, nobody else anything
    refine iff_of_false ?_ fun h => h.2.1 hmap
    rintro ⟨result, granted, hrun, hok, hgranted, hbit⟩
    rw [hworker, checkDescriptor, if_pos (show (rq.ask maximumAllowed).genericMapping = _ from hmap)]
      at hrun
    split at hrun
    · cases hrun
      rw [returnCommonStatus] at hgranted
      split at hgranted
      · cases hgranted
      · cases hgranted
        rw [getLsbD_or, getLsbD_maximumAllowed, decide_eq_false hr] at hbit
        exact absurd hbit (by simp)
    · cases hrun
      rw [granted_returnCommonStatus] at hok
      exact absurd hok (by decide)
  · rw [checkDescriptor_of_dacl (rq.ask maximumAllowed) hmap hsd hne,
      if_pos (.inl (by decide))] at hworker
    obtain ⟨hiff, hout⟩ := checkMaximum_granted (rq.ask maximumAllowed) dacl maximumAllowed
      (maximumAllowed ||| (rq.ask maximumAllowed).mappedPrevious) maximumAllowed 0
      (rq.ask maximumAllowed).policy.privilegeSet hlist
    constructor
    · rintro ⟨result, granted, hrun, hok, hgranted, hbit⟩
      rw [hworker] at hrun
      cases hrun
      cases huse : rq.useResultList with
      | true =>
        rw [checkMaximum_noList (rq.ask maximumAllowed) hlist, returnCommonStatus,
          if_pos (show (rq.ask maximumAllowed).useResultList = true from huse)] at hgranted
        cases hgranted
      | false =>
        rw [hout hok huse] at hgranted
        cases hgranted
        rw [show (0 : AccessMask) ||| maximumGrant (rq.ask maximumAllowed) dacl = _ from zero_or]
          at hbit
        exact ⟨rfl, hmap, hgrant.mp hbit⟩
    · rintro ⟨huse, -, hv⟩
      have hbit : ((0 : AccessMask) ||| maximumGrant (rq.ask maximumAllowed) dacl).getLsbD r =
          true := by
        rw [getLsbD_or, hgrant.mpr hv, Bool.or_true]
      have hok := hiff.mpr ⟨fun i hi hne' => absurd (of_decide_eq_true
        (getLsbD_maximumAllowed ▸ hi)) hne', ne_zero_of_getLsbD hbit⟩
      exact ⟨_, _, hworker, hok, hout hok huse, hbit⟩

/-! ### A single right -/

theorem succeeds_iff {result : AccessResult} (h : sepAccessCheckWorker rq = .ok result) :
    rq.Succeeds ↔ result.granted = true := by
  constructor
  · rintro ⟨result', hrun, hok⟩
    rw [h] at hrun
    cases hrun
    exact hok
  · exact fun hok => ⟨result, h, hok⟩

/-- Success of a check without a list for which some access is desired. -/
theorem succeeds_iff_fullCheckGrants (rq : AccessRequest) (hlist : rq.objectTypeList = [])
    (huse : rq.useResultList = false) (h0 : rq.desiredAccess ≠ 0) :
    rq.Succeeds ↔ FullCheckGrants rq := by
  obtain ⟨_, hrun, hconcludes⟩ := sepAccessCheckWorker_concludes hlist huse h0
  rw [succeeds_iff hrun, hconcludes.granted_iff]

/-- With room for the set of privileges only the right to the audit list can be refused. -/
theorem policy_status_of_hasRoom (rq : AccessRequest) (hroom : rq.HasRoom)
    (hrefuse : ¬PolicyRefuses rq.mappedDesired rq.token rq.accessMode) :
    rq.policy.status = .success := by
  rcases sePrivilegePolicyCheck_cases rq with ⟨hc, -⟩ | ⟨-, -, -, hstatus⟩
  · exact absurd hc hrefuse
  · rw [hstatus, if_neg]
    rintro ⟨hwant, -, hno⟩
    rw [hroom hwant] at hno
    cases hno

theorem getLsbD_singleRight (hr : r < 32) : (singleRight r).getLsbD r = true := by
  rw [singleRight, getLsbD_twoPow, decide_eq_true hr, decide_eq_true rfl, Bool.and_self]

/-- Two single rights meet only if they are the same. -/
theorem singleRight_and {k : ℕ} (hk : k < 32) : singleRight r &&& singleRight k ≠ 0 ↔ r = k := by
  rw [and_ne_zero_iff]
  simp only [singleRight, getLsbD_twoPow, Bool.and_eq_true, decide_eq_true_eq]
  constructor
  · rintro ⟨i, ⟨-, hr⟩, -, hk'⟩
    omega
  · rintro rfl
    exact ⟨r, ⟨hk, rfl⟩, hk, rfl⟩

theorem singleRight_and_generic (hr : r < 28) : singleRight r &&& genericAccess = 0 := by
  rw [eq_zero_iff]
  intro i
  rw [getLsbD_and, singleRight]
  by_cases hi : r = i
  · subst hi
    have hlow : genericAccess.getLsbD r = false := by
      interval_cases r <;> decide
    rw [hlow, Bool.and_false]
  · simp [hi]

/-- The token holds the privilege for the right to take ownership. -/
def OwnerByPrivilege (rq : AccessRequest) (r : ℕ) : Prop :=
  r = 19 ∧ sepSinglePrivilegeCheck seTakeOwnershipPrivilege rq.token rq.accessMode = true

/-- A right that a privilege grants needs no DACL, only room to say so. -/
theorem succeeds_of_privilege (hlist : rq.objectTypeList = []) (huse : rq.useResultList = false)
    (hr : r < 28) (hrefuse : ¬PolicyRefuses (singleRight r) rq.token rq.accessMode)
    (hmask : policyMask (singleRight r) rq.token rq.accessMode = singleRight r) :
    (rq.ask (singleRight r)).Succeeds ↔ rq.HasRoom := by
  have hdesired := mappedDesired_ask rq (singleRight_and_generic hr)
  have hne : singleRight r ≠ 0 := ne_zero_of_getLsbD (getLsbD_singleRight (by omega))
  have hpolicy : (rq.ask (singleRight r)).policy.desiredAccess = 0 ∧
      (rq.ask (singleRight r)).policy.status =
        if rq.wantPrivileges = true ∧ rq.allocate = false then .insufficientResources
        else .success := by
    rcases sePrivilegePolicyCheck_cases (rq.ask (singleRight r)) with
      ⟨hc, -⟩ | ⟨-, hrem, -, hstatus⟩
    · exact absurd (hdesired ▸ hc) hrefuse
    · rw [hdesired] at hrem hstatus
      have hmask' : policyMask (singleRight r) (rq.ask (singleRight r)).token
        (rq.ask (singleRight r)).accessMode = singleRight r := hmask
      rw [hmask'] at hrem hstatus
      refine ⟨hrem.trans (eq_zero_iff.mpr fun i => ?_), hstatus.trans ?_⟩
      · rw [getLsbD_and_not, Bool.and_not_self]
      · simp only [hne, ne_eq, not_false_eq_true, true_and]
        rfl
  rw [succeeds_iff_fullCheckGrants (rq.ask (singleRight r)) hlist huse hne, FullCheckGrants,
    hpolicy.1, hpolicy.2, and_iff_left (.inl rfl)]
  by_cases hroom : rq.wantPrivileges = true ∧ rq.allocate = false
  · rw [if_pos hroom]
    exact iff_of_false (by decide) fun h => absurd (h hroom.1) (by rw [hroom.2]; decide)
  · rw [if_neg hroom]
    refine iff_of_true rfl fun hwant => ?_
    by_contra hno
    exact hroom ⟨hwant, by simpa using hno⟩

/-- **What regular mode decides about a single right**: the audit list is a matter
of a privilege, and so is ownership if the privilege is held; everything else is up
to the DACL. -/
theorem succeeds_singleRight_iff
    (hsd : rtlGetDaclSecurityDescriptor rq.securityDescriptor = .ok (true, some dacl))
    (hne : dacl ≠ []) (hlist : rq.objectTypeList = []) (huse : rq.useResultList = false)
    (hmap : rq.genericMapping ≠ ⟨0, 0, 0, 0⟩) (hr : r < 28) (hmax : r ≠ 25) :
    ((r = 24 → ((rq.ask (singleRight r)).Succeeds ↔
        sepSinglePrivilegeCheck seSecurityPrivilege rq.token rq.accessMode = true ∧ rq.HasRoom)) ∧
      (OwnerByPrivilege rq r → ((rq.ask (singleRight r)).Succeeds ↔ rq.HasRoom)) ∧
      (r ≠ 24 → ¬OwnerByPrivilege rq r → ((rq.ask (singleRight r)).Succeeds ↔
        aceVerdict (rq.context false) dacl r = some .allow ∧
        (seTokenIsRestricted rq.token = true →
          aceVerdict (rq.context true) dacl r = some .allow)))) := by
  have hdesired := mappedDesired_ask rq (singleRight_and_generic hr)
  have hright : singleRight r ≠ 0 := ne_zero_of_getLsbD (getLsbD_singleRight (by omega))
  refine ⟨fun h24 => ?_, fun howner => ?_, fun h24 howner => ?_⟩
  · subst h24
    cases hheld : sepSinglePrivilegeCheck seSecurityPrivilege rq.token rq.accessMode with
    | true =>
      rw [succeeds_of_privilege hlist huse hr
        (fun hc => absurd (hheld.symm.trans hc.2) (by decide))]
      · simp
      · rw [policyMask, if_pos (by decide), if_neg fun hc => hc.1 (by decide)]
        decide
    | false =>
      have hstatus : (rq.ask (singleRight 24)).policy.status = .privilegeNotHeld := by
        rcases sePrivilegePolicyCheck_cases (rq.ask (singleRight 24)) with ⟨-, heq⟩ | ⟨hc, -⟩
        · exact congrArg PolicyResult.status heq
        · exact absurd ⟨by rw [hdesired]; decide, hheld⟩ hc
      rw [succeeds_iff_fullCheckGrants (rq.ask (singleRight 24)) hlist huse hright,
        FullCheckGrants, hstatus]
      simp
  · obtain ⟨rfl, hheld⟩ := howner
    refine succeeds_of_privilege hlist huse hr (fun hc => hc.1 (by decide)) ?_
    rw [policyMask, if_neg (by decide), if_pos ⟨by decide, hheld⟩]
    decide
  · have hsecurity : singleRight r &&& accessSystemSecurity = 0 := by
      by_contra hc
      exact h24 ((singleRight_and (by decide)).mp hc)
    have hmask : policyMask (singleRight r) rq.token rq.accessMode = 0 := by
      refine policyMask_eq_zero hsecurity ?_
      by_cases h19 : r = 19
      · exact .inr (by simpa using fun hheld => howner ⟨h19, hheld⟩)
      · refine .inl ?_
        by_contra hc
        exact h19 ((singleRight_and (by decide)).mp hc)
    obtain ⟨hstatus, hrem, hprevious⟩ := policy_of_policyMask_eq_zero (rq.ask (singleRight r))
      (by rw [hdesired]; exact fun hc => hc.1 hsecurity) (by rw [hdesired]; exact hmask)
    rw [hdesired] at hrem
    have hmaximum : ¬(singleRight r &&& maximumAllowed ≠ 0 ∨
        (rq.ask (singleRight r)).useResultList = true) := by
      rintro (hc | hc)
      · exact hmax ((singleRight_and (by decide)).mp hc)
      · exact absurd (huse.symm.trans hc) (by decide)
    rw [succeeds_iff (sepAccessCheckWorker_of_remaining hstatus (by rw [hrem]; exact hright)),
      hdesired, checkDescriptor_of_dacl (rq.ask (singleRight r)) hmap hsd hne, if_neg hmaximum,
      checkRegular_granted, regularSweeps_iff (rq.ask (singleRight r)) dacl _ hlist, hrem]
    have hbits : ∀ P : ℕ → Prop, (∀ i, (singleRight r).getLsbD i = true → P i) ↔ P r := by
      intro P
      simp only [singleRight, getLsbD_twoPow, Bool.and_eq_true, decide_eq_true_eq]
      exact ⟨fun h => h r ⟨by omega, rfl⟩, fun h i hi => hi.2 ▸ h⟩
    rw [hbits, hbits, and_iff_left]
    · rfl
    · refine ne_zero_of_getLsbD (i := r) ?_
      rw [getLsbD_or, getLsbD_singleRight (by omega), Bool.or_true]

/-! ### The promise -/

/-- **When the promise is kept.** Where maximum mode reports rights at all: the
audit list is promised only if the privilege is held, a right by privilege only if
the set of privileges can be returned, and for a restricted token what the token is
allowed the restricting identifiers are allowed too, and what they are allowed is
not left open for the token. -/
def MaximumKept (rq : AccessRequest) (dacl : List Ace) (r : ℕ) : Prop :=
  rq.useResultList = true ∨ rq.genericMapping = ⟨0, 0, 0, 0⟩ ∨
    ((r = 24 → verdict (maximumRules rq dacl) r = some .allow →
        sepSinglePrivilegeCheck seSecurityPrivilege rq.token rq.accessMode = true ∧ rq.HasRoom) ∧
      (OwnerByPrivilege rq r → verdict (maximumRules rq dacl) r = some .allow → rq.HasRoom) ∧
      (r ≠ 24 → ¬OwnerByPrivilege rq r → seTokenIsRestricted rq.token = true →
        (aceVerdict (rq.context false) dacl r = some .allow →
          aceVerdict (rq.context true) dacl r = some .allow) ∧
        (aceVerdict (rq.context true) dacl r = some .allow →
          aceVerdict (rq.context false) dacl r ≠ none)))

/-- The verdict of maximum mode for a restricted token. -/
theorem verdict_maximumRules (rq : AccessRequest) (dacl : List Ace) (r : ℕ) :
    verdict (maximumRules rq dacl) r = (aceVerdict (rq.context false) dacl r).or
      (if seTokenIsRestricted rq.token then aceVerdict (rq.context true) dacl r else none) := by
  rw [maximumRules, verdict_append]
  split <;> rfl

/-- What both passes have to say about a right, against what the passes one after
the other say: an allowed right is allowed by both exactly if the first pass is
backed by the second and the second does not speak alone. -/
theorem or_allow_imp_both_iff {x y : Option Effect} :
    (x.or y = some .allow → x = some .allow ∧ y = some .allow) ↔
      (x = some .allow → y = some .allow) ∧ (y = some .allow → x ≠ none) := by
  rcases x with _ | ⟨_ | _⟩ <;> rcases y with _ | ⟨_ | _⟩ <;> simp

/-- **Maximum and regular mode.** For a DACL with entries and without an object
type list, a right that a check with `MAXIMUM_ALLOWED` grants is also granted when
it is asked for alone, exactly if the promise is kept for it. -/
theorem maximum_imp_regular_iff (rq : AccessRequest) {dacl : List Ace}
    (hsd : rtlGetDaclSecurityDescriptor rq.securityDescriptor = .ok (true, some dacl))
    (hne : dacl ≠ []) (hlist : rq.objectTypeList = []) {r : ℕ} (hr : r ≠ 25) :
    ((rq.ask maximumAllowed).Grants r → (rq.ask (singleRight r)).Succeeds) ↔
      MaximumKept rq dacl r := by
  rw [grants_maximumAllowed_iff hsd hne hlist hr, MaximumKept]
  cases huse : rq.useResultList with
  | true => simp
  | false =>
    by_cases hmap : rq.genericMapping = ⟨0, 0, 0, 0⟩
    · simp [hmap]
    · simp only [hmap, Bool.false_eq_true, false_or, ne_eq]
      by_cases hgeneric : 28 ≤ r
      · -- generic rights are never granted, so there is nothing to promise
        have hnone : verdict (maximumRules rq dacl) r = none := by
          rw [verdict_maximumRules, aceVerdict_generic _ dacl hgeneric,
            aceVerdict_generic _ dacl hgeneric]
          simp
        rw [hnone, aceVerdict_generic _ dacl hgeneric, aceVerdict_generic _ dacl hgeneric]
        simp
      · obtain ⟨hsecurity, howner, hdacl⟩ :=
          succeeds_singleRight_iff hsd hne hlist huse hmap (by omega) hr
        by_cases h24 : r = 24
        · rw [hsecurity h24]
          simp [h24, OwnerByPrivilege]
        · by_cases hown : OwnerByPrivilege rq r
          · rw [howner hown]
            simp [h24, hown]
          · rw [hdacl h24 hown, verdict_maximumRules]
            simp only [h24, hown, false_imp_iff, true_and, not_false_eq_true]
            cases seTokenIsRestricted rq.token with
            | false => simp
            | true =>
              simp only [true_imp_iff]
              exact or_allow_imp_both_iff

end MaximumAllowed

/-! ### A restricted token -/

/-- World, restricted to an identifier that is not World. -/
def restrictedToken : Token :=
  { worldToken with
    restrictedSids := ⟨[⟨0x2000, sePrincipalSelfSid, 0x7⟩], by decide⟩
    tokenFlags := tokenIsRestricted }

/-- For an unrestricted token the promise to read is kept. -/
theorem maximum_imp_regular_world :
    ((requestFor worldToken [allowWorld 0x1] 0x1).ask maximumAllowed).Grants 0 ∧
      ((requestFor worldToken [allowWorld 0x1] 0x1).ask (singleRight 0)).Succeeds := by
  have hgrants : ((requestFor worldToken [allowWorld 0x1] 0x1).ask maximumAllowed).Grants 0 :=
    ⟨_, 0x1, rfl, by decide, by decide, by decide⟩
  refine ⟨hgrants, (maximum_imp_regular_iff (requestFor worldToken [allowWorld 0x1] 0x1)
    (show _ = Except.ok (true, some [allowWorld 0x1]) from rfl) (List.cons_ne_nil _ _) rfl
    (by decide)).mpr (.inr (.inr ⟨fun h => absurd h (by decide), fun h => absurd h.1 (by decide),
      fun _ _ h => absurd h (by decide)⟩)) hgrants⟩

/-- **The promise is broken** for a restricted token: World may read and the token
is World, so maximum mode grants the right to read; the identifier it is restricted
to may not, so regular mode refuses it. -/
theorem maximum_exceeds_regular :
    ((requestFor restrictedToken [allowWorld 0x1] 0x1).ask maximumAllowed).Grants 0 ∧
      ¬((requestFor restrictedToken [allowWorld 0x1] 0x1).ask (singleRight 0)).Succeeds := by
  refine ⟨⟨_, 0x1, rfl, by decide, by decide, by decide⟩, ?_⟩
  rintro ⟨result, hrun, hok⟩
  cases hrun
  exact absurd hok (by decide)

end Windivs

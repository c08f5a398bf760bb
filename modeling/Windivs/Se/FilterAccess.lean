import Windivs.Se.MaximumAllowed
import Windivs.Se.TokenFilter

/-!
# Access with a filtered token

A filtered token should be able to do less than the token it was made from. Its
groups are the same or for deny only, and its privileges are some of those of the
token, so without restricting identifiers this is so. A token that is restricted
already keeps its restricting identifiers only if no new ones are given: the new ones
take their place, and an object that is open to them but not to the old ones can be
opened with the filtered token and not with the token.

`Windivs.filterAddsNothing_iff` is the exact condition on the identifiers.
-/

namespace Windivs

open List

variable {ace : Ace} {deny restricted : Bool} {t : Token} {x : View}

/-! ### Identifiers -/

section Members

variable {l l' : List SidAndAttributes}

/-- A group for deny only never counts for allow, and always for deny. -/
theorem sidCounts_disabled (restricted : Bool) (i : ℕ) (a : Ulong) :
    sidCounts false restricted i (disabledAttributes a) = false ∧
      sidCounts true restricted i (disabledAttributes a) = true := by
  obtain ⟨hdeny, hoff⟩ := disabledAttributes_and a
  have hdeny' : (disabledAttributes a &&& seGroupUseForDenyOnly == 0) = false :=
    beq_eq_false_iff_ne.mpr hdeny
  have hoff' : (disabledAttributes a &&& seGroupEnabled != 0) = false := bne_eq_false_iff_eq.mpr hoff
  simp only [sidCounts, bne, hdeny', Bool.and_false, Bool.false_and, Bool.or_false, Bool.not_false,
    Bool.true_and, Bool.or_true, and_true]
  exact hoff'

/-- Entries that keep their identifiers keep their places. -/
theorem sidLoop_map_iff {f : ℕ → SidAndAttributes → SidAndAttributes}
    (hl : ∀ k, l'[k]? = l[k]?.map (f k)) (hsid : ∀ k e, (f k e).sid = e.sid) :
    sidLoop x deny restricted 0 l' = true ↔ ∃ k e, FirstWith x l k e ∧
      sidCounts deny restricted k (f k e).attributes = true := by
  have hbefore : ∀ k : ℕ, (∀ j < k, ∀ e', l'[j]? = some e' → rtlEqualSid x e'.sid = false) ↔
      ∀ j < k, ∀ e, l[j]? = some e → rtlEqualSid x e.sid = false := by
    refine fun k => forall_congr' fun j => imp_congr_right fun _ => ?_
    rw [hl]
    cases l[j]? with
    | none => simp
    | some e => simp [hsid]
  simp only [sidLoop_iff, FirstWith, hbefore, Nat.zero_add]
  simp only [hl, Option.map_eq_some_iff]
  constructor
  · rintro ⟨k, _, ⟨⟨e, he, rfl⟩, heq, hfirst⟩, hcounts⟩
    exact ⟨k, e, ⟨he, hsid k e ▸ heq, hfirst⟩, hcounts⟩
  · rintro ⟨k, e, ⟨he, heq, hfirst⟩, hcounts⟩
    exact ⟨k, _, ⟨⟨e, he, rfl⟩, (hsid k e).symm ▸ heq, hfirst⟩, hcounts⟩

end Members

/-! ### The two tokens -/

section Tokens

variable {rq : FilterRequest} {t' : Token}

/-- An identifier is among the groups of the filtered token. -/
def NormalAfter (rq : FilterRequest) (deny : Bool) (x : View) : Prop :=
  sidLoop x deny false 0 (filteredGroups rq (copiedGroups rq)) = true

/-- An identifier is among the restricting ones of the filtered token. -/
def RestrictedAfter (rq : FilterRequest) (deny : Bool) (x : View) : Prop :=
  sidLoop x deny true 0 (restrictingSids rq).list = true

/-- An identifier is among the restricting ones of the token. -/
def RestrictedBefore (rq : FilterRequest) (deny : Bool) (x : View) : Prop :=
  sidLoop x deny true 0 rq.token.restrictedSids.list = true

/-- An identifier is among the groups of the token. -/
def NormalBefore (rq : FilterRequest) (deny : Bool) (x : View) : Prop :=
  sidLoop x deny false 0 rq.token.userAndGroups.list = true

/-- Without new restricting identifiers the old ones stay. -/
theorem restrictedAfter_of_none (hnone : rq.restrictedSidsIntoToken = none) (deny : Bool)
    (x : View) : RestrictedAfter rq deny x ↔ RestrictedBefore rq deny x := by
  have hplaced : ∀ k, (relocate rq.restrictedPlace rq.token.restrictedSids).list[k]? =
      rq.token.restrictedSids.list[k]?.map fun e : SidAndAttributes =>
        { e with pointer := rq.restrictedPlace k } :=
    fun k => getElem?_mapIdx
  rw [RestrictedAfter, RestrictedBefore, restrictingSids, hnone]
  exact (sidLoop_map_iff hplaced fun _ _ => rfl).trans (by simp only [sidLoop_iff, Nat.zero_add])

/-- The bytes of the copy of a group are those of an entry of `SidsToBeDisabled`. -/
def Matched (rq : FilterRequest) (k : ℕ) : Prop := groupFound rq ((copiedGroups rq).drop k) = true

instance (rq : FilterRequest) (k : ℕ) : Decidable (Matched rq k) :=
  inferInstanceAs (Decidable (_ = true))

/-- The first group of the token with an identifier is left to count: for deny if it is listed,
and as it did otherwise. -/
def GroupCounts (rq : FilterRequest) (deny : Bool) (x : View) : Prop :=
  ∃ k e, FirstWith x rq.token.userAndGroups.list k e ∧
    if Matched rq k then deny = true else sidCounts deny false k e.attributes = true

/-- An identifier is among the restricting ones that the caller gives. -/
def Given (rq : FilterRequest) (x : View) : Prop :=
  ∃ c ∈ rq.restrictedSidsIntoToken, ∃ e ∈ c.list, rtlEqualSid x e.sid = true

/-- **The groups of the filtered token**, by those of the token and the caller's list. -/
theorem normalAfter_iff : NormalAfter rq deny x ↔ GroupCounts rq deny x := by
  have hplaced : ∀ k, (filteredGroups rq (copiedGroups rq))[k]? =
      rq.token.userAndGroups.list[k]?.map fun e =>
        let e' := { e with pointer := rq.groupPlace k }
        if Matched rq k then e'.disable else e' := by
    intro k
    rw [getElem?_filteredGroups, getElem?_copiedGroups, Option.map_map]
    rfl
  rw [NormalAfter, GroupCounts, sidLoop_map_iff hplaced fun k e => by dsimp only; split <;> rfl]
  refine exists_congr fun k => exists_congr fun e => and_congr_right fun _ => ?_
  obtain ⟨hallow, hdeny⟩ := sidCounts_disabled false k e.attributes
  by_cases hk : Matched rq k
  · simp only [if_pos hk, SidAndAttributes.disable, SidAndAttributes.attributes_setAttributes]
    cases deny
    · exact iff_of_false (by rw [hallow]; decide) (by decide)
    · exact iff_of_true hdeny rfl
  · simp only [if_neg hk]

/-- Disabling groups takes identifiers away for allow. -/
theorem normalBefore_of_normalAfter (h : NormalAfter rq false x) : NormalBefore rq false x := by
  obtain ⟨k, e, hfirst, hcounts⟩ := normalAfter_iff.1 h
  split at hcounts
  · cases hcounts
  · exact (sidLoop_iff ..).2 ⟨k, e, hfirst, by rwa [Nat.zero_add]⟩

/-- It adds them for deny. -/
theorem normalAfter_of_normalBefore (h : NormalBefore rq true x) : NormalAfter rq true x := by
  obtain ⟨k, e, hfirst, hcounts⟩ := (sidLoop_iff ..).1 h
  rw [Nat.zero_add] at hcounts
  exact normalAfter_iff.2 ⟨k, e, hfirst, by split <;> [rfl; exact hcounts]⟩

/-- **The restricting identifiers of the filtered token**, if the caller gives some: each of them
is enabled. -/
theorem restrictedAfter_of_some {c : Counted SidAndAttributes}
    (hsome : rq.restrictedSidsIntoToken = some c) : RestrictedAfter rq deny x ↔ Given rq x := by
  have henabled : ∀ (i : ℕ) (a : Ulong),
      sidCounts deny true i (a ||| restrictingAttributes) = true := by
    intro i a
    have hbit : (a ||| restrictingAttributes) &&& seGroupEnabled ≠ 0 := by
      refine and_ne_zero_iff.mpr ⟨2, ?_, by decide⟩
      rw [BitVec.getLsbD_or, show restrictingAttributes.getLsbD 2 = true by decide, Bool.or_true]
    rw [sidCounts, bne_iff_ne.mpr hbit, Bool.or_true, Bool.true_or]
  rw [RestrictedAfter, restrictingSids, hsome, Given, hsome]
  refine (sidLoop_iff_exists (fun i e he => ?_) 0).trans (by simp)
  obtain ⟨e, -, rfl⟩ := mem_map.mp he
  exact henabled i e.attributes

/-- What the old restricting identifiers have to allow and to deny. -/
def NoNarrower (rq : FilterRequest) (groups given : Bool → View → Prop) : Prop :=
  ∀ u v d, groups false u → given false v →
    (RestrictedBefore rq false u ∨ RestrictedBefore rq false v) ∧
      (RestrictedBefore rq true d →
        (groups true d ∨ given true d) ∧
        (RestrictedBefore rq false u ∨ given true d) ∧
        (RestrictedBefore rq false v ∨ groups true d))

/-- **When filtering adds nothing**: the token is not restricted, or no new restricting
identifiers are given, or the restricting identifiers of the token are no narrower than those of
its groups that are left to count and the given ones together. -/
def FilterSafe (rq : FilterRequest) : Prop :=
  seTokenIsRestricted rq.token = false ∨ rq.restrictedSidsIntoToken = none ∨
    NoNarrower rq (GroupCounts rq) fun _ => Given rq

/-- The condition on the token and the lists, by what the filtered token knows. -/
theorem filterSafe_iff : FilterSafe rq ↔
    seTokenIsRestricted rq.token = false ∨ rq.restrictedSidsIntoToken = none ∨
      NoNarrower rq (NormalAfter rq) (RestrictedAfter rq) := by
  rw [FilterSafe]
  cases hsome : rq.restrictedSidsIntoToken with
  | none => simp
  | some c =>
    have hgiven : (fun _ => Given rq) = RestrictedAfter rq :=
      funext fun deny => funext fun x => propext (restrictedAfter_of_some hsome).symm
    have hgroups : GroupCounts rq = NormalAfter rq :=
      funext fun deny => funext fun x => propext normalAfter_iff.symm
    rw [hgiven, hgroups]

/-- Flags that stand for no privilege come through the loop over the privileges. -/
theorem filteredFlags_and_other {other : Ulong} (h : ∀ x ∈ flagTable, x.2 &&& other = 0) :
    filteredFlags rq &&& other = startFlags rq &&& other := by
  rw [filteredFlags, flagsAfter]
  generalize startFlags rq = flags
  induction rq.token.privileges.list.filter fun p => deletes rq p.luid generalizing flags with
  | nil => rfl
  | cons p l ih => rw [foldl_cons, ih, updateFlags_and_other h]

/-- A filtered token is restricted if the token is or if it was made so. -/
theorem seTokenIsRestricted_filtered (h : Filtered rq t') :
    seTokenIsRestricted t' = (seTokenIsRestricted rq.token || rq.restrictedSidsIntoToken.isSome) := by
  have hflags : t'.tokenFlags &&& tokenIsRestricted = startFlags rq &&& tokenIsRestricted := by
    rw [← filteredFlags_and_other (by decide)]
    rcases h.tokenFlags with heq | heq
    · rw [heq]
    · rw [heq, and_not_and_of_disjoint (by decide)]
  rw [seTokenIsRestricted, hflags, startFlags_and_other (by decide) (by decide)]
  cases rq.restrictedSidsIntoToken.isSome with
  | false => simp [seTokenIsRestricted]
  | true =>
    rw [if_pos rfl, Bool.or_true, bne_iff_ne]
    refine and_ne_zero_iff.mpr ⟨4, ?_, by decide⟩
    rw [BitVec.getLsbD_or, show tokenIsRestricted.getLsbD 4 = true by decide, Bool.or_true]

/-- A filtered token is an administrator's only if the token is. -/
theorem seTokenIsAdmin_of_filtered (h : Filtered rq t') (hadmin : seTokenIsAdmin t' = true) :
    seTokenIsAdmin rq.token = true := by
  have hstart : startFlags rq &&& tokenHasAdminGroup = rq.token.tokenFlags &&& tokenHasAdminGroup := by
    rw [startFlags_and_other (by decide) (by decide)]
    split
    · exact or_and_of_disjoint (by decide)
    · rfl
  rw [seTokenIsAdmin, bne_iff_ne] at hadmin ⊢
  rcases h.tokenFlags with heq | heq
  · rwa [heq, filteredFlags_and_other (by decide), hstart] at hadmin
  · rw [heq, BitVec.and_assoc] at hadmin
    exact absurd BitVec.and_zero hadmin

/-- The privileges of the filtered token are held by the token. -/
theorem sepSinglePrivilegeCheck_of_filtered (h : Filtered rq t') {luid : Luid}
    {mode : KProcessorMode} (hheld : sepSinglePrivilegeCheck luid t' mode = true) :
    sepSinglePrivilegeCheck luid rq.token mode = true := by
  rw [sepSinglePrivilegeCheck_iff] at hheld ⊢
  refine hheld.imp_right fun hon => ?_
  rw [h.privileges, privilegeEnabled, keptPrivileges] at hon
  have hfind : (rq.token.privileges.list.filter fun p => !deletes rq p.luid).find?
      (fun p => p.luid == luid) = rq.token.privileges.list.find?
        (fun p => !deletes rq luid && p.luid == luid) := by
    rw [find?_filter]
    congr 1
    funext p
    by_cases hp : p.luid = luid
    · simp [hp]
    · simp [hp]
  rw [hfind] at hon
  cases hd : deletes rq luid with
  | true =>
    rw [hd, find?_eq_none.mpr (by simp)] at hon
    cases hon
  | false =>
    rw [hd] at hon
    exact hon

end Tokens

/-! ### Checks with the two tokens -/

/-- The same check for another token. -/
def AccessRequest.withToken (rq : AccessRequest) (t : Token) : AccessRequest :=
  { rq with clientAccessToken := none, primaryAccessToken := t }

/-- **Filtering adds no access**: what a check for a set of rights grants the filtered
token it grants the token. -/
def AddsNothing (t t' : Token) : Prop :=
  ∀ rq : AccessRequest, rq.objectTypeList = [] → rq.useResultList = false → rq.HasRoom →
    rq.mappedDesired &&& maximumAllowed = 0 →
      (rq.withToken t').Succeeds → (rq.withToken t).Succeeds

section Regular

variable {rq : AccessRequest} {t' : Token}

/-- One token holds every privilege another does. -/
def HoldsAll (t t' : Token) : Prop :=
  ∀ luid mode, sepSinglePrivilegeCheck luid t' mode = true →
    sepSinglePrivilegeCheck luid t mode = true

/-- More privileges do no harm: the check of them still succeeds, and no more remains. -/
theorem policy_withToken_of_holdsAll (hholds : HoldsAll t t') (hroom : rq.HasRoom)
    (hok : (rq.withToken t').policy.status = .success) :
    (rq.withToken t).policy.status = .success ∧
      ∀ r, (rq.withToken t).policy.desiredAccess.getLsbD r = true →
        (rq.withToken t').policy.desiredAccess.getLsbD r = true := by
  rcases sePrivilegePolicyCheck_cases (rq.withToken t') with ⟨-, heq⟩ | ⟨hrefuse', hdesired', -⟩
  · rw [heq] at hok
    cases hok
  have hrefuse : ¬PolicyRefuses rq.mappedDesired t rq.accessMode := by
    rintro ⟨hwants, hnot⟩
    refine hrefuse' ⟨hwants, Bool.eq_false_iff.mpr fun hheld => ?_⟩
    exact Bool.eq_false_iff.mp hnot (hholds _ _ hheld)
  refine ⟨policy_status_of_hasRoom (rq.withToken t) hroom hrefuse, fun r hr => ?_⟩
  rcases sePrivilegePolicyCheck_cases (rq.withToken t) with ⟨hc, -⟩ | ⟨-, hdesired, -⟩
  · exact absurd hc hrefuse
  -- what privileges grant the one they grant the other
  have hmore : (policyMask rq.mappedDesired t' rq.accessMode).getLsbD r = true →
      (policyMask rq.mappedDesired t rq.accessMode).getLsbD r = true := by
    rw [policyMask, policyMask, BitVec.getLsbD_or, BitVec.getLsbD_or, Bool.or_eq_true,
      Bool.or_eq_true]
    refine Or.imp_right fun hc => ?_
    split at hc
    · rename_i howner
      rwa [if_pos ⟨howner.1, hholds _ _ howner.2⟩]
    · simp at hc
  rw [hdesired, getLsbD_and_not, Bool.and_eq_true, Bool.not_eq_true'] at hr
  rw [hdesired', getLsbD_and_not, Bool.and_eq_true, Bool.not_eq_true']
  exact ⟨hr.1, Bool.eq_false_iff.mpr fun hc => Bool.eq_false_iff.mp hr.2 (hmore hc)⟩

/-- **What is left to compare**: the verdicts of DACLs, and who is an administrator. -/
theorem succeeds_of_verdicts (hholds : HoldsAll t t')
    (hadmin : seTokenIsAdmin t' = true → seTokenIsAdmin t = true)
    (hlist : rq.objectTypeList = []) (huse : rq.useResultList = false) (hroom : rq.HasRoom)
    (hmax : rq.mappedDesired &&& maximumAllowed = 0) (hverdicts : ∀ dacl r,
      aceVerdict ((rq.withToken t').context false) dacl r = some .allow →
      (seTokenIsRestricted t' = true →
        aceVerdict ((rq.withToken t').context true) dacl r = some .allow) →
      aceVerdict ((rq.withToken t).context false) dacl r = some .allow ∧
        (seTokenIsRestricted t = true →
          aceVerdict ((rq.withToken t).context true) dacl r = some .allow))
    (hsucceeds : (rq.withToken t').Succeeds) : (rq.withToken t).Succeeds := by
  by_cases h0 : rq.desiredAccess = 0
  · -- with nothing desired the token is not looked at
    obtain ⟨result, hrun, hok⟩ := hsucceeds
    refine ⟨result, Eq.trans ?_ hrun, hok⟩
    have h₁ : (rq.withToken t).desiredAccess = 0 := h0
    have h₂ : (rq.withToken t').desiredAccess = 0 := h0
    rw [sepAccessCheckWorker_of_nothing h₁, sepAccessCheckWorker_of_nothing h₂]
    rfl
  rw [succeeds_iff_fullCheckGrants (rq.withToken t) hlist huse h0]
  rw [succeeds_iff_fullCheckGrants (rq.withToken t') hlist huse h0] at hsucceeds
  obtain ⟨hpolicy', hrest⟩ := hsucceeds
  obtain ⟨hpolicy, hless⟩ := policy_withToken_of_holdsAll hholds hroom hpolicy'
  refine ⟨hpolicy, or_iff_not_imp_left.mpr fun hrem => ?_⟩
  obtain ⟨r0, hr0⟩ := exists_getLsbD_of_ne_zero hrem
  have hgrants := hrest.resolve_left (ne_zero_of_getLsbD (hless r0 hr0))
  rw [DescriptorGrants] at hgrants ⊢
  split at hgrants
  · rename_i hmap
    rw [if_pos (show (rq.withToken t).genericMapping = _ from hmap)]
    exact hadmin hgrants
  rename_i hmap
  rw [if_neg (show (rq.withToken t).genericMapping ≠ _ from hmap)]
  refine ⟨hgrants.1, fun dacl hdacl => ?_⟩
  have hdaclGrants := hgrants.2 dacl hdacl
  rw [DaclGrants] at hdaclGrants ⊢
  split
  · -- `MAXIMUM_ALLOWED` is not asked for
    rename_i hempty
    rw [if_pos hempty] at hdaclGrants
    have hbit : (rq.withToken t').policy.desiredAccess.getLsbD 25 = true := by
      rw [hdaclGrants.1]
      decide
    exact absurd (show (rq.withToken t').mappedDesired &&& _ = 0 from hmax)
      (and_maximumAllowed_iff.mpr (getLsbD_policy_desiredAccess hbit))
  · rename_i hentries
    rw [if_neg hentries, if_pos (show (rq.withToken t').mappedDesired &&& _ = _ from hmax)]
      at hdaclGrants
    rw [if_pos (show (rq.withToken t).mappedDesired &&& _ = _ from hmax)]
    obtain ⟨hfirst, hsecond⟩ := hdaclGrants
    have hboth := fun r hr => hverdicts dacl r (hfirst r (hless r hr))
      fun hrestricted => hsecond hrestricted r (hless r hr)
    exact ⟨fun r hr => (hboth r hr).1, fun hrestricted r hr => (hboth r hr).2 hrestricted⟩

end Regular

/-! ### The exact condition -/

section Exact

variable {rq : FilterRequest} {t' : Token} {ar : AccessRequest} {dacl : List Ace} {r : ℕ}

/-- The identifiers a sweep for a token knows. -/
def knows (t : Token) (restricted deny : Bool) (x : View) : Prop :=
  sidLoop x deny restricted 0
    (if restricted then t.restrictedSids.list else t.userAndGroups.list) = true

instance (t : Token) (restricted deny : Bool) (x : View) : Decidable (knows t restricted deny x) :=
  inferInstanceAs (Decidable (_ = true))

/-- **What an entry says to a token**: to whom it is about, and what. -/
theorem reading_withToken_iff (e : Effect) :
    reading (aceRule ((ar.withToken t).context restricted)) r ace = some e ↔
      ace.Says ar.genericMapping e r ∧ ∃ x, ace.target ar.principalSelfSid = some x ∧
        knows t restricted e.isDeny x := by
  rw [reading_aceRule_iff, sidInToken_iff]
  rfl

/-- A token that has more identifiers for allow and fewer for deny is allowed more. -/
theorem aceVerdict_withToken_mono
    (hdeny : ∀ x, knows t restricted true x → knows t' restricted true x)
    (hallow : ∀ x, knows t' restricted false x → knows t restricted false x)
    (h : aceVerdict ((ar.withToken t').context restricted) dacl r = some .allow) :
    aceVerdict ((ar.withToken t).context restricted) dacl r = some .allow := by
  rw [aceVerdict, daclRules, verdict_filterMap] at h ⊢
  refine findSome?_allow_mono (fun ace _ hd => ?_) (fun ace _ ha => ?_) h
  · rw [reading_withToken_iff] at hd ⊢
    exact hd.imp_right fun ⟨x, hx, hk⟩ => ⟨x, hx, hdeny x hk⟩
  · rw [reading_withToken_iff] at ha ⊢
    exact ha.imp_right fun ⟨x, hx, hk⟩ => ⟨x, hx, hallow x hk⟩

section

variable (h : Filtered rq t')
include h

theorem knows_filtered_normal : knows t' false deny x ↔ NormalAfter rq deny x := by
  rw [knows, NormalAfter, if_neg (by decide), h.userAndGroups]

theorem knows_filtered_restricted : knows t' true deny x ↔ RestrictedAfter rq deny x := by
  rw [knows, RestrictedAfter, if_pos rfl, h.restrictedSids]

/-- The groups of a filtered token allow no more. -/
theorem aceVerdict_normal_of_filtered :
    aceVerdict ((ar.withToken t').context false) dacl r = some .allow →
      aceVerdict ((ar.withToken rq.token).context false) dacl r = some .allow :=
  aceVerdict_withToken_mono
    (fun _ hk => (knows_filtered_normal h).mpr (normalAfter_of_normalBefore hk))
    fun _ hk => normalBefore_of_normalAfter ((knows_filtered_normal h).mp hk)

/-- Restricting identifiers that stay the same decide the same. -/
theorem aceVerdict_restricted_of_none (hnone : rq.restrictedSidsIntoToken = none) :
    aceVerdict ((ar.withToken t').context true) dacl r = some .allow →
      aceVerdict ((ar.withToken rq.token).context true) dacl r = some .allow :=
  aceVerdict_withToken_mono
    (fun x hk => (knows_filtered_restricted h).mpr ((restrictedAfter_of_none hnone true x).mpr hk))
    fun x hk => (restrictedAfter_of_none hnone false x).mp ((knows_filtered_restricted h).mp hk)

/-- Old restricting identifiers that are no narrower than the groups and the new ones
together allow what both allow. -/
theorem aceVerdict_restricted_of_safe
    (hsafe : NoNarrower rq (NormalAfter rq) (RestrictedAfter rq))
    (hnormal : aceVerdict ((ar.withToken t').context false) dacl r = some .allow)
    (hrestricted : aceVerdict ((ar.withToken t').context true) dacl r = some .allow) :
    aceVerdict ((ar.withToken rq.token).context true) dacl r = some .allow := by
  simp only [NoNarrower, ← knows_filtered_normal h, ← knows_filtered_restricted h] at hsafe
  rw [aceVerdict, daclRules, verdict_filterMap] at hnormal hrestricted ⊢
  refine findSome?_allow_of_both (fun a _ b _ ha hb => ?_) (fun a _ b _ d _ ha hb hd => ?_) hnormal
    hrestricted
  · simp only [reading_withToken_iff] at ha hb ⊢
    obtain ⟨htellsa, u, hu, hknowsu⟩ := ha
    obtain ⟨htellsb, v, hv, hknowsv⟩ := hb
    exact (hsafe u v u hknowsu hknowsv).1.imp (fun hk => ⟨htellsa, u, hu, hk⟩)
      fun hk => ⟨htellsb, v, hv, hk⟩
  · simp only [reading_withToken_iff] at ha hb hd ⊢
    obtain ⟨htellsa, u, hu, hknowsu⟩ := ha
    obtain ⟨htellsb, v, hv, hknowsv⟩ := hb
    obtain ⟨htellsd, x, hx, hknowsx⟩ := hd
    obtain ⟨hany, hleft, hright⟩ := (hsafe u v x hknowsu hknowsv).2 hknowsx
    exact ⟨hany.imp (fun hk => ⟨htellsd, x, hx, hk⟩) (fun hk => ⟨htellsd, x, hx, hk⟩),
      hleft.imp (fun hk => ⟨htellsa, u, hu, hk⟩) (fun hk => ⟨htellsd, x, hx, hk⟩),
      hright.imp (fun hk => ⟨htellsb, v, hv, hk⟩) (fun hk => ⟨htellsd, x, hx, hk⟩)⟩

/-- **The condition is enough.** -/
theorem addsNothing_of_safe (hsafe : FilterSafe rq) : AddsNothing rq.token t' := by
  intro ar hlist huse hroom hmax
  refine succeeds_of_verdicts
    (fun luid mode hheld => sepSinglePrivilegeCheck_of_filtered h hheld)
    (seTokenIsAdmin_of_filtered h) hlist huse hroom hmax fun dacl r hnormal hrestricted =>
      ⟨aceVerdict_normal_of_filtered h hnormal, fun hwas => ?_⟩
  have his : seTokenIsRestricted t' = true := by
    rw [seTokenIsRestricted_filtered h, hwas, Bool.true_or]
  rcases filterSafe_iff.1 hsafe with hno | hnone | hsafe
  · rw [hno] at hwas
    cases hwas
  · exact aceVerdict_restricted_of_none h hnone (hrestricted his)
  · exact aceVerdict_restricted_of_safe h hsafe hnormal (hrestricted his)

/-- An entry about one identifier and the first right. -/
def plainEntry (p : Effect × View) : Ace where
  aceType := match p.1 with
    | .allow => .accessAllowed
    | .deny => .accessDenied
  aceFlags := 0
  mask := 0x1
  flags := 0
  body := p.2

/-- What a token hears from it. -/
def heard (t : Token) (restricted : Bool) (p : Effect × View) : Option Effect :=
  if knows t restricted p.1.isDeny p.2 then some p.1 else none

omit h in
theorem findSome?_heard_cons (t : Token) (restricted : Bool) (p : Effect × View)
    (l : List (Effect × View)) : (p :: l).findSome? (heard t restricted) =
      if knows t restricted p.1.isDeny p.2 then some p.1 else l.findSome? (heard t restricted) := by
  rw [findSome?_cons, heard]
  by_cases hp : knows t restricted p.1.isDeny p.2 <;> simp only [hp, if_true, if_false]

/-- A check for the first right against such entries. -/
def plainRequest (l : List (Effect × View)) : AccessRequest :=
  requestFor worldToken (l.map plainEntry) 0x1

omit h in
theorem reading_plainEntry (l : List (Effect × View)) (t : Token) (restricted : Bool)
    (p : Effect × View) :
    reading (aceRule (((plainRequest l).withToken t).context restricted)) 0 (plainEntry p) =
      heard t restricted p := by
  obtain ⟨e, x⟩ := p
  have htells : ∀ e', (plainEntry (e, x)).Says (plainRequest l).genericMapping e' 0 ↔ e' = e := by
    have hbit : (rtlMapGenericMask ⟨0x120089, 0x120116, 0x1200a0, 0x1f01ff⟩ 0x1).getLsbD 0 = true := by
      decide
    have heffective : ((0 : BitVec 8) &&& inheritOnlyAce == 0) = true := by decide
    intro e'
    cases e <;> cases e' <;> first
      | exact iff_of_true ⟨heffective, rfl, hbit⟩ rfl
      | exact iff_of_false (fun h => nomatch h.2.1) nofun
  have htarget : (plainEntry (e, x)).target (plainRequest l).principalSelfSid = some x := by
    cases e <;> rfl
  refine Option.ext fun e' => ?_
  rw [reading_withToken_iff, htells, htarget, heard]
  by_cases hknows : knows t restricted e.isDeny x
  · rw [if_pos hknows, Option.some.injEq]
    exact ⟨fun h => h.1.symm, fun h => h ▸ ⟨rfl, x, rfl, hknows⟩⟩
  · simp +contextual [hknows]

omit h in
theorem aceVerdict_plain (l : List (Effect × View)) (t : Token) (restricted : Bool) :
    aceVerdict (((plainRequest l).withToken t).context restricted) (l.map plainEntry) 0 =
      l.findSome? (heard t restricted) := by
  rw [aceVerdict, daclRules, verdict_filterMap, findSome?_map]
  congr 1
  funext p
  exact reading_plainEntry l t restricted p

omit h in
/-- **A check against plain entries**, in what the token hears. -/
theorem succeeds_plain_iff {l : List (Effect × View)} (hl : l ≠ []) (t : Token) :
    (((plainRequest l).ask (singleRight 0)).withToken t).Succeeds ↔
      l.findSome? (heard t false) = some .allow ∧
        (seTokenIsRestricted t = true → l.findSome? (heard t true) = some .allow) := by
  have hsd : rtlGetDaclSecurityDescriptor ((plainRequest l).withToken t).securityDescriptor =
      .ok (true, some (l.map plainEntry)) := rfl
  have hright := (succeeds_singleRight_iff hsd (mt map_eq_nil_iff.mp hl) rfl rfl
    (show ((plainRequest l).withToken t).genericMapping ≠ ⟨0, 0, 0, 0⟩ by
      change (⟨0x120089, 0x120116, 0x1200a0, 0x1f01ff⟩ : GenericMapping) ≠ ⟨0, 0, 0, 0⟩
      decide) (r := 0) (by decide) (by decide)).2.2 (by decide) fun hc => absurd hc.1 (by decide)
  rw [aceVerdict_plain, aceVerdict_plain] at hright
  exact hright

omit h in
/-- A promise to add nothing, for plain entries. -/
theorem heard_of_addsNothing {t : Token} (hadds : AddsNothing t t')
    (hwas : seTokenIsRestricted t = true) {l : List (Effect × View)} (hl : l ≠ [])
    (hnormal : l.findSome? (heard t' false) = some .allow)
    (hrestricted : l.findSome? (heard t' true) = some .allow) :
    l.findSome? (heard t true) = some .allow := by
  have hmapped : ((plainRequest l).ask (singleRight 0)).mappedDesired &&& maximumAllowed = 0 := by
    change rtlMapGenericMask ⟨0x120089, 0x120116, 0x1200a0, 0x1f01ff⟩ (singleRight 0) &&&
      maximumAllowed = 0
    decide
  have hgranted := hadds ((plainRequest l).ask (singleRight 0)) rfl rfl (fun _ => rfl) hmapped
    ((succeeds_plain_iff hl t').mpr ⟨hnormal, fun _ => hrestricted⟩)
  exact ((succeeds_plain_iff hl t).mp hgranted).2 hwas

/-- **The condition is needed.** -/
theorem safe_of_addsNothing (hadds : AddsNothing rq.token t') : FilterSafe rq := by
  rw [filterSafe_iff]
  cases hwas : seTokenIsRestricted rq.token with
  | false => exact .inl rfl
  | true =>
    refine .inr (.inr fun u v d hu hv => ?_)
    -- four lists that allow the groups `u` and the given identifiers `v`
    have hallow := heard_of_addsNothing hadds hwas (l := [(.allow, u), (.allow, v)]) (by simp)
    have hdeny := heard_of_addsNothing hadds hwas (l := [(.deny, d), (.allow, u), (.allow, v)])
      (by simp)
    have hgroup := heard_of_addsNothing hadds hwas (l := [(.allow, u), (.deny, d), (.allow, v)])
      (by simp)
    have hgiven := heard_of_addsNothing hadds hwas (l := [(.allow, v), (.deny, d), (.allow, u)])
      (by simp)
    have hold : ∀ deny x, RestrictedBefore rq deny x ↔ knows rq.token true deny x :=
      fun _ _ => Iff.rfl
    simp only [← knows_filtered_normal h, ← knows_filtered_restricted h, hold] at hu hv ⊢
    simp only [findSome?_heard_cons, findSome?_nil, Effect.isDeny, hu, hv, if_true]
      at hallow hdeny hgroup hgiven
    refine ⟨?_, fun hd => ⟨?_, ?_, ?_⟩⟩ <;> grind

end

/-- **Filtering adds no access** exactly under `Windivs.FilterSafe`. -/
theorem filterAddsNothing_iff (rq : FilterRequest) {fuel : ℕ} {t' : Token}
    (hrun : sepPerformTokenFiltering fuel rq = .ok (.ok t')) :
    AddsNothing rq.token t' ↔ FilterSafe rq :=
  ⟨safe_of_addsNothing (filtered_of_ok hrun), addsNothing_of_safe (filtered_of_ok hrun)⟩

end Exact

/-! ### New restricting identifiers in place of the old -/

/-- A request to restrict a token to World. -/
def restrictToWorld (t : Token) : FilterRequest where
  token := t
  privilegesToBeDeleted := none
  sidsToBeDisabled := none
  restrictedSidsIntoToken := some ⟨[⟨0x3000, seWorldSid, 0x0⟩], by decide⟩
  privilegeFlags := 0
  created := .success
  allocate := true
  groupPlace := fun _ => 0x4000
  restrictedPlace := fun _ => 0x5000
  afterGroups := seWorldSid
  afterList := seWorldSid
  coherent := fun _ _ _ _ hx => absurd hx not_mem_nil

/-- Restricting a token whose user and primary group are World returns a token. -/
theorem restrictToWorld_ok (hgroups : t.userAndGroups.list = [⟨0x1000, seWorldSid, 0x7⟩])
    (hprimary : t.primaryGroup = seWorldSid) :
    ∃ fuel t', sepPerformTokenFiltering fuel (restrictToWorld t) = .ok (.ok t') := by
  have hcopied : copiedGroups (restrictToWorld t) = [⟨0x4000, seWorldSid, 0x7⟩] := by
    have hmap : copiedGroups (restrictToWorld t) =
        t.userAndGroups.list.mapIdx fun _ e => { e with pointer := 0x4000 } := rfl
    rw [hmap, hgroups]
    rfl
  have hproceeds : Proceeds (restrictToWorld t) ⟨0x4000, seWorldSid, 0x7⟩ := by
    refine ⟨rfl, fun e he => ?_, ?_, rfl⟩
    · cases mem_singleton.mp he
      rfl
    · have hself : rtlEqualSid seWorldSid seWorldSid = true := rtlEqualSid_iff.mpr rfl
      rw [sepFindPrimaryGroupAndDefaultOwner, hcopied,
        show (restrictToWorld t).token.primaryGroup = seWorldSid from hprimary]
      simp only [find?_cons, hself]
  have hsettles := (filteredGroups_of_none
    (show (restrictToWorld t).sidsToBeDisabled = none from rfl) (copiedGroups (restrictToWorld t))).2
  obtain ⟨t', fuel, -, hloops⟩ := filterLoops_eq ⟨0x4000, seWorldSid, 0x7⟩ hsettles
  refine ⟨fuel, t', ?_⟩
  rw [sepPerformTokenFiltering_of_proceeds hproceeds, hloops fuel (le_refl fuel)]
  rfl

/-- Restricting a token that is not restricted adds nothing. -/
theorem filterAddsNothing_world :
    ∃ fuel t', sepPerformTokenFiltering fuel (restrictToWorld worldToken) = .ok (.ok t') ∧
      AddsNothing worldToken t' := by
  obtain ⟨fuel, t', hrun⟩ := restrictToWorld_ok (t := worldToken) rfl rfl
  exact ⟨fuel, t', hrun, (filterAddsNothing_iff _ hrun).mpr (.inl (by decide))⟩

/-- **Filtering adds access.** A token restricted to another identifier cannot open
what is open to World; filtered with World as its restricting identifier, it can. -/
theorem filtering_adds_access :
    let check := (requestFor worldToken [allowWorld 0x1] 0x1).ask (singleRight 0)
    check.objectTypeList = [] ∧ check.useResultList = false ∧ check.HasRoom ∧
      check.mappedDesired &&& maximumAllowed = 0 ∧
      ∃ fuel t', sepPerformTokenFiltering fuel (restrictToWorld restrictedToken) = .ok (.ok t') ∧
        (check.withToken t').Succeeds ∧ ¬(check.withToken restrictedToken).Succeeds := by
  intro check
  obtain ⟨fuel, t', hrun⟩ := restrictToWorld_ok (t := restrictedToken) rfl rfl
  have hfiltered := filtered_of_ok hrun
  have hplain : ∀ t, (check.withToken t).Succeeds ↔ _ :=
    fun t => succeeds_plain_iff (l := [(.allow, seWorldSid)]) (cons_ne_nil _ _) t
  refine ⟨rfl, rfl, fun _ => rfl, by decide, fuel, t', hrun, (hplain t').mpr ⟨?_, fun _ => ?_⟩, ?_⟩
  · have hknows : knows t' false false seWorldSid := by
      refine (knows_filtered_normal hfiltered).mpr ?_
      rw [NormalAfter]
      decide
    simp [heard, Effect.isDeny, hknows]
  · have hknows : knows t' true false seWorldSid :=
      (knows_filtered_restricted hfiltered).mpr (by rw [RestrictedAfter]; decide)
    simp [heard, Effect.isDeny, hknows]
  · intro hsucceeds
    have hheard := ((hplain restrictedToken).mp hsucceeds).2 (by decide)
    have hdeaf : ¬knows restrictedToken true false seWorldSid := by decide
    simp [heard, Effect.isDeny, hdeaf] at hheard

end Windivs

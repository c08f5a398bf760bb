import Windivs.Se.MaximumAllowed

/-!
# The shortcut for traversal

`SeFastTraverseCheck` answers without a token: it goes over the raw masks of a
DACL, stops at a deny entry that touches the desired access, and says yes at the
first allow entry for World that touches it. What it says yes to should be granted
by the full check of a token that has World.

It need not be. One common right is enough for the shortcut, while the full check
wants all of them; the shortcut reads the masks without mapping generic rights and
skips object entries, so it can miss a denial; and it knows nothing of privileges
and of the revision of a descriptor. `Windivs.fastTraverse_sound_iff` says for which
masks of the entries for World and of those that deny the shortcut is right.
-/

namespace Windivs

open List

/-- The check succeeds and everything desired is granted. -/
def AccessRequest.GrantsDesired (rq : AccessRequest) : Prop :=
  ∃ result granted, sepAccessCheckWorker rq = .ok result ∧ result.granted = true ∧
    result.grantedAccessList = some [granted] ∧
    ∀ r, rq.mappedDesired.getLsbD r = true → r ≠ 25 → granted.getLsbD r = true

/-! ### Entries before others -/

/-- An entry of one kind is in the list, with none of another kind before it. -/
def Before (p q : Ace → Prop) (dacl : List Ace) : Prop :=
  ∃ before ace after, dacl = before ++ ace :: after ∧ p ace ∧ ∀ a ∈ before, ¬q a

theorem before_cons_iff {p q : Ace → Prop} {ace : Ace} {dacl : List Ace} :
    Before p q (ace :: dacl) ↔ p ace ∨ ¬q ace ∧ Before p q dacl := by
  constructor
  · rintro ⟨_ | ⟨a, before⟩, b, after, heq, hp, hq⟩
    · rw [nil_append, cons.injEq] at heq
      rw [heq.1]
      exact .inl hp
    · rw [cons_append, cons.injEq] at heq
      rw [heq.1]
      exact .inr ⟨hq a mem_cons_self,
        before, b, after, heq.2, hp, fun a' ha' => hq a' (mem_cons_of_mem a ha')⟩
  · rintro (hp | ⟨hq, before, b, after, rfl, hp, hbefore⟩)
    · exact ⟨[], ace, dacl, rfl, hp, by simp⟩
    · exact ⟨ace :: before, b, after, rfl, hp, forall_mem_cons.2 ⟨hq, hbefore⟩⟩

/-- A plain entry that allows World a right of the desired ones, by its raw mask. -/
def TouchesForWorld (desired : AccessMask) (ace : Ace) : Prop :=
  ace.effective = true ∧ ace.aceType = .accessAllowed ∧ ace.mask &&& desired ≠ 0 ∧
    rtlEqualSid seWorldSid ace.body = true

/-- A plain entry that denies a right of the desired ones, by its raw mask. -/
def TouchesToDeny (desired : AccessMask) (ace : Ace) : Prop :=
  ace.effective = true ∧ ace.aceType = .accessDenied ∧ ace.mask &&& desired ≠ 0

/-- **What the loop of the shortcut looks for.** -/
theorem fastTraverseLoop_iff (desired : AccessMask) (dacl : List Ace) :
    fastTraverseLoop desired dacl = true ↔
      Before (TouchesForWorld desired) (TouchesToDeny desired) dacl := by
  induction dacl with
  | nil => simp [fastTraverseLoop, Before]
  | cons ace dacl ih =>
    rw [before_cons_iff, ← ih, fastTraverseLoop, TouchesForWorld, TouchesToDeny]
    cases ace.effective with
    | false => simp
    | true =>
      cases ace.aceType with
      | accessAllowed =>
        by_cases hmask : ace.mask &&& desired = 0
        · simp [hmask]
        · cases rtlEqualSid seWorldSid ace.body
          · simp
          · simp
      | accessDenied =>
        by_cases hmask : ace.mask &&& desired = 0 <;> simp [hmask]
      | _ => simp

/-- An entry names World. -/
def Ace.NamesWorld (ace : Ace) : Prop :=
  ∃ sid ∈ sepGetSidFromAce ace, rtlEqualSid seWorldSid sid = true

/-- **World gets a right**: an entry allows it to World, and no entry before it denies it to
anyone. -/
def WorldGets (m : GenericMapping) (dacl : List Ace) (r : ℕ) : Prop :=
  Before (fun ace => ace.Says m .allow r ∧ ace.NamesWorld) (fun ace => ace.Says m .deny r) dacl

section Verdicts

variable {c : AceContext} {dacl : List Ace} {r : ℕ}

/-- An entry for World counts for a token that has World. -/
theorem sidInToken_of_namesWorld {ace : Ace} (hace : ace.NamesWorld)
    (hc : c.isTokenRestricted = false)
    (hworld : sepSidInTokenEx c.accessToken none seWorldSid false false = true) :
    sidInToken c ace false = true := by
  obtain ⟨sid, hsid, heq⟩ := hace
  have hvalue := rtlEqualSid_iff.1 heq
  have hfind : sidToFind c.principalSelfSid sid = sid := by
    have hself : rtlEqualSid sePrincipalSelfSid sid = false := by
      rw [Bool.eq_false_iff, Ne, rtlEqualSid_iff, ← hvalue, ← rtlEqualSid_iff]
      decide
    cases c.principalSelfSid with
    | none => rfl
    | some self => exact if_neg (by rw [hself]; decide)
  rw [sidInToken, Option.mem_def.1 hsid]
  simp only [sepSidInTokenEx, hfind, hc]
  rw [← sidLoop_congr hvalue]
  exact hworld

/-- **What World gets** is allowed to every token that has World. -/
theorem aceVerdict_of_worldGets (hget : WorldGets c.genericMapping dacl r)
    (hc : c.isTokenRestricted = false)
    (hworld : sepSidInTokenEx c.accessToken none seWorldSid false false = true) :
    aceVerdict c dacl r = some .allow := by
  obtain ⟨before, ace, after, rfl, ⟨htells, hnames⟩, hbefore⟩ := hget
  have hace : reading (aceRule c) r ace = some .allow :=
    (reading_aceRule_iff .allow).2 ⟨htells, sidInToken_of_namesWorld hnames hc hworld⟩
  rw [aceVerdict, daclRules, verdict_filterMap, findSome?_allow_iff]
  exact ⟨before, ace, after, rfl, hace, fun a ha hread =>
    hbefore a ha ((reading_aceRule_iff .deny).1 hread).1⟩

end Verdicts

/-! ### A token that everything is denied to -/

instance (m : GenericMapping) (ace : Ace) (e : Effect) (r : ℕ) : Decidable (ace.Says m e r) :=
  inferInstanceAs (Decidable (_ ∧ _ ∧ _))

/-- For each right, the identifier in the first entry that denies it. -/
def deniedSids (m : GenericMapping) (dacl : List Ace) : List View :=
  (range 32).filterMap fun r =>
    (dacl.find? fun ace => ace.Says m .deny r).bind sepGetSidFromAce

/-- A token whose user is World, with these identifiers for deny only. -/
def wardedToken (m : GenericMapping) (dacl : List Ace) : Token :=
  { worldToken with
    userAndGroups := ⟨⟨0x1000, seWorldSid, 0x7⟩ :: (deniedSids m dacl).map fun sid =>
      ⟨0x2000, sid, seGroupUseForDenyOnly⟩, by
        have hle := length_filterMap_le (fun r =>
          (dacl.find? fun ace => ace.Says m .deny r).bind sepGetSidFromAce) (range 32)
        rw [length_range] at hle
        rw [length_cons, length_map, deniedSids]
        omega⟩ }

section Warded

variable {m : GenericMapping} {dacl : List Ace} {r : ℕ} {x : View}

/-- For allow the token has World only. -/
theorem sidLoop_wardedToken_allow
    (h : sidLoop x false false 0 (wardedToken m dacl).userAndGroups.list = true) :
    rtlEqualSid seWorldSid x = true := by
  rw [wardedToken, sidLoop] at h
  split at h
  · rename_i heq
    rwa [rtlEqualSid_iff, eq_comm, ← rtlEqualSid_iff]
  · -- the other entries are for deny only
    rw [sidLoop_iff] at h
    obtain ⟨k, e, ⟨hk, -⟩, hcounts⟩ := h
    obtain ⟨sid, -, rfl⟩ := mem_map.1 (mem_of_getElem? hk)
    have hdeny : ∀ i, sidCounts false false (0 + 1 + i) seGroupUseForDenyOnly = false := fun i => by
      simp [sidCounts, seGroupUseForDenyOnly, seGroupEnabled]
    rw [hdeny] at hcounts
    cases hcounts

/-- For deny it has each of its identifiers. -/
theorem sidLoop_wardedToken_deny (hx : x ∈ deniedSids m dacl) :
    sidLoop x true false 0 (wardedToken m dacl).userAndGroups.list = true := by
  refine (sidLoop_iff_exists (fun i e he => ?_) 0).2 ⟨⟨0x2000, x, seGroupUseForDenyOnly⟩,
    mem_cons_of_mem _ (mem_map.2 ⟨x, hx, rfl⟩), rtlEqualSid_iff.2 rfl⟩
  rcases mem_cons.1 he with rfl | he
  · simp [sidCounts, seGroupEnabled]
  · obtain ⟨sid, -, rfl⟩ := mem_map.1 he
    simp [sidCounts, seGroupUseForDenyOnly]

/-- **What the token is allowed** is what World gets. -/
theorem worldGets_of_aceVerdict {c : AceContext} (hc : c.accessToken = wardedToken m dacl)
    (hself : c.principalSelfSid = none) (hrestricted : c.isTokenRestricted = false)
    (hm : c.genericMapping = m) (hallow : aceVerdict c dacl r = some .allow) :
    WorldGets m dacl r := by
  subst hm
  have hin : ∀ (deny : Bool) (ace : Ace), sidInToken c ace deny = true ↔
      ∃ sid ∈ sepGetSidFromAce ace, sidLoop sid deny false 0
        (wardedToken c.genericMapping dacl).userAndGroups.list = true := by
    intro deny ace
    rw [sidInToken]
    cases sepGetSidFromAce ace <;> simp [sepSidInTokenEx, sidToFind, hself, hrestricted, hc]
  rw [aceVerdict, daclRules, verdict_filterMap, findSome?_allow_iff] at hallow
  obtain ⟨before, ace, after, heq, hace, hbefore⟩ := hallow
  obtain ⟨htells, hsid⟩ := (reading_aceRule_iff .allow).1 hace
  obtain ⟨sid, hmem, hloop⟩ := (hin false ace).1 hsid
  refine ⟨before, ace, after, heq, ⟨htells, sid, hmem, sidLoop_wardedToken_allow hloop⟩, ?_⟩
  -- the first entry that denies the right would be heard
  intro a ha hdeny
  have hex : ∃ d, before.find? (fun ace => ace.Says c.genericMapping .deny r) = some d :=
    Option.isSome_iff_exists.1 (find?_isSome.2 ⟨a, ha, by simpa using hdeny⟩)
  obtain ⟨d, hd⟩ := hex
  have hfind : dacl.find? (fun ace => ace.Says c.genericMapping .deny r) = some d := by
    rw [heq, find?_append, hd, Option.some_or]
  have hdtells : d.Says c.genericMapping .deny r := by simpa using find?_some hd
  obtain ⟨sid', hsid'⟩ := hdtells.exists_sid
  have hmem' : sid' ∈ deniedSids c.genericMapping dacl := by
    refine mem_filterMap.2 ⟨r, mem_range.2 (BitVec.lt_of_getLsbD hdtells.2.2), ?_⟩
    rw [hfind, Option.bind_some, hsid']
  exact hbefore d (mem_of_find?_eq_some hd) ((reading_aceRule_iff .deny).2
    ⟨hdtells, (hin true d).2 ⟨sid', hsid', sidLoop_wardedToken_deny hmem'⟩⟩)

end Warded

/-! ### The shortcut -/

/-- The checks that the shortcut stands for: those of an unrestricted token that has World. -/
structure Traverses (sd : SecurityDescriptor) (desired : AccessMask) (m : GenericMapping)
    (rq : AccessRequest) : Prop where
  securityDescriptor : rq.securityDescriptor = sd
  desiredAccess : rq.desiredAccess = desired
  genericMapping : rq.genericMapping = m
  unrestricted : seTokenIsRestricted rq.token = false
  world : sepSidInTokenEx rq.token none seWorldSid false false = true
  objectTypeList : rq.objectTypeList = []
  useResultList : rq.useResultList = false
  hasRoom : rq.HasRoom

/-- **The shortcut is sound** for a descriptor, a desired access and a generic mapping: where it
says yes, the full check grants the access to every unrestricted token that has World. -/
def TraverseSound (sd : SecurityDescriptor) (desired : AccessMask) (m : GenericMapping) : Prop :=
  ∀ stateRestricted, seFastTraverseCheck (some sd) stateRestricted desired = true →
    ∀ rq, Traverses sd desired m rq → rq.GrantsDesired

/-- The DACL, if there is one, has an entry that the shortcut stops at to say yes. -/
def SaysYes (sd : SecurityDescriptor) (desired : AccessMask) : Prop :=
  ∀ dacl, sepGetDaclFromDescriptor sd = some dacl →
    Before (TouchesForWorld desired) (TouchesToDeny desired) dacl

/-- **When the shortcut is right**: some access is desired, and not to the audit list; and if a
right is left of it by the mapping, then the descriptor has the known revision and the DACL, if
there is one, gives World every right. With `MAXIMUM_ALLOWED`, it gives World some right. -/
def TraverseSafe (sd : SecurityDescriptor) (desired : AccessMask) (m : GenericMapping) : Prop :=
  let mapped := rtlMapGenericMask m desired
  desired ≠ 0 ∧ mapped &&& accessSystemSecurity = 0 ∧
    (mapped = 0 ∨ sd.revision = 1 ∧ ∀ dacl, sepGetDaclFromDescriptor sd = some dacl →
      (∀ r, mapped.getLsbD r = true → r ≠ 25 → WorldGets m dacl r) ∧
        (mapped.getLsbD 25 = true → ∃ r, WorldGets m dacl r))

section Shortcut

variable {sd : SecurityDescriptor} {desired : AccessMask} {m : GenericMapping}
  {rq : AccessRequest}

/-- **The answer of the shortcut.** -/
theorem seFastTraverseCheck_iff : (∃ stateRestricted,
    seFastTraverseCheck (some sd) stateRestricted desired = true) ↔ SaysYes sd desired := by
  rw [SaysYes]
  simp only [seFastTraverseCheck]
  cases sepGetDaclFromDescriptor sd with
  | none => simp
  | some dacl =>
    simp only [Option.some.injEq, forall_eq', ← fastTraverseLoop_iff]
    constructor
    · rintro ⟨stateRestricted, h⟩
      split at h
      · cases h
      · split at h
        · cases h
        · exact h
    · intro h
      refine ⟨false, ?_⟩
      rw [if_neg, if_neg (by decide), h]
      intro hlength
      rw [length_eq_zero_iff.1 hlength] at h
      cases h

theorem length_ne_zero_of_saysYes (hyes : SaysYes sd desired) {dacl : List Ace}
    (hdacl : sepGetDaclFromDescriptor sd = some dacl) : dacl.length ≠ 0 := by
  obtain ⟨before, ace, after, rfl, -⟩ := hyes dacl hdacl
  simp

/-- What the full check comes down to. -/
theorem grantsDesired_iff (hlist : rq.objectTypeList = []) (huse : rq.useResultList = false)
    (h0 : rq.desiredAccess ≠ 0) : rq.GrantsDesired ↔ FullCheckGrants rq := by
  obtain ⟨result, hrun, hconcludes⟩ := sepAccessCheckWorker_concludes hlist huse h0
  constructor
  · rintro ⟨result', granted, hrun', hok, -⟩
    rw [hrun] at hrun'
    cases hrun'
    exact hconcludes.granted_iff.1 hok
  · intro hfull
    obtain ⟨granted, hgranted, hall⟩ := hconcludes.rights hfull
    exact ⟨result, granted, hrun, hconcludes.granted_iff.2 hfull, hgranted, hall⟩

/-- **The condition is enough.** -/
theorem grantsDesired_of_traverseSafe (hm : m ≠ ⟨0, 0, 0, 0⟩) (hyes : SaysYes sd desired)
    (hsafe : TraverseSafe sd desired m) (h : Traverses sd desired m rq) : rq.GrantsDesired := by
  obtain ⟨rfl, rfl, rfl, hunrestricted, hworld, hlist, huse, hroom⟩ := h
  obtain ⟨hdesired, haudit, hrest⟩ := hsafe
  rw [grantsDesired_iff hlist huse hdesired]
  refine ⟨policy_status_of_hasRoom rq hroom fun hc => hc.1 haudit,
    or_iff_not_imp_left.2 fun hrem => ?_⟩
  have hless : ∀ r, rq.policy.desiredAccess.getLsbD r = true → rq.mappedDesired.getLsbD r = true :=
    fun r hr => getLsbD_policy_desiredAccess hr
  obtain ⟨r0, hr0⟩ := exists_getLsbD_of_ne_zero hrem
  have hmapped : rtlMapGenericMask rq.genericMapping rq.desiredAccess ≠ 0 :=
    ne_zero_of_getLsbD (hless r0 hr0)
  obtain ⟨hrevision, hdacl⟩ := hrest.resolve_left hmapped
  rw [DescriptorGrants, if_neg hm]
  refine ⟨hrevision, fun dacl hd => ?_⟩
  obtain ⟨hgets, hsome⟩ := hdacl dacl hd
  have hverdict : ∀ r, WorldGets rq.genericMapping dacl r →
      aceVerdict (rq.context false) dacl r = some .allow := fun r hr =>
    aceVerdict_of_worldGets hr rfl hworld
  rw [DaclGrants, if_neg (length_ne_zero_of_saysYes hyes hd)]
  split
  · rename_i hmax
    refine ⟨fun r hr => hverdict r (hgets r (hless r hr) ?_), fun hc => ?_⟩
    · rintro rfl
      exact and_maximumAllowed_iff.2 (hless 25 hr) hmax
    · rw [hunrestricted] at hc
      cases hc
  · rename_i hmax
    rw [maximumRules_unrestricted hunrestricted]
    obtain ⟨r, hr⟩ := hsome (and_maximumAllowed_iff.1 hmax)
    refine ⟨fun r hr hne => hverdict r (hgets r (hless r hr) hne), ne_zero_of_getLsbD (i := r) ?_⟩
    rw [BitVec.getLsbD_or, Bool.or_eq_true, getLsbD_maximumGrant rq hlist,
      maximumRules_unrestricted hunrestricted]
    exact .inr (hverdict r hr)

/-- A check for the token that everything is denied to. -/
def wardedRequest (sd : SecurityDescriptor) (desired : AccessMask) (m : GenericMapping) :
    AccessRequest :=
  { requestFor (wardedToken m ((sepGetDaclFromDescriptor sd).getD [])) [] desired with
    securityDescriptor := sd
    genericMapping := m }

theorem unrestricted_wardedRequest :
    seTokenIsRestricted (wardedRequest sd desired m).token = false :=
  show ((0 : Ulong) &&& tokenIsRestricted != 0) = false by decide

theorem traverses_wardedRequest : Traverses sd desired m (wardedRequest sd desired m) := by
  refine ⟨rfl, rfl, rfl, unrestricted_wardedRequest, ?_, rfl, rfl, fun _ => rfl⟩
  have hself : rtlEqualSid seWorldSid seWorldSid = true := rtlEqualSid_iff.2 rfl
  rw [sepSidInTokenEx, if_neg (by decide), sidToFind]
  exact (if_pos hself).trans (by decide)

/-- **The condition is needed**, by the check for that token. -/
theorem traverseSafe_of_grantsDesired (hm : m ≠ ⟨0, 0, 0, 0⟩) (hyes : SaysYes sd desired)
    (hgrants : (wardedRequest sd desired m).GrantsDesired) : TraverseSafe sd desired m := by
  set rq := wardedRequest sd desired m with hrq
  have hheld : ∀ luid, sepSinglePrivilegeCheck luid rq.token rq.accessMode = false := by
    intro luid
    rw [Bool.eq_false_iff, Ne, sepSinglePrivilegeCheck_iff]
    rintro (h | h) <;> cases h
  have hdesired : desired ≠ 0 := by
    intro h0
    obtain ⟨result, granted, hrun, hok, -⟩ := hgrants
    rw [sepAccessCheckWorker_of_nothing (show rq.desiredAccess = 0 from h0),
      if_pos (show rq.previouslyGrantedAccess = 0 from rfl)] at hrun
    cases hrun
    cases hok
  obtain ⟨hpolicy, hrest⟩ := (grantsDesired_iff rfl rfl hdesired).1 hgrants
  have haudit : rq.mappedDesired &&& accessSystemSecurity = 0 := by
    by_contra hwants
    rcases sePrivilegePolicyCheck_cases rq with ⟨-, heq⟩ | ⟨hno, -⟩
    · rw [heq] at hpolicy
      cases hpolicy
    · exact hno ⟨hwants, hheld _⟩
  have hrefuses : ¬PolicyRefuses rq.mappedDesired rq.token rq.accessMode := fun h => h.1 haudit
  obtain ⟨-, hsame, hgranted⟩ := policy_of_policyMask_eq_zero rq hrefuses
    (policyMask_eq_zero haudit (.inr (hheld _)))
  rw [hsame, DescriptorGrants, if_neg (show rq.genericMapping ≠ _ from hm)] at hrest
  refine ⟨hdesired, haudit,
    hrest.imp_right fun hboth => ⟨hboth.1, fun dacl hd => ?_⟩⟩
  have hgets : ∀ r, aceVerdict (rq.context false) dacl r = some .allow → WorldGets m dacl r := by
    intro r hallow
    refine worldGets_of_aceVerdict (c := rq.context false) ?_ rfl rfl rfl hallow
    rw [hrq, wardedRequest, hd]
    rfl
  have hdaclGrants := hboth.2 dacl hd
  rw [DaclGrants, if_neg (length_ne_zero_of_saysYes hyes hd), hsame, hgranted,
    maximumRules_unrestricted unrestricted_wardedRequest] at hdaclGrants
  split at hdaclGrants
  · rename_i hmax
    exact ⟨fun r hr _ => hgets r (hdaclGrants.1 r hr),
      fun h => absurd hmax (and_maximumAllowed_iff.2 h)⟩
  · obtain ⟨hall, hsome⟩ := hdaclGrants
    refine ⟨fun r hr hne => hgets r (hall r hr hne), fun _ => ?_⟩
    obtain ⟨r, hr⟩ := exists_getLsbD_of_ne_zero hsome
    rw [show rq.mappedPrevious = 0#32 from rfl, BitVec.zero_or, getLsbD_maximumGrant rq rfl,
      maximumRules_unrestricted unrestricted_wardedRequest] at hr
    exact ⟨r, hgets r hr⟩

end Shortcut

/-- **When the shortcut for traversal is sound.** For every descriptor, every desired access and
every generic mapping that is not all zero: exactly if it says no, or the entries for World and
those that deny are as `TraverseSafe` wants them. -/
theorem fastTraverse_sound_iff (sd : SecurityDescriptor) (desired : AccessMask) (m : GenericMapping)
    (hm : m ≠ ⟨0, 0, 0, 0⟩) :
    TraverseSound sd desired m ↔ (SaysYes sd desired → TraverseSafe sd desired m) := by
  constructor
  · intro hsound hyes
    obtain ⟨stateRestricted, hfast⟩ := seFastTraverseCheck_iff.2 hyes
    exact traverseSafe_of_grantsDesired hm hyes
      (hsound stateRestricted hfast _ traverses_wardedRequest)
  · intro hsafe stateRestricted hfast rq hrq
    have hyes : SaysYes sd desired := seFastTraverseCheck_iff.1 ⟨stateRestricted, hfast⟩
    exact grantsDesired_of_traverseSafe hm hyes (hsafe hyes) hrq

/-- World may read and someone else may not write: the shortcut says yes to a request to read, and
is right. -/
theorem fastTraverse_sound_read :
    TraverseSound
      ⟨1, true, some [⟨.accessDenied, 0, 0x2, 0, sePrincipalSelfSid⟩, allowWorld 0x1]⟩ 0x1
      ⟨0x120089, 0x120116, 0x1200a0, 0x1f01ff⟩ := by
  refine (fastTraverse_sound_iff _ _ _ (by decide)).2
    fun _ => ⟨by decide, by decide, .inr ⟨rfl, ?_⟩⟩
  intro dacl hdacl
  cases hdacl
  refine ⟨fun r hr _ => ?_, fun h => absurd h (by decide)⟩
  obtain rfl : r = 0 := by
    have hlt := BitVec.lt_of_getLsbD hr
    interval_cases r <;> first | rfl | exact absurd hr (by decide)
  refine ⟨[_], _, [], rfl, ⟨by decide, seWorldSid, rfl, by decide⟩, ?_⟩
  simp only [mem_singleton, forall_eq]
  decide

/-- **One common right is enough for the shortcut.** World may read but not write;
the shortcut says yes to a request for both, the full check refuses it. -/
theorem fastTraverse_not_sound :
    seTokenIsRestricted worldToken = false ∧
      sepSidInTokenEx worldToken none seWorldSid false false = true ∧
      seFastTraverseCheck (some (requestFor worldToken [allowWorld 0x1] 0x3).securityDescriptor)
        false 0x3 = true ∧
      ¬(requestFor worldToken [allowWorld 0x1] 0x3).GrantsDesired := by
  refine ⟨by decide, by decide, by decide, ?_⟩
  rintro ⟨result, granted, hrun, hok, -⟩
  cases hrun
  exact absurd hok (by decide)

end Windivs

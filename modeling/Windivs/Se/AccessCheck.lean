import Windivs.Se.Acl

/-!
# The access check

`accesschk.c`, from the updates of an object type list up to
`SepAccessCheckWorker`, with `SePrivilegePolicyCheck` of `priv.c` and the shortcut
`SeFastTraverseCheck`.

`Windivs.sepAnalyzeAcesFromDacl` is the sweep over a DACL in its two modes. In
maximum mode every entry is looked at and granted and denied rights pile up; in
regular mode the remaining rights are crossed off and a deny entry that has one of
them ends the sweep. With an object type list the object entries write to the
records of the list and not to those of the object itself.

A list is given by its entries; the source's pair of a pointer and a length is
either `NULL` and zero or a list that is not empty, so the empty list is no list.
-/

namespace Windivs

/-! ### Rights of an object type list -/

/-- Deny rights that have not been granted yet. -/
def denyRights (access : AccessMask) (r : AccessCheckRights) : AccessCheckRights :=
  { r with deniedAccessRights := r.deniedAccessRights ||| (access &&& ~~~r.grantedAccessRights) }

/-- Grant rights that have not been denied yet. -/
def allowRights (access : AccessMask) (r : AccessCheckRights) : AccessCheckRights :=
  { r with grantedAccessRights := r.grantedAccessRights ||| (access &&& ~~~r.deniedAccessRights) }

namespace ObjectTypeInternal

/-- Change the rights of an entry. -/
def mapRights (f : AccessCheckRights → AccessCheckRights) (e : ObjectTypeInternal) :
    ObjectTypeInternal :=
  { e with objectAccessRights := f e.objectAccessRights }

@[simp] theorem objectAccessRights_mapRights (f : AccessCheckRights → AccessCheckRights)
    (e : ObjectTypeInternal) : (e.mapRights f).objectAccessRights = f e.objectAccessRights := rfl

end ObjectTypeInternal

/-- The loop over the children: up to the first entry that is not below `level`. -/
def updateChildren (f : AccessCheckRights → AccessCheckRights) (level : ℕ) :
    List ObjectTypeInternal → List ObjectTypeInternal
  | [] => []
  | e :: l => if e.level ≤ level then e :: l else e.mapRights f :: updateChildren f level l

/-- Update the entry at an index and its children. -/
def updateTree (f : AccessCheckRights → AccessCheckRights) :
    ℕ → List ObjectTypeInternal → List ObjectTypeInternal
  | _, [] => []
  | 0, e :: l => e.mapRights f :: updateChildren f e.level l
  | index + 1, e :: l => e :: updateTree f index l

/-- The entry an object type is about: the root if no type is given. -/
def targetIndex (l : List ObjectTypeInternal) (objectTypeGuid : Option Guid) : Option ℕ :=
  match objectTypeGuid with
  | none => some 0
  | some guid => sepObjectTypeGuidInList l guid

/-- The two updates with the whole subtree. -/
def updateResultList (f : AccessCheckRights → AccessCheckRights) (l : List ObjectTypeInternal)
    (objectTypeGuid : Option Guid) : List ObjectTypeInternal :=
  match targetIndex l objectTypeGuid with
  | none => l
  | some index => updateTree f index l

/-- `SepDenyAccessObjectTypeResultList`. -/
def sepDenyAccessObjectTypeResultList (l : List ObjectTypeInternal) (access : AccessMask)
    (objectTypeGuid : Option Guid) : List ObjectTypeInternal :=
  updateResultList (denyRights access) l objectTypeGuid

/-- `SepAllowAccessObjectTypeResultList`. -/
def sepAllowAccessObjectTypeResultList (l : List ObjectTypeInternal) (access : AccessMask)
    (objectTypeGuid : Option Guid) : List ObjectTypeInternal :=
  updateResultList (allowRights access) l objectTypeGuid

/-- `SepDenyAccessObjectTypeList`: the list, and whether to break. -/
def sepDenyAccessObjectTypeList (l : List ObjectTypeInternal) (access : AccessMask)
    (objectTypeGuid : Option Guid) : List ObjectTypeInternal × Bool :=
  match targetIndex l objectTypeGuid with
  | none => (l, false)
  | some index =>
    (l.modify index (·.mapRights (denyRights access)),
      match l[index]? with
      | some e => e.objectAccessRights.remainingAccessRights &&& access != 0
      | none => false)

/-- What `SepAllowAccessObjectTypeList` does to the rights of its target. -/
def allowTarget (access : AccessMask) (removeRemainingRights : Bool) (r : AccessCheckRights) :
    AccessCheckRights :=
  allowRights access (if removeRemainingRights
    then { r with remainingAccessRights := r.remainingAccessRights &&& ~~~access } else r)

/-- `SepAllowAccessObjectTypeList`. -/
def sepAllowAccessObjectTypeList (l : List ObjectTypeInternal) (access : AccessMask)
    (removeRemainingRights : Bool) (objectTypeGuid : Option Guid) : List ObjectTypeInternal :=
  match targetIndex l objectTypeGuid with
  | none => l
  | some index => l.modify index (·.mapRights (allowTarget access removeRemainingRights))

/-! ### The sweep over a DACL -/

/-- What stays the same over a sweep. -/
structure AceContext where
  accessToken : Token
  isTokenRestricted : Bool
  principalSelfSid : Option View
  genericMapping : GenericMapping
  useResultList : Bool

/-- What the sweep works on. -/
structure AnalysisState where
  accessCheckRights : AccessCheckRights
  objectTypeList : List ObjectTypeInternal

namespace AnalysisState

/-- Change the rights of the object itself. -/
def mapRights (f : AccessCheckRights → AccessCheckRights) (s : AnalysisState) : AnalysisState :=
  { s with accessCheckRights := f s.accessCheckRights }

/-- Replace the object type list. -/
def setList (s : AnalysisState) (l : List ObjectTypeInternal) : AnalysisState :=
  { s with objectTypeList := l }

end AnalysisState

/-- The identifier of an entry is in the token, for deny or for allow. -/
def sidInToken (c : AceContext) (ace : Ace) (deny : Bool) : Bool :=
  match sepGetSidFromAce ace with
  | none => false
  | some sid => sepSidInTokenEx c.accessToken c.principalSelfSid sid deny c.isTokenRestricted

/-- One entry in maximum mode. -/
def maximumAce (c : AceContext) (s : AnalysisState) (ace : Ace) : AnalysisState :=
  if !ace.effective then s
  else
    match ace.aceType with
    | .accessDenied =>
      if sidInToken c ace true then s.mapRights (denyRights (aceAccess c.genericMapping ace)) else s
    | .accessAllowed =>
      if sidInToken c ace false then s.mapRights (allowRights (aceAccess c.genericMapping ace))
      else s
    | .accessDeniedObject =>
      if sidInToken c ace true then
        if s.objectTypeList.isEmpty then s.mapRights (denyRights (aceAccess c.genericMapping ace))
        else if !c.useResultList then
          s.setList (sepDenyAccessObjectTypeList s.objectTypeList (aceAccess c.genericMapping ace)
            (some (sepGetObjectTypeGuidFromAce ace))).1
        else
          s.setList (sepDenyAccessObjectTypeResultList s.objectTypeList
            (aceAccess c.genericMapping ace) (some (sepGetObjectTypeGuidFromAce ace)))
      else s
    | .accessAllowedObject =>
      if sidInToken c ace false then
        if s.objectTypeList.isEmpty then s.mapRights (allowRights (aceAccess c.genericMapping ace))
        else if !c.useResultList then
          s.setList (sepAllowAccessObjectTypeList s.objectTypeList
            (aceAccess c.genericMapping ace) false (some (sepGetObjectTypeGuidFromAce ace)))
        else
          s.setList (sepAllowAccessObjectTypeResultList s.objectTypeList
            (aceAccess c.genericMapping ace) (some (sepGetObjectTypeGuidFromAce ace)))
      else s
    | _ => s

/-- A right that cannot be granted: track it, and break if it is asked for. -/
def refuse (access : AccessMask) (s : AnalysisState) : AnalysisState × Bool :=
  if s.accessCheckRights.remainingAccessRights &&& access ≠ 0 then
    (s.mapRights fun r => { r with deniedAccessRights := r.deniedAccessRights ||| access }, true)
  else (s, false)

/-- A right that is granted: it is no longer asked for. -/
def crossOff (access : AccessMask) (r : AccessCheckRights) : AccessCheckRights :=
  { r with
    remainingAccessRights := r.remainingAccessRights &&& ~~~access
    grantedAccessRights := r.grantedAccessRights ||| access }

/-- One entry in regular mode; the flag says to leave the loop. -/
def regularAce (c : AceContext) (s : AnalysisState) (ace : Ace) : AnalysisState × Bool :=
  if !ace.effective then (s, false)
  else
    match ace.aceType with
    | .accessDenied =>
      if sidInToken c ace true then refuse (aceAccess c.genericMapping ace) s else (s, false)
    | .accessAllowed =>
      if sidInToken c ace false then
        (s.mapRights (crossOff (aceAccess c.genericMapping ace)), false)
      else (s, false)
    | .accessDeniedObject =>
      if sidInToken c ace true then
        if s.objectTypeList.isEmpty then refuse (aceAccess c.genericMapping ace) s
        else
          let result := sepDenyAccessObjectTypeList s.objectTypeList
            (aceAccess c.genericMapping ace) (some (sepGetObjectTypeGuidFromAce ace))
          (s.setList result.1, result.2)
      else (s, false)
    | .accessAllowedObject =>
      if sidInToken c ace false then
        if s.objectTypeList.isEmpty then
          (s.mapRights (crossOff (aceAccess c.genericMapping ace)), false)
        else
          (s.setList (sepAllowAccessObjectTypeList s.objectTypeList
            (aceAccess c.genericMapping ace) true (some (sepGetObjectTypeGuidFromAce ace))), false)
      else (s, false)
    | _ => (s, false)

/-- The loop in regular mode. -/
def regularLoop (c : AceContext) : AnalysisState → List Ace → AnalysisState
  | s, [] => s
  | s, ace :: dacl =>
    match regularAce c s ace with
    | (s', true) => s'
    | (s', false) => regularLoop c s' dacl

/-- The rights asked for, before the loop in regular mode. -/
def startRegular (remainingAccess : AccessMask) (s : AnalysisState) : AnalysisState where
  accessCheckRights := { s.accessCheckRights with remainingAccessRights := remainingAccess }
  objectTypeList := s.objectTypeList.map
    (·.mapRights fun r => { r with remainingAccessRights := remainingAccess })

/-- `ACCESS_CHECK_RIGHT_TYPE`. -/
inductive AccessCheckRightType where
  | accessCheckMaximum
  | accessCheckRegular
  deriving DecidableEq

/-- `SepAnalyzeAcesFromDacl`. -/
def sepAnalyzeAcesFromDacl (c : AceContext) (actionType : AccessCheckRightType)
    (remainingAccess : AccessMask) (dacl : List Ace) (s : AnalysisState) : AnalysisState :=
  match actionType with
  | .accessCheckMaximum => dacl.foldl (maximumAce c) s
  | .accessCheckRegular => regularLoop c (startRegular remainingAccess s) dacl

/-! ### Privileges -/

/-- What `SePrivilegePolicyCheck` leaves: the status, the two masks and the set of
privileges it reports. -/
structure PolicyResult where
  status : NtStatus
  desiredAccess : AccessMask
  grantedAccess : AccessMask
  privilegeSet : Option (List LuidAndAttributes)

/-- The set of privileges that were used, as it is reported. -/
def usedPrivileges (accessMask : AccessMask) : List LuidAndAttributes :=
  (if accessMask &&& writeOwner ≠ 0
    then [⟨seTakeOwnershipPrivilege, sePrivilegeUsedForAccess⟩] else []) ++
  if accessMask &&& accessSystemSecurity ≠ 0
    then [⟨seSecurityPrivilege, sePrivilegeUsedForAccess⟩] else []

/-- `SePrivilegePolicyCheck` without a subject context; `wantSet` says that the
caller wants the set of privileges, `allocate` that the pool has room for it. -/
def sePrivilegePolicyCheck (desiredAccess grantedAccess : AccessMask) (t : Token)
    (wantSet allocate : Bool) (previousMode : KProcessorMode) : PolicyResult :=
  let wantsSecurity : Bool := desiredAccess &&& accessSystemSecurity != 0
  if wantsSecurity && !sepSinglePrivilegeCheck seSecurityPrivilege t previousMode then
    ⟨.privilegeNotHeld, desiredAccess, grantedAccess, none⟩
  else
    let accessMask : AccessMask :=
      (if wantsSecurity then accessSystemSecurity else 0) |||
      if desiredAccess &&& writeOwner ≠ 0 ∧
        sepSinglePrivilegeCheck seTakeOwnershipPrivilege t previousMode then writeOwner else 0
    let granted := grantedAccess ||| accessMask
    let desired := desiredAccess &&& ~~~accessMask
    if wantSet ∧ accessMask ≠ 0 then
      if allocate then ⟨.success, desired, granted, some (usedPrivileges accessMask)⟩
      else ⟨.insufficientResources, desired, granted, none⟩
    else ⟨.success, desired, granted, none⟩

/-! ### The worker -/

/-- The arguments of `SepAccessCheckWorker`. -/
structure AccessRequest where
  securityDescriptor : SecurityDescriptor
  clientAccessToken : Option Token
  primaryAccessToken : Token
  principalSelfSid : Option View
  desiredAccess : AccessMask
  objectTypeList : List ObjectTypeInternal
  previouslyGrantedAccess : AccessMask
  genericMapping : GenericMapping
  accessMode : KProcessorMode
  useResultList : Bool
  /-- `Privileges` is not `NULL`. -/
  wantPrivileges : Bool
  /-- The pool has room for the set of privileges. -/
  allocate : Bool

/-- The token the check is made for: the client's if there is one. -/
def AccessRequest.token (rq : AccessRequest) : Token :=
  rq.clientAccessToken.getD rq.primaryAccessToken

namespace AccessRequest

/-- `DesiredAccess` with the generic rights mapped. -/
def mappedDesired (rq : AccessRequest) : AccessMask :=
  rtlMapGenericMask rq.genericMapping rq.desiredAccess

/-- `PreviouslyGrantedAccess` with the generic rights mapped. -/
def mappedPrevious (rq : AccessRequest) : AccessMask :=
  if rq.previouslyGrantedAccess ≠ 0 then
    rtlMapGenericMask rq.genericMapping rq.previouslyGrantedAccess
  else rq.previouslyGrantedAccess

/-- What `SePrivilegePolicyCheck` makes of the two masks. -/
def policy (rq : AccessRequest) : PolicyResult :=
  sePrivilegePolicyCheck rq.mappedDesired rq.mappedPrevious rq.token rq.wantPrivileges rq.allocate
    rq.accessMode

end AccessRequest

/-- What `SepAccessCheckWorker` leaves. The two lists are `none` where nothing is
written to them. -/
structure AccessResult where
  status : NtStatus
  grantedAccessList : Option (List AccessMask)
  accessStatusList : Option (List NtStatus)
  privileges : Option (List LuidAndAttributes)

/-- The value returned. -/
def AccessResult.granted (r : AccessResult) : Bool := r.status.isSuccess

/-- `ReturnCommonStatus`. -/
def returnCommonStatus (rq : AccessRequest) (status : NtStatus) (grantedAccess : AccessMask)
    (privileges : Option (List LuidAndAttributes)) : AccessResult :=
  if rq.useResultList then ⟨status, none, none, privileges⟩
  else ⟨status, some [grantedAccess], some [status], privileges⟩

/-- The context of a sweep for a request. -/
def AccessRequest.context (rq : AccessRequest) (restricted : Bool) : AceContext where
  accessToken := rq.token
  isTokenRestricted := restricted
  principalSelfSid := rq.principalSelfSid
  genericMapping := rq.genericMapping
  useResultList := rq.useResultList

/-- Nothing granted and nothing denied yet. -/
def AccessRequest.start (rq : AccessRequest) : AnalysisState := ⟨⟨0, 0, 0⟩, rq.objectTypeList⟩

/-- The sweeps of maximum mode: a second one, on the same records, for a restricted
token. -/
def maximumSweeps (rq : AccessRequest) (dacl : List Ace) : AnalysisState :=
  let s := sepAnalyzeAcesFromDacl (rq.context false) .accessCheckMaximum 0 dacl rq.start
  if seTokenIsRestricted rq.token then
    sepAnalyzeAcesFromDacl (rq.context true) .accessCheckMaximum 0 dacl s
  else s

/-- The end of maximum mode for a single object: `granted` is what the sweeps
granted. -/
def concludeMaximum (remainingAccess granted previous : AccessMask) : NtStatus × AccessMask :=
  if remainingAccess &&& ~~~(maximumAllowed ||| granted) ≠ 0 then (.accessDenied, 0)
  else if previous ||| granted ≠ 0 then (.success, previous ||| granted)
  else (.accessDenied, previous ||| granted)

/-- The result of one entry of a result list. -/
def concludeEntry (wantedRights maskDesired previous : AccessMask) (e : ObjectTypeInternal) :
    AccessMask × NtStatus :=
  let granted := (e.objectAccessRights.grantedAccessRights ||| previous) &&& maskDesired
  (granted, if granted ≠ 0 ∧ ~~~granted &&& wantedRights = 0 then .success else .accessDenied)

/-- The check with `MAXIMUM_ALLOWED`, or for a result list. `wanted` is what was
desired or granted before the privileges were looked at. -/
def checkMaximum (rq : AccessRequest) (desired wanted remainingAccess previous : AccessMask)
    (dacl : List Ace) (privileges : Option (List LuidAndAttributes)) : AccessResult :=
  let s := maximumSweeps rq dacl
  if rq.objectTypeList.isEmpty then
    let r := concludeMaximum remainingAccess s.accessCheckRights.grantedAccessRights previous
    returnCommonStatus rq r.1 r.2 privileges
  else if !rq.useResultList then
    let grantedRights := s.objectTypeList.foldl
      (fun g e => g ||| e.objectAccessRights.grantedAccessRights) 0
    let r := concludeMaximum remainingAccess grantedRights previous
    returnCommonStatus rq r.1 r.2 privileges
  else
    let maximum : Bool := desired &&& maximumAllowed != 0
    let wantedRights := if maximum then wanted &&& ~~~maximumAllowed else wanted
    let maskDesired := if maximum then ~~~maximumAllowed else wanted
    let results := s.objectTypeList.map (concludeEntry wantedRights maskDesired previous)
    { status := if results.any (·.2 == .accessDenied) then .accessDenied else .success
      grantedAccessList := some (results.map Prod.fst)
      accessStatusList := some (results.map Prod.snd)
      privileges := privileges }

/-- After a sweep in regular mode: everything asked for has been granted, for the
object or for some entry of the list. -/
def accessIsGranted (s : AnalysisState) : Bool :=
  if s.objectTypeList.isEmpty then s.accessCheckRights.remainingAccessRights == 0
  else s.objectTypeList.any (·.objectAccessRights.remainingAccessRights == 0)

/-- The sweeps of regular mode: for a restricted token both have to grant
everything. -/
def regularSweeps (rq : AccessRequest) (remainingAccess : AccessMask) (dacl : List Ace) : Bool :=
  let s := sepAnalyzeAcesFromDacl (rq.context false) .accessCheckRegular remainingAccess dacl
    rq.start
  accessIsGranted s && (!seTokenIsRestricted rq.token || accessIsGranted
    (sepAnalyzeAcesFromDacl (rq.context true) .accessCheckRegular remainingAccess dacl s))

/-- The check for a set of rights. -/
def checkRegular (rq : AccessRequest) (desired remainingAccess previous : AccessMask)
    (dacl : List Ace) (privileges : Option (List LuidAndAttributes)) : AccessResult :=
  if !regularSweeps rq remainingAccess dacl then
    returnCommonStatus rq .accessDenied 0 privileges
  else if previous ||| desired = 0 then
    returnCommonStatus rq .accessDenied (previous ||| desired) privileges
  else returnCommonStatus rq .success (previous ||| desired) privileges

/-- The check against a security descriptor, once the privileges have been looked
at and rights remain. -/
def checkDescriptor (rq : AccessRequest) (desired wanted remainingAccess previous : AccessMask)
    (privileges : Option (List LuidAndAttributes)) : AccessResult :=
  if rq.genericMapping = ⟨0, 0, 0, 0⟩ then
    if seTokenIsAdmin rq.token then
      returnCommonStatus rq .success (previous ||| remainingAccess) privileges
    else returnCommonStatus rq .accessDenied 0 privileges
  else
    match rtlGetDaclSecurityDescriptor rq.securityDescriptor with
    | .error status => returnCommonStatus rq status previous privileges
    | .ok (true, some dacl) =>
      if dacl.length = 0 then
        if remainingAccess = maximumAllowed ∧ previous ≠ 0 then
          returnCommonStatus rq .success previous privileges
        else returnCommonStatus rq .accessDenied 0 privileges
      else if desired &&& maximumAllowed ≠ 0 ∨ rq.useResultList then
        checkMaximum rq desired wanted remainingAccess previous dacl privileges
      else checkRegular rq desired remainingAccess previous dacl privileges
    | .ok _ =>
      returnCommonStatus rq .success
        (if remainingAccess &&& maximumAllowed ≠ 0 then
          (previous ||| remainingAccess) &&& ~~~maximumAllowed ||| rq.genericMapping.genericAll
        else previous ||| remainingAccess) privileges

/-- `SepAccessCheckWorker`. With no access desired and some granted before,
`Privileges` is written to without a look at it. -/
def sepAccessCheckWorker (rq : AccessRequest) : Run AccessResult :=
  if rq.desiredAccess = 0 then
    if rq.previouslyGrantedAccess = 0 then
      .ok (returnCommonStatus rq .accessDenied rq.previouslyGrantedAccess none)
    else if rq.wantPrivileges then
      .ok (returnCommonStatus rq .success rq.previouslyGrantedAccess none)
    else .error .accessViolation
  else
    if !rq.policy.status.isSuccess then
      .ok (returnCommonStatus rq rq.policy.status rq.policy.grantedAccess rq.policy.privilegeSet)
    else if rq.policy.desiredAccess = 0 then
      .ok (returnCommonStatus rq .success rq.policy.grantedAccess rq.policy.privilegeSet)
    else
      .ok (checkDescriptor rq rq.mappedDesired (rq.mappedDesired ||| rq.mappedPrevious)
        rq.policy.desiredAccess rq.policy.grantedAccess rq.policy.privilegeSet)

/-! ### The shortcut for traversal -/

/-- The loop of `SeFastTraverseCheck`. -/
def fastTraverseLoop (desiredAccess : AccessMask) : List Ace → Bool
  | [] => false
  | ace :: dacl =>
    if !ace.effective then fastTraverseLoop desiredAccess dacl
    else
      match ace.aceType with
      | .accessAllowed =>
        if ace.mask &&& desiredAccess = 0 then fastTraverseLoop desiredAccess dacl
        else if rtlEqualSid seWorldSid ace.body then true
        else fastTraverseLoop desiredAccess dacl
      | .accessDenied =>
        if ace.mask &&& desiredAccess ≠ 0 then false else fastTraverseLoop desiredAccess dacl
      | _ => fastTraverseLoop desiredAccess dacl

/-- `SeFastTraverseCheck`; `none` is no descriptor, and the flag of the access state
is `TOKEN_IS_RESTRICTED`. -/
def seFastTraverseCheck (sd : Option SecurityDescriptor) (stateRestricted : Bool)
    (desiredAccess : AccessMask) : Bool :=
  match sd with
  | none => false
  | some sd =>
    match sepGetDaclFromDescriptor sd with
    | none => true
    | some dacl =>
      if dacl.length = 0 then false
      else if stateRestricted then false
      else fastTraverseLoop desiredAccess dacl

end Windivs

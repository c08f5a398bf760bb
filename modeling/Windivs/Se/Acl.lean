import Windivs.Lib.FirstMatch
import Windivs.Se.Token

/-!
# Access control lists and object type lists

The data an access check reads besides the token: access masks and their generic
rights (`access.c`), access control entries, security descriptors, and the object
type lists of `objtype.c`.

An entry of an ACL is its header, its mask and the bytes behind them. For a plain
entry these bytes are the identifier; for an object entry they are the object type
and the inherited object type, each if its flag is set, and then the identifier.
`SepGetSidFromAce` looks at the flags to find the identifier.
`SepGetObjectTypeGuidFromAce` does not: it always takes the first sixteen bytes,
whatever they are.

An ACL is the list of its entries, one that `RtlGetAce` walks through without an
error.
-/

namespace Windivs

variable {i : ℕ} {mask meaning right : AccessMask}

/-- `ACCESS_MASK`. -/
abbrev AccessMask := BitVec 32

/-- `GENERIC_READ`. -/
def genericReadRight : AccessMask := 0x80000000
/-- `GENERIC_WRITE`. -/
def genericWriteRight : AccessMask := 0x40000000
/-- `GENERIC_EXECUTE`. -/
def genericExecuteRight : AccessMask := 0x20000000
/-- `GENERIC_ALL`. -/
def genericAllRight : AccessMask := 0x10000000
/-- `GENERIC_ACCESS`. -/
def genericAccess : AccessMask := 0xF0000000
/-- `MAXIMUM_ALLOWED`. -/
def maximumAllowed : AccessMask := 0x02000000
/-- `ACCESS_SYSTEM_SECURITY`. -/
def accessSystemSecurity : AccessMask := 0x01000000
/-- `WRITE_OWNER`. -/
def writeOwner : AccessMask := 0x00080000

/-! ### Generic rights -/

/-- `GENERIC_MAPPING`. -/
structure GenericMapping where
  genericRead : AccessMask
  genericWrite : AccessMask
  genericExecute : AccessMask
  genericAll : AccessMask
  deriving DecidableEq

/-- One line of `RtlMapGenericMask`: a generic right brings what it stands for. -/
def mapRight (right meaning mask : AccessMask) : AccessMask :=
  if mask &&& right ≠ 0 then mask ||| meaning else mask

/-- `RtlMapGenericMask`. -/
def rtlMapGenericMask (m : GenericMapping) (mask : AccessMask) : AccessMask :=
  mapRight genericAllRight m.genericAll
    (mapRight genericExecuteRight m.genericExecute
      (mapRight genericWriteRight m.genericWrite
        (mapRight genericReadRight m.genericRead mask))) &&& ~~~genericAccess

theorem mapRight_of_eq_zero (h : mask &&& right = 0) : mapRight right meaning mask = mask :=
  if_neg (not_not_intro h)

/-- A part of a mask is not in a word the mask has nothing of. -/
theorem and_eq_zero_of_and_eq_zero {x y z : AccessMask} (h : x &&& y = 0) (hz : z &&& y = z) :
    x &&& z = 0 := by
  rw [← hz, ← BitVec.and_assoc, BitVec.and_comm x z, BitVec.and_assoc, h]
  exact BitVec.and_zero

section

variable (m : GenericMapping)

/-- Without generic rights there is nothing to map. -/
theorem rtlMapGenericMask_of_eq_zero
    (h : mask &&& genericAccess = 0) : rtlMapGenericMask m mask = mask := by
  rw [rtlMapGenericMask, mapRight_of_eq_zero (and_eq_zero_of_and_eq_zero h (by decide)),
    mapRight_of_eq_zero (and_eq_zero_of_and_eq_zero h (by decide)),
    mapRight_of_eq_zero (and_eq_zero_of_and_eq_zero h (by decide)),
    mapRight_of_eq_zero (and_eq_zero_of_and_eq_zero h (by decide))]
  refine BitVec.eq_of_getLsbD_eq fun i hi => ?_
  have hbit := eq_zero_iff.mp h i
  rw [BitVec.getLsbD_and] at hbit
  rw [getLsbD_and_not]
  cases hm : mask.getLsbD i with
  | false => rfl
  | true =>
    rw [hm, Bool.true_and] at hbit
    rw [hbit]
    rfl

/-! ### Access control entries -/

/-- The `AceType` of an entry. -/
inductive AceType where
  | accessAllowed
  | accessDenied
  | systemAudit
  | systemAlarm
  | accessAllowedObject
  | accessDeniedObject
  /-- Any other code. -/
  | unsupported (code : UInt8)
  deriving DecidableEq

/-- `ACE`, `KNOWN_ACE` and `KNOWN_OBJECT_ACE`. -/
structure Ace where
  aceType : AceType
  aceFlags : BitVec 8
  mask : AccessMask
  /-- `Flags` of an object entry. -/
  flags : Ulong
  /-- What follows: `SidStart` of a plain entry, `ObjectType` of an object entry. -/
  body : View

/-- `INHERIT_ONLY_ACE`. -/
def inheritOnlyAce : BitVec 8 := 0x8
/-- `ACE_OBJECT_TYPE_PRESENT`. -/
def aceObjectTypePresent : Ulong := 0x1
/-- `ACE_INHERITED_OBJECT_TYPE_PRESENT`. -/
def aceInheritedObjectTypePresent : Ulong := 0x2

/-- The entry takes part in checks of the object itself. -/
def Ace.effective (ace : Ace) : Bool := ace.aceFlags &&& inheritOnlyAce == 0

/-- `GUID`, its sixteen bytes. -/
abbrev Guid := Fin 16 → UInt8

/-- `SepGetSidFromAce`. -/
def sepGetSidFromAce (ace : Ace) : Option View :=
  match ace.aceType with
  | .accessDenied | .accessAllowed | .systemAudit | .systemAlarm => some ace.body
  | .accessDeniedObject | .accessAllowedObject =>
    let guidSize := (if ace.flags &&& aceObjectTypePresent ≠ 0 then 16 else 0) +
      if ace.flags &&& aceInheritedObjectTypePresent ≠ 0 then 16 else 0
    some fun i => ace.body (guidSize + i)
  | .unsupported _ => none

/-- `SepGetObjectTypeGuidFromAce`: the bytes at the place of the object type. -/
def sepGetObjectTypeGuidFromAce (ace : Ace) : Guid := fun i => ace.body i

/-- The access right of an entry, mapped if it has a generic one. -/
def aceAccess (m : GenericMapping) (ace : Ace) : AccessMask :=
  if ace.mask &&& genericAccess ≠ 0 then rtlMapGenericMask m ace.mask else ace.mask

/-- Mapping always gives the same. -/
theorem aceAccess_eq (ace : Ace) : aceAccess m ace = rtlMapGenericMask m ace.mask := by
  rw [aceAccess]
  split
  · rfl
  · exact (rtlMapGenericMask_of_eq_zero m (not_not.mp ‹_›)).symm

end

/-! ### Security descriptors -/

/-- `SECURITY_DESCRIPTOR`, as far as access checks go. -/
structure SecurityDescriptor where
  revision : ℕ
  /-- `SE_DACL_PRESENT` in `Control`. -/
  daclPresent : Bool
  /-- The DACL pointer; `none` is `NULL`. -/
  dacl : Option (List Ace)

/-- `SepGetDaclFromDescriptor`. -/
def sepGetDaclFromDescriptor (sd : SecurityDescriptor) : Option (List Ace) :=
  if sd.daclPresent then sd.dacl else none

/-- `RtlGetDaclSecurityDescriptor`: whether there is a DACL, and the DACL. -/
def rtlGetDaclSecurityDescriptor (sd : SecurityDescriptor) :
    Except NtStatus (Bool × Option (List Ace)) :=
  if sd.revision ≠ 1 then .error .unknownRevision
  else .ok (sd.daclPresent, sepGetDaclFromDescriptor sd)

/-! ### Object type lists -/

/-- `ACCESS_CHECK_RIGHTS`. -/
structure AccessCheckRights where
  remainingAccessRights : AccessMask
  grantedAccessRights : AccessMask
  deniedAccessRights : AccessMask
  deriving DecidableEq

/-- `OBJECT_TYPE_LIST`: an entry as the caller passes it. `none` is a pointer that
cannot be read. -/
structure ObjectType where
  level : ℕ
  objectType : Option Guid

/-- `OBJECT_TYPE_LIST_INTERNAL`. -/
structure ObjectTypeInternal where
  objectTypeGuid : Guid
  level : ℕ
  objectAccessRights : AccessCheckRights

/-- The checks of one level against the one before it: the first entry is the root
and no other is, and levels go down one at a time. -/
def levelAllowed : Option ℕ → ℕ → Bool
  | none, level => level == 0
  | some prevLevel, level => level != 0 && level ≤ prevLevel + 1

/-- The loop of `SepValidateObjectTypeList`, from some index on. -/
def validateLevels : Option ℕ → List ObjectType → NtStatus
  | _, [] => .success
  | prevLevel, e :: l =>
    if e.level > 4 then .invalidParameter
    else if !levelAllowed prevLevel e.level then .invalidParameter
    else if e.objectType.isNone then .accessViolation
    else validateLevels (some e.level) l

/-- `SepValidateObjectTypeList`; the size in bytes is a 32-bit word. -/
def sepValidateObjectTypeList (l : List ObjectType) : NtStatus :=
  if 8 * l.length % 0x100000000 = 0 then .invalidParameter else validateLevels none l

/-- An entry as the kernel keeps it. -/
def captureObjectType (e : ObjectType) : ObjectTypeInternal where
  objectTypeGuid := e.objectType.getD fun _ => 0
  level := e.level
  objectAccessRights := ⟨0, 0, 0⟩

/-- `SeCaptureObjectTypeList` in user mode, where `allocate` says whether the pool
has room. An empty list is no list. -/
def seCaptureObjectTypeList (l : List ObjectType) (allocate : Bool) :
    Except NtStatus (List ObjectTypeInternal) :=
  if l.length = 0 then .ok []
  else if sepValidateObjectTypeList l ≠ .success then .error (sepValidateObjectTypeList l)
  else if allocate then .ok (l.map captureObjectType) else .error .insufficientResources

/-- `SepObjectTypeGuidInList`: the first entry with the type. -/
def sepObjectTypeGuidInList (l : List ObjectTypeInternal) (guid : Guid) : Option ℕ :=
  l.findIdx? fun e => e.objectTypeGuid = guid

end Windivs

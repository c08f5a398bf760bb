import Windivs.Lib.Memory
import Windivs.Se.Acl

/-!
# Inherited access control lists

The functions of `acl.c` that make the ACL of a new object from the ACL of its
parent, or from one given by the caller, and `RtlValidAcl`, which says what an ACL
is. Here an ACL is memory: a header of eight bytes, then `AceCount` entries, each of
the size its own header states. The source and the destination are two memories, both
addressed from the start of the ACL, which is aligned.

`SepPropagateAcl` is both the sizing and the writing pass. It goes through the
entries of the source once and keeps count of what they need; an entry is written
only if it still fits in the length the caller gave. Three things can happen to an
entry:

* an entry of a type above `ACCESS_MAX_MS_V2_ACE_TYPE` is copied as it stands;
* another one may be dropped, or copied with new flags;
* an inherited entry that takes effect on the object gets specific rights, and the
  owner or the group of the object in place of the creator. When it is to be inherited
  further, and this changed it, a second entry keeps the generic rights.

`Written` is kept as a natural number: an ACL has fewer than `2 ^ 16` bytes, and each
byte of the source accounts for less than `2 ^ 16` bytes of the destination, so that the
`ULONG` does not overflow. The fields `AclSize` and `AceCount` have sixteen bits and
are truncated where they are stored.
-/

namespace Windivs

/-! ### An access control list in memory -/

/-- `AclRevision`. -/
def aclRevision (acl : Mem) : ℕ := (acl 0).toNat
/-- `Sbz1`. -/
def aclSbz1 (acl : Mem) : UInt8 := acl 1
/-- `AclSize`. -/
def aclSize (acl : Mem) : ℕ := acl.readU16 2
/-- `AceCount`. -/
def aceCount (acl : Mem) : ℕ := acl.readU16 4
/-- `Sbz2`. -/
def aclSbz2 (acl : Mem) : ℕ := acl.readU16 6

/-- `AceType` of the entry at `ace`. -/
def aceTypeAt (acl : Mem) (ace : ℕ) : UInt8 := acl ace
/-- `AceFlags` of the entry at `ace`. -/
def aceFlagsAt (acl : Mem) (ace : ℕ) : BitVec 8 := (acl (ace + 1)).toBitVec
/-- `AceSize` of the entry at `ace`. -/
def aceSizeAt (acl : Mem) (ace : ℕ) : ℕ := acl.readU16 (ace + 2)
/-- `Mask` of the entry at `ace`. -/
def aceMaskAt (acl : Mem) (ace : ℕ) : AccessMask := BitVec.ofNat 32 (acl.readU32 (ace + 4))
/-- `SidStart` of the entry at `ace`. -/
def aceSidAt (acl : Mem) (ace : ℕ) : View := fun i => acl (ace + 8 + i)

/-- `ACCESS_MAX_MS_V2_ACE_TYPE`. -/
def accessMaxMsV2AceType : UInt8 := 3

/-- The checks `RtlValidAcl` makes of an identifier: `SID_REVISION`, and no more than
`SID_MAX_SUB_AUTHORITIES`. -/
def validSid (sid : View) : Bool := sid 0 == 1 && decide ((sid 1).toNat ≤ 15)

/-- `GuidSize`: the room of the GUIDs that the flags of an object entry announce. -/
def objectGuidSize (flags : Ulong) : ℕ :=
  (if flags &&& aceObjectTypePresent ≠ 0 then 16 else 0) +
    if flags &&& aceInheritedObjectTypePresent ≠ 0 then 16 else 0

/-- The checks of `RtlValidAcl` that depend on the type of the entry. -/
def validAceBody (revision : ℕ) (acl : Mem) (ace : ℕ) : Bool :=
  let size := aceSizeAt acl ace
  if aceTypeAt acl ace ≤ accessMaxMsV2AceType then
    decide (size % 4 = 0) && decide (4 ≤ size) && validSid (aceSidAt acl ace) &&
      decide (4 + rtlLengthSid (aceSidAt acl ace) ≤ size)
  else if aceTypeAt acl ace = 5 ∨ aceTypeAt acl ace = 6 then
    -- `KNOWN_OBJECT_ACE`: the flags stand at offset 8, the GUIDs they announce before the SID
    let guidSize := objectGuidSize (BitVec.ofNat 32 (acl.readU32 (ace + 8)))
    let sid : View := fun i => acl (ace + 12 + guidSize + i)
    decide (4 ≤ revision) && decide (size % 4 = 0) && decide (16 ≤ size) && validSid sid &&
      decide ((12 + guidSize + rtlLengthSid sid) % 0x10000 ≤ size)
  else if aceTypeAt acl ace = 4 then true
  else if 5 ≤ aceTypeAt acl ace ∧ aceTypeAt acl ace ≤ 8 then true
  else decide (4 ≤ size)

/-- One turn of the loop of `RtlValidAcl`. -/
def validAce (acl : Mem) (ace : ℕ) : Bool :=
  decide (ace + 4 < aclSize acl) && decide (aceSizeAt acl ace % 2 = 0) &&
    decide (ace + aceSizeAt acl ace ≤ aclSize acl) && validAceBody (aclRevision acl) acl ace

/-- The places of `n` entries, the first of them at `ace`. -/
def acePlaces (acl : Mem) : ℕ → ℕ → List ℕ
  | 0, _ => []
  | n + 1, ace => ace :: acePlaces acl n (ace + aceSizeAt acl ace)

/-- The places of all entries. -/
def aces (acl : Mem) : List ℕ := acePlaces acl (aceCount acl) 8

/-- `RtlValidAcl`. -/
def rtlValidAcl (acl : Mem) : Bool :=
  decide (2 ≤ aclRevision acl) && decide (aclRevision acl ≤ 4) && decide (aclSize acl % 2 = 0) &&
    decide (8 ≤ aclSize acl) && (aces acl).all (validAce acl)

/-! ### Which entries are inherited -/

/-- `OBJECT_INHERIT_ACE`. -/
def objectInheritAce : BitVec 8 := 0x1
/-- `CONTAINER_INHERIT_ACE`. -/
def containerInheritAce : BitVec 8 := 0x2
/-- `NO_PROPAGATE_INHERIT_ACE`. -/
def noPropagateInheritAce : BitVec 8 := 0x4
/-- `VALID_INHERIT_FLAGS`. -/
def validInheritFlags : BitVec 8 := 0x1F

/-- `SepShouldPropagateAce`: the new flags, if the entry is propagated. -/
def sepShouldPropagateAce (aceFlags : BitVec 8) (isInherited isDirectoryObject : Bool) :
    Option (BitVec 8) :=
  if !isInherited then some aceFlags
  else if !isDirectoryObject then
    if aceFlags &&& objectInheritAce ≠ 0 then some (aceFlags &&& ~~~validInheritFlags) else none
  else if aceFlags &&& noPropagateInheritAce ≠ 0 then
    if aceFlags &&& containerInheritAce ≠ 0 then some (aceFlags &&& ~~~validInheritFlags) else none
  else if aceFlags &&& containerInheritAce ≠ 0 then
    some (containerInheritAce ||| (aceFlags &&& objectInheritAce) |||
      (aceFlags &&& ~~~validInheritFlags))
  else if aceFlags &&& objectInheritAce ≠ 0 then
    some (inheritOnlyAce ||| objectInheritAce ||| (aceFlags &&& ~~~validInheritFlags))
  else none

/-! ### The propagation of an ACL -/

/-- `SeCreatorOwnerSid`, S-1-3-0. -/
def seCreatorOwnerSid : View := viewOf [1, 1, 0, 0, 0, 0, 0, 3, 0, 0, 0, 0]
/-- `SeCreatorGroupSid`, S-1-3-1. -/
def seCreatorGroupSid : View := viewOf [1, 1, 0, 0, 0, 0, 0, 3, 1, 0, 0, 0]

/-- `Sid != (PSID)&AceSource->SidStart` once the creator has been replaced: neither the owner nor
the group lies in the source ACL. -/
def isCreatorSid (sid : View) : Bool :=
  rtlEqualSid sid seCreatorOwnerSid || rtlEqualSid sid seCreatorGroupSid

/-- The parameters of `SepPropagateAcl` besides the two ACLs. -/
structure PropagateRequest where
  owner : View
  group : View
  isInherited : Bool
  isDirectoryObject : Bool
  genericMapping : GenericMapping

/-- The local variables of `SepPropagateAcl`. -/
structure PropagateState where
  /-- The memory behind `AclDest`. -/
  dest : Mem
  currentDest : ℕ
  currentSource : ℕ
  written : ℕ
  aceCount : ℕ

/-- `RtlCopySid`: too small a buffer is left as it is. -/
def rtlCopySid (bufferLength : ℕ) (m : Mem) (dest : ℕ) (src : View) : Mem :=
  if bufferLength < rtlLengthSid src then m else m.copy dest src 0 (rtlLengthSid src)

/-- The stores into the fields of one entry. -/
def writeAce (m : Mem) (ace : ℕ) (aceType : UInt8) (aceFlags : BitVec 8) (aceSize : ℕ)
    (mask : AccessMask) (sid : View) : Mem :=
  rtlCopySid (aceSize - 8)
    ((((m.writeU8 ace aceType).writeU8 (ace + 1) (UInt8.ofBitVec aceFlags)).writeU16 (ace + 2)
      aceSize).writeU32 (ace + 4) mask.toNat) (ace + 8) sid

namespace PropagateState

/-- What is done for one entry of the destination: written if it fits, and counted. -/
def put (s : PropagateState) (aclLength aceSize : ℕ) (write : Mem → ℕ → Mem) : PropagateState :=
  { s with
    dest := if s.written + aceSize ≤ aclLength then write s.dest s.currentDest else s.dest
    currentDest := s.currentDest + aceSize
    written := s.written + aceSize
    aceCount := s.aceCount + 1 }

/-- `CurrentSource += AceSource->Header.AceSize`. -/
def nextSource (s : PropagateState) (aceSize : ℕ) : PropagateState :=
  { s with currentSource := s.currentSource + aceSize }

end PropagateState

namespace PropagateRequest

variable (rq : PropagateRequest)

/-- The mask of an effective entry: specific rights only, and only those the type has. -/
def effectiveMask (mask : AccessMask) : AccessMask :=
  rtlMapGenericMask rq.genericMapping mask &&& rq.genericMapping.genericAll

/-- The identifier of an inherited effective entry. -/
def effectiveSid (sid : View) : View :=
  if rtlEqualSid sid seCreatorOwnerSid then rq.owner
  else if rtlEqualSid sid seCreatorGroupSid then rq.group
  else sid

/-- An entry of the first four types that `SepShouldPropagateAce` lets through with the flags
`aceFlags`. -/
def writeKnownAce (aclLength : ℕ) (src : Mem) (aceFlags : BitVec 8) (s : PropagateState) :
    PropagateState :=
  let ace := s.currentSource
  let effective := aceFlags &&& inheritOnlyAce == 0
  let mask := if effective then rq.effectiveMask (aceMaskAt src ace) else aceMaskAt src ace
  let sid := if effective && rq.isInherited then rq.effectiveSid (aceSidAt src ace)
    else aceSidAt src ace
  let aceSize := if effective && rq.isInherited then 8 + rtlLengthSid sid else aceSizeAt src ace
  let writeTwoAces := effective && rq.isInherited && rq.isDirectoryObject &&
    aceFlags &&& containerInheritAce != 0 &&
    (mask != aceMaskAt src ace || isCreatorSid (aceSidAt src ace))
  if writeTwoAces then
    (s.put aclLength aceSize fun m d =>
        writeAce m d (aceTypeAt src ace) (aceFlags &&& ~~~validInheritFlags) aceSize mask sid).put
      aclLength (aceSizeAt src ace) fun m d =>
        writeAce m d (aceTypeAt src ace) (aceFlags ||| inheritOnlyAce) (aceSizeAt src ace)
          (aceMaskAt src ace) (aceSidAt src ace)
  else
    s.put aclLength aceSize fun m d =>
      writeAce m d (aceTypeAt src ace) aceFlags aceSize mask sid

/-- One turn of the loop of `SepPropagateAcl`. -/
def propagateAce (aclLength : ℕ) (src : Mem) (s : PropagateState) : Run PropagateState :=
  let ace := s.currentSource
  let aceSize := aceSizeAt src ace
  assert (s.currentDest % 4 = 0) >>= fun _ =>
  assert (s.currentSource % 4 = 0) >>= fun _ =>
  if accessMaxMsV2AceType < aceTypeAt src ace then
    .ok ((s.put aclLength aceSize fun m d => m.copy d src ace aceSize).nextSource aceSize)
  else
    assert (aceTypeAt src ace = 0 ∨ aceTypeAt src ace = 1 ∨ aceTypeAt src ace = 2 ∨
      aceTypeAt src ace = 3) >>= fun _ =>
    assert (aceSize % 4 = 0) >>= fun _ =>
    assert (12 ≤ aceSize) >>= fun _ =>
    match sepShouldPropagateAce (aceFlagsAt src ace) rq.isInherited rq.isDirectoryObject with
    | none => .ok (s.nextSource aceSize)
    | some aceFlags =>
      assert (8 + rtlLengthSid (aceSidAt src ace) ≤ aceSize) >>= fun _ =>
      .ok ((rq.writeKnownAce aclLength src aceFlags s).nextSource aceSize)

/-- The loop of `SepPropagateAcl`, for `n` more entries. -/
def propagateLoop (aclLength : ℕ) (src : Mem) : ℕ → PropagateState → Run PropagateState
  | 0, s => .ok s
  | n + 1, s => rq.propagateAce aclLength src s >>= propagateLoop aclLength src n

end PropagateRequest

/-- What `SepPropagateAcl` returns. -/
inductive PropagateStatus where
  | success
  | bufferTooSmall
  deriving DecidableEq, Repr

/-- `SepPropagateAcl`: the status, the new value of `*AclLength`, and the memory behind
`AclDest`. -/
def sepPropagateAcl (rq : PropagateRequest) (dest : Mem) (aclLength : ℕ) (src : Mem) :
    Run (PropagateStatus × ℕ × Mem) :=
  assert (rtlValidAcl src = true) >>= fun _ =>
  assert (aclSize src % 4 = 0) >>= fun _ =>
  assert (aclSbz1 src = 0) >>= fun _ =>
  assert (aclSbz2 src = 0) >>= fun _ =>
  rq.propagateLoop aclLength src (aceCount src)
    { dest := if 8 ≤ aclLength then dest.copy 0 src 0 8 else dest
      currentDest := 8
      currentSource := 8
      written := 8
      aceCount := 0 } >>= fun s =>
  .ok (if aclLength < s.written then .bufferTooSmall else .success, s.written,
    if 8 ≤ aclLength then (s.dest.writeU16 4 s.aceCount).writeU16 2 s.written else s.dest)

/-- What `SepSelectAcl` hands out. -/
structure SelectedAcl where
  acl : Option Mem
  aclLength : ℕ
  aclPresent : Bool
  isInherited : Bool

/-- The end of `SepSelectAcl`: an ACL that is not inherited, and its length. -/
def ownAcl (rq : PropagateRequest) (null : Mem) (aclPresent : Bool) : Option Mem → Run SelectedAcl
  | none => .ok ⟨none, 0, aclPresent, false⟩
  | some acl =>
    sepPropagateAcl { rq with isInherited := false } null 0 acl >>= fun r =>
    assert (r.1 = .bufferTooSmall) >>= fun _ =>
    .ok ⟨some acl, r.2.1, aclPresent, false⟩

/-- `SepSelectAcl`: the ACL of the caller, of the parent or of the token, and the length its
propagation needs. The function sets `IsInherited` itself; `null` is the memory behind the null
pointer, of which nothing is written. -/
def sepSelectAcl (rq : PropagateRequest) (null : Mem) (explicitAcl : Option Mem)
    (explicitPresent explicitDefaulted : Bool) (parentAcl defaultAcl : Option Mem) :
    Run SelectedAcl :=
  let withoutParent : Run SelectedAcl :=
    if explicitPresent then ownAcl rq null true explicitAcl
    else ownAcl rq null defaultAcl.isSome defaultAcl
  if explicitPresent && !explicitDefaulted then ownAcl rq null true explicitAcl
  else match parentAcl with
    | none => withoutParent
    | some parent =>
      sepPropagateAcl { rq with isInherited := true } null 0 parent >>= fun r =>
      assert (r.1 = .bufferTooSmall) >>= fun _ =>
      -- the parent's ACL is used only if it is not empty
      if r.2.1 ≠ 8 then .ok ⟨some parent, r.2.1, true, true⟩ else withoutParent

end Windivs

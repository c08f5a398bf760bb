import Windivs.Lib.Records
import Windivs.Se.AclPropagate

/-!
# Access control entries as values

An entry of an ACL in memory stands for a `Windivs.AceEntry`: one of the first four types
for its fields and its identifier, any other for its bytes. This file says how the entries
of a list lie in memory (`Windivs.aceFormat`, an instance of `Windivs.RecordFormat`),
what of an entry `RtlValidAcl` looks at, and what becomes of an entry that is propagated
(`Windivs.AceEntry.propagate`): this is what `SepPropagateAcl` is for, without memory,
lengths or assertions.

An entry can be read back from its bytes when they contain what is read
(`Windivs.AceEntry.Stored`): its header and, for the first four types, its identifier.
`RtlValidAcl` does not ask for this. It takes an entry of a type it does not support for
valid whatever its size is, and asks a known entry to have room for four bytes less than
its fields need.
-/

namespace Windivs

variable {i n p : ℕ} {m : Mem}

variable {v w : View}

/-! ### Identifiers as values -/

@[simp] theorem length_sidValue (v : View) : (sidValue v).length = rtlLengthSid v := by
  simp [sidValue]

theorem viewOf_sidValue (h : i < rtlLengthSid v) : viewOf (sidValue v) i = v i := by
  simp [viewOf, sidValue, List.getD_eq_getElem?_getD, h]

theorem eight_le_rtlLengthSid (v : View) : 8 ≤ rtlLengthSid v := by
  rw [rtlLengthSid]
  omega

theorem rtlLengthSid_mod (v : View) : rtlLengthSid v % 4 = 0 := by
  rw [rtlLengthSid]
  omega

/-- An identifier is its length and its bytes. -/
theorem sidValue_congr (h : ∀ i < rtlLengthSid v, w i = v i) : sidValue w = sidValue v := by
  have hlen : rtlLengthSid w = rtlLengthSid v := by
    rw [rtlLengthSid, rtlLengthSid, h 1 (by have := eight_le_rtlLengthSid v; omega)]
  rw [sidValue, hlen]
  exact List.map_congr_left fun i hi => h i (List.mem_range.1 hi)

theorem sidValue_viewOf_sidValue (v : View) : sidValue (viewOf (sidValue v)) = sidValue v :=
  sidValue_congr fun _ => viewOf_sidValue

theorem rtlLengthSid_viewOf_sidValue (v : View) :
    rtlLengthSid (viewOf (sidValue v)) = rtlLengthSid v := by
  rw [← length_sidValue, sidValue_viewOf_sidValue, length_sidValue]

theorem validSid_congr (h : sidValue w = sidValue v) : validSid w = validSid v := by
  have h8 := eight_le_rtlLengthSid v
  have h8' := eight_le_rtlLengthSid w
  have hbyte : ∀ i < 2, w i = v i := by
    intro i hi
    rw [← viewOf_sidValue (show i < rtlLengthSid w by omega), h, viewOf_sidValue (by omega)]
  rw [validSid, validSid, hbyte 0 (by omega), hbyte 1 (by omega)]

/-- An identifier that passes the checks has at most fifteen authorities. -/
theorem rtlLengthSid_le_of_validSid (h : validSid v = true) : rtlLengthSid v ≤ 68 := by
  rw [validSid, Bool.and_eq_true, decide_eq_true_eq] at h
  rw [rtlLengthSid]
  omega

theorem objectGuidSize_le (flags : Ulong) : objectGuidSize flags ≤ 32 := by
  rw [objectGuidSize]
  split <;> split <;> omega

/-! ### Entries -/

/-- An entry of one of the first four types, which all have the same fields. -/
structure KnownAce where
  aceType : UInt8
  aceFlags : BitVec 8
  aceSize : ℕ
  mask : AccessMask
  sid : List UInt8
  deriving DecidableEq

/-- An entry of an access control list. -/
inductive AceEntry where
  /-- An entry of a type up to `ACCESS_MAX_MS_V2_ACE_TYPE`. -/
  | known (a : KnownAce)
  /-- Any other entry. -/
  | other (bytes : List UInt8)
  deriving DecidableEq

namespace AceEntry

/-- `AceSize`. -/
def size : AceEntry → ℕ
  | known a => a.aceSize
  | other bytes => bytes.length

/-- How the entry is written. -/
def write : AceEntry → Mem → ℕ → Mem
  | known a, m, p => writeAce m p a.aceType a.aceFlags a.aceSize a.mask (viewOf a.sid)
  | other bytes, m, p => m.copy p (viewOf bytes) 0 bytes.length

end AceEntry

/-- The entry that begins at `p`. -/
def readAce (m : Mem) (p : ℕ) : AceEntry :=
  if accessMaxMsV2AceType < aceTypeAt m p then .other (m.bytes p (aceSizeAt m p))
  else .known ⟨aceTypeAt m p, aceFlagsAt m p, aceSizeAt m p, aceMaskAt m p,
    sidValue (aceSidAt m p)⟩

/-- Entries in memory. -/
def aceFormat : RecordFormat AceEntry where
  size := AceEntry.size
  write := AceEntry.write
  read := readAce

@[simp] theorem aceFormat_size (e : AceEntry) : aceFormat.size e = e.size := rfl
@[simp] theorem aceFormat_write (e : AceEntry) : aceFormat.write e = e.write := rfl
@[simp] theorem aceFormat_read (m : Mem) (p : ℕ) : aceFormat.read m p = readAce m p := rfl

@[simp] theorem size_readAce (m : Mem) (p : ℕ) : (readAce m p).size = aceSizeAt m p := by
  rw [readAce]
  split <;> simp [AceEntry.size, Mem.bytes]

/-- The entries of an ACL. -/
def aceEntries (acl : Mem) : List AceEntry := (aces acl).map (readAce acl)

/-- The bytes of the entry at `p` contain what is read of it. -/
structure AceContained (m : Mem) (p : ℕ) : Prop where
  header : 4 ≤ aceSizeAt m p
  sid : aceTypeAt m p ≤ accessMaxMsV2AceType → 8 + rtlLengthSid (aceSidAt m p) ≤ aceSizeAt m p

section Shift

variable {m' : Mem} {p' : ℕ}

theorem aceTypeAt_shift (h4 : 4 ≤ aceSizeAt m p)
    (h : ∀ i < aceSizeAt m p, m' (p' + i) = m (p + i)) : aceTypeAt m' p' = aceTypeAt m p :=
  h 0 (by omega)

theorem aceSizeAt_shift (h4 : 4 ≤ aceSizeAt m p)
    (h : ∀ i < aceSizeAt m p, m' (p' + i) = m (p + i)) : aceSizeAt m' p' = aceSizeAt m p := by
  refine Mem.readU16_shift fun i hi => ?_
  rw [Nat.add_assoc, Nat.add_assoc]
  exact h (2 + i) (by omega)

theorem aceSidAt_shift (hn : 8 + n ≤ aceSizeAt m p)
    (h : ∀ i < aceSizeAt m p, m' (p' + i) = m (p + i)) :
    ∀ i < n, aceSidAt m' p' i = aceSidAt m p i := by
  intro i hi
  rw [aceSidAt, aceSidAt, Nat.add_assoc, Nat.add_assoc]
  exact h (8 + i) (by omega)

/-- An entry that contains what is read of it is the same wherever its bytes lie. -/
theorem readAce_shift (hc : AceContained m p)
    (h : ∀ i < aceSizeAt m p, m' (p' + i) = m (p + i)) : readAce m' p' = readAce m p := by
  have htype := aceTypeAt_shift hc.header h
  have hsize := aceSizeAt_shift hc.header h
  rw [readAce, readAce, htype, hsize]
  by_cases hother : accessMaxMsV2AceType < aceTypeAt m p
  · rw [if_pos hother, if_pos hother]
    exact congrArg AceEntry.other (List.map_congr_left fun i hi => h i (List.mem_range.1 hi))
  · have hsid := hc.sid (UInt8.not_lt.1 hother)
    have hflags : aceFlagsAt m' p' = aceFlagsAt m p := by
      rw [aceFlagsAt, aceFlagsAt, h 1 (by omega)]
    have hmask : aceMaskAt m' p' = aceMaskAt m p := by
      refine congrArg _ (Mem.readU32_shift fun i hi => ?_)
      rw [Nat.add_assoc, Nat.add_assoc]
      exact h (4 + i) (by omega)
    rw [if_neg hother, if_neg hother, hflags, hmask, sidValue_congr (aceSidAt_shift hsid h)]

/-- So is what `RtlValidAcl` says of it. -/
theorem validAceBody_shift {revision : ℕ} (hc : AceContained m p)
    (h : ∀ i < aceSizeAt m p, m' (p' + i) = m (p + i))
    (hv : validAceBody revision m p = true) : validAceBody revision m' p' = true := by
  have htype := aceTypeAt_shift hc.header h
  have hsize := aceSizeAt_shift hc.header h
  simp only [validAceBody] at hv ⊢
  rw [htype, hsize]
  by_cases hknown : aceTypeAt m p ≤ accessMaxMsV2AceType
  · have hsid := sidValue_congr (aceSidAt_shift (hc.sid hknown) h)
    rw [if_pos hknown] at hv ⊢
    rw [validSid_congr hsid, ← length_sidValue, hsid, length_sidValue]
    exact hv
  rw [if_neg hknown] at hv ⊢
  by_cases hobject : aceTypeAt m p = 5 ∨ aceTypeAt m p = 6
  · rw [if_pos hobject] at hv ⊢
    simp only [Bool.and_eq_true, decide_eq_true_eq] at hv
    obtain ⟨⟨⟨hrest, h16⟩, hvalid⟩, hroom⟩ := hv
    have hflags : m'.readU32 (p' + 8) = m.readU32 (p + 8) := by
      refine Mem.readU32_shift fun i hi => ?_
      rw [Nat.add_assoc, Nat.add_assoc]
      exact h (8 + i) (by omega)
    -- a valid identifier is short, so that the room it needs is not truncated
    have hguid := objectGuidSize_le (BitVec.ofNat 32 (m.readU32 (p + 8)))
    rw [hflags]
    generalize objectGuidSize (BitVec.ofNat 32 (m.readU32 (p + 8))) = guidSize at *
    have hlen := rtlLengthSid_le_of_validSid hvalid
    rw [Nat.mod_eq_of_lt (by omega)] at hroom
    have hsid : sidValue (fun i => m' (p' + 12 + guidSize + i)) =
        sidValue fun i => m (p + 12 + guidSize + i) := by
      refine sidValue_congr fun i hi => ?_
      have := h (12 + guidSize + i) (by omega)
      simpa only [← Nat.add_assoc] using this
    rw [validSid_congr hsid, ← length_sidValue, hsid, length_sidValue]
    simp only [Bool.and_eq_true, decide_eq_true_eq]
    exact ⟨⟨⟨hrest, h16⟩, hvalid⟩, (Nat.mod_le _ _).trans hroom⟩
  · rw [if_neg hobject] at hv ⊢
    exact hv

end Shift

/-! ### Entries that can be read back -/

/-- The fields of a known entry fit in its size, and its size in its header. -/
structure KnownAce.Stored (a : KnownAce) : Prop where
  type_le : a.aceType ≤ accessMaxMsV2AceType
  size_lt : a.aceSize < 0x10000
  room : 8 + a.sid.length ≤ a.aceSize
  sid_eq : sidValue (viewOf a.sid) = a.sid

/-- The entry can be read back from its bytes. -/
def AceEntry.Stored : AceEntry → Prop
  | known a => a.Stored
  | other bytes => 4 ≤ bytes.length ∧ readAce (viewOf bytes) 0 = other bytes

theorem viewOf_bytes (h : i < n) : viewOf (m.bytes p n) i = m (p + i) := by
  simp [viewOf, Mem.bytes, List.getD_eq_getElem?_getD, h]

theorem AceContained.stored (h : AceContained m p) : (readAce m p).Stored := by
  have hshift : readAce (viewOf (m.bytes p (aceSizeAt m p))) 0 = readAce m p :=
    readAce_shift h fun i hi => by rw [Nat.zero_add, viewOf_bytes hi]
  by_cases hother : accessMaxMsV2AceType < aceTypeAt m p
  · have hread : readAce m p = .other (m.bytes p (aceSizeAt m p)) := if_pos hother
    rw [hread] at hshift ⊢
    exact ⟨by simpa [Mem.bytes] using h.header, hshift⟩
  · have htype := UInt8.not_lt.1 hother
    rw [readAce, if_neg hother]
    exact ⟨htype, Mem.readU16_lt _ _, by simpa using h.sid htype, sidValue_viewOf_sidValue _⟩

theorem AceEntry.Stored.contained (h : (readAce m p).Stored) : AceContained m p := by
  by_cases hother : accessMaxMsV2AceType < aceTypeAt m p
  · rw [readAce, if_pos hother] at h
    refine ⟨by simpa [Mem.bytes] using h.1, fun hle => ?_⟩
    exact absurd hother (UInt8.not_lt.2 hle)
  · rw [readAce, if_neg hother] at h
    have hroom : 8 + rtlLengthSid (aceSidAt m p) ≤ aceSizeAt m p := by simpa using h.room
    exact ⟨by omega, fun _ => hroom⟩

section Write

variable {size : ℕ} {type : UInt8} {flags : BitVec 8} {mask : AccessMask} {sid : View}

/-- Writing an entry stays in its bytes; an identifier that does not fit is not written. -/
theorem writeAce_of_notMem (h8 : 8 ≤ size) {b : ℕ} (hb : b < p ∨ p + size ≤ b) :
    writeAce m p type flags size mask sid b = m b := by
  have hheader : ∀ b, b < p ∨ p + 8 ≤ b →
      ((((m.writeU8 p type).writeU8 (p + 1) (UInt8.ofBitVec flags)).writeU16 (p + 2)
        size).writeU32 (p + 4) mask.toNat) b = m b := by
    intro b hb
    rw [Mem.writeU32_of_notMem (by omega),
      Mem.agreeOn_writeU16 _ _ _ (by omega) b le_rfl (Nat.lt_succ_self b),
      Mem.agreeOn_writeU8 _ _ _ (by omega) b le_rfl (Nat.lt_succ_self b),
      Mem.agreeOn_writeU8 _ _ _ (by omega) b le_rfl (Nat.lt_succ_self b)]
  rw [writeAce, rtlCopySid]
  split
  · exact hheader b (by omega)
  · rw [Mem.copy_of_notMem (by omega)]
    exact hheader b (by omega)

/-- What is read of an entry that has been written, when its identifier fits. -/
theorem readAce_writeAce (ht : type ≤ accessMaxMsV2AceType) (hs : size < 0x10000)
    (hsid : 8 + rtlLengthSid sid ≤ size) :
    readAce (writeAce m p type flags size mask sid) p =
      .known ⟨type, flags, size, mask, sidValue sid⟩ := by
  rw [writeAce, rtlCopySid, if_neg (by omega)]
  generalize hm : (((m.writeU8 p type).writeU8 (p + 1) (UInt8.ofBitVec flags)).writeU16 (p + 2)
    size).writeU32 (p + 4) mask.toNat = header
  have hagree : Mem.AgreeOn (header.copy (p + 8) sid 0 (rtlLengthSid sid)) header 0 (p + 8) :=
    Mem.agreeOn_copy _ _ _ _ _ (by omega)
  have htype : aceTypeAt (header.copy (p + 8) sid 0 (rtlLengthSid sid)) p = type := by
    rw [aceTypeAt, hagree p (by omega) (by omega), ← hm, Mem.writeU32_of_notMem (by omega),
      Mem.agreeOn_writeU16 _ _ _ (by omega) p le_rfl (Nat.lt_succ_self p),
      Mem.agreeOn_writeU8 _ _ _ (by omega) p le_rfl (Nat.lt_succ_self p), Mem.writeU8_self]
  have hflags : aceFlagsAt (header.copy (p + 8) sid 0 (rtlLengthSid sid)) p = flags := by
    rw [aceFlagsAt, hagree (p + 1) (by omega) (by omega), ← hm, Mem.writeU32_of_notMem (by omega),
      Mem.agreeOn_writeU16 _ _ _ (by omega) (p + 1) le_rfl (Nat.lt_succ_self _), Mem.writeU8_self]
  have hsize : aceSizeAt (header.copy (p + 8) sid 0 (rtlLengthSid sid)) p = size := by
    rw [aceSizeAt, Mem.readU16_congr (hagree.mono (by omega) (by omega)), ← hm,
      Mem.readU16_congr (Mem.agreeOn_writeU32 _ _ _ (by omega)), Mem.readU16_writeU16,
      Nat.mod_eq_of_lt hs]
  have hmask : aceMaskAt (header.copy (p + 8) sid 0 (rtlLengthSid sid)) p = mask := by
    rw [aceMaskAt, Mem.readU32_congr (hagree.mono (by omega) (by omega)), ← hm,
      Mem.readU32_writeU32, Nat.mod_eq_of_lt (show mask.toNat < 0x100000000 from mask.isLt),
      BitVec.ofNat_toNat, BitVec.setWidth_eq]
  have hsid' : sidValue (aceSidAt (header.copy (p + 8) sid 0 (rtlLengthSid sid)) p) =
      sidValue sid := by
    refine sidValue_congr fun i hi => ?_
    rw [aceSidAt, Mem.copy_of_mem (by omega) (by omega)]
    congr 1
    omega
  rw [readAce, htype, if_neg (UInt8.not_lt.2 ht), hflags, hsize, hmask, hsid']

end Write

/-- **An entry that can be read back is one for the layout of lists.** -/
theorem AceEntry.Stored.readable {e : AceEntry} (h : e.Stored) : aceFormat.Readable e where
  bounded m p b hb := by
    rcases e with a | bytes
    · have := h.room
      exact writeAce_of_notMem (by omega) hb
    · exact Mem.copy_of_notMem hb
  read_write m p := by
    rcases e with a | bytes
    · have hlen : rtlLengthSid (viewOf a.sid) = a.sid.length := by
        rw [← length_sidValue, h.sid_eq]
      refine (readAce_writeAce h.type_le h.size_lt (by rw [hlen]; exact h.room)).trans ?_
      rw [h.sid_eq]
    · -- the copy of the bytes is read as the bytes themselves
      obtain ⟨h4, hread⟩ := h
      have hc : AceContained (viewOf bytes) 0 :=
        Stored.contained (by rw [hread]; exact ⟨h4, hread⟩)
      have hsize : aceSizeAt (viewOf bytes) 0 = bytes.length := by
        rw [← size_readAce, hread, size]
      refine (readAce_shift hc fun i hi => ?_).trans hread
      change Mem.copy m p (viewOf bytes) 0 bytes.length (p + i) = _
      rw [Mem.copy_of_mem (by omega) (by omega), Nat.add_sub_cancel_left]
  read_congr := by
    intro m m' p hread hagree
    change readAce m p = e at hread
    have hsize : e.size = aceSizeAt m p := by rw [← hread, size_readAce]
    rw [← hread] at h ⊢
    refine readAce_shift h.contained fun i hi => (hagree (p + i) (by omega) ?_).symm
    change p + i < p + e.size
    omega

end Windivs

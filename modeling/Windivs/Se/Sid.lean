import Mathlib.Tactic

/-!
# Security identifiers

A `PSID` of the source is an untyped pointer, and what `RtlEqualSid` compares is
whatever lies behind it. It is modelled as that: a `Windivs.View` is the memory as
seen from a pointer, byte by byte, and the length of the identifier found there is
read from its second byte.

This matters because the security manager passes `RtlEqualSid` two kinds of
pointer. Most of the time it is a pointer to an identifier. In `tokenlif.c` and
`tokenadj.c` it is the address of the `Sid` *field* of an array entry, and then the
bytes compared are those of the array itself: the value of the pointer, the
attributes, and the entries that follow (`Windivs.arrayView`). On such views
equality says that the entries hold the same pointer, not that the pointers lead
to the same identifier (`Windivs.rtlEqualSid_arrayView`).

Pointers are those of the 32-bit build, so an entry of an array of
`SID_AND_ATTRIBUTES` takes eight bytes.
-/

namespace Windivs

open List

variable {after after' p q : View}

/-- The memory from a pointer on. -/
abbrev View := ℕ → UInt8

/-- `ULONG`. -/
abbrev Ulong := BitVec 32

/-! ### Identifiers behind a pointer -/

/-- `RtlLengthSid`: eight bytes of header and four for each subauthority. -/
def rtlLengthSid (p : View) : ℕ := 8 + 4 * (p 1).toNat

/-- `RtlEqualMemory`. -/
def rtlEqualMemory (p q : View) (n : ℕ) : Bool :=
  (range n).all fun i => p i == q i

/-- `RtlEqualSid`: a quick look at the revision and the count, then all bytes. -/
def rtlEqualSid (p q : View) : Bool :=
  p 0 == q 0 && p 1 == q 1 && rtlEqualMemory p q (rtlLengthSid p)

/-- The identifier behind a pointer, as a value. -/
def sidValue (p : View) : List UInt8 := (range (rtlLengthSid p)).map p

theorem rtlEqualMemory_iff {n : ℕ} : rtlEqualMemory p q n = true ↔ ∀ i < n, p i = q i := by
  simp [rtlEqualMemory]

/-- **`RtlEqualSid` decides equality of the identifiers.** -/
theorem rtlEqualSid_iff : rtlEqualSid p q = true ↔ sidValue p = sidValue q := by
  rw [rtlEqualSid, Bool.and_eq_true, Bool.and_eq_true, beq_iff_eq, beq_iff_eq, rtlEqualMemory_iff]
  constructor
  · rintro ⟨⟨-, h₁⟩, h⟩
    rw [sidValue, sidValue, rtlLengthSid, rtlLengthSid, ← h₁]
    exact map_congr_left fun i hi => h i (mem_range.mp hi)
  · intro h
    have hlen : rtlLengthSid p = rtlLengthSid q := by
      have := congrArg length h
      rwa [sidValue, sidValue, length_map, length_map, length_range,
        length_range] at this
    have hall : ∀ i < rtlLengthSid p, p i = q i := by
      intro i hi
      have hget := congrArg (fun l => l[i]?) h
      simp only [sidValue, getElem?_map] at hget
      rw [getElem?_range hi, getElem?_range (hlen ▸ hi)] at hget
      simpa using hget
    have h8 : 8 ≤ rtlLengthSid p := by rw [rtlLengthSid]; omega
    exact ⟨⟨hall 0 (by omega), hall 1 (by omega)⟩, hall⟩

/-- The identifier written out, with nothing behind it. -/
def viewOf (l : List UInt8) : View := fun i => l.getD i 0

/-- `SePrincipalSelfSid`, S-1-5-10. -/
def sePrincipalSelfSid : View := viewOf [1, 1, 0, 0, 0, 0, 0, 5, 10, 0, 0, 0]

/-- `SeWorldSid`, S-1-1-0. -/
def seWorldSid : View := viewOf [1, 1, 0, 0, 0, 0, 0, 1, 0, 0, 0, 0]

/-- `SeAliasAdminsSid`, S-1-5-32-544. -/
def seAliasAdminsSid : View := viewOf [1, 2, 0, 0, 0, 0, 0, 5, 32, 0, 0, 0, 0x20, 2, 0, 0]

/-! ### Arrays of identifiers with attributes -/

/-- `SID_AND_ATTRIBUTES`: a pointer, what it leads to, and the attributes. -/
structure SidAndAttributes where
  /-- The value of the field `Sid`. -/
  pointer : Ulong
  /-- The memory that field points at. -/
  sid : View
  attributes : Ulong

/-- `SE_GROUP_MANDATORY`. -/
def seGroupMandatory : Ulong := 0x1
/-- `SE_GROUP_ENABLED_BY_DEFAULT`. -/
def seGroupEnabledByDefault : Ulong := 0x2
/-- `SE_GROUP_ENABLED`. -/
def seGroupEnabled : Ulong := 0x4
/-- `SE_GROUP_USE_FOR_DENY_ONLY`. -/
def seGroupUseForDenyOnly : Ulong := 0x10

namespace SidAndAttributes

/-- The attributes replaced. -/
def setAttributes (e : SidAndAttributes) (a : Ulong) : SidAndAttributes := { e with attributes := a }

section

variable (e : SidAndAttributes)

@[simp] theorem attributes_setAttributes (a : Ulong) : (e.setAttributes a).attributes = a := rfl
@[simp] theorem sid_setAttributes (a : Ulong) : (e.setAttributes a).sid = e.sid := rfl
@[simp] theorem setAttributes_attributes : e.setAttributes e.attributes = e := rfl
@[simp] theorem setAttributes_setAttributes (a b : Ulong) :
    (e.setAttributes a).setAttributes b = e.setAttributes b := rfl

end

end SidAndAttributes

/-- Byte `i` of a little-endian `ULONG`. -/
def ulongByte (x : Ulong) (i : ℕ) : UInt8 := UInt8.ofBitVec (x.extractLsb' (8 * i) 8)

/-- A `ULONG` is its four bytes. -/
theorem eq_of_ulongByte_eq {x y : Ulong} (h : ∀ i < 4, ulongByte x i = ulongByte y i) : x = y := by
  refine BitVec.eq_of_getLsbD_eq fun i hi => ?_
  have hbyte : x.extractLsb' (8 * (i / 8)) 8 = y.extractLsb' (8 * (i / 8)) 8 := by
    simpa only [ulongByte, UInt8.ofBitVec.injEq] using h (i / 8) (by omega)
  have hbit := congrArg (fun b : BitVec 8 => b.getLsbD (i % 8)) hbyte
  simp only [BitVec.getLsbD_extractLsb', Nat.mod_lt i (by decide : 0 < 8), Nat.div_add_mod] at hbit
  exact hbit

/-- The bytes of an array in memory, and what follows it. -/
def arrayView : List SidAndAttributes → View → View
  | [], after => after
  | e :: l, after => fun i =>
    if i < 4 then ulongByte e.pointer i
    else if i < 8 then ulongByte e.attributes (i - 4)
    else arrayView l after (i - 8)

/-- **Comparing the fields compares the pointers.** `RtlEqualSid` on the addresses
of the `Sid` fields of two entries says no unless the fields hold the same pointer
and the entries have the same attributes. -/
theorem rtlEqualSid_arrayView {e e' : SidAndAttributes} {l l' : List SidAndAttributes}
    (h : rtlEqualSid (arrayView (e :: l) after) (arrayView (e' :: l') after') = true) :
    e.pointer = e'.pointer ∧ e.attributes = e'.attributes := by
  rw [rtlEqualSid, Bool.and_eq_true, rtlEqualMemory_iff, rtlLengthSid] at h
  constructor
  · refine eq_of_ulongByte_eq fun i hi => ?_
    simpa only [arrayView, if_pos hi] using h.2 i (by omega)
  · refine eq_of_ulongByte_eq fun i hi => ?_
    have hbyte := h.2 (i + 4) (by omega)
    simpa only [arrayView, if_neg (show ¬i + 4 < 4 by omega), if_pos (show i + 4 < 8 by omega),
      Nat.add_sub_cancel] using hbyte

/-- A loop over an array that compares fields: the bytes at some entry are those at
the group. -/
def foundInList (group : View) (after : View) : List SidAndAttributes → Bool
  | [] => false
  | x :: list => rtlEqualSid group (arrayView (x :: list) after) || foundInList group after list

/-- What is found has the pointer and the attributes of an entry of the list. -/
theorem exists_of_foundInList {e : SidAndAttributes} {rest list : List SidAndAttributes}
    (h : foundInList (arrayView (e :: rest) after) after' list = true) :
    ∃ x ∈ list, e.pointer = x.pointer ∧ e.attributes = x.attributes := by
  induction list with
  | nil => cases h
  | cons x list ih =>
    rw [foundInList, Bool.or_eq_true] at h
    rcases h with h | h
    · exact ⟨x, mem_cons_self, rtlEqualSid_arrayView h⟩
    · obtain ⟨y, hy, heq⟩ := ih h
      exact ⟨y, mem_cons_of_mem x hy, heq⟩

end Windivs

import Windivs.Lib.Loop
import Windivs.Rtl.Utf8

/-!
# From UTF-8 to UTF-16

`RtlUTF8ToUnicodeN` of `sdk/lib/rtl/utf8.c`, and the contract of the two conversions together. The
source is the memory at `utf8_src`, of which `utf8_bytes` bytes are the string, and the index into
it is a `ULONG`: near the end of a string of almost `2 ^ 32` bytes the check that enough bytes are
left wraps around, and the routine goes on to read behind the string and then at its start. It
does not return success then (`Windivs.RtlUtf8.turn_success`), because the first byte of a string
that was read with success so far is not a trail byte.
-/

namespace Windivs

open List

variable {b : UInt8} {bits ch t : ℕ} {cs : List ℕ}

namespace RtlUtf8

/-! ### The routine -/

/-- The variables of the routine. The room is `none` if `uni_dest` is `NULL`. -/
structure DecodeState where
  i : ℕ
  status : Status
  written : ℕ
  room : Option ℕ
  dest : List UInt16
  deriving DecidableEq, Repr

open DecodeState

/-- The lead byte: the bits of the character in it, the number of trail bytes, and whether it is
one. -/
def leadByte (b : ℕ) : ℕ × ℕ × Bool :=
  if 0xF5 ≤ b then (0xFFFD, 0, false)
  else if 0xF0 ≤ b then (b &&& 0x07, 3, true)
  else if 0xE0 ≤ b then (b &&& 0x0F, 2, true)
  else if 0xC2 ≤ b then (b &&& 0x1F, 1, true)
  else if 0x80 ≤ b then (0xFFFD, 0, false)
  else (b, 0, true)

/-- The loop over the trail bytes: the character, the index of the last byte that was read, and
whether all were trail bytes. -/
def trailBytes (src : ℕ → UInt8) : ℕ → ℕ → ℕ → ℕ × ℕ × Bool
  | 0, ch, i => (ch, i, true)
  | j + 1, ch, i =>
    let b := (src ((i + 1) % 2 ^ 32)).toNat
    if b &&& 0xC0 = 0x80 then trailBytes src j ((ch <<< 6) ||| (b &&& 0x3F)) ((i + 1) % 2 ^ 32)
    else (0xFFFD, i, false)

/-- One character: the code point, the number of trail bytes, the index of the last byte that was
read, and whether the bytes are mapped. -/
def readChar (src : ℕ → UInt8) (n i : ℕ) : ℕ × ℕ × ℕ × Bool :=
  let (ch, trail, lead) := leadByte (src i).toNat
  if (i + trail) % 2 ^ 32 < n then
    let (ch, i, ok) := trailBytes src trail ch i
    (ch, if ok then trail else 0, i, lead && ok)
  else (0xFFFD, 0, n, false)

/-- The words of a character, and whether it is one. -/
def charUnits (ch trail : ℕ) : List UInt16 × Bool :=
  if 0x10FFFF < ch ∨ 0xD800 ≤ ch ∧ ch ≤ 0xDFFF ∨ trail = 2 ∧ ch < 0x800 ∨
      trail = 3 ∧ ch < 0x10000 then
    (replicate trail 0xFFFD, false)
  else if 0x10000 ≤ ch then
    ([.ofNat (0xD800 + ((ch - 0x10000) >>> 10 &&& 0x3FF)),
      .ofNat (0xDC00 + ((ch - 0x10000) >>> 0 &&& 0x3FF))], true)
  else ([.ofNat ch], true)

/-- A word is copied if it fits. -/
def DecodeState.putUnit (st : DecodeState) (u : UInt16) : DecodeState :=
  match st.room with
  | none => st
  | some max =>
    if 2 ≤ max then
      { st with
        dest := st.dest ++ [u]
        room := some (max - 2)
        written := (st.written + 1) % 2 ^ 32 }
    else { st with room := some 0, status := .bufferTooSmall }

/-- The end of a turn: the words are counted or copied. -/
def DecodeState.put (st : DecodeState) (units : List UInt16) : DecodeState :=
  match st.room with
  | none => { st with written := (st.written + units.length) % 2 ^ 32 }
  | some _ => units.foldl DecodeState.putUnit st

/-- One turn of the loop of `RtlUTF8ToUnicodeN`. -/
def decodeTurn (src : ℕ → UInt8) (n : ℕ) (st : DecodeState) : Turn DecodeState DecodeState :=
  if st.i < n then
    let (ch, trail, i, mapped) := readChar src n st.i
    let (units, valid) := charUnits ch trail
    let st := { st with status := if mapped ∧ valid then st.status else .someNotMapped }
    let st := st.put units
    .again { st with i := (i + 1) % 2 ^ 32 }
  else .leave st

/-- What `RtlUTF8ToUnicodeN` returns, with `*uni_bytes_written` and the words at `uni_dest`. -/
structure UnicodeResult where
  status : Status
  written : ℕ
  dest : List UInt16
  deriving DecidableEq, Repr

/-- `RtlUTF8ToUnicodeN`, with a budget of turns: `none` says that it is spent. The source is the
memory at `utf8_src`, with a string of `n` bytes. -/
def rtlUTF8ToUnicodeN (budget : ℕ) (src : ℕ → UInt8) (n : ℕ) (max : Option ℕ) :
    Option UnicodeResult :=
  (loop (decodeTurn src n) budget ⟨0, .success, 0, max, []⟩).map fun st =>
    ⟨st.status, st.written * 2 % 2 ^ 32, st.dest⟩

/-- The call returns a result. -/
def Returns (src : ℕ → UInt8) (n : ℕ) (max : Option ℕ) (r : UnicodeResult) : Prop :=
  ∃ budget, rtlUTF8ToUnicodeN budget src n max = some r

/-! ### Trail bytes -/

/-- A trail byte. -/
def IsTrail (b : UInt8) : Prop := 0x80 ≤ b.toNat ∧ b.toNat < 0xC0

variable {src : ℕ → UInt8} {n i j c : ℕ}

theorem and_eq_iff_isTrail (b : UInt8) : b.toNat &&& 0xC0 = 0x80 ↔ IsTrail b := by
  have hmask : b.toNat &&& 0xC0 = (b.toNat / 0x40 % 0x04) <<< 6 := and_mask b.toNat 6 2
  have hlt := b.toNat_lt
  rw [IsTrail]
  omega

theorem shift_or_eq (ch b : ℕ) : (ch <<< 6) ||| (b &&& 0x3F) = ch * 0x40 + b % 0x40 := by
  have hlt : b % 0x40 < 2 ^ 6 := Nat.mod_lt b (by decide)
  rw [show (0x3F : ℕ) = 2 ^ 6 - 1 from rfl, Nat.and_two_pow_sub_one_eq_mod,
    ← Nat.shiftLeft_add_eq_or_of_lt hlt, Nat.shiftLeft_eq]

/-- The character of `j` trail bytes behind the index `i`. -/
def trailValue (src : ℕ → UInt8) : ℕ → ℕ → ℕ → ℕ
  | 0, ch, _ => ch
  | j + 1, ch, i => trailValue src j (ch * 0x40 + (src (i + 1)).toNat % 0x40) (i + 1)

theorem trailBytes_eq (hij : i + j < 2 ^ 32) (htrail : ∀ k, 0 < k → k ≤ j → IsTrail (src (i + k))) :
    trailBytes src j ch i = (trailValue src j ch i, i + j, true) := by
  induction j generalizing ch i with
  | zero => rfl
  | succ j ih =>
    rw [trailBytes, Nat.mod_eq_of_lt (by omega),
      if_pos ((and_eq_iff_isTrail _).2 (htrail 1 one_pos (by omega))), shift_or_eq, ih (by omega),
      trailValue, Nat.add_right_comm, Nat.add_assoc]
    intro k hk hkj
    rw [Nat.add_right_comm]
    exact htrail (k + 1) (by omega) (by omega)

/-- **The trail bytes do not wrap around**, since the first byte is none. -/
theorem trail_of_trailBytes (hi : i < 2 ^ 32) (hfirst : ¬ IsTrail (src 0))
    (h : (trailBytes src j ch i).2.2 = true) :
    i + j < 2 ^ 32 ∧ ∀ k, 0 < k → k ≤ j → IsTrail (src (i + k)) := by
  induction j generalizing ch i with
  | zero => exact ⟨hi, fun k hk hkj => by omega⟩
  | succ j ih =>
    rw [trailBytes] at h
    split at h
    case isFalse => cases h
    case isTrue hbyte =>
      rw [and_eq_iff_isTrail] at hbyte
      have hnext : i + 1 < 2 ^ 32 := by
        by_contra hwrap
        rw [show i + 1 = 2 ^ 32 by omega] at hbyte
        exact hfirst hbyte
      rw [Nat.mod_eq_of_lt hnext] at h hbyte
      obtain ⟨hlt, htrail⟩ := ih hnext h
      refine ⟨by omega, fun k hk hkj => ?_⟩
      rcases Nat.eq_or_lt_of_le (Nat.succ_le_of_lt hk) with rfl | hk
      · exact hbyte
      · have hbyte := htrail (k - 1) (by omega) (by omega)
        rwa [Nat.add_assoc, Nat.add_sub_cancel' (by omega)] at hbyte

/-! ### One character -/

/-- The bytes at an index of the source. -/
def BytesAt (src : ℕ → UInt8) : ℕ → List UInt8 → Prop
  | _, [] => True
  | i, b :: l => src i = b ∧ BytesAt src (i + 1) l

theorem bytesAt_append (l l' : List UInt8) :
    BytesAt src i (l ++ l') ↔ BytesAt src i l ∧ BytesAt src (i + l.length) l' := by
  induction l generalizing i with
  | nil => exact (true_and _).symm.to_iff
  | cons b l ih =>
    rw [cons_append, BytesAt, ih, BytesAt, length_cons, and_assoc, Nat.add_right_comm,
      Nat.add_assoc]

theorem bytesAt_iff {l : List UInt8} (hl : l.length = n) :
    BytesAt src i l ↔ (range' i n).map src = l := by
  induction l generalizing i n with
  | nil =>
    obtain rfl : n = 0 := hl.symm
    exact ⟨fun _ => rfl, fun _ => trivial⟩
  | cons b l ih =>
    obtain ⟨n, rfl⟩ : ∃ k, n = k + 1 := ⟨l.length, hl.symm⟩
    rw [BytesAt, range'_succ, map_cons, cons_eq_cons, ih (Nat.succ.inj hl)]

theorem toNat_eq_of_eq_ofNat {m : ℕ} (h : b = .ofNat m) (hm : m < 0x100) : b.toNat = m := by
  rw [h]
  exact Nat.mod_eq_of_lt hm

theorem and_seven (b : ℕ) : b &&& 0x07 = b % 0x08 := Nat.and_two_pow_sub_one_eq_mod b 3

theorem and_fifteen (b : ℕ) : b &&& 0x0F = b % 0x10 := Nat.and_two_pow_sub_one_eq_mod b 4

theorem and_thirtyOne (b : ℕ) : b &&& 0x1F = b % 0x20 := Nat.and_two_pow_sub_one_eq_mod b 5

theorem eq_ofNat_of_toNat_eq {m : ℕ} (h : b.toNat = m) : b = .ofNat m := by
  rw [← h, UInt8.ofNat_toNat]

/-- A lead byte of `t` trail bytes, with the bits of the character in it. -/
def IsLead (b t bits : ℕ) : Prop :=
  t = 0 ∧ b < 0x80 ∧ bits = b ∨ t = 1 ∧ 0xC2 ≤ b ∧ b < 0xE0 ∧ bits = b % 0x20 ∨
    t = 2 ∧ 0xE0 ≤ b ∧ b < 0xF0 ∧ bits = b % 0x10 ∨ t = 3 ∧ 0xF0 ≤ b ∧ b < 0xF5 ∧ bits = b % 0x08

theorem leadByte_iff {b t bits : ℕ} : leadByte b = (bits, t, true) ↔ IsLead b t bits := by
  rw [leadByte, and_seven, and_fifteen, and_thirtyOne, IsLead]
  split_ifs <;>
    simp only [Prod.mk.injEq, and_true, Bool.false_eq_true, and_false, false_iff] <;> omega

theorem IsLead.not_isTrail (h : IsLead b.toNat t bits) : ¬ IsTrail b := by
  rw [IsLead] at h
  rw [IsTrail]
  omega

/-- What the trail bytes of a lead byte may make of the bits in it: no value of a shorter form, no
surrogate and nothing above `U+10FFFF`. -/
def Valid (ch t : ℕ) : Prop :=
  IsScalar ch ∧ (t = 2 → 0x800 ≤ ch) ∧ (t = 3 → 0x10000 ≤ ch)

theorem charUnits_of_not_valid (h : ¬ Valid ch t) : (charUnits ch t).2 = false := by
  rw [Valid, IsScalar] at h
  rw [charUnits, if_pos (by omega)]

theorem charUnits_eq (h : Valid ch t) : charUnits ch t = (utf16 ch, true) := by
  rw [Valid, IsScalar] at h
  have hfield : ∀ x, x &&& 0x3FF = x % 0x400 := fun x => Nat.and_two_pow_sub_one_eq_mod x 10
  rw [charUnits, if_neg (by omega), utf16]
  by_cases hpair : ch < 0x10000
  · rw [if_neg (by omega), if_pos hpair]
  · have hhigh : (ch - 0x10000) >>> 10 &&& 0x3FF = (ch - 0x10000) / 0x400 := by
      rw [hfield, Nat.shiftRight_eq_div_pow]
      exact Nat.mod_eq_of_lt (by omega)
    have hlow : (ch - 0x10000) >>> 0 &&& 0x3FF = (ch - 0x10000) % 0x400 := hfield _
    rw [if_pos (by omega), if_neg hpair, hhigh, hlow]

/-- **The bytes of a character** are a lead byte and its trail bytes. -/
theorem lead_of_bytesAt (hc : IsScalar c) (h : BytesAt src i (utf8 c)) :
    ∃ t bits, (utf8 c).length = t + 1 ∧ IsLead (src i).toNat t bits ∧
      (∀ k, 0 < k → k ≤ t → IsTrail (src (i + k))) ∧ trailValue src t bits i = c ∧ Valid c t := by
  have hlt := hc.1
  rw [utf8] at h ⊢
  by_cases h1 : c < 0x80
  · rw [if_pos h1] at h ⊢
    have hlead := toNat_eq_of_eq_ofNat h.1 (by omega)
    exact ⟨0, c, rfl, .inl ⟨rfl, by omega, hlead.symm⟩, fun k hk hkt => by omega, rfl, hc,
      (by omega), (by omega)⟩
  rw [if_neg h1] at h ⊢
  by_cases h2 : c < 0x800
  · rw [if_pos h2] at h ⊢
    have hlead := toNat_eq_of_eq_ofNat h.1 (by omega)
    have htrail := toNat_eq_of_eq_ofNat h.2.1 (by omega)
    refine ⟨1, c / 0x40, rfl, .inr (.inl ⟨rfl, by omega⟩), fun k hk hkt => ?_, ?_, hc, (by omega),
      (by omega)⟩
    · obtain rfl : k = 1 := by omega
      rw [IsTrail]
      omega
    · rw [trailValue, trailValue, htrail]
      omega
  rw [if_neg h2] at h ⊢
  by_cases h3 : c < 0x10000
  · rw [if_pos h3] at h ⊢
    have hlead := toNat_eq_of_eq_ofNat h.1 (by omega)
    have hfirst := toNat_eq_of_eq_ofNat h.2.1 (by omega)
    have hsecond := toNat_eq_of_eq_ofNat h.2.2.1 (by omega)
    refine ⟨2, c / 0x1000, rfl, .inr (.inr (.inl ⟨rfl, by omega⟩)), fun k hk hkt => ?_, ?_, hc,
      (by omega), (by omega)⟩
    · rw [IsTrail]
      interval_cases k
      exacts [by omega, by rw [← Nat.add_assoc i 1 1]; omega]
    · rw [trailValue, trailValue, trailValue, hfirst, hsecond]
      omega
  · rw [if_neg h3] at h ⊢
    have hlead := toNat_eq_of_eq_ofNat h.1 (by omega)
    have hfirst := toNat_eq_of_eq_ofNat h.2.1 (by omega)
    have hsecond := toNat_eq_of_eq_ofNat h.2.2.1 (by omega)
    have hthird := toNat_eq_of_eq_ofNat h.2.2.2.1 (by omega)
    refine ⟨3, c / 0x40000, rfl, .inr (.inr (.inr ⟨rfl, by omega⟩)), fun k hk hkt => ?_, ?_, hc,
      (by omega), (by omega)⟩
    · rw [IsTrail]
      interval_cases k
      exacts [by omega, by rw [← Nat.add_assoc i 1 1]; omega,
        by rw [← Nat.add_assoc i 2 1, ← Nat.add_assoc i 1 1]; omega]
    · rw [trailValue, trailValue, trailValue, trailValue, hfirst, hsecond, hthird]
      omega

/-- **A lead byte and its trail bytes** are the bytes of the character they make up. -/
theorem bytesAt_of_lead (hlead : IsLead (src i).toNat t bits)
    (htrail : ∀ k, 0 < k → k ≤ t → IsTrail (src (i + k)))
    (hvalid : Valid (trailValue src t bits i) t) :
    BytesAt src i (utf8 (trailValue src t bits i)) ∧
      (utf8 (trailValue src t bits i)).length = t + 1 := by
  obtain ⟨hscalar, htwo, hthree⟩ := hvalid
  have hmax := hscalar.1
  have hbyte : ∀ k, 0 < k → k ≤ t → 0x80 ≤ (src (i + k)).toNat ∧ (src (i + k)).toNat < 0xC0 :=
    htrail
  rcases hlead with ⟨rfl, hb, rfl⟩ | ⟨rfl, hlo, hhi, rfl⟩ | ⟨rfl, hlo, hhi, rfl⟩ |
    ⟨rfl, hlo, hhi, rfl⟩
  · rw [trailValue, utf8, if_pos hb]
    exact ⟨⟨eq_ofNat_of_toNat_eq rfl, trivial⟩, rfl⟩
  · have h1 := hbyte 1 (by decide) (by decide)
    rw [trailValue, trailValue] at *
    generalize hch : (src i).toNat % 0x20 * 0x40 + (src (i + 1)).toNat % 0x40 = ch at *
    rw [utf8, if_neg (by omega), if_pos (by omega)]
    exact ⟨⟨eq_ofNat_of_toNat_eq (by omega), eq_ofNat_of_toNat_eq (by omega), trivial⟩, rfl⟩
  · have h1 := hbyte 1 (by decide) (by decide)
    have h2 := hbyte 2 (by decide) (by decide)
    rw [trailValue, trailValue, trailValue] at *
    generalize hch : ((src i).toNat % 0x10 * 0x40 + (src (i + 1)).toNat % 0x40) * 0x40 +
      (src (i + 1 + 1)).toNat % 0x40 = ch at *
    rw [show i + 1 + 1 = i + 2 from rfl] at hch
    rw [utf8, if_neg (by omega), if_neg (by omega), if_pos (by omega)]
    exact ⟨⟨eq_ofNat_of_toNat_eq (by omega), eq_ofNat_of_toNat_eq (by omega),
      eq_ofNat_of_toNat_eq (show (src (i + 2)).toNat = _ by omega), trivial⟩, rfl⟩
  · have h1 := hbyte 1 (by decide) (by decide)
    have h2 := hbyte 2 (by decide) (by decide)
    have h3 := hbyte 3 (by decide) (by decide)
    rw [trailValue, trailValue, trailValue, trailValue] at *
    generalize hch : (((src i).toNat % 0x08 * 0x40 + (src (i + 1)).toNat % 0x40) * 0x40 +
      (src (i + 1 + 1)).toNat % 0x40) * 0x40 + (src (i + 1 + 1 + 1)).toNat % 0x40 = ch at *
    rw [show i + 1 + 1 + 1 = i + 3 from rfl, show i + 1 + 1 = i + 2 from rfl] at hch
    rw [utf8, if_neg (by omega), if_neg (by omega), if_neg (by omega)]
    exact ⟨⟨eq_ofNat_of_toNat_eq (by omega), eq_ofNat_of_toNat_eq (by omega),
      eq_ofNat_of_toNat_eq (show (src (i + 2)).toNat = _ by omega),
      eq_ofNat_of_toNat_eq (show (src (i + 3)).toNat = _ by omega), trivial⟩, rfl⟩

/-- The bytes of a character are read. -/
theorem readChar_utf8 (hc : IsScalar c) (h : BytesAt src i (utf8 c)) (hle : i + (utf8 c).length ≤ n)
    (hn : n < 2 ^ 32) :
    ∃ t, (utf8 c).length = t + 1 ∧ readChar src n i = (c, t, i + t, true) ∧ Valid c t := by
  obtain ⟨t, bits, hlen, hlead, htrail, hvalue, hvalid⟩ := lead_of_bytesAt hc h
  refine ⟨t, hlen, ?_, hvalid⟩
  rw [readChar, leadByte_iff.2 hlead]
  dsimp only
  rw [Nat.mod_eq_of_lt (by omega), if_pos (by omega), trailBytes_eq (by omega) htrail, hvalue]
  rfl

/-- **What is read with success** is a character. -/
theorem char_of_readChar {ch t i' : ℕ} (hi : i < n) (hn : n < 2 ^ 32)
    (hfirst : 0 < i → ¬ IsTrail (src 0)) (h : readChar src n i = (ch, t, i', true))
    (hvalid : (charUnits ch t).2 = true) :
    BytesAt src i (utf8 ch) ∧ i + (utf8 ch).length ≤ n ∧ i' + 1 = i + (utf8 ch).length ∧
      Valid ch t ∧ ¬ IsTrail (src 0) := by
  have hval : Valid ch t := by
    by_contra hno
    rw [charUnits_of_not_valid hno] at hvalid
    cases hvalid
  rw [readChar] at h
  cases hb : leadByte (src i).toNat with
  | mk bits rest =>
    obtain ⟨trail, lead⟩ := rest
    rw [hb] at h
    dsimp only at h
    split at h
    case isFalse => cases h
    case isTrue hroom =>
      cases htb : trailBytes src trail bits i with
      | mk ch' rest =>
        obtain ⟨j, ok⟩ := rest
        rw [htb] at h
        simp only [Prod.mk.injEq, Bool.and_eq_true] at h
        obtain ⟨rfl, ht, rfl, rfl, rfl⟩ := h
        subst ht
        have hlead := leadByte_iff.1 hb
        have hzero : ¬ IsTrail (src 0) := by
          rcases Nat.eq_zero_or_pos i with rfl | hpos
          exacts [hlead.not_isTrail, hfirst hpos]
        obtain ⟨hlt, htrail⟩ := trail_of_trailBytes (hi.trans hn) hzero
          (show (trailBytes src trail bits i).2.2 = true by rw [htb])
        rw [trailBytes_eq hlt htrail] at htb
        obtain ⟨rfl, rfl, -⟩ := htb
        obtain ⟨hbytes, hlen⟩ := bytesAt_of_lead hlead htrail hval
        rw [Nat.mod_eq_of_lt hlt] at hroom
        exact ⟨hbytes, by omega, by omega, hval, hzero⟩

/-! ### One turn -/

variable {status : Status} {w m : ℕ} {d units : List UInt16} {st st' : DecodeState}

/-- The words that fit are copied. -/
theorem put_of_fits (hfits : 2 * units.length ≤ m) (hw : w + units.length < 2 ^ 32) :
    put ⟨i, status, w, some m, d⟩ units =
      ⟨i, status, w + units.length, some (m - 2 * units.length), d ++ units⟩ := by
  rw [put]
  induction units generalizing w m d with
  | nil => rw [foldl_nil, append_nil, length_nil, Nat.add_zero, Nat.mul_zero,
      Nat.sub_zero]
  | cons u units ih =>
    rw [length_cons] at hfits hw
    have hunit : putUnit ⟨i, status, w, some m, d⟩ u =
        ⟨i, status, w + 1, some (m - 2), d ++ [u]⟩ := by
      have hcount : (w + 1) % 2 ^ 32 = w + 1 := Nat.mod_eq_of_lt (by omega)
      rw [← hcount]
      exact if_pos (by omega)
    rw [foldl_cons, hunit, ih (by omega) (by omega), length_cons, append_assoc,
      singleton_append, Nat.add_right_comm, Nat.add_assoc, Nat.sub_sub, Nat.mul_succ,
      Nat.add_comm 2]

/-- A word does not make up for an error. -/
theorem putUnit_status (st : DecodeState) (u : UInt16) :
    (st.putUnit u).status = st.status ∨ (st.putUnit u).status = .bufferTooSmall := by
  rw [putUnit]
  split
  · exact .inl rfl
  · split
    exacts [.inl rfl, .inr rfl]

theorem foldl_putUnit_status (h : (units.foldl putUnit st).status = .success) :
    st.status = .success := by
  induction units generalizing st with
  | nil => exact h
  | cons u units ih =>
    rcases putUnit_status st u with hu | hu
    · rw [← hu]
      exact ih h
    · rw [ih h] at hu
      cases hu

theorem put_status (h : (st.put units).status = .success) : st.status = .success := by
  rw [put] at h
  split at h
  exacts [h, foldl_putUnit_status h]

/-- Success with a destination means that the words fit. -/
theorem fits_of_put (h : (put ⟨i, status, w, some m, d⟩ units).status = .success) :
    2 * units.length ≤ m := by
  rw [put] at h
  induction units generalizing w m d with
  | nil => exact Nat.zero_le m
  | cons u units ih =>
    rw [foldl_cons] at h
    by_cases hroom : 2 ≤ m
    · rw [show putUnit ⟨i, status, w, some m, d⟩ u =
        ⟨i, status, (w + 1) % 2 ^ 32, some (m - 2), d ++ [u]⟩ from if_pos hroom] at h
      have hrest := ih h
      rw [length_cons]
      omega
    · have hfull := foldl_putUnit_status h
      rw [show putUnit ⟨i, status, w, some m, d⟩ u =
        ⟨i, .bufferTooSmall, w, some 0, d⟩ from if_neg hroom] at hfull
      cases hfull

/-- A character is decoded. -/
theorem decodeTurn_utf8 (hc : IsScalar c) (h : BytesAt src i (utf8 c))
    (hle : i + (utf8 c).length ≤ n) (hn : n < 2 ^ 32) (hfits : 2 * (utf16 c).length ≤ m)
    (hw : w + (utf16 c).length < 2 ^ 32) :
    decodeTurn src n ⟨i, .success, w, some m, d⟩ =
      .again ⟨i + (utf8 c).length, .success, w + (utf16 c).length,
        some (m - 2 * (utf16 c).length), d ++ utf16 c⟩ := by
  obtain ⟨t, hlen, hread, hvalid⟩ := readChar_utf8 hc h hle hn
  rw [decodeTurn, if_pos (show i < n by omega)]
  dsimp only
  rw [hread]
  rw [charUnits_eq hvalid]
  rw [if_pos ⟨rfl, rfl⟩, put_of_fits hfits hw]
  rw [hlen, Nat.add_assoc, Nat.mod_eq_of_lt (by omega)]

/-- An error stays. -/
theorem decodeTurn_status (h : decodeTurn src n st = .again st') (hok : st'.status = .success) :
    st.status = .success := by
  rw [decodeTurn] at h
  split at h
  case isFalse => cases h
  case isTrue =>
    generalize readChar src n st.i = char at h
    obtain ⟨ch, t, i', mapped⟩ := char
    dsimp only at h
    generalize charUnits ch t = units at h
    obtain rfl := Turn.again.inj h
    have hput := put_status hok
    split at hput
    exacts [hput, by cases hput]

/-- **A turn that ends with success** has decoded a character. -/
theorem turn_success (hn : n < 2 ^ 32) (hi : i < n) (hfirst : 0 < i → ¬ IsTrail (src 0))
    (hw : 2 * w + m < 2 ^ 32)
    (h : decodeTurn src n ⟨i, .success, w, some m, d⟩ = .again st') (hok : st'.status = .success) :
    ∃ c, IsScalar c ∧ BytesAt src i (utf8 c) ∧ i + (utf8 c).length ≤ n ∧
      2 * (utf16 c).length ≤ m ∧ ¬ IsTrail (src 0) ∧
      st' = ⟨i + (utf8 c).length, .success, w + (utf16 c).length,
        some (m - 2 * (utf16 c).length), d ++ utf16 c⟩ := by
  have hturn := h
  rw [decodeTurn, if_pos hi] at h
  cases hread : readChar src n i with
  | mk ch rest =>
    obtain ⟨t, i', mapped⟩ := rest
    dsimp only at h
    rw [hread] at h
    cases hunits : charUnits ch t with
    | mk units valid =>
      rw [hunits] at h
      dsimp only at h
      obtain rfl := Turn.again.inj h
      have hgood := put_status hok
      have hboth : mapped = true ∧ valid = true := by
        by_contra hno
        rw [if_neg hno] at hgood
        cases hgood
      obtain ⟨rfl, rfl⟩ := hboth
      obtain ⟨hbytes, hle, -, hvalid, hzero⟩ := char_of_readChar hi hn hfirst hread
        (by rw [hunits])
      rw [charUnits_eq hvalid] at hunits
      obtain ⟨rfl, -⟩ := hunits
      have hfits := fits_of_put hok
      refine ⟨ch, hvalid.1, hbytes, hle, hfits, hzero, ?_⟩
      have hagain := @decodeTurn_utf8 src n i ch w m d hvalid.1 hbytes hle hn hfits (by omega)
      rw [hturn] at hagain
      exact Turn.again.inj hagain

/-! ### Whole runs -/

/-- **A string of characters is decoded.** -/
theorem leaves_flatMap {cs : List ℕ} (hcs : ∀ c ∈ cs, IsScalar c) (hn : n < 2 ^ 32)
    (h : BytesAt src i (cs.flatMap utf8)) (hlen : i + (cs.flatMap utf8).length = n)
    (hfits : 2 * (cs.flatMap utf16).length ≤ m) (hw : 2 * w + m < 2 ^ 32) :
    Leaves (decodeTurn src n) ⟨i, .success, w, some m, d⟩
      ⟨n, .success, w + (cs.flatMap utf16).length, some (m - 2 * (cs.flatMap utf16).length),
        d ++ cs.flatMap utf16⟩ := by
  induction cs generalizing i w m d with
  | nil =>
    obtain rfl : i = n := hlen
    simp only [flatMap_nil, length_nil, Nat.add_zero, Nat.mul_zero, Nat.sub_zero, append_nil]
    exact .of_leave (by rw [decodeTurn, if_neg (lt_irrefl i)])
  | cons c cs ih =>
    obtain ⟨hc, hcs⟩ := forall_mem_cons.1 hcs
    rw [flatMap_cons, bytesAt_append] at h
    rw [flatMap_cons, length_append] at hlen hfits
    have hrest := @ih (i + (utf8 c).length) (w + (utf16 c).length) (m - 2 * (utf16 c).length)
      (d ++ utf16 c) hcs h.2 (by omega) (by omega) (by omega)
    refine .of_again (decodeTurn_utf8 hc h.1 (by omega) hn (by omega) (by omega)) ?_
    rw [flatMap_cons, length_append, ← append_assoc, ← Nat.add_assoc, Nat.mul_add, ← Nat.sub_sub]
    exact hrest

/-- A run that ends with success has never had an error. -/
theorem status_of_loop {budget : ℕ} (h : loop (decodeTurn src n) budget st = some st')
    (hok : st'.status = .success) : st.status = .success := by
  by_contra hbad
  obtain ⟨last, hlast, hleave⟩ := loop_induction (fun s : DecodeState => s.status ≠ .success)
    (fun s s' hs hagain hs' => hs (decodeTurn_status hagain hs')) hbad h
  rw [decodeTurn] at hleave
  split at hleave
  · cases hleave
  · obtain rfl := Turn.leave.inj hleave
    exact hlast hok

/-- **A run that ends with success** has decoded a string of characters. -/
theorem flatMap_of_loop {budget : ℕ} (hn : n < 2 ^ 32) (hi : i ≤ n)
    (hfirst : 0 < i → ¬ IsTrail (src 0)) (hw : 2 * w + m < 2 ^ 32)
    (h : loop (decodeTurn src n) budget ⟨i, .success, w, some m, d⟩ = some st')
    (hok : st'.status = .success) :
    ∃ cs : List ℕ, (∀ c ∈ cs, IsScalar c) ∧ BytesAt src i (cs.flatMap utf8) ∧
      i + (cs.flatMap utf8).length = n ∧ 2 * (cs.flatMap utf16).length ≤ m := by
  induction budget generalizing i w m d with
  | zero => cases h
  | succ budget ih =>
    rcases Nat.eq_or_lt_of_le hi with rfl | hlt
    · exact ⟨[], by simp, trivial, rfl, Nat.zero_le m⟩
    · cases hturn : decodeTurn src n ⟨i, .success, w, some m, d⟩ with
      | leave r =>
        rw [decodeTurn, if_pos hlt] at hturn
        cases hturn
      | again next =>
        rw [loop_succ_again _ hturn] at h
        obtain ⟨c, hc, hbytes, hle, hfits, hzero, rfl⟩ :=
          turn_success hn hlt hfirst hw hturn (status_of_loop h hok)
        obtain ⟨cs, hcs, hrest, hlen, hmore⟩ := ih hle (fun _ => hzero) (by omega) h
        refine ⟨c :: cs, forall_mem_cons.2 ⟨hc, hcs⟩, ?_, ?_, ?_⟩
        · rw [flatMap_cons, bytesAt_append]
          exact ⟨hbytes, hrest⟩
        · rw [flatMap_cons, length_append]
          omega
        · rw [flatMap_cons, length_append]
          omega

/-- The bytes of a string. -/
def stringBytes (src : ℕ → UInt8) (n : ℕ) : List UInt8 := (range' 0 n).map src

/-- **What the decoder returns for a string of characters.** -/
theorem returns_of_flatMap {cs : List ℕ} (hcs : ∀ c ∈ cs, IsScalar c) (hn : n < 2 ^ 32)
    (hm : m < 2 ^ 32) (h : stringBytes src n = cs.flatMap utf8)
    (hfits : 2 * (cs.flatMap utf16).length ≤ m) :
    Returns src n (some m)
      ⟨.success, 2 * (cs.flatMap utf16).length, cs.flatMap utf16⟩ := by
  have hlen : (cs.flatMap utf8).length = n := by
    rw [← h, stringBytes, length_map, length_range']
  obtain ⟨budget, hloop⟩ := @leaves_flatMap src n 0 0 m [] cs hcs hn ((bytesAt_iff hlen).2 h)
    (by omega) hfits (by omega)
  refine ⟨budget, ?_⟩
  have hbytes : (cs.flatMap utf16).length * 2 % 2 ^ 32 = 2 * (cs.flatMap utf16).length := by
    rw [Nat.mod_eq_of_lt (by omega), Nat.mul_comm]
  rw [rtlUTF8ToUnicodeN, hloop, Option.map_some, Nat.zero_add, nil_append, hbytes]

/-- **The decoder returns success** exactly for well-formed UTF-8, with a buffer for its words. -/
theorem returns_success_iff (hn : n < 2 ^ 32) (hm : m < 2 ^ 32) :
    (∃ r, Returns src n (some m) r ∧ r.status = .success) ↔
      ∃ cs : List ℕ, (∀ c ∈ cs, IsScalar c) ∧ stringBytes src n = cs.flatMap utf8 ∧
        2 * (cs.flatMap utf16).length ≤ m := by
  constructor
  · rintro ⟨r, ⟨budget, hcall⟩, hok⟩
    rw [rtlUTF8ToUnicodeN, Option.map_eq_some_iff] at hcall
    obtain ⟨st', hloop, rfl⟩ := hcall
    obtain ⟨cs, hcs, hbytes, hlen, hfits⟩ := flatMap_of_loop hn (Nat.zero_le n)
      (fun h => absurd h (lt_irrefl 0)) (by omega) hloop hok
    rw [Nat.zero_add] at hlen
    exact ⟨cs, hcs, (bytesAt_iff hlen).1 hbytes, hfits⟩
  · rintro ⟨cs, hcs, hbytes, hfits⟩
    exact ⟨_, returns_of_flatMap hcs hn hm hbytes hfits, rfl⟩

/-! ### The contract of the two conversions -/

/-- **The encoder keeps its contract** on a sequence of words: it reports the length of the
conversion, and writes the characters that fit into a destination of any size. -/
def EncodesAll (us : List UInt16) : Prop :=
  (rtlUnicodeToUTF8N none us false).written = some (fullConversion us).length ∧
    ∀ m < 2 ^ 32, Converts us m (rtlUnicodeToUTF8N (some m) us false)

/-- The conversion of well-formed UTF-16 is the UTF-8 of its characters. -/
theorem fullConversion_flatMap (hcs : ∀ c ∈ cs, IsScalar c) :
    fullConversion (cs.flatMap utf16) = cs.flatMap utf8 := by
  rw [fullConversion, readUtf16_flatMap hcs, bytesOf, flatMap_map]
  rfl

/-- The reported length is right when it fits into a `ULONG`. -/
theorem encodesAll_iff (us : List UInt16) :
    EncodesAll us ↔ (fullConversion us).length < 2 ^ 32 := by
  rw [EncodesAll, written_null, Option.some.injEq]
  constructor
  · rintro ⟨hlen, -⟩
    rw [← hlen]
    exact Nat.mod_lt _ (Nat.two_pow_pos 32)
  · exact fun h => ⟨Nat.mod_eq_of_lt h, fun m hm => converts_some us hm⟩

/-- The decoder gives back what the encoder has converted. -/
theorem returns_fullConversion {us : List UInt16} (hus : WellFormed16 us)
    (hlen : us.length < 2 ^ 29)
    (hsrc : stringBytes src (fullConversion us).length = fullConversion us)
    (hfits : 2 * us.length ≤ m) (hm : m < 2 ^ 32) :
    Returns src (fullConversion us).length (some m) ⟨.success, 2 * us.length, us⟩ := by
  obtain ⟨cs, hcs, rfl⟩ := hus
  rw [fullConversion_flatMap hcs] at hsrc ⊢
  -- a word gives at most three bytes
  have hshort := length_flatMap_utf8_le cs
  exact returns_of_flatMap hcs (by omega) hm hsrc hfits

/-- **The contract of the UTF-8 conversions.** The encoder keeps its contract exactly when the
conversion is shorter than `2 ^ 32` bytes. The decoder inverts it on well-formed UTF-16 of fewer
than `2 ^ 29` words, and returns success exactly for well-formed UTF-8 with a buffer that suffices. -/
theorem utf8_conversion (us : List UInt16) :
    (EncodesAll us ↔ (fullConversion us).length < 2 ^ 32) ∧
    (WellFormed16 us → us.length < 2 ^ 29 → ∀ (src : ℕ → UInt8) (m : ℕ),
      stringBytes src (fullConversion us).length = fullConversion us → 2 * us.length ≤ m →
        m < 2 ^ 32 →
          Returns src (fullConversion us).length (some m) ⟨.success, 2 * us.length, us⟩) ∧
    (∀ (src : ℕ → UInt8) (n m : ℕ), n < 2 ^ 32 → m < 2 ^ 32 →
      ((∃ r, Returns src n (some m) r ∧ r.status = .success) ↔
        ∃ cs : List ℕ, (∀ c ∈ cs, IsScalar c) ∧ stringBytes src n = cs.flatMap utf8 ∧
          2 * (cs.flatMap utf16).length ≤ m)) :=
  ⟨encodesAll_iff us,
    fun hwell hlen _ _ hsrc hfits hm => returns_fullConversion hwell hlen hsrc hfits hm,
    fun _ _ _ hn hm => returns_success_iff hn hm⟩

/-- The euro sign: its three bytes are reported, written where they fit, decoded again and
accepted. -/
theorem utf8_conversion_euro :
    EncodesAll [0x20AC] ∧
      (rtlUnicodeToUTF8N (some 3) [0x20AC] false).dest = [0xE2, 0x82, 0xAC] ∧
      (rtlUnicodeToUTF8N (some 2) [0x20AC] false).status = .bufferTooSmall ∧
      Returns (fun i => [0xE2, 0x82, 0xAC].getD i 0) 3 (some 2) ⟨.success, 2, [0x20AC]⟩ ∧
      ∃ cs : List ℕ, (∀ c ∈ cs, IsScalar c) ∧
        stringBytes (fun i => [0xE2, 0x82, 0xAC].getD i 0) 3 = cs.flatMap utf8 ∧
          2 * (cs.flatMap utf16).length ≤ 2 := by
  obtain ⟨hencodes, hdecodes, haccepts⟩ := utf8_conversion [0x20AC]
  have hreturns := hdecodes ((wellFormed16_iff _).2 (by decide)) (by decide)
    (fun i => [0xE2, 0x82, 0xAC].getD i 0) 2 (by decide) (by decide) (by decide)
  have hall : EncodesAll [0x20AC] := hencodes.2 (by decide)
  exact ⟨hall, (hall.2 3 (by decide)).whole.2 (by decide),
    (hall.2 2 (by decide)).cut.2 (mt (hall.2 2 (by decide)).whole.1 (by decide)), hreturns,
    (haccepts _ 3 2 (by decide) (by decide)).1 ⟨_, hreturns, rfl⟩⟩

/-- Words of three bytes each. -/
theorem length_fullConversion_replicate (n : ℕ) :
    (fullConversion (replicate n 0x0800)).length = 3 * n := by
  induction n with
  | zero => rfl
  | succ n ih =>
    have hread : readUtf16 (replicate (n + 1) 0x0800) =
        some 0x0800 :: readUtf16 (replicate n 0x0800) := by
      have hhigh : ¬ IsHigh 0x0800 := by decide
      have hlow : ¬ IsLow 0x0800 := by decide
      exact readUtf16_single hhigh hlow _
    rw [fullConversion, hread, bytesOf, flatMap_cons, length_append]
    change 3 + (fullConversion (replicate n 0x0800)).length = 3 * (n + 1)
    omega

/-- **The reported length wraps around**: `1431655766` words of three bytes each are reported as two
bytes. -/
theorem length_reported_modulo :
    (replicate 1431655766 (0x0800 : UInt16)).length < 2 ^ 31 ∧
      (rtlUnicodeToUTF8N none (replicate 1431655766 0x0800) false).written = some 2 ∧
      (fullConversion (replicate 1431655766 0x0800)).length = 4294967298 ∧
      ¬ EncodesAll (replicate 1431655766 0x0800) := by
  have hlen := length_fullConversion_replicate 1431655766
  rw [encodesAll_iff, written_null, hlen]
  exact ⟨by norm_num, by norm_num, by norm_num, by norm_num⟩

end RtlUtf8

end Windivs

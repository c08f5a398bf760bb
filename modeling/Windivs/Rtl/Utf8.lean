import Windivs.Lib.Numeral
import Windivs.Lib.Unicode

/-!
# From UTF-16 to UTF-8

`RtlUnicodeToUTF8N` of `sdk/lib/rtl/utf8.c`. The routine reads a character, encodes it, and either
counts its bytes or copies them if they fit. `Windivs.RtlUtf8.encodeLoop_eq` takes the two apart:
the loop is a fold over the characters that are read, and what the fold does is independent of how
they are read.

The counter of the bytes is a `ULONG`, so it is the length of the conversion only modulo `2 ^ 32`
(`Windivs.RtlUtf8.written_null`).
-/

namespace Windivs

open List

namespace RtlUtf8

/-! ### The routine -/

/-- The status codes of the conversions. -/
inductive Status where
  | success
  | someNotMapped
  | bufferTooSmall
  | invalidParameter5
  deriving DecidableEq, Repr

/-- The bytes `utf8_ch` of a character. -/
def encodeChar (ch : ℕ) : List UInt8 :=
  if ch < 0x80 then [.ofNat (ch &&& 0x7F)]
  else if ch < 0x800 then
    [.ofNat (0xC0 ||| (ch >>> 6 &&& 0x1F)), .ofNat (0x80 ||| (ch >>> 0 &&& 0x3F))]
  else if ch < 0x10000 then
    [.ofNat (0xE0 ||| (ch >>> 12 &&& 0x0F)), .ofNat (0x80 ||| (ch >>> 6 &&& 0x3F)),
      .ofNat (0x80 ||| (ch >>> 0 &&& 0x3F))]
  else
    [.ofNat (0xF0 ||| (ch >>> 18 &&& 0x07)), .ofNat (0x80 ||| (ch >>> 12 &&& 0x3F)),
      .ofNat (0x80 ||| (ch >>> 6 &&& 0x3F)), .ofNat (0x80 ||| (ch >>> 0 &&& 0x3F))]

/-- The variables of the routine. The room is `none` if `utf8_dest` is `NULL`. -/
structure EncodeState where
  status : Status
  written : ℕ
  room : Option ℕ
  dest : List UInt8
  deriving DecidableEq, Repr

open EncodeState

/-- `status = STATUS_SOME_NOT_MAPPED`. -/
def EncodeState.notMapped (st : EncodeState) : EncodeState := { st with status := .someNotMapped }

/-- The end of a turn: the bytes are counted, or copied if they fit. -/
def EncodeState.put (st : EncodeState) (bytes : List UInt8) : EncodeState :=
  match st.room with
  | none => { st with written := (st.written + bytes.length) % 2 ^ 32 }
  | some max =>
    if bytes.length ≤ max then
      { st with
        dest := st.dest ++ bytes
        room := some (max - bytes.length)
        written := (st.written + bytes.length) % 2 ^ 32 }
    else { st with room := some 0, status := .bufferTooSmall }

/-- The loop of `RtlUnicodeToUTF8N`. -/
def encodeLoop : List UInt16 → EncodeState → EncodeState
  | [], st => st
  | [u], st =>
    if 0xDC00 ≤ u.toNat ∧ u.toNat ≤ 0xDFFF then st.notMapped.put (encodeChar 0xFFFD)
    else if 0xD800 ≤ u.toNat ∧ u.toNat ≤ 0xDBFF then st.notMapped.put (encodeChar 0xFFFD)
    else st.put (encodeChar u.toNat)
  | u :: v :: us, st =>
    if 0xDC00 ≤ u.toNat ∧ u.toNat ≤ 0xDFFF then
      encodeLoop (v :: us) (st.notMapped.put (encodeChar 0xFFFD))
    else if 0xD800 ≤ u.toNat ∧ u.toNat ≤ 0xDBFF then
      if 0xDC00 ≤ v.toNat ∧ v.toNat ≤ 0xDFFF then
        encodeLoop us (st.put
          (encodeChar ((((u.toNat - 0xD800) <<< 10) ||| (v.toNat - 0xDC00)) + 0x10000)))
      else encodeLoop (v :: us) (st.notMapped.put (encodeChar 0xFFFD))
    else encodeLoop (v :: us) (st.put (encodeChar u.toNat))

/-- What `RtlUnicodeToUTF8N` returns, with `*utf8_bytes_written` and the bytes at `utf8_dest`. -/
structure Utf8Result where
  status : Status
  written : Option ℕ
  dest : List UInt8
  deriving DecidableEq, Repr

/-- `RtlUnicodeToUTF8N`, for the words of the source and possibly half a word behind them
(`uni_bytes` is odd then), and a destination of `max` bytes or `none` for `NULL`. -/
def rtlUnicodeToUTF8N (max : Option ℕ) (src : List UInt16) (half : Bool) : Utf8Result :=
  if max.isSome ∧ half then ⟨.invalidParameter5, none, []⟩
  else
    let st := encodeLoop src ⟨.success, 0, max, []⟩
    ⟨st.status, some st.written, st.dest⟩

/-! ### The bytes of a character -/

theorem encodeChar_eq {ch : ℕ} (hch : ch < 0x110000) : encodeChar ch = utf8 ch := by
  have htrail : ∀ i, 0x80 ||| (ch >>> i &&& 0x3F) = 0x80 + ch / 2 ^ i % 0x40 := fun i =>
    @or_field 0x80 6 ch i (by decide)
  have hlow : 0x80 ||| (ch >>> 0 &&& 0x3F) = 0x80 + ch % 0x40 := by
    rw [htrail, pow_zero, Nat.div_one]
  rw [encodeChar, utf8]
  by_cases h1 : ch < 0x80
  · rw [if_pos h1, if_pos h1, show (0x7F : ℕ) = 2 ^ 7 - 1 from rfl, Nat.and_two_pow_sub_one_eq_mod,
      Nat.mod_eq_of_lt h1]
  rw [if_neg h1, if_neg h1]
  by_cases h2 : ch < 0x800
  · have hlead : 0xC0 ||| (ch >>> 6 &&& 0x1F) = 0xC0 + ch / 0x40 := by
      have hmod : ch / 0x40 % 0x20 = ch / 0x40 := Nat.mod_eq_of_lt (by omega)
      exact (@or_field 0xC0 5 ch 6 (by decide)).trans (congrArg (0xC0 + ·) hmod)
    rw [if_pos h2, if_pos h2, hlead, hlow]
  rw [if_neg h2, if_neg h2]
  by_cases h3 : ch < 0x10000
  · have hlead : 0xE0 ||| (ch >>> 12 &&& 0x0F) = 0xE0 + ch / 0x1000 := by
      have hmod : ch / 0x1000 % 0x10 = ch / 0x1000 := Nat.mod_eq_of_lt (by omega)
      exact (@or_field 0xE0 4 ch 12 (by decide)).trans (congrArg (0xE0 + ·) hmod)
    rw [if_pos h3, if_pos h3, hlead, hlow, htrail]
    rfl
  · have hlead : 0xF0 ||| (ch >>> 18 &&& 0x07) = 0xF0 + ch / 0x40000 := by
      have hmod : ch / 0x40000 % 0x08 = ch / 0x40000 := Nat.mod_eq_of_lt (by omega)
      exact (@or_field 0xF0 3 ch 18 (by decide)).trans (congrArg (0xF0 + ·) hmod)
    rw [if_neg h3, if_neg h3, hlead, hlow, htrail, htrail]
    rfl

/-! ### The loop as a fold over the characters -/

/-- One character, with `none` for a surrogate outside a pair. -/
def EncodeState.char (st : EncodeState) (c : Option ℕ) : EncodeState :=
  (if c = none then st.notMapped else st).put (utf8 (c.getD 0xFFFD))

theorem pairValue_eq {u v : UInt16} (hv : IsLow v) :
    (((u.toNat - 0xD800) <<< 10) ||| (v.toNat - 0xDC00)) + 0x10000 = pairValue u v := by
  have hlt : v.toNat - 0xDC00 < 2 ^ 10 := by
    rw [IsLow] at hv
    omega
  rw [← Nat.shiftLeft_add_eq_or_of_lt hlt]
  unfold pairValue
  omega

theorem EncodeState.char_some (st : EncodeState) {c : ℕ} (hc : c < 0x110000) :
    st.char (some c) = st.put (encodeChar c) := by
  rw [encodeChar_eq hc]
  rfl

/-- **The loop is a fold** over the characters of the source. -/
theorem encodeLoop_eq (us : List UInt16) (st : EncodeState) :
    encodeLoop us st = (readUtf16 us).foldl char st := by
  have hunit : ∀ u : UInt16, u.toNat < 0x110000 := fun u => u.toNat_lt.trans (by decide)
  induction us using readUtf16.induct generalizing st with
  | case1 => rfl
  | case2 u hu =>
    rw [readUtf16, if_pos hu]
    by_cases hlow : IsLow u
    · exact if_pos hlow
    · exact (if_neg hlow).trans (if_pos (hu.resolve_right hlow))
  | case3 u hu =>
    obtain ⟨hhigh, hlow⟩ := not_or.1 hu
    rw [readUtf16, if_neg hu, foldl_cons, char_some _ (hunit u)]
    exact (if_neg hlow).trans (if_neg hhigh)
  | case4 u v us hu hv ih =>
    have hlow : ¬ IsLow u := fun h => not_isHigh_of_isLow h hu
    rw [readUtf16_high_low hu hv, foldl_cons, ← ih, char_some _ (utf16_pairValue hu hv).1.1,
      ← pairValue_eq hv]
    exact (if_neg hlow).trans ((if_pos hu).trans (if_pos hv))
  | case5 u v us hu hv ih =>
    have hlow : ¬ IsLow u := fun h => not_isHigh_of_isLow h hu
    rw [readUtf16_high hu (by simpa using hv), foldl_cons, ← ih]
    exact (if_neg hlow).trans ((if_pos hu).trans (if_neg hv))
  | case6 u v us hu hlow ih =>
    rw [readUtf16_low hlow, foldl_cons, ← ih]
    exact if_pos hlow
  | case7 u v us hu hlow ih =>
    rw [readUtf16_single hu hlow, foldl_cons, ← ih, char_some _ (hunit u)]
    exact (if_neg hlow).trans (if_neg hu)

/-! ### What the fold does -/

/-- The bytes of characters, a surrogate outside a pair becoming `U+FFFD`. -/
def bytesOf (l : List (Option ℕ)) : List UInt8 := l.flatMap fun c => utf8 (c.getD 0xFFFD)

/-- The status after characters that were all handled. -/
def mappedStatus (l : List (Option ℕ)) (status : Status) : Status :=
  if none ∈ l then .someNotMapped else status

theorem mappedStatus_cons (c : Option ℕ) (l : List (Option ℕ)) (status : Status) :
    mappedStatus (c :: l) status =
      mappedStatus l (if c = none then .someNotMapped else status) := by
  rw [mappedStatus, mappedStatus]
  by_cases hl : none ∈ l
  · rw [if_pos (mem_cons_of_mem c hl), if_pos hl]
  · rw [if_neg hl]
    exact if_congr (by rw [mem_cons, or_iff_left hl, eq_comm]) rfl rfl

variable {l : List (Option ℕ)} {status : Status} {w m : ℕ} {d b : List UInt8}

theorem EncodeState.char_eq (room : Option ℕ) (c : Option ℕ) :
    char ⟨status, w, room, d⟩ c =
      put ⟨if c = none then .someNotMapped else status, w, room, d⟩
        (utf8 (c.getD 0xFFFD)) := by
  cases c <;> rfl

theorem EncodeState.put_fits (h : b.length ≤ m) (hw : w + m < 2 ^ 32) :
    put ⟨status, w, some m, d⟩ b =
      ⟨status, w + b.length, some (m - b.length), d ++ b⟩ := by
  have hcount : (w + b.length) % 2 ^ 32 = w + b.length := Nat.mod_eq_of_lt (by omega)
  rw [← hcount]
  exact if_pos h

theorem EncodeState.put_full (h : ¬ b.length ≤ m) :
    put ⟨status, w, some m, d⟩ b = ⟨.bufferTooSmall, w, some 0, d⟩ :=
  if_neg h

/-- Without a destination the bytes are counted, modulo `2 ^ 32`. -/
theorem foldl_char_null (hw : w < 2 ^ 32) :
    l.foldl char ⟨status, w, none, d⟩ =
      ⟨mappedStatus l status, (w + (bytesOf l).length) % 2 ^ 32, none, d⟩ := by
  induction l generalizing status w with
  | nil => rw [foldl_nil, bytesOf, flatMap_nil, length_nil, Nat.add_zero,
      Nat.mod_eq_of_lt hw, mappedStatus, if_neg not_mem_nil]
  | cons c l ih =>
    rw [foldl_cons, char_eq, put,
      ih (Nat.mod_lt _ (Nat.two_pow_pos 32)), mappedStatus_cons, bytesOf, bytesOf,
      flatMap_cons, length_append, Nat.mod_add_mod, Nat.add_assoc]

/-- When something has been cut off, nothing is written any more. -/
theorem foldl_char_full :
    l.foldl char ⟨.bufferTooSmall, w, some 0, d⟩ =
      ⟨.bufferTooSmall, w, some 0, d⟩ := by
  induction l with
  | nil => rfl
  | cons c l ih =>
    have hlong : ¬ (utf8 (c.getD 0xFFFD)).length ≤ 0 := by
      have hpos := length_utf8_pos (c.getD 0xFFFD)
      omega
    rw [foldl_cons, char_eq, put_full hlong, ih]

theorem bytesOf_take_succ (c : Option ℕ) (k : ℕ) :
    bytesOf ((c :: l).take (k + 1)) = utf8 (c.getD 0xFFFD) ++ bytesOf (l.take k) := by
  rw [take_succ_cons, bytesOf, bytesOf, flatMap_cons]

/-- **With a destination of `m` bytes** as many of the characters are written as fit, one after the
other. The status tells whether these are all. -/
theorem foldl_char_some (hw : w + m < 2 ^ 32) :
    ∃ k ≤ l.length, (bytesOf (l.take k)).length ≤ m ∧
      (k < l.length → m < (bytesOf (l.take (k + 1))).length) ∧
      (l.foldl char ⟨status, w, some m, d⟩).dest = d ++ bytesOf (l.take k) ∧
      (l.foldl char ⟨status, w, some m, d⟩).written =
        w + (bytesOf (l.take k)).length ∧
      (l.foldl char ⟨status, w, some m, d⟩).status =
        if k < l.length then .bufferTooSmall else mappedStatus l status := by
  induction l generalizing status w m d with
  | nil => exact ⟨0, le_rfl, Nat.zero_le m, (absurd · (lt_irrefl 0)), (append_nil d).symm, rfl, rfl⟩
  | cons c l ih =>
    by_cases hfits : (utf8 (c.getD 0xFFFD)).length ≤ m
    · obtain ⟨k, hk, hlen, hnext, hdest, hwritten, hstatus⟩ := @ih
        (if c = none then .someNotMapped else status) (w + (utf8 (c.getD 0xFFFD)).length)
        (m - (utf8 (c.getD 0xFFFD)).length) (d ++ utf8 (c.getD 0xFFFD)) (by omega)
      rw [foldl_cons, char_eq, put_fits hfits hw, hdest, hwritten, hstatus]
      refine ⟨k + 1, Nat.succ_le_succ hk, ?_, fun hlt => ?_, ?_, ?_, ?_⟩
      · rw [bytesOf_take_succ, length_append]
        omega
      · have hlong := hnext (Nat.lt_of_succ_lt_succ hlt)
        rw [bytesOf_take_succ, length_append]
        omega
      · rw [bytesOf_take_succ, append_assoc]
      · rw [bytesOf_take_succ, length_append, Nat.add_assoc]
      · rw [mappedStatus_cons]
        exact if_congr Nat.succ_lt_succ_iff.symm rfl rfl
    · rw [foldl_cons, char_eq, put_full hfits, foldl_char_full]
      refine ⟨0, Nat.zero_le _, Nat.zero_le m, fun _ => ?_, (append_nil d).symm, rfl,
        (if_pos (Nat.succ_pos l.length)).symm⟩
      -- the first character is too long already
      rw [bytesOf_take_succ, length_append]
      omega

/-! ### The contract of the encoder -/

/-- **The full conversion** of a sequence of words. -/
def fullConversion (us : List UInt16) : List UInt8 := bytesOf (readUtf16 us)

/-- Without a destination, the length of the conversion is reported modulo `2 ^ 32`. -/
theorem written_null (us : List UInt16) (half : Bool) :
    (rtlUnicodeToUTF8N none us half).written = some ((fullConversion us).length % 2 ^ 32) := by
  rw [rtlUnicodeToUTF8N, encodeLoop_eq, foldl_char_null (Nat.two_pow_pos 32), Nat.zero_add]
  rfl

/-- What a call with a destination of `m` bytes does: it writes whole characters of the conversion,
from the first one on, until the next one does not fit. So it writes all of a conversion that fits,
and says that the buffer is too small of the others only. -/
structure Converts (us : List UInt16) (m : ℕ) (r : Utf8Result) : Prop where
  longest : ∃ k, r.dest = bytesOf ((readUtf16 us).take k) ∧
    (k < (readUtf16 us).length → m < (bytesOf ((readUtf16 us).take (k + 1))).length)
  fits : r.dest.length ≤ m
  whole : r.dest = fullConversion us ↔ (fullConversion us).length ≤ m
  counted : r.written = some r.dest.length
  cut : r.status = .bufferTooSmall ↔ r.dest ≠ fullConversion us
  mapped : r.status ≠ .bufferTooSmall → (r.status = .someNotMapped ↔ ¬ WellFormed16 us)
  known : r.status = .success ∨ r.status = .someNotMapped ∨ r.status = .bufferTooSmall

theorem length_bytesOf_take_le (k : ℕ) : (bytesOf (l.take k)).length ≤ (bytesOf l).length := by
  have hdrop : bytesOf l = bytesOf (l.take k) ++ bytesOf (l.drop k) := by
    rw [bytesOf, bytesOf, bytesOf, ← flatMap_append, take_append_drop]
  rw [hdrop, length_append]
  exact Nat.le_add_right _ _

/-- **A call with a destination converts as much as fits.** -/
theorem converts_some (us : List UInt16) {m : ℕ} (hm : m < 2 ^ 32) :
    Converts us m (rtlUnicodeToUTF8N (some m) us false) := by
  obtain ⟨k, hk, hlen, hnext, hdest, hwritten, hstatus⟩ :=
    @foldl_char_some (readUtf16 us) .success 0 m [] (by omega)
  rw [nil_append] at hdest
  rw [Nat.zero_add] at hwritten
  have hcall : rtlUnicodeToUTF8N (some m) us false =
      ⟨if k < (readUtf16 us).length then .bufferTooSmall else mappedStatus (readUtf16 us) .success,
        some (bytesOf ((readUtf16 us).take k)).length, bytesOf ((readUtf16 us).take k)⟩ := by
    rw [rtlUnicodeToUTF8N, if_neg (by simp), encodeLoop_eq]
    dsimp only
    rw [hdest, hwritten, hstatus]
  rw [hcall]
  rcases Nat.lt_or_eq_of_le hk with hlt | rfl
  · -- the conversion is longer than the room, so what was written is not all of it
    have hlong : m < (fullConversion us).length :=
      (hnext hlt).trans_le (length_bytesOf_take_le (k + 1))
    have hne : bytesOf ((readUtf16 us).take k) ≠ fullConversion us := by
      intro heq
      rw [heq] at hlen
      exact absurd hlen hlong.not_ge
    rw [if_pos hlt]
    exact ⟨⟨k, rfl, hnext⟩, hlen, iff_of_false hne hlong.not_ge, rfl, iff_of_true rfl hne,
      fun h => absurd rfl h, .inr (.inr rfl)⟩
  · rw [take_length] at hlen
    rw [if_neg (lt_irrefl _), take_length, mappedStatus]
    have hwell := wellFormed16_iff us
    refine ⟨⟨(readUtf16 us).length, by rw [take_length], (absurd · (lt_irrefl _))⟩, hlen,
      iff_of_true rfl hlen, rfl, ?_, fun _ => ?_, ?_⟩
    · refine ⟨fun h => ?_, fun h => absurd rfl h⟩
      split at h <;> cases h
    · rw [hwell, not_not]
      split
      case isTrue h => exact ⟨fun _ => h, fun _ => rfl⟩
      case isFalse h => exact ⟨(by cases ·), fun hmem => absurd hmem h⟩
    · split
      exacts [.inr (.inl rfl), .inl rfl]

end RtlUtf8

end Windivs

import Windivs.Lib.Loop
import Windivs.Rtl.Ipv4

/-!
# IPv6 addresses as text: printing

`RtlIpv6AddressToStringW` and `RtlIpv6AddressToStringExW` of `sdk/lib/rtl/network.c`. An address is
the eight words at a place in memory, given as a function of the index: the loop that skips a run of
zeros reads the word behind the last one when the run goes up to the end, and what it finds there
has to make no difference.

What is printed is one of a few forms (`Windivs.RtlNetwork.Printed`): all words, or the words before
and after a run of zeros with `::` between them, and in both forms the last two words may be printed
as four bytes.
-/

namespace Windivs

open List

namespace RtlNetwork

/-! ### The routines -/

/-- The macro `WN2H`: the two bytes of a word in the other order. -/
def wn2h (w : ℕ) : ℕ := ((w &&& 0xFF00) >>> 8) ||| ((w &&& 0x00FF) <<< 8)

/-- The bytes of an address. -/
def s6Byte (words : ℕ → UInt16) (i : ℕ) : ℕ :=
  if i % 2 = 0 then (words (i / 2)).toNat % 0x100 else (words (i / 2)).toNat / 0x100

/-- The bytes that are printed as an IPv4 address. -/
def quadByte (words : ℕ → UInt16) (i : ℕ) : ℕ := s6Byte words (12 + i)

/-- What is printed so far, and the room that `Remaining` counts. -/
structure Writer where
  text : List UInt16
  remaining : ℕ
  deriving DecidableEq, Repr

open Writer

/-- `*S++ = c; Remaining--`. -/
def Writer.put (w : Writer) (c : UInt16) : Writer := ⟨w.text ++ [c], w.remaining - 1⟩

/-- `RtlStringCchPrintfExW`, which needs room for the text and the terminating zero. -/
def Writer.printf (w : Writer) (text : List UInt16) : Option Writer :=
  if text.length < w.remaining then some ⟨w.text ++ text, w.remaining - text.length⟩ else none

/-- The inner loop over a run of zeros, with a budget of turns. -/
def skipZeros (words : ℕ → UInt16) (parts : ℕ) : ℕ → ℕ → ℕ
  | 0, n => n
  | left + 1, n =>
    if words (n + 1) = 0 ∧ n + 1 < parts then skipZeros words parts left (n + 1) else n

/-- A word as `%x` prints it. -/
def hexText (w : UInt16) : List UInt16 := printNumber 16 (wn2h w.toNat)

/-- The loop of `RtlIpv6AddressToStringW` over the words, with a budget of turns. -/
def formatLoop (words : ℕ → UInt16) (parts : ℕ) : ℕ → ℕ → Bool → Writer → Option Writer
  | 0, _, _, w => some w
  | left + 1, n, skipOnce, w =>
    if n < parts then
      if skipOnce ∧ n + 1 < parts ∧ words n = 0 ∧ words (n + 1) = 0 then
        let n := skipZeros words parts parts n
        let w := w.put 0x3A
        let w := if parts ≤ n + 1 then w.put 0x3A else w
        formatLoop words parts left (n + 1) false w
      else
        let w := if n = 0 then w else w.put 0x3A
        match w.printf (hexText (words n)) with
        | none => none
        | some w => formatLoop words parts left (n + 1) skipOnce w
    else some w

/-- The text before an IPv4 address that is contained in the words, or `none` for the other
addresses. -/
def ipv4Prefix (words : ℕ → UInt16) : Option (List UInt16) :=
  if words 0 = 0 ∧ words 1 = 0 ∧ words 2 = 0 ∧ words 3 = 0 ∧ words 6 ≠ 0 then
    if words 4 = 0xFFFF ∧ words 5 = 0 then some [0x66, 0x66, 0x66, 0x66, 0x3A, 0x30, 0x3A]
    else if words 4 = 0 ∧ words 5 = 0xFFFF then some [0x66, 0x66, 0x66, 0x66, 0x3A]
    else if words 4 = 0 ∧ words 5 = 0 then some []
    else none
  else none

/-- `RtlIpv6AddressToStringW`. The result is `none` for `(PWSTR)~0`. -/
def rtlIpv6AddressToStringW (words : ℕ → UInt16) : Option (List UInt16) :=
  let w : Writer := ⟨[], 46⟩
  match ipv4Prefix words with
  | some front =>
    (w.printf (0x3A :: 0x3A :: (front ++ quadText (quadByte words)))).map Writer.text
  | none =>
    let parts := if words 4 &&& 0xFFFD = 0 ∧ words 5 = 0xFE5E then 6 else 8
    match formatLoop words parts parts 0 true w with
    | none => none
    | some w =>
      if parts < 8 then (w.printf (0x3A :: quadText (quadByte words))).map Writer.text
      else some w.text

/-- What `RtlIpv6AddressToStringExW` returns: the text it copies into the buffer of the caller, and
`*AddressStringLength`. -/
structure ToStringResult where
  status : Status
  text : Option (List UInt16)
  length : ℕ
  deriving DecidableEq, Repr

/-- `RtlStringCchCopyW` into a buffer of `length` characters, which are not none: what stands before
the terminating zero. Where there are more than `NTSTRSAFE_MAX_CCH` it refuses to copy. -/
def rtlStringCchCopy (length : ℕ) (text : List UInt16) : List UInt16 :=
  if length ≤ 0x7FFFFFFF then text.take (length - 1) else []

/-- `ASSERT(p)` in a checked build, and nothing in a free one. -/
def assertIn (checked : Bool) (p : Prop) [Decidable p] : Run Unit :=
  assert (checked = true → p)

/-- `RtlIpv6AddressToStringExW`, for a buffer of `length` characters. The status of the copy is only
asserted. -/
def rtlIpv6AddressToStringExW (checked : Bool) (words : ℕ → UInt16) (scopeId : UInt32)
    (port : UInt16) (length : ℕ) : Run ToStringResult := do
  let front : List UInt16 := if port ≠ 0 then [0x5B] else []
  -- the status of each part is asserted before it is looked at
  let refused : Run ToStringResult := do
    assertIn checked False
    return ⟨.invalidParameter, none, length⟩
  match rtlIpv6AddressToStringW words with
  | none => refused
  | some text =>
    assertIn checked ((front ++ text).length ≤ 47)
    let w : Writer := ⟨front ++ text, 65 - (front ++ text).length⟩
    assertIn checked (19 ≤ w.remaining)
    match if scopeId ≠ 0 then w.printf (0x25 :: printNumber 10 scopeId.toNat) else some w with
    | none => refused
    | some w =>
      match if port ≠ 0 then w.printf (0x5D :: 0x3A :: printNumber 10 (wn2h port.toNat))
        else some w with
      | none => refused
      | some w =>
        if w.text.length < length then
          assertIn checked (length ≤ 0x7FFFFFFF)
          return ⟨.success, some (rtlStringCchCopy length w.text), w.text.length + 1⟩
        else return ⟨.invalidParameter, none, w.text.length + 1⟩

/-! ### Words and their texts -/

theorem wn2h_eq (w : ℕ) : wn2h w = w % 0x100 * 0x100 + w / 0x100 % 0x100 := by
  have hhigh : (w &&& 0xFF00) >>> 8 = w / 0x100 % 0x100 := by
    have hmask : w &&& 0xFF00 = (w / 0x100 % 0x100) <<< 8 := and_mask w 8 8
    rw [hmask, Nat.shiftLeft_shiftRight]
  have hlow : w &&& 0x00FF = w % 0x100 := Nat.and_two_pow_sub_one_eq_mod w 8
  have hlt : w / 0x100 % 0x100 < 2 ^ 8 := Nat.mod_lt _ (by decide)
  rw [wn2h, hhigh, hlow, Nat.or_comm, ← Nat.shiftLeft_add_eq_or_of_lt hlt, Nat.shiftLeft_eq]

theorem wn2h_lt (w : ℕ) : wn2h w < 0x10000 := by
  rw [wn2h_eq]
  omega

/-- The bytes put in the other order twice are in order. -/
theorem wn2h_wn2h {w : ℕ} (hw : w < 0x10000) : wn2h (wn2h w) = w := by
  have hswap : ∀ a b, a < 0x100 → b < 0x100 → wn2h (a * 0x100 + b) = b * 0x100 + a := by
    intro a b ha hb
    rw [wn2h_eq]
    omega
  have hhigh : w / 0x100 < 0x100 := Nat.div_lt_of_lt_mul hw
  have hlow : w % 0x100 < 0x100 := Nat.mod_lt w (by decide)
  have hw' : w = w / 0x100 * 0x100 + w % 0x100 := (Nat.div_add_mod' w 0x100).symm
  rw [hw', hswap _ _ hhigh hlow, hswap _ _ hlow hhigh]

/-- Words with a colon before each of them. -/
def colonWords (l : List UInt16) : List UInt16 := l.flatMap fun w => 0x3A :: hexText w

/-- Words with colons between them. -/
def joinWords : List UInt16 → List UInt16
  | [] => []
  | w :: l => hexText w ++ colonWords l

theorem colonWords_cons (w : UInt16) (l : List UInt16) :
    colonWords (w :: l) = 0x3A :: (hexText w ++ colonWords l) := rfl

theorem joinWords_concat (l : List UInt16) (w : UInt16) :
    joinWords (l ++ [w]) = joinWords l ++ (if l = [] then [] else [0x3A]) ++ hexText w := by
  cases l with
  | nil => simp [joinWords, colonWords]
  | cons v l => simp [joinWords, colonWords]

theorem length_hexText_le (w : UInt16) : (hexText w).length ≤ 4 := by
  rw [hexText, printNumber, length_map]
  exact length_numeral_le (by decide) (by decide) (wn2h_lt _)

/-- The words from an index on. -/
def wordsFrom (words : ℕ → UInt16) (n k : ℕ) : List UInt16 := (range' n k).map words

variable {words : ℕ → UInt16} {parts n k e left : ℕ} {t u : List UInt16}

theorem wordsFrom_succ (words : ℕ → UInt16) (n k : ℕ) :
    wordsFrom words n (k + 1) = words n :: wordsFrom words (n + 1) k := by
  rw [wordsFrom, range'_succ, map_cons, wordsFrom]

theorem wordsFrom_concat (words : ℕ → UInt16) (n k : ℕ) :
    wordsFrom words n (k + 1) = wordsFrom words n k ++ [words (n + k)] := by
  rw [wordsFrom, range'_concat, map_append, map_singleton, wordsFrom, Nat.one_mul]

@[simp] theorem length_wordsFrom (words : ℕ → UInt16) (n k : ℕ) :
    (wordsFrom words n k).length = k := by
  rw [wordsFrom, length_map, length_range']

theorem length_colonWords_le (l : List UInt16) : (colonWords l).length ≤ 5 * l.length := by
  induction l with
  | nil => exact le_rfl
  | cons w l ih =>
    have hword := length_hexText_le w
    rw [colonWords_cons, length_cons, length_append, length_cons]
    omega

theorem length_joinWords_le (l : List UInt16) : (joinWords l).length ≤ 5 * l.length - 1 := by
  cases l with
  | nil => exact le_rfl
  | cons w l =>
    have hword := length_hexText_le w
    have hrest := length_colonWords_le l
    rw [joinWords, length_append, length_cons]
    omega

/-! ### The loop over the words -/

theorem Writer.printf_eq {size : ℕ} (h : t.length + u.length < size) :
    (⟨t, size - t.length⟩ : Writer).printf u = some ⟨t ++ u, size - (t ++ u).length⟩ := by
  have hroom : u.length < size - t.length := by omega
  rw [length_append, ← Nat.sub_sub]
  exact if_pos hroom

/-- A text that is printed only if it is asked for. -/
theorem Writer.printf_if {size : ℕ} {p : Prop} [Decidable p] (h : t.length + u.length < size) :
    (if p then (⟨t, size - t.length⟩ : Writer).printf u else some ⟨t, size - t.length⟩) =
      some ⟨t ++ (if p then u else []), size - (t ++ (if p then u else [])).length⟩ := by
  by_cases hp : p
  · rw [if_pos hp, if_pos hp, printf_eq h]
  · rw [if_neg hp, if_neg hp, append_nil]

/-- The writer of `RtlIpv6AddressToStringW` with a text in it. -/
def Writer.of (t : List UInt16) : Writer := ⟨t, 46 - t.length⟩

theorem Writer.put_of (t : List UInt16) (c : UInt16) : (of t).put c = .of (t ++ [c]) := by
  rw [of, put, of, length_append, length_singleton, Nat.sub_sub]

theorem Writer.printf_of (h : t.length + u.length < 46) : (of t).printf u = some (.of (t ++ u)) :=
  printf_eq h

/-- The inner loop stays inside the words and inside the run of zeros. -/
theorem skipZeros_spec (hn : n < parts) :
    n ≤ skipZeros words parts left n ∧ skipZeros words parts left n < parts ∧
      ∀ i, n < i → i ≤ skipZeros words parts left n → words i = 0 := by
  induction left generalizing n with
  | zero => exact ⟨le_rfl, hn, fun i hlt hle => absurd hle (not_le.2 hlt)⟩
  | succ left ih =>
    rw [skipZeros]
    split
    case isTrue h =>
      obtain ⟨hle, hlt, hzero⟩ := ih h.2
      refine ⟨by omega, hlt, fun i hni him => ?_⟩
      rcases Nat.eq_or_lt_of_le hni with rfl | hni
      exacts [h.1, hzero i hni him]
    case isFalse => exact ⟨le_rfl, hn, fun i hlt hle => absurd hle (not_le.2 hlt)⟩

/-- One word with a colon before it, unless it is the first one. -/
theorem formatLoop_word {skipOnce : Bool} (hn : n < parts) (hparts : parts ≤ 8)
    (hskip : ¬ (skipOnce = true ∧ n + 1 < parts ∧ words n = 0 ∧ words (n + 1) = 0))
    (ht : t.length ≤ 5 * n - 1) :
    formatLoop words parts (left + 1) n skipOnce (.of t) =
      formatLoop words parts left (n + 1) skipOnce
        (.of (t ++ (if n = 0 then [] else [0x3A]) ++ hexText (words n))) := by
  have hword := length_hexText_le (words n)
  have hcolon : (if n = 0 then of t else (of t).put 0x3A) =
      .of (t ++ if n = 0 then [] else [0x3A]) := by
    split
    · rw [append_nil]
    · exact put_of t 0x3A
  have hlength : (t ++ if n = 0 then [] else [0x3A]).length ≤ 5 * n := by
    rw [length_append]
    split
    · simp only [length_nil]
      omega
    · simp only [length_singleton]
      omega
  rw [formatLoop, if_pos hn, if_neg hskip]
  dsimp only
  rw [hcolon, printf_of (by omega)]

/-- After the run of zeros the loop prints the other words. -/
theorem formatLoop_false (hpos : 0 < n) (hn : n ≤ parts) (hparts : parts ≤ 8)
    (hleft : parts - n ≤ left) (ht : t.length ≤ 5 * n - 1) :
    formatLoop words parts left n false (.of t) =
      some (.of (t ++ colonWords (wordsFrom words n (parts - n)))) := by
  induction left generalizing n t with
  | zero =>
    rw [show parts - n = 0 by omega, formatLoop]
    simp [wordsFrom, colonWords]
  | succ left ih =>
    rcases Nat.eq_or_lt_of_le hn with rfl | hlt
    · rw [formatLoop]
      simp [wordsFrom, colonWords]
    · have hword := length_hexText_le (words n)
      rw [formatLoop_word hlt hparts (by simp) ht, if_neg hpos.ne', ih (by omega) hlt (by omega),
        show parts - n = parts - (n + 1) + 1 by omega, wordsFrom_succ, colonWords_cons]
      · simp
      · simp only [length_append, length_singleton]
        omega

/-- Words with a run of zeros left out. -/
def gapText (words : ℕ → UInt16) (parts k e : ℕ) : List UInt16 :=
  joinWords (wordsFrom words 0 k) ++ 0x3A :: 0x3A :: joinWords (wordsFrom words e (parts - e))

/-- A run of at least two zeros among the words. -/
structure Gap (words : ℕ → UInt16) (parts k e : ℕ) : Prop where
  two : k + 2 ≤ e
  le : e ≤ parts
  zero : ∀ i, k ≤ i → i < e → words i = 0

/-- The run of zeros, and what is printed after it. -/
theorem formatLoop_skip (hn : n + 1 < parts) (hparts : parts ≤ 8) (hleft : parts - n ≤ left + 1)
    (hzero : words n = 0 ∧ words (n + 1) = 0) :
    ∃ e, Gap words parts n e ∧
      formatLoop words parts (left + 1) n true (.of (joinWords (wordsFrom words 0 n))) =
        some (.of (gapText words parts n e)) := by
  obtain ⟨p, rfl⟩ : ∃ p, parts = p + 1 := ⟨parts - 1, by omega⟩
  have hskip : skipZeros words (p + 1) (p + 1) n = skipZeros words (p + 1) p (n + 1) := by
    rw [skipZeros, if_pos ⟨hzero.2, hn⟩]
  obtain ⟨hle, hlt, hrun⟩ := @skipZeros_spec words (p + 1) (n + 1) p hn
  have hjoin := length_joinWords_le (wordsFrom words 0 n)
  rw [length_wordsFrom] at hjoin
  rw [formatLoop, if_pos (by omega), if_pos ⟨rfl, hn, hzero⟩]
  dsimp only
  rw [hskip]
  generalize skipZeros words (p + 1) p (n + 1) = m at hle hlt hrun
  have hgap : Gap words (p + 1) n (m + 1) := by
    refine ⟨by omega, hlt, fun i hni him => ?_⟩
    rcases Nat.eq_or_lt_of_le hni with rfl | hni
    · exact hzero.1
    · rcases Nat.eq_or_lt_of_le hni with rfl | hni
      exacts [hzero.2, hrun i hni (by omega)]
  refine ⟨m + 1, hgap, ?_⟩
  rw [put_of]
  split
  case isTrue hend =>
    rw [put_of, formatLoop_false (by omega) hlt hparts (by omega)
      (by simp only [length_append, length_singleton]; omega), gapText,
      show p + 1 - (m + 1) = 0 by omega]
    simp [wordsFrom, colonWords, joinWords]
  case isFalse hmore =>
    rw [formatLoop_false (by omega) hlt hparts (by omega)
      (by simp only [length_append, length_singleton]; omega), gapText,
      show p + 1 - (m + 1) = p - m - 1 + 1 by omega, wordsFrom_succ, colonWords_cons, joinWords]
    simp

/-- **What the loop prints**: all words, or the words around a run of zeros. -/
theorem formatLoop_true (hn : n ≤ parts) (hparts : parts ≤ 8) (hleft : parts - n ≤ left) :
    formatLoop words parts left n true (.of (joinWords (wordsFrom words 0 n))) =
        some (.of (joinWords (wordsFrom words 0 parts))) ∨
      ∃ k e, Gap words parts k e ∧
        formatLoop words parts left n true (.of (joinWords (wordsFrom words 0 n))) =
          some (.of (gapText words parts k e)) := by
  induction left generalizing n with
  | zero =>
    obtain rfl : n = parts := by omega
    exact .inl rfl
  | succ left ih =>
    rcases Nat.eq_or_lt_of_le hn with rfl | hlt
    · rw [formatLoop, if_neg (lt_irrefl n)]
      exact .inl rfl
    · by_cases hskip : n + 1 < parts ∧ words n = 0 ∧ words (n + 1) = 0
      · obtain ⟨e, hgap, hloop⟩ := formatLoop_skip hskip.1 hparts hleft hskip.2
        exact .inr ⟨n, e, hgap, hloop⟩
      · have hjoin := length_joinWords_le (wordsFrom words 0 n)
        rw [length_wordsFrom] at hjoin
        have hnil : wordsFrom words 0 n = [] ↔ n = 0 := by
          rw [← length_eq_zero_iff, length_wordsFrom]
        have hnext : joinWords (wordsFrom words 0 n) ++ (if n = 0 then [] else [0x3A]) ++
            hexText (words n) = joinWords (wordsFrom words 0 (n + 1)) := by
          rw [wordsFrom_concat, joinWords_concat, Nat.zero_add]
          simp only [hnil]
        rw [formatLoop_word hlt hparts (fun h => hskip h.2) hjoin, hnext]
        exact ih hlt (by omega)

/-! ### What is printed -/

/-- The words from `e` up to the last two, with those printed as bytes. -/
def quadTail (words : ℕ → UInt16) (e : ℕ) : List UInt16 :=
  if e = 6 then quadText (quadByte words)
  else joinWords (wordsFrom words e (6 - e)) ++ 0x3A :: quadText (quadByte words)

/-- **The forms that an address is printed in.** -/
inductive Printed (words : ℕ → UInt16) : List UInt16 → Prop
  | all : Printed words (joinWords (wordsFrom words 0 8))
  | allQuad : Printed words (quadTail words 0)
  | gap {k e : ℕ} (h : Gap words 8 k e) : Printed words (gapText words 8 k e)
  | gapQuad {k e : ℕ} (h : Gap words 6 k e) :
    Printed words (joinWords (wordsFrom words 0 k) ++ 0x3A :: 0x3A :: quadTail words e)

theorem s6Byte_lt (words : ℕ → UInt16) (i : ℕ) : s6Byte words i < 0x100 := by
  have hlt := (words (i / 2)).toNat_lt
  rw [s6Byte]
  split <;> omega

theorem quadByte_lt (words : ℕ → UInt16) (i : ℕ) : quadByte words i < 0x100 := s6Byte_lt words _

theorem length_gapText_le (h : Gap words parts k e) :
    (gapText words parts k e).length ≤ 5 * parts - 1 := by
  have hfront := length_joinWords_le (wordsFrom words 0 k)
  have hback := length_joinWords_le (wordsFrom words e (parts - e))
  have htwo := h.two
  have hle := h.le
  rw [length_wordsFrom] at hfront hback
  simp only [gapText, length_append, length_cons]
  omega

theorem length_quadTail_le (he : e ≤ 6) : (quadTail words e).length ≤ 5 * (6 - e) + 15 := by
  have hquad := length_quadText_le (quadByte_lt words)
  have hback := length_joinWords_le (wordsFrom words e (6 - e))
  rw [length_wordsFrom] at hback
  rw [quadTail]
  split
  · omega
  · simp only [length_append, length_cons]
    omega

theorem Printed.length_le (h : Printed words t) : t.length ≤ 45 := by
  cases h with
  | all =>
    have hjoin := length_joinWords_le (wordsFrom words 0 8)
    rw [length_wordsFrom] at hjoin
    omega
  | allQuad => exact length_quadTail_le (by decide)
  | gap h =>
    have hgap := length_gapText_le h
    omega
  | @gapQuad k e h =>
    have hfront := length_joinWords_le (wordsFrom words 0 k)
    have hback := @length_quadTail_le words e h.le
    have htwo := h.two
    have hle := h.le
    rw [length_wordsFrom] at hfront
    simp only [length_append, length_cons]
    omega

/-- The texts of `Prefix` are those of the words after the zeros. -/
theorem ipv4Prefix_eq {front : List UInt16} (h : ipv4Prefix words = some front) :
    ∃ e, Gap words 6 0 e ∧ front ++ quadText (quadByte words) = quadTail words e := by
  rw [ipv4Prefix] at h
  split at h
  case isFalse => cases h
  case isTrue hzero =>
    obtain ⟨h0, h1, h2, h3, -⟩ := hzero
    have hfour : ∀ i < 4, words i = 0 := by
      intro i hi
      interval_cases i
      exacts [h0, h1, h2, h3]
    split at h
    case isTrue h45 =>
      cases h
      refine ⟨4, ⟨by decide, by decide, fun i _ hi => hfour i hi⟩, ?_⟩
      rw [quadTail, wordsFrom_succ, wordsFrom_succ, h45.1, h45.2]
      rfl
    case isFalse =>
      split at h
      case isTrue h45 =>
        cases h
        refine ⟨5, ⟨by decide, by decide, fun i _ hi => ?_⟩, ?_⟩
        · rcases Nat.lt_succ_iff_lt_or_eq.1 hi with hi | rfl
          exacts [hfour i hi, h45.1]
        · rw [quadTail, wordsFrom_succ, h45.2]
          rfl
      case isFalse =>
        split at h
        case isFalse => cases h
        case isTrue h45 =>
          cases h
          refine ⟨6, ⟨by decide, by decide, fun i _ hi => ?_⟩, ?_⟩
          · rcases Nat.lt_succ_iff_lt_or_eq.1 hi with hi | rfl
            · rcases Nat.lt_succ_iff_lt_or_eq.1 hi with hi | rfl
              exacts [hfour i hi, h45.1]
            · exact h45.2
          · rw [quadTail, if_pos rfl, nil_append]

/-- **Every address is printed in one of the forms.** -/
theorem rtlIpv6AddressToStringW_printed (words : ℕ → UInt16) :
    ∃ t, rtlIpv6AddressToStringW words = some t ∧ Printed words t := by
  have hempty : (⟨[], 46⟩ : Writer) = .of (joinWords (wordsFrom words 0 0)) := rfl
  rw [rtlIpv6AddressToStringW]
  dsimp only
  cases hfront : ipv4Prefix words with
  | some front =>
    obtain ⟨e, hgap, htail⟩ := ipv4Prefix_eq hfront
    have hprinted : Printed words (0x3A :: 0x3A :: quadTail words e) := .gapQuad hgap
    have hlength := hprinted.length_le
    refine ⟨_, ?_, hprinted⟩
    dsimp only
    have hroom : (joinWords (wordsFrom words 0 0)).length +
        (0x3A :: 0x3A :: quadTail words e).length < 46 := by
      rw [show joinWords (wordsFrom words 0 0) = [] from rfl, length_nil]
      omega
    rw [htail, hempty, printf_of hroom]
    rfl
  | none =>
    by_cases hisatap : words 4 &&& 0xFFFD = 0 ∧ words 5 = 0xFE5E
    · rw [if_pos hisatap, hempty]
      have hquad := length_quadText_le (quadByte_lt words)
      rcases @formatLoop_true words 6 0 6 (by decide) (by decide) le_rfl with
        hloop | ⟨k, e, hgap, hloop⟩
      · have hjoin := length_joinWords_le (wordsFrom words 0 6)
        rw [length_wordsFrom] at hjoin
        refine ⟨_, ?_, .allQuad⟩
        rw [hloop]
        dsimp only
        rw [printf_of (by rw [length_cons]; omega)]
        rfl
      · have hgaplen := length_gapText_le hgap
        have hlt : e ≠ 6 := by
          rintro rfl
          have hzero := hgap.zero 5 (by have := hgap.two; omega) (by decide)
          rw [hisatap.2] at hzero
          exact absurd hzero (by decide)
        refine ⟨_, ?_, .gapQuad hgap⟩
        rw [hloop]
        dsimp only
        rw [printf_of (by rw [length_cons]; omega), quadTail, if_neg hlt, gapText]
        simp [of]
    · rw [if_neg hisatap, hempty]
      rcases @formatLoop_true words 8 0 8 (by decide) (by decide) le_rfl with
        hloop | ⟨k, e, hgap, hloop⟩
      · exact ⟨_, by rw [hloop]; rfl, .all⟩
      · exact ⟨_, by rw [hloop]; rfl, .gap hgap⟩

/-! ### The scope and the port -/

/-- The text with the scope and the port. -/
def extendedText (t : List UInt16) (scopeId : UInt32) (port : UInt16) : List UInt16 :=
  (if port ≠ 0 then [0x5B] else []) ++ t ++
    (if scopeId ≠ 0 then 0x25 :: printNumber 10 scopeId.toNat else []) ++
    (if port ≠ 0 then 0x5D :: 0x3A :: printNumber 10 (wn2h port.toNat) else [])

theorem length_printNumber_le {m d : ℕ} (hd : 1 ≤ d) (hm : m < 10 ^ d) :
    (printNumber 10 m).length ≤ d := by
  rw [printNumber, length_map]
  exact length_numeral_le (by decide) hd hm

theorem length_scope_port_le (scopeId : UInt32) (port : UInt16) :
    (printNumber 10 scopeId.toNat).length ≤ 10 ∧
      (printNumber 10 (wn2h port.toNat)).length ≤ 5 :=
  ⟨length_printNumber_le (by decide) (scopeId.toNat_lt.trans (by decide)),
    length_printNumber_le (by decide) ((wn2h_lt _).trans (by decide))⟩

theorem length_extendedText_le (scopeId : UInt32) (port : UInt16) (ht : t.length ≤ 45) :
    (extendedText t scopeId port).length ≤ 64 := by
  obtain ⟨hscope, hport⟩ := length_scope_port_le scopeId port
  simp only [extendedText, length_append, apply_ite length, length_cons, length_nil]
  split_ifs <;> omega

theorem rtlStringCchCopy_eq {length : ℕ} (ht : t.length < length) (hlength : length ≤ 0x7FFFFFFF) :
    rtlStringCchCopy length t = t := by
  rw [rtlStringCchCopy, if_pos hlength, take_of_length_le (by omega)]

/-- **What `RtlIpv6AddressToStringExW` prints**: the text with the scope and the port, into every
buffer that it fits into. Of its assertions only the one on the copy can fail. -/
theorem rtlIpv6AddressToStringExW_eq (h : rtlIpv6AddressToStringW words = some t)
    (ht : t.length ≤ 45) (checked : Bool) (scopeId : UInt32) (port : UInt16) (length : ℕ) :
    rtlIpv6AddressToStringExW checked words scopeId port length =
      if (extendedText t scopeId port).length < length then do
        assertIn checked (length ≤ 0x7FFFFFFF)
        return ⟨.success, some (rtlStringCchCopy length (extendedText t scopeId port)),
          (extendedText t scopeId port).length + 1⟩
      else .ok ⟨.invalidParameter, none, (extendedText t scopeId port).length + 1⟩ := by
  obtain ⟨hscope, hport⟩ := length_scope_port_le scopeId port
  have hfront : (if port ≠ 0 then [0x5B] else [] : List UInt16).length ≤ 1 := by
    split <;> decide
  have hmiddle : (if scopeId ≠ 0 then 0x25 :: printNumber 10 scopeId.toNat else []).length ≤ 11 := by
    split
    · rw [length_cons]
      omega
    · exact Nat.zero_le _
  rw [rtlIpv6AddressToStringExW, h]
  dsimp only
  rw [assertIn, assert_bind fun _ => by rw [length_append]; omega, assertIn,
    assert_bind fun _ => by rw [length_append]; omega]
  rw [printf_if (by simp only [length_append, length_cons]; omega)]
  dsimp only
  rw [printf_if (by simp only [length_append, length_cons]; omega)]
  rfl

end RtlNetwork

end Windivs

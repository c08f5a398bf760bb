import Windivs.Lib.Numeral

/-!
# Reading a number from a string

`RtlpStringToUlongBase` and `RtlpStringToUlong` of `sdk/lib/rtl/network.c`, with the functions of
the run-time library they are linked with. A string is the list of its characters before the
terminating zero.

A character is taken for a digit by `isdigit`, which only looks at the low byte of what `towlower`
makes of it. So beyond the digits of the base there are characters that are read as a digit, with a
value that is far too large. `Windivs.RtlNetwork.digit` is what the routine reads and
`Windivs.RtlNetwork.plainDigit` what a digit is; `Windivs.RtlNetwork.digit_cases` says how they
differ.
-/

namespace Windivs

open List

variable {c d n : ℕ}

namespace RtlNetwork

/-! ### The routines -/

/-- The status codes the routines return. -/
inductive Status where
  | success
  | invalidParameter
  deriving DecidableEq, Repr

/-- The character at an index, which is the terminating zero at the end. -/
def charAt (s : List UInt16) (i : ℕ) : ℕ := (s.getD i 0).toNat

/-- `towlower`, with the table that says which characters are in upper case. -/
def towlower (upper : ℕ → Bool) (c : ℕ) : ℕ := if upper c then (c + 32) % 0x10000 else c

/-- `isdigit`, as `libcntpr` has it: the table is read at the low byte. -/
def isdigit (c : ℕ) : Prop := 0x30 ≤ c % 0x100 ∧ c % 0x100 ≤ 0x39

instance (c : ℕ) : Decidable (isdigit c) := inferInstanceAs (Decidable (_ ∧ _))

/-- What a character is read as, in a base: the condition of the loop of `RtlpStringToUlongBase`. -/
def digit (upper : ℕ → Bool) (base c : ℕ) : Option ℕ :=
  let digit := towlower upper c
  if isdigit digit ∧ (10 ≤ base ∨ digit ≤ 0x37) then some (digit - 0x30)
  else if 0x61 ≤ digit ∧ digit ≤ 0x66 ∧ 16 ≤ base then some (digit - (0x61 - 10))
  else none

/-- What a routine returns, with the end of the number and its value. -/
structure UlongResult where
  status : Status
  terminator : List UInt16
  out : ℕ
  deriving DecidableEq, Repr

/-- The loop of `RtlpStringToUlongBase`. On an overflow, `RtlULongMult` and `RtlULongAdd` leave
`ULONG_ERROR` behind. -/
def ulongLoop (upper : ℕ → Bool) (base : ℕ) : Status → ℕ → List UInt16 → UlongResult
  | status, result, [] => ⟨status, [], result⟩
  | status, result, c :: s =>
    match digit upper base c.toNat with
    | none => ⟨status, c :: s, result⟩
    | some d =>
      if 2 ^ 32 ≤ result * base then ⟨.invalidParameter, c :: s, 0xFFFFFFFF⟩
      else if 2 ^ 32 ≤ result * base + d then ⟨.invalidParameter, c :: s, 0xFFFFFFFF⟩
      else ulongLoop upper base .success (result * base + d) s

/-- `RtlpStringToUlongBase`. -/
def rtlpStringToUlongBase (upper : ℕ → Bool) (s : List UInt16) (base : ℕ) : UlongResult :=
  ulongLoop upper base .invalidParameter 0 s

/-- The base of a number, and what follows its prefix. -/
def numberBase (s : List UInt16) : ℕ × List UInt16 :=
  if charAt s 0 = 0x30 then
    if charAt s 1 = 0x78 ∨ charAt s 1 = 0x58 then (16, s.drop 2)
    else if 0x30 ≤ charAt s 1 ∧ charAt s 1 ≤ 0x39 then (8, s.drop 1)
    else (10, s)
  else (10, s)

/-- `RtlpStringToUlong`. A number that is refused because of its base leaves `*Out` as it is. -/
def rtlpStringToUlong (upper : ℕ → Bool) (s : List UInt16) (strict : Bool) (out : ℕ) :
    UlongResult :=
  let (base, s) := numberBase s
  if strict ∧ base ≠ 10 then ⟨.invalidParameter, s, out⟩
  else rtlpStringToUlongBase upper s base

/-! ### Digits -/

/-- A digit of a base. -/
def plainDigit (base c : ℕ) : Option ℕ :=
  if 0x30 ≤ c ∧ c ≤ 0x39 ∧ c - 0x30 < base then some (c - 0x30)
  else if 0x61 ≤ c ∧ c ≤ 0x66 ∧ c - 0x57 < base then some (c - 0x57)
  else if 0x41 ≤ c ∧ c ≤ 0x46 ∧ c - 0x37 < base then some (c - 0x37)
  else none

/-- The table knows the upper case letters of ASCII. -/
def KnowsAscii (upper : ℕ → Bool) : Prop :=
  ∀ c < 0x80, upper c = true ↔ 0x41 ≤ c ∧ c ≤ 0x5A

/-- The bases that numbers are written in. -/
def IsBase (base : ℕ) : Prop := base = 8 ∨ base = 10 ∨ base = 16

variable {upper : ℕ → Bool} {base : ℕ}

section

variable (hupper : KnowsAscii upper)
include hupper

/-- An ASCII character is read as what it is. -/
theorem digit_of_ascii (hbase : IsBase base) (hc : c < 0x80) :
    digit upper base c = plainDigit base c := by
  have hup := hupper c hc
  rw [IsBase] at hbase
  by_cases hletter : 0x41 ≤ c ∧ c ≤ 0x5A
  · have hlower : towlower upper c = c + 32 := by
      rw [towlower, if_pos (hup.2 hletter), Nat.mod_eq_of_lt (by omega)]
    have hno : ¬ isdigit (c + 32) := fun h => by
      rw [isdigit] at h
      omega
    have hplain : plainDigit base c =
        if 0x41 ≤ c ∧ c ≤ 0x46 ∧ c - 0x37 < base then some (c - 0x37) else none := by
      rw [plainDigit, if_neg (by omega), if_neg (by omega)]
    rw [digit, hlower, if_neg fun h => hno h.1, hplain]
    exact if_congr (by omega) (congrArg some (by omega)) rfl
  · have hlower : towlower upper c = c := by
      rw [towlower, if_neg fun h => hletter (hup.1 h)]
    have hdigit : isdigit c ↔ 0x30 ≤ c ∧ c ≤ 0x39 := by
      rw [isdigit, Nat.mod_eq_of_lt (by omega)]
    have hthird : ¬ (0x41 ≤ c ∧ c ≤ 0x46 ∧ c - 0x37 < base) := by omega
    rw [digit, hlower, plainDigit, if_neg hthird]
    exact if_congr (by rw [hdigit]; omega) rfl (if_congr (by omega) rfl rfl)

/-- **What is read as a digit** is a digit, or has a value of at least 256. -/
theorem digit_cases (hbase : IsBase base) (hc : c < 0x10000) :
    digit upper base c = plainDigit base c ∨
      plainDigit base c = none ∧ base ≠ 8 ∧ ∃ d, digit upper base c = some d ∧ 256 ≤ d := by
  by_cases hascii : c < 0x80
  · exact .inl (digit_of_ascii hupper hbase hascii)
  · have hplain : plainDigit base c = none := by
      rw [plainDigit, if_neg (by omega), if_neg (by omega), if_neg (by omega)]
    have hlower : towlower upper c = c ∨ towlower upper c = (c + 32) % 0x10000 := by
      rw [towlower]
      split
      exacts [.inr rfl, .inl rfl]
    rw [digit]
    generalize towlower upper c = l at hlower ⊢
    by_cases hdigit : isdigit l ∧ (10 ≤ base ∨ l ≤ 0x37)
    · have hlow := hdigit.1
      rw [isdigit] at hlow
      rcases hbase with rfl | hbase
      · omega
      · exact .inr ⟨hplain, by omega, _, if_pos hdigit, by omega⟩
    · rw [if_neg hdigit, if_neg (by omega), hplain]
      exact .inl rfl

/-- What is a digit is read as that digit. -/
theorem digit_of_plainDigit (hbase : IsBase base)
    (hc : c < 0x10000) (h : plainDigit base c = some d) : digit upper base c = some d := by
  rcases digit_cases hupper hbase hc with heq | ⟨hnone, -⟩
  · rw [heq, h]
  · rw [hnone] at h
    cases h

theorem digit_dot (hbase : IsBase base) : digit upper base 0x2E = none := by
  rw [digit_of_ascii hupper hbase (by decide)]
  rcases hbase with rfl | rfl | rfl <;> decide

end

/-! ### Runs of digits -/

/-- The value of a list of characters whose digits are read by `dv`. -/
def runValue (dv : ℕ → ℕ → Option ℕ) (base : ℕ) (ds : List UInt16) : ℕ :=
  numeralValue base (ds.map fun c => (dv base c.toNat).getD 0)

theorem runValue_le_append (dv : ℕ → ℕ → Option ℕ) {base : ℕ} (hbase : 0 < base)
    (ds es : List UInt16) : runValue dv base ds ≤ runValue dv base (ds ++ es) := by
  rw [runValue, runValue, map_append]
  exact numeralValue_le_append hbase _ _

/-- **A maximal run of digits**, and what follows it. -/
structure IsRun (dv : ℕ → ℕ → Option ℕ) (base : ℕ) (ds rest : List UInt16) : Prop where
  digits : ∀ c ∈ ds, (dv base c.toNat).isSome
  maximal : ∀ c ∈ rest.head?, dv base c.toNat = none

variable {dv : ℕ → ℕ → Option ℕ} {ds es rest s : List UInt16}

/-- Every string starts with a maximal run, which may be empty. -/
theorem exists_isRun (dv : ℕ → ℕ → Option ℕ) (base : ℕ) (s : List UInt16) :
    ∃ ds rest, s = ds ++ rest ∧ IsRun dv base ds rest := by
  induction s with
  | nil => exact ⟨[], [], rfl, by simp, by simp⟩
  | cons c s ih =>
    cases hc : dv base c.toNat with
    | none => exact ⟨[], c :: s, rfl, by simp, by simpa using hc⟩
    | some d =>
      obtain ⟨ds, rest, rfl, hrun⟩ := ih
      refine ⟨c :: ds, rest, rfl, fun x hx => ?_, hrun.maximal⟩
      rcases mem_cons.1 hx with rfl | hx
      · rw [hc]
        rfl
      · exact hrun.digits x hx

/-- There is only one such run. -/
theorem IsRun.unique {ds' rest' : List UInt16} (h : IsRun dv base ds rest)
    (h' : IsRun dv base ds' rest') (heq : ds ++ rest = ds' ++ rest') : ds = ds' ∧ rest = rest' := by
  induction ds generalizing ds' with
  | nil =>
    cases ds' with
    | nil => exact ⟨rfl, heq⟩
    | cons c ds' =>
      have hnone := h.maximal c (by rw [← nil_append rest, heq]; rfl)
      have hsome := h'.digits c mem_cons_self
      rw [hnone] at hsome
      cases hsome
  | cons c ds ih =>
    cases ds' with
    | nil =>
      have hnone := h'.maximal c (by rw [← nil_append rest', ← heq]; rfl)
      have hsome := h.digits c mem_cons_self
      rw [hnone] at hsome
      cases hsome
    | cons c' ds' =>
      rw [cons_append, cons_append, cons_eq_cons] at heq
      obtain ⟨rfl, heq⟩ := heq
      obtain ⟨rfl, hrest⟩ := ih ⟨fun x hx => h.digits x (mem_cons_of_mem c hx), h.maximal⟩
        ⟨fun x hx => h'.digits x (mem_cons_of_mem c hx), h'.maximal⟩ heq
      exact ⟨rfl, hrest⟩

/-! ### What the routines read -/

/-- The loop reads on to the end of the run, or stops before a digit that is too much. -/
theorem ulongLoop_append (hbase : 0 < base) (hrun : IsRun (digit upper) base ds rest)
    {status : Status} {front : List UInt16} (hfront : runValue (digit upper) base front < 2 ^ 32) :
    (runValue (digit upper) base (front ++ ds) < 2 ^ 32 →
      ulongLoop upper base status (runValue (digit upper) base front) (ds ++ rest) =
        ⟨if ds = [] then status else .success, rest,
          runValue (digit upper) base (front ++ ds)⟩) ∧
    (2 ^ 32 ≤ runValue (digit upper) base (front ++ ds) →
      ∃ c t, (digit upper base c.toNat).isSome ∧
        ulongLoop upper base status (runValue (digit upper) base front) (ds ++ rest) =
          ⟨.invalidParameter, c :: t, 0xFFFFFFFF⟩) := by
  induction ds generalizing front status with
  | nil =>
    rw [append_nil]
    refine ⟨fun _ => ?_, fun hle => by omega⟩
    rw [if_pos rfl, nil_append]
    cases rest with
    | nil => rfl
    | cons c rest => rw [ulongLoop, hrun.maximal c rfl]
  | cons c ds ih =>
    obtain ⟨d, hd⟩ := Option.isSome_iff_exists.1 (hrun.digits c mem_cons_self)
    have hnext : runValue (digit upper) base (front ++ [c]) =
        runValue (digit upper) base front * base + d := by
      rw [runValue, map_append, map_singleton, numeralValue_append_singleton, hd, runValue,
        Option.getD_some]
    have hsplit : front ++ c :: ds = front ++ [c] ++ ds := append_cons front c ds
    have hle : runValue (digit upper) base (front ++ [c]) ≤
        runValue (digit upper) base (front ++ c :: ds) := by
      rw [hsplit]
      exact runValue_le_append (digit upper) hbase _ _
    have hrest : IsRun (digit upper) base ds rest :=
      ⟨fun x hx => hrun.digits x (mem_cons_of_mem c hx), hrun.maximal⟩
    rw [cons_append, ulongLoop, hd]
    dsimp only
    rw [← hnext]
    by_cases hover : runValue (digit upper) base (front ++ [c]) < 2 ^ 32
    · rw [if_neg (by omega), if_neg (by omega)]
      obtain ⟨hfits, htoo⟩ := ih hrest hover
      rw [hsplit]
      refine ⟨fun hlt => ?_, htoo⟩
      rw [hfits hlt]
      congr 1
      split <;> rfl
    · refine ⟨fun hlt => by omega, fun _ => ⟨c, ds ++ rest, by rw [hd]; rfl, ?_⟩⟩
      split
      · rfl
      · rw [if_pos (by omega)]

/-- **What `RtlpStringToUlongBase` reads**: a run of digits that is not empty, with a value below
`2 ^ 32`. Otherwise it fails, and does not stop at a dot. -/
theorem rtlpStringToUlongBase_eq (hbase : 0 < base) (hrun : IsRun (digit upper) base ds rest) :
    (ds ≠ [] → runValue (digit upper) base ds < 2 ^ 32 →
      rtlpStringToUlongBase upper (ds ++ rest) base =
        ⟨.success, rest, runValue (digit upper) base ds⟩) ∧
    (¬ (ds ≠ [] ∧ runValue (digit upper) base ds < 2 ^ 32) →
      (rtlpStringToUlongBase upper (ds ++ rest) base).status = .invalidParameter) := by
  have hzero : runValue (digit upper) base [] < 2 ^ 32 := Nat.two_pow_pos 32
  obtain ⟨hfits, htoo⟩ := @ulongLoop_append upper base ds rest hbase hrun .invalidParameter [] hzero
  rw [nil_append] at hfits htoo
  refine ⟨fun hne hlt => ?_, fun hfail => ?_⟩
  · have hloop := hfits hlt
    rw [if_neg hne] at hloop
    exact hloop
  · by_cases hlt : runValue (digit upper) base ds < 2 ^ 32
    · obtain rfl : ds = [] := by
        by_contra hne
        exact hfail ⟨hne, hlt⟩
      exact congrArg UlongResult.status (hfits hlt)
    · obtain ⟨c, t, -, hloop⟩ := htoo (by omega)
      exact congrArg UlongResult.status hloop

/-- A number that is read is at least one character of the string. -/
theorem length_terminator_lt (hbase : 0 < base)
    (h : (rtlpStringToUlongBase upper s base).status = .success) :
    (rtlpStringToUlongBase upper s base).terminator.length < s.length := by
  obtain ⟨ds, rest, rfl, hrun⟩ := exists_isRun (digit upper) base s
  obtain ⟨hread, hfail⟩ := rtlpStringToUlongBase_eq hbase hrun
  by_cases hok : ds ≠ [] ∧ runValue (digit upper) base ds < 2 ^ 32
  · rw [hread hok.1 hok.2, length_append]
    have hpos := length_pos_iff.2 hok.1
    dsimp only
    omega
  · rw [hfail hok] at h
    cases h

/-! ### Printed numbers -/

/-- The character of a digit, as `%u` and `%x` print it. -/
def digitChar (d : ℕ) : UInt16 := if d < 10 then .ofNat (0x30 + d) else .ofNat (0x57 + d)

/-- A number as `%u` and `%x` print it. -/
def printNumber (base n : ℕ) : List UInt16 := (numeral base n).map digitChar

theorem toNat_digitChar (hd : d < 16) :
    (digitChar d).toNat = if d < 10 then 0x30 + d else 0x57 + d := by
  rw [digitChar]
  split <;> exact Nat.mod_eq_of_lt (by omega)

theorem plainDigit_digitChar (hbase : IsBase base) (hd : d < base) :
    plainDigit base (digitChar d).toNat = some d := by
  rw [IsBase] at hbase
  rw [toNat_digitChar (by omega), plainDigit]
  by_cases hten : d < 10
  · rw [if_pos hten, if_pos (by omega), Nat.add_sub_cancel_left]
  · rw [if_neg hten, if_neg (by omega), if_pos (by omega), Nat.add_sub_cancel_left]

theorem one_lt_of_isBase (hbase : IsBase base) : 1 < base := by
  rw [IsBase] at hbase
  omega

/-- The digits of a printed number are read as what they are. -/
theorem digit_printNumber (hupper : KnowsAscii upper) (hbase : IsBase base) {c : UInt16}
    (hc : c ∈ printNumber base n) : ∃ d, d ∈ numeral base n ∧ c = digitChar d ∧
      digit upper base c.toNat = some d := by
  obtain ⟨d, hd, rfl⟩ := mem_map.1 hc
  exact ⟨d, hd, rfl, digit_of_plainDigit hupper hbase (digitChar d).toNat_lt
    (plainDigit_digitChar hbase (numeral_lt (one_lt_of_isBase hbase) hd))⟩

theorem runValue_printNumber (hupper : KnowsAscii upper) (hbase : IsBase base) (n : ℕ) :
    runValue (digit upper) base (printNumber base n) = n := by
  have hdigits : (printNumber base n).map (fun c => (digit upper base c.toNat).getD 0) =
      numeral base n := by
    rw [printNumber, map_map]
    refine (map_congr_left fun d hd => ?_).trans (map_id _)
    have hplain := plainDigit_digitChar hbase (numeral_lt (one_lt_of_isBase hbase) hd)
    rw [Function.comp, digit_of_plainDigit hupper hbase (digitChar d).toNat_lt hplain]
    rfl
  rw [runValue, hdigits, numeralValue_numeral]

theorem printNumber_ne_nil (base n : ℕ) : printNumber base n ≠ [] := by
  rw [printNumber, Ne, map_eq_nil_iff]
  exact numeral_ne_nil base n

/-- **A printed number is read back**, up to the first character that is not a digit. -/
theorem rtlpStringToUlongBase_printNumber (hupper : KnowsAscii upper) (hbase : IsBase base)
    (hn : n < 2 ^ 32) (hrest : ∀ c ∈ rest.head?, digit upper base c.toNat = none) :
    rtlpStringToUlongBase upper (printNumber base n ++ rest) base = ⟨.success, rest, n⟩ := by
  have hrun : IsRun (digit upper) base (printNumber base n) rest := by
    refine ⟨fun c hc => ?_, hrest⟩
    obtain ⟨d, -, -, hd⟩ := digit_printNumber hupper hbase hc
    rw [hd]
    rfl
  have hvalue := runValue_printNumber hupper hbase n
  have hread := (rtlpStringToUlongBase_eq (zero_lt_one.trans (one_lt_of_isBase hbase)) hrun).1
    (printNumber_ne_nil base n) (by rwa [hvalue])
  rwa [hvalue] at hread

end RtlNetwork

end Windivs

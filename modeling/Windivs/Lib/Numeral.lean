import Mathlib.Tactic
import Mathlib.Data.Nat.Digits.Lemmas

/-!
# Numerals and fields of bits

A numeral is a list of digits with the most significant one first. `Windivs.numeralValue` is the
number it stands for, read from left to right as code reads it, and `Windivs.numeral` is the
numeral that is printed for a number, without leading zeros. The last section says what code does
to a number with masks and shifts, in terms of quotients and remainders.
-/

namespace Windivs

open List

/-- The value of a list of digits. -/
def numeralValue (base : ℕ) (ds : List ℕ) : ℕ := ds.foldl (fun v d => v * base + d) 0

/-- The digits of a number. -/
def numeral (base n : ℕ) : List ℕ := if n = 0 then [0] else (Nat.digits base n).reverse

variable {base n : ℕ}

@[simp] theorem numeralValue_nil (base : ℕ) : numeralValue base [] = 0 := rfl

theorem numeralValue_append_singleton (base : ℕ) (ds : List ℕ) (d : ℕ) :
    numeralValue base (ds ++ [d]) = numeralValue base ds * base + d := by
  rw [numeralValue, foldl_append, numeralValue, foldl_cons, foldl_nil]

/-- More digits do not make a number smaller. -/
theorem numeralValue_le_append (hbase : 0 < base) (ds es : List ℕ) :
    numeralValue base ds ≤ numeralValue base (ds ++ es) := by
  induction es using reverseRecOn with
  | nil => rw [append_nil]
  | append_singleton es d ih =>
    rw [← append_assoc, numeralValue_append_singleton]
    have hle := Nat.le_mul_of_pos_right (numeralValue base (ds ++ es)) hbase
    omega

/-- A number is at least as large as its last digit, and each of its digits. -/
theorem le_numeralValue (hbase : 0 < base) (ds es : List ℕ) (d : ℕ) :
    numeralValue base ds + d ≤ numeralValue base (ds ++ d :: es) := by
  have hle := numeralValue_le_append hbase (ds ++ [d]) es
  rw [append_assoc, singleton_append, numeralValue_append_singleton] at hle
  have hmul := Nat.le_mul_of_pos_right (numeralValue base ds) hbase
  omega

theorem numeralValue_lt {ds : List ℕ} (hds : ∀ d ∈ ds, d < base) :
    numeralValue base ds < base ^ ds.length := by
  induction ds using reverseRecOn with
  | nil => exact Nat.one_pos
  | append_singleton ds d ih =>
    have hfront := ih fun x hx => hds x (mem_append_left _ hx)
    have hlast := hds d (mem_append_right _ mem_cons_self)
    rw [numeralValue_append_singleton, length_append]
    calc _ < (numeralValue base ds + 1) * base := by
          rw [Nat.succ_mul]
          omega
      _ ≤ base ^ ds.length * base := Nat.mul_le_mul_right _ hfront

theorem numeralValue_numeral (base n : ℕ) : numeralValue base (numeral base n) = n := by
  rw [numeral]
  split
  case isTrue h =>
    subst h
    simp [numeralValue]
  case isFalse h =>
    rw [numeralValue, foldl_reverse]
    conv_rhs => rw [← Nat.ofDigits_digits base n, Nat.ofDigits_eq_foldr]
    congr 1
    funext x y
    rw [Nat.cast_id, Nat.mul_comm, Nat.add_comm]

theorem numeral_lt (hbase : 1 < base) {d : ℕ} (hd : d ∈ numeral base n) : d < base := by
  rw [numeral] at hd
  split at hd
  · rw [mem_singleton.1 hd]
    omega
  · exact Nat.digits_lt_base hbase (mem_reverse.1 hd)

theorem numeral_ne_nil (base n : ℕ) : numeral base n ≠ [] := by
  rw [numeral]
  split
  · simp
  · simpa [Nat.digits_ne_nil_iff_ne_zero] using ‹n ≠ 0›

/-- A numeral that starts with zero is that of zero. -/
theorem head_numeral (h : (numeral base n).head? = some 0) : numeral base n = [0] := by
  rw [numeral] at h ⊢
  split at h
  case isTrue hn => rw [if_pos hn]
  case isFalse hn =>
    rw [head?_reverse, getLast?_eq_some_getLast (Nat.digits_ne_nil_iff_ne_zero.2 hn),
      Option.some_inj] at h
    exact absurd h (Nat.getLast_digit_ne_zero base hn)

/-- The number of digits. -/
theorem length_numeral_le (hbase : 1 < base) {k : ℕ} (hk : 1 ≤ k) (h : n < base ^ k) :
    (numeral base n).length ≤ k := by
  rw [numeral]
  split
  · simpa using hk
  · rw [length_reverse]
    exact (Nat.digits_length_le_iff hbase n).2 h

/-! ### Fields of bits -/

/-- The bits that the mask of a field leaves. -/
theorem and_mask (x e k : ℕ) : x &&& ((2 ^ k - 1) <<< e) = (x / 2 ^ e % 2 ^ k) <<< e := by
  rw [← Nat.shiftRight_eq_div_pow, ← Nat.and_two_pow_sub_one_eq_mod, Nat.shiftLeft_and_distrib]
  refine Nat.eq_of_testBit_eq fun j => ?_
  rw [Nat.testBit_and, Nat.testBit_and, Nat.testBit_shiftLeft, Nat.testBit_shiftLeft,
    Nat.testBit_shiftRight]
  by_cases hj : e ≤ j
  · rw [Nat.add_sub_cancel' hj]
    simp [hj]
  · simp [hj]

theorem or_eq_add {a x : ℕ} (k : ℕ) (hx : x < 2 ^ k) (ha : a % 2 ^ k = 0) : a ||| x = a + x := by
  obtain ⟨b, rfl⟩ := Nat.dvd_of_mod_eq_zero ha
  exact (Nat.two_pow_add_eq_or_of_lt hx b).symm

/-- The bits of a field of `k` bits at `i`, with a mark above them. -/
theorem or_field {a k : ℕ} (x i : ℕ) (ha : a % 2 ^ k = 0) :
    a ||| (x >>> i &&& (2 ^ k - 1)) = a + x / 2 ^ i % 2 ^ k := by
  rw [Nat.and_two_pow_sub_one_eq_mod, Nat.shiftRight_eq_div_pow,
    or_eq_add k (Nat.mod_lt _ (Nat.two_pow_pos k)) ha]

end Windivs

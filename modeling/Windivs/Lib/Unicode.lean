import Mathlib.Tactic

/-!
# The encoding forms of Unicode

A Unicode scalar value is a code point that is not a surrogate. `Windivs.utf8` and `Windivs.utf16`
are the byte and the word sequences that stand for one, and a sequence is well-formed when it is
the concatenation of such. `Windivs.readUtf16` reads any sequence of words, with `none` for a
surrogate that is not part of a pair.
-/

namespace Windivs

open List

variable {u v : UInt16}

/-- A Unicode scalar value. -/
def IsScalar (c : ℕ) : Prop := c < 0x110000 ∧ ¬ (0xD800 ≤ c ∧ c ≤ 0xDFFF)

instance (c : ℕ) : Decidable (IsScalar c) := inferInstanceAs (Decidable (_ ∧ _))

/-- The bytes of a scalar value. -/
def utf8 (c : ℕ) : List UInt8 :=
  if c < 0x80 then [.ofNat c]
  else if c < 0x800 then [.ofNat (0xC0 + c / 0x40), .ofNat (0x80 + c % 0x40)]
  else if c < 0x10000 then
    [.ofNat (0xE0 + c / 0x1000), .ofNat (0x80 + c / 0x40 % 0x40), .ofNat (0x80 + c % 0x40)]
  else
    [.ofNat (0xF0 + c / 0x40000), .ofNat (0x80 + c / 0x1000 % 0x40),
      .ofNat (0x80 + c / 0x40 % 0x40), .ofNat (0x80 + c % 0x40)]

/-- The words of a scalar value. -/
def utf16 (c : ℕ) : List UInt16 :=
  if c < 0x10000 then [.ofNat c]
  else [.ofNat (0xD800 + (c - 0x10000) / 0x400), .ofNat (0xDC00 + (c - 0x10000) % 0x400)]

/-- A sequence of words that is well-formed UTF-16. -/
def WellFormed16 (s : List UInt16) : Prop :=
  ∃ cs : List ℕ, (∀ c ∈ cs, IsScalar c) ∧ s = cs.flatMap utf16

/-- The first word of a pair. -/
def IsHigh (u : UInt16) : Prop := 0xD800 ≤ u.toNat ∧ u.toNat ≤ 0xDBFF

/-- The second word of a pair. -/
def IsLow (u : UInt16) : Prop := 0xDC00 ≤ u.toNat ∧ u.toNat ≤ 0xDFFF

instance (u : UInt16) : Decidable (IsHigh u) := inferInstanceAs (Decidable (_ ∧ _))

instance (u : UInt16) : Decidable (IsLow u) := inferInstanceAs (Decidable (_ ∧ _))

/-- The scalar value of a pair. -/
def pairValue (u v : UInt16) : ℕ := 0x10000 + (u.toNat - 0xD800) * 0x400 + (v.toNat - 0xDC00)

/-- The characters of a sequence of words, with `none` for a surrogate outside a pair. -/
def readUtf16 : List UInt16 → List (Option ℕ)
  | [] => []
  | [u] => if IsHigh u ∨ IsLow u then [none] else [some u.toNat]
  | u :: v :: us =>
    if IsHigh u then
      if IsLow v then some (pairValue u v) :: readUtf16 us else none :: readUtf16 (v :: us)
    else if IsLow u then none :: readUtf16 (v :: us)
    else some u.toNat :: readUtf16 (v :: us)

/-! ### Lengths -/

theorem length_utf8_pos (c : ℕ) : 0 < (utf8 c).length := by
  rw [utf8]
  split_ifs <;> simp

theorem length_utf8_le_three_mul (c : ℕ) : (utf8 c).length ≤ 3 * (utf16 c).length := by
  rw [utf8, utf16]
  split_ifs <;> simp

/-! ### Reading words -/

theorem not_isHigh_of_isLow (hu : IsLow u) : ¬ IsHigh u := by
  rw [IsLow] at hu
  rw [IsHigh]
  omega

theorem readUtf16_high_low (hu : IsHigh u) (hv : IsLow v) (us : List UInt16) :
    readUtf16 (u :: v :: us) = some (pairValue u v) :: readUtf16 us := by
  rw [readUtf16, if_pos hu, if_pos hv]

theorem readUtf16_high (hu : IsHigh u) {us : List UInt16}
    (hus : ∀ v ∈ us.head?, ¬ IsLow v) : readUtf16 (u :: us) = none :: readUtf16 us := by
  cases us with
  | nil => exact if_pos (Or.inl hu)
  | cons v us => rw [readUtf16, if_pos hu, if_neg (hus v rfl)]

theorem readUtf16_low (hu : IsLow u) (us : List UInt16) :
    readUtf16 (u :: us) = none :: readUtf16 us := by
  cases us with
  | nil => exact if_pos (Or.inr hu)
  | cons v us => rw [readUtf16, if_neg (not_isHigh_of_isLow hu), if_pos hu]

theorem readUtf16_single (hhigh : ¬ IsHigh u) (hlow : ¬ IsLow u) (us : List UInt16) :
    readUtf16 (u :: us) = some u.toNat :: readUtf16 us := by
  cases us with
  | nil => exact if_neg (not_or.2 ⟨hhigh, hlow⟩)
  | cons v us => rw [readUtf16, if_neg hhigh, if_neg hlow]

theorem toNat_ofNat16 {m : ℕ} (hm : m < 0x10000) : (UInt16.ofNat m).toNat = m := Nat.mod_eq_of_lt hm

/-- The words of a scalar value are read as it. -/
theorem readUtf16_utf16 {c : ℕ} (hc : IsScalar c) (us : List UInt16) :
    readUtf16 (utf16 c ++ us) = some c :: readUtf16 us := by
  rw [IsScalar] at hc
  rw [utf16]
  split
  case isTrue hlt =>
    have hunit : (UInt16.ofNat c).toNat = c := toNat_ofNat16 hlt
    rw [cons_append, nil_append, readUtf16_single, hunit]
    · rw [IsHigh]
      omega
    · rw [IsLow]
      omega
  case isFalse hle =>
    have hhigh : (UInt16.ofNat (0xD800 + (c - 0x10000) / 0x400)).toNat =
        0xD800 + (c - 0x10000) / 0x400 := toNat_ofNat16 (by omega)
    have hlow : (UInt16.ofNat (0xDC00 + (c - 0x10000) % 0x400)).toNat =
        0xDC00 + (c - 0x10000) % 0x400 := toNat_ofNat16 (by omega)
    have hvalue : pairValue (UInt16.ofNat (0xD800 + (c - 0x10000) / 0x400))
        (UInt16.ofNat (0xDC00 + (c - 0x10000) % 0x400)) = c := by
      unfold pairValue
      omega
    rw [cons_append, cons_append, nil_append, readUtf16_high_low, hvalue]
    · rw [IsHigh]
      omega
    · rw [IsLow]
      omega

/-- A pair is the words of its value. -/
theorem utf16_pairValue (hu : IsHigh u) (hv : IsLow v) :
    IsScalar (pairValue u v) ∧ utf16 (pairValue u v) = [u, v] := by
  rw [IsHigh] at hu
  rw [IsLow] at hv
  have hscalar : 0x10000 ≤ pairValue u v ∧ pairValue u v < 0x110000 := by
    unfold pairValue
    omega
  have hfirst : 0xD800 + (pairValue u v - 0x10000) / 0x400 = u.toNat := by
    unfold pairValue
    omega
  have hsecond : 0xDC00 + (pairValue u v - 0x10000) % 0x400 = v.toNat := by
    unfold pairValue
    omega
  refine ⟨⟨hscalar.2, by omega⟩, ?_⟩
  rw [utf16, if_neg (by omega), hfirst, hsecond, UInt16.ofNat_toNat, UInt16.ofNat_toNat]

theorem utf16_single (hhigh : ¬ IsHigh u) (hlow : ¬ IsLow u) :
    IsScalar u.toNat ∧ utf16 u.toNat = [u] := by
  have hlt := u.toNat_lt
  rw [IsHigh] at hhigh
  rw [IsLow] at hlow
  rw [IsScalar, utf16, if_pos (by omega), UInt16.ofNat_toNat]
  exact ⟨by omega, rfl⟩

theorem readUtf16_flatMap {cs : List ℕ} (hcs : ∀ c ∈ cs, IsScalar c) :
    readUtf16 (cs.flatMap utf16) = cs.map some := by
  induction cs with
  | nil => rfl
  | cons c cs ih =>
    obtain ⟨hc, hcs⟩ := forall_mem_cons.1 hcs
    rw [flatMap_cons, readUtf16_utf16 hc, ih hcs, map_cons]

/-- **A sequence of words is well-formed** when it is read without a lone surrogate. -/
theorem wellFormed16_iff (s : List UInt16) : WellFormed16 s ↔ none ∉ readUtf16 s := by
  constructor
  · rintro ⟨cs, hcs, rfl⟩
    rw [readUtf16_flatMap hcs]
    simp
  · intro h
    -- the cases are those of the reader: a pair, a lone surrogate, a word of its own
    induction s using readUtf16.induct with
    | case1 => exact ⟨[], by simp, rfl⟩
    | case2 u hu =>
      rw [readUtf16, if_pos hu] at h
      exact absurd mem_cons_self h
    | case3 u hu =>
      obtain ⟨hscalar, hword⟩ := utf16_single (not_or.1 hu).1 (not_or.1 hu).2
      exact ⟨[u.toNat], by simpa using hscalar, by rw [flatMap_singleton, hword]⟩
    | case4 u v us hu hv ih =>
      rw [readUtf16_high_low hu hv] at h
      obtain ⟨cs, hcs, rfl⟩ := ih fun hmem => h (mem_cons_of_mem _ hmem)
      obtain ⟨hscalar, hwords⟩ := utf16_pairValue hu hv
      refine ⟨pairValue u v :: cs, forall_mem_cons.2 ⟨hscalar, hcs⟩, ?_⟩
      rw [flatMap_cons, hwords, cons_append, cons_append, nil_append]
    | case5 u v us hu hv ih =>
      rw [readUtf16, if_pos hu, if_neg hv] at h
      exact absurd mem_cons_self h
    | case6 u v us hu hlow ih =>
      rw [readUtf16_low hlow] at h
      exact absurd mem_cons_self h
    | case7 u v us hu hlow ih =>
      rw [readUtf16_single hu hlow] at h
      obtain ⟨cs, hcs, hrest⟩ := ih fun hmem => h (mem_cons_of_mem _ hmem)
      obtain ⟨hscalar, hword⟩ := utf16_single hu hlow
      refine ⟨u.toNat :: cs, forall_mem_cons.2 ⟨hscalar, hcs⟩, ?_⟩
      rw [flatMap_cons, hword, ← hrest, cons_append, nil_append]

/-- The words of well-formed UTF-16 are at least a third of its bytes. -/
theorem length_flatMap_utf8_le (cs : List ℕ) :
    (cs.flatMap utf8).length ≤ 3 * (cs.flatMap utf16).length := by
  induction cs with
  | nil => simp
  | cons c cs ih =>
    have hc := length_utf8_le_three_mul c
    rw [flatMap_cons, flatMap_cons, length_append, length_append]
    omega

end Windivs

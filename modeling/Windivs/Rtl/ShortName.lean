import Mathlib.Tactic

/-!
# Short names

`RtlGenerate8dot3Name` of `sdk/lib/rtl/dos8dot3.c`. The name that the `k`-th call with a context
returns is known in closed form (`Windivs.ShortName.Request.nameOf_eq`): up to six characters of
the long name, from the fifth call on two of them and four digits of a checksum, then a tilde and
the number of the call. The characters are never taken back when the number grows, so the base is
too long from the fourteenth call on, and earlier for the names that get a checksum at once
(`Windivs.ShortName.Request.goodCall_iff`).
-/

namespace Windivs.ShortName

open List

/-! ### The code -/

/-- `RtlpShortIllegals`. -/
def rtlpShortIllegals : List UInt32 := [0xFFFFFFFF, 0xFC009C04, 0x38000000, 0x10000000]

/-- `RtlpIsShortIllegal`. -/
def rtlpIsShortIllegal (c : UInt16) : Bool :=
  c < 128 && (rtlpShortIllegals.getD (c.toNat / 32) 0).toNat.testBit (c.toNat % 32)

/-- The loop of `RtlpGetCheckSum`, with `Hash` and `Saved`. -/
def checkSumLoop (hash : UInt16) : List UInt16 → UInt16
  | [] => hash
  | [c] => (hash >>> 1) + (((hash <<< 7) + c) <<< 8)
  | c :: d :: rest => checkSumLoop ((hash >>> 1) + (((hash <<< 7) + c) <<< 8) + d) rest

/-- `RtlpGetCheckSum`. -/
def rtlpGetCheckSum : List UInt16 → UInt16
  | [] => 0
  | [c] => c
  | c :: d :: rest => checkSumLoop ((c <<< 8) + d) rest

/-- What a name is made from: the arguments of the call, and of the code page the characters that
are written with two bytes and what `RtlIsValidOemCharacter` makes of a character. -/
structure Request where
  name : List UInt16
  allowExtendedCharacters : Bool
  wide : UInt16 → Bool
  validOem : UInt16 → Option UInt16

/-- The four digits of a checksum. -/
def checkSumDigits (s : UInt16) : List UInt16 :=
  (range 4).map fun i =>
    let d := s.toNat / 16 ^ i % 16
    .ofNat (if 9 < d then d + 0x41 - 10 else d + 0x30)

/-- The index: at most seven digits. -/
def indexDigits (index : ℕ) : List UInt16 :=
  ((Nat.digits 10 index).take 7).reverse.map fun d => .ofNat (0x30 + d)

/-- `GENERATE_NAME_CONTEXT`, with the parts of the buffers that are in use. -/
structure GenerateNameContext where
  checkSumInserted : Bool
  nameBuffer : List UInt16
  extensionBuffer : List UInt16
  lastIndexValue : ℕ

namespace Request

variable (q : Request)

/-- What is copied for a character. -/
def shortChar (c : UInt16) : Option UInt16 :=
  if 0x20 < c ∧ c ≠ 0x2E then
    (if c < 127 then some c else if q.allowExtendedCharacters then q.validOem c else none).map
      fun c => if rtlpIsShortIllegal c then 0x5F else if 0x61 ≤ c ∧ c ≤ 0x7A then c - 0x20 else c
  else none

/-- The copy of the name, with `OemSizeLeft`. -/
def copyName : ℕ → List UInt16 → List UInt16
  | 0, _ => []
  | _, [] => []
  | left + 1, c :: cs =>
    match q.shortChar c with
    | none => copyName (left + 1) cs
    | some c =>
      if q.wide c then if left = 0 then [] else c :: copyName (left - 1) cs
      else c :: copyName left cs

/-- What follows the last dot of the name, from the end on. -/
def tail : List UInt16 := q.name.reverse.takeWhile (· ≠ 0x2E)

/-- The characters that are copied from before the last dot. -/
def kept : List UInt16 :=
  q.copyName 6 (q.name.take (if q.tail.length = q.name.length then q.name.length
    else q.name.length - q.tail.length - 1))

/-- The extension. Its last character is never replaced by a tilde, since `Char` is null after the
loop. -/
def extension : List UInt16 :=
  if q.tail.length = q.name.length then []
  else 0x2E :: (q.tail.reverse.filterMap q.shortChar).take 3

/-- The four digits that a name gets. -/
def checkSum : List UInt16 := checkSumDigits (rtlpGetCheckSum q.name)

/-- What the first call puts into the context. -/
def start (c : GenerateNameContext) : GenerateNameContext :=
  if q.kept.length ≤ 2 then
    ⟨true, q.kept ++ q.checkSum, q.extension, c.lastIndexValue⟩
  else ⟨c.checkSumInserted, q.kept, q.extension, c.lastIndexValue⟩

/-- The index is counted on, and the checksum comes in. -/
def advance (c : GenerateNameContext) : GenerateNameContext :=
  if 4 < c.lastIndexValue + 1 ∧ c.checkSumInserted = false then
    ⟨true, c.nameBuffer.take 2 ++ q.checkSum, c.extensionBuffer, 1⟩
  else { c with lastIndexValue := c.lastIndexValue + 1 }

/-- `RtlGenerate8dot3Name`: the context after the call, and `Name8dot3`. -/
def rtlGenerate8dot3Name (c : GenerateNameContext) : GenerateNameContext × List UInt16 :=
  let c := q.advance (if c.nameBuffer = [] then q.start c else c)
  (c, c.nameBuffer ++ 0x7E :: indexDigits c.lastIndexValue ++ c.extensionBuffer)

/-- The context after some calls, from a zeroed one on. -/
def context : ℕ → GenerateNameContext
  | 0 => ⟨false, [], [], 0⟩
  | k + 1 => (q.rtlGenerate8dot3Name (context k)).1

/-- The name that the `k`-th call returns. -/
def nameOf (k : ℕ) : List UInt16 := (q.rtlGenerate8dot3Name (q.context (k - 1))).2

end Request

/-! ### What a short name is -/

/-- The characters of `Illegal` in `RtlIsNameLegalDOS8Dot3`. -/
def illegal : List UInt16 :=
  [0x2A, 0x3F, 0x3C, 0x3E, 0x7C, 0x22, 0x2B, 0x3D, 0x2C, 0x3B, 0x5B, 0x5D, 0x3A, 0x2F, 0x5C,
    0xE5]

/-- A character that is legal in a short name. -/
def Legal (c : UInt16) : Prop :=
  0x20 < c ∧ c < 0x7F ∧ c ≠ 0x2E ∧ c ∉ illegal ∧ ¬ (0x61 ≤ c ∧ c ≤ 0x7A)

instance (c : UInt16) : Decidable (Legal c) := inferInstanceAs (Decidable (_ ∧ _))

/-- **A short name**: a base of one to eight characters, and at most three behind a dot. -/
structure IsShortName (s : List UInt16) : Prop where
  base_pos : 1 ≤ (s.takeWhile (· ≠ 0x2E)).length
  base_le : (s.takeWhile (· ≠ 0x2E)).length ≤ 8
  legal_base : ∀ c ∈ s.takeWhile (· ≠ 0x2E), Legal c
  extension_le : (s.dropWhile (· ≠ 0x2E)).tail.length ≤ 3
  legal_extension : ∀ c ∈ (s.dropWhile (· ≠ 0x2E)).tail, Legal c

namespace Request

/-- **A call does what it is for**: it returns a short name that no earlier call has returned. -/
def GoodCall (q : Request) (k : ℕ) : Prop :=
  IsShortName (q.nameOf k) ∧ ∀ j, 1 ≤ j → j < k → q.nameOf j ≠ q.nameOf k

/-! ### The calls in closed form -/

variable {q : Request}

/-- What stands before the tilde in the name of a call. -/
def stem (q : Request) (k : ℕ) : List UInt16 :=
  if q.kept.length ≤ 2 ∨ 4 < k then q.kept.take 2 ++ q.checkSum
  else q.kept

/-- The number in the name of a call. -/
def number (q : Request) (k : ℕ) : ℕ := if 2 < q.kept.length ∧ 4 < k then k - 4 else k

theorem length_checkSum : q.checkSum.length = 4 := by
  simp [checkSum, checkSumDigits]

theorem length_copyName_le (left : ℕ) (cs : List UInt16) : (q.copyName left cs).length ≤ left := by
  fun_induction copyName q left cs <;> simp_all
  omega

theorem stem_ne_nil (k : ℕ) : q.stem k ≠ [] := by
  intro h
  have hlength := congrArg length h
  rw [stem] at hlength
  split at hlength
  · simp [length_checkSum] at hlength
  · rw [length_nil] at hlength
    omega

/-- The first four calls, if no checksum comes in at once. -/
theorem stem_first {k : ℕ} (hlong : 2 < q.kept.length) (hk : k ≤ 4) :
    q.stem k = q.kept ∧ q.number k = k :=
  ⟨if_neg (by omega), if_neg (by omega)⟩

/-- The calls after them. -/
theorem stem_later {k : ℕ} (hlong : 2 < q.kept.length) (hk : 4 < k) :
    q.stem k = q.kept.take 2 ++ q.checkSum ∧ q.number k = k - 4 :=
  ⟨if_pos (.inr hk), if_pos ⟨hlong, hk⟩⟩

theorem number_le (k : ℕ) : q.number k ≤ k := by
  rw [number]
  split <;> omega

/-- **The context after a call**, by induction over the calls. -/
theorem context_succ (k : ℕ) :
    q.context (k + 1) =
      ⟨decide (q.kept.length ≤ 2 ∨ 4 < k + 1), q.stem (k + 1), q.extension, q.number (k + 1)⟩ := by
  induction k with
  | zero =>
    rw [context, context, rtlGenerate8dot3Name, start]
    by_cases hshort : q.kept.length ≤ 2
    · simp [hshort, advance, stem, number, take_of_length_le]
    · simp [hshort, advance, stem, number]
  | succ k ih =>
    rw [context, ih, rtlGenerate8dot3Name, if_neg (stem_ne_nil _), advance]
    by_cases hshort : q.kept.length ≤ 2
    · simp [hshort, stem, number, not_lt.2 hshort]
    · have hlong := not_le.1 hshort
      -- the checksum comes in with the fifth call
      rcases lt_trichotomy k 3 with hlt | rfl | hgt
      · simp [hshort, hlong, stem, number, show ¬ 4 ≤ k by omega, show ¬ 3 ≤ k by omega]
      · simp [hshort, hlong, stem, number]
      · simp [hshort, hlong, stem, number, show 4 ≤ k by omega, show 3 ≤ k by omega]
        omega

/-- **The name of a call.** -/
theorem nameOf_eq {k : ℕ} (hk : 1 ≤ k) :
    q.nameOf k = q.stem k ++ 0x7E :: indexDigits (q.number k) ++ q.extension := by
  obtain ⟨k, rfl⟩ := Nat.exists_eq_add_of_le' hk
  have hcontext := @context_succ q k
  rw [context] at hcontext
  rw [nameOf, Nat.add_sub_cancel, rtlGenerate8dot3Name]
  rw [rtlGenerate8dot3Name] at hcontext
  dsimp only at hcontext ⊢
  rw [hcontext]

/-! ### The characters -/

theorem legal_checkSum : ∀ c ∈ q.checkSum, Legal c := by
  have hall : ∀ d < 16, Legal (.ofNat (if 9 < d then d + 0x41 - 10 else d + 0x30)) := by decide
  intro c hc
  obtain ⟨i, -, rfl⟩ := mem_map.1 hc
  exact hall _ (Nat.mod_lt _ (by decide))

theorem mem_digits_take {n d : ℕ} (hd : d ∈ ((Nat.digits 10 n).take 7).reverse) : d < 10 :=
  Nat.digits_lt_base (by decide) (mem_of_mem_take (mem_reverse.1 hd))

theorem legal_indexDigits (n : ℕ) : ∀ c ∈ indexDigits n, Legal c := by
  have hall : ∀ d < 10, Legal (.ofNat (0x30 + d)) := by decide
  intro c hc
  obtain ⟨d, hd, rfl⟩ := mem_map.1 hc
  exact hall d (mem_digits_take hd)

theorem length_indexDigits_le {n d : ℕ} (hd : d < 7) : (indexDigits n).length ≤ d ↔ n < 10 ^ d := by
  rw [indexDigits, length_map, length_reverse, length_take, min_le_iff,
    Nat.digits_length_le_iff (by decide)]
  exact or_iff_right (by omega)

theorem length_indexDigits {n : ℕ} (hpos : 0 < n) (hlt : n < 10) : (indexDigits n).length = 1 := by
  rw [indexDigits, Nat.digits_of_lt 10 n hpos.ne' hlt]
  rfl

theorem indexDigits_inj {n m : ℕ} (hn : n < 10 ^ 7) (hm : m < 10 ^ 7)
    (h : indexDigits n = indexDigits m) : n = m := by
  -- the digits can be read back
  have hback : ∀ n < 10 ^ 7,
      (indexDigits n).map (fun c => c.toNat - 0x30) = (Nat.digits 10 n).reverse := by
    intro n hn
    have hlength := (Nat.digits_length_le_iff (b := 10) (k := 7) (by decide) n).2 hn
    rw [indexDigits, map_map, map_congr_left (g := id) ?_, map_id,
      take_of_length_le hlength]
    intro d hd
    have hlt := mem_digits_take hd
    rw [Function.comp_apply, UInt16.toNat_ofNat', Nat.mod_eq_of_lt (by omega),
      Nat.add_sub_cancel_left, id]
  have hdigits := (hback n hn).symm.trans ((congrArg _ h).trans (hback m hm))
  exact Nat.digits_inj_iff.1 (reverse_injective hdigits)

section

variable (hq : q.allowExtendedCharacters = false)
include hq

theorem legal_shortChar {c d : UInt16} (hd : q.shortChar c = some d) : Legal d := by
  -- what becomes of the characters that are kept, one by one
  have hall : ∀ n < 127, 0x20 < UInt16.ofNat n → UInt16.ofNat n ≠ 0x2E →
      Legal (if rtlpIsShortIllegal (.ofNat n) then 0x5F
        else if 0x61 ≤ UInt16.ofNat n ∧ UInt16.ofNat n ≤ 0x7A then .ofNat n - 0x20
        else .ofNat n) := by
    decide
  rw [shortChar] at hd
  split at hd
  · next hc =>
    split at hd
    · next hlt =>
      have h := hall c.toNat (UInt16.lt_iff_toNat_lt.1 hlt)
      rw [UInt16.ofNat_toNat] at h
      exact Option.some.inj hd ▸ h hc.1 hc.2
    · simp [hq] at hd
  · cases hd

theorem legal_copyName (left : ℕ) (cs : List UInt16) : ∀ c ∈ q.copyName left cs, Legal c := by
  fun_induction copyName q left cs with
  | case1 => simp
  | case2 => simp
  | case3 left c cs hnone ih => exact ih
  | case4 => simp
  | case5 left c cs d hsome hwide hleft ih =>
    exact forall_mem_cons.2 ⟨legal_shortChar hq hsome, ih⟩
  | case6 left c cs d hsome hwide ih =>
    exact forall_mem_cons.2 ⟨legal_shortChar hq hsome, ih⟩

theorem legal_stem (k : ℕ) : ∀ c ∈ q.stem k, Legal c := by
  have hkept : ∀ c ∈ q.kept, Legal c := legal_copyName hq 6 _
  intro c hc
  rw [stem] at hc
  split at hc
  · rcases mem_append.1 hc with hc | hc
    · exact hkept c (mem_of_mem_take hc)
    · exact legal_checkSum c hc
  · exact hkept c hc

/-! ### The names -/

/-- A name is split at the dot of its extension. -/
theorem split_nameOf {k : ℕ} (hk : 1 ≤ k) :
    (q.nameOf k).takeWhile (· ≠ 0x2E) = q.stem k ++ 0x7E :: indexDigits (q.number k) ∧
      (q.nameOf k).dropWhile (· ≠ 0x2E) = q.extension ∧
      ∀ c ∈ q.stem k ++ 0x7E :: indexDigits (q.number k), Legal c := by
  have hlegal : ∀ c ∈ q.stem k ++ 0x7E :: indexDigits (q.number k), Legal c := by
    intro c hc
    rcases mem_append.1 hc with hc | hc
    · exact legal_stem hq k c hc
    · rcases mem_cons.1 hc with rfl | hc
      · decide
      · exact legal_indexDigits _ c hc
  have hdot : ∀ c ∈ q.stem k ++ 0x7E :: indexDigits (q.number k), decide (c ≠ 0x2E) = true :=
    fun c hc => decide_eq_true (hlegal c hc).2.2.1
  rw [nameOf_eq hk, takeWhile_append_of_pos hdot, dropWhile_append_of_pos hdot,
    extension, ← and_assoc]
  refine ⟨?_, hlegal⟩
  split <;> simp

theorem isShortName_iff {k : ℕ} (hk : 1 ≤ k) :
    IsShortName (q.nameOf k) ↔ (q.stem k).length + (indexDigits (q.number k)).length ≤ 7 := by
  obtain ⟨htake, hdrop, hlegal⟩ := split_nameOf hq hk
  have hlength : (q.stem k ++ 0x7E :: indexDigits (q.number k)).length =
      (q.stem k).length + (indexDigits (q.number k)).length + 1 := by
    rw [length_append, length_cons, Nat.add_assoc]
  constructor
  · intro h
    have hle := h.base_le
    rw [htake] at hle
    omega
  · intro h
    refine ⟨by rw [htake]; omega, by rw [htake]; omega, htake ▸ hlegal, ?_, ?_⟩
    · rw [hdrop, extension]
      split <;> simp
    · rw [hdrop, extension]
      split
      · simp
      · intro c hc
        obtain ⟨d, -, hd⟩ := mem_filterMap.1 (mem_of_mem_take hc)
        exact legal_shortChar hq hd

omit hq in
/-- Names with as many characters before the tilde, or as many digits, are equal only if both
parts are. -/
theorem nameOf_inj {j k : ℕ} (hj : 1 ≤ j) (hjk : j < k) (hlt : k < 10 ^ 6)
    (hlength : (q.stem j).length = (q.stem k).length ∨
      (indexDigits (q.number j)).length = (indexDigits (q.number k)).length) :
    q.nameOf j = q.nameOf k ↔ q.stem j = q.stem k ∧ q.number j = q.number k := by
  have hlt_j := (number_le (q := q) j).trans_lt (show j < 10 ^ 7 by omega)
  have hlt_k := (number_le (q := q) k).trans_lt (show k < 10 ^ 7 by omega)
  rw [nameOf_eq hj, nameOf_eq (by omega), append_left_inj]
  constructor
  · intro h
    have hsplit : q.stem j = q.stem k ∧
        0x7E :: indexDigits (q.number j) = 0x7E :: indexDigits (q.number k) := by
      rcases hlength with hlength | hlength
      · exact append_inj h hlength
      · exact append_inj' h (by rw [length_cons, length_cons, hlength])
    exact ⟨hsplit.1, indexDigits_inj hlt_j hlt_k (cons.inj hsplit.2).2⟩
  · rintro ⟨hstem, hnumber⟩
    rw [hstem, hnumber]

/-- A name with the checksum from the first call on. -/
theorem goodCall_iff_of_short {k : ℕ} (hk : 1 ≤ k) (hlt : k < 10 ^ 6)
    (hshort : q.kept.length ≤ 2) : q.GoodCall k ↔ k < 10 ^ (3 - q.kept.length) := by
  have hstem : ∀ j, q.stem j = q.kept.take 2 ++ q.checkSum := fun j => if_pos (.inl hshort)
  have hnum : ∀ j, q.number j = j := fun j => if_neg (by omega)
  rw [GoodCall, isShortName_iff hq hk, ← length_indexDigits_le (by omega), hstem, hnum,
    length_append, length_checkSum, length_take, min_eq_right hshort]
  refine ⟨fun h => by omega, fun h => ⟨by omega, fun j hj hjk heq => ?_⟩⟩
  rw [nameOf_inj hj hjk hlt (.inl (by rw [hstem, hstem])), hnum, hnum] at heq
  omega

theorem goodCall_of_le_four {k : ℕ} (hk : 1 ≤ k) (hlong : 2 < q.kept.length) (hk4 : k ≤ 4) :
    q.GoodCall k := by
  have hkept : q.kept.length ≤ 6 := length_copyName_le 6 _
  have hlength := length_indexDigits (n := k) hk (by omega)
  obtain ⟨hstem, hnum⟩ := stem_first hlong hk4
  rw [GoodCall, isShortName_iff hq hk, hstem, hnum]
  refine ⟨by omega, fun j hj hjk heq => ?_⟩
  obtain ⟨hstem', hnum'⟩ := stem_first (k := j) hlong (by omega)
  rw [nameOf_inj hj hjk (by omega) (.inl (by rw [hstem, hstem']))] at heq
  omega

/-- The checksum leaves room for one digit. A name of six characters that has the checksum itself
in their place comes back after four calls. -/
theorem goodCall_iff_of_four_lt {k : ℕ} (hlt : k < 10 ^ 6) (hlong : 2 < q.kept.length)
    (hk4 : 4 < k) : q.GoodCall k ↔ k ≤ 13 ∧ (k ≤ 8 → q.kept.drop 2 ≠ q.checkSum) := by
  obtain ⟨hstem, hnum⟩ := stem_later hlong hk4
  have hfits : (q.stem k).length + (indexDigits (q.number k)).length ≤ 7 ↔ k ≤ 13 := by
    have h := @length_indexDigits_le (k - 4) 1 (by decide)
    rw [hstem, hnum, length_append, length_checkSum, length_take]
    omega
  rw [GoodCall, isShortName_iff hq (by omega), hfits]
  refine and_congr_right fun h13 => ⟨fun hnew h8 heq => ?_, fun hother j hj hjk heq => ?_⟩
  · obtain ⟨hstem', hnum'⟩ := stem_first (k := k - 4) hlong (by omega)
    have hsame : q.stem (k - 4) = q.stem k := by
      rw [hstem, hstem', ← heq, take_append_drop]
    exact hnew _ (by omega) (by omega) ((nameOf_inj (by omega) (by omega) hlt
      (.inl (congrArg _ hsame))).2 ⟨hsame, hnum'.trans hnum.symm⟩)
  · rcases le_or_gt j 4 with hj4 | hj4
    · obtain ⟨hstem', hnum'⟩ := stem_first hlong hj4
      have hdigits : (indexDigits (q.number j)).length = (indexDigits (q.number k)).length := by
        rw [length_indexDigits (by omega) (by omega), length_indexDigits (by omega) (by omega)]
      obtain ⟨hsame, hindex⟩ := (nameOf_inj hj hjk hlt (.inr hdigits)).1 heq
      refine hother (by omega) ?_
      rw [hstem, hstem'] at hsame
      exact append_cancel_left ((take_append_drop 2 _).trans hsame)
    · obtain ⟨hstem', hnum'⟩ := stem_later hlong hj4
      rw [nameOf_inj hj hjk hlt (.inl (by rw [hstem, hstem']))] at heq
      omega

end

/-- **A call returns a new short name if and only if** its number still fits behind what stands
before the tilde; and in the first four calls with the checksum, if the characters it takes the
place of were others. -/
theorem goodCall_iff (q : Request) (hq : q.allowExtendedCharacters = false) (k : ℕ) (hk : 1 ≤ k)
    (hlt : k < 10 ^ 6) :
    q.GoodCall k ↔
      if q.kept.length ≤ 2 then k < 10 ^ (3 - q.kept.length)
      else k ≤ 13 ∧ (5 ≤ k → k ≤ 8 → q.kept.drop 2 ≠ q.checkSum) := by
  by_cases hshort : q.kept.length ≤ 2
  · rw [if_pos hshort, goodCall_iff_of_short hq hk hlt hshort]
  · rw [if_neg hshort]
    rcases le_or_gt k 4 with hk4 | hk4
    · exact iff_of_true (goodCall_of_le_four hq hk (not_le.1 hshort) hk4) ⟨by omega, by omega⟩
    · rw [goodCall_iff_of_four_lt hq hlt (not_le.1 hshort) hk4]
      exact and_congr_right fun _ => ⟨fun h _ => h, fun h => h hk4⟩

/-- `abc.txt`, in a code page of single bytes. -/
def abcTxt : Request :=
  ⟨[0x61, 0x62, 0x63, 0x2E, 0x74, 0x78, 0x74], false, fun _ => false, fun _ => none⟩

/-- The fifth name is the first one with a checksum. -/
theorem goodCall_fifth : abcTxt.GoodCall 5 :=
  (goodCall_iff _ rfl 5 (by decide) (by decide)).2 (by decide)

/-- The fourteenth has nine characters before the dot. -/
theorem not_goodCall_fourteenth : ¬abcTxt.GoodCall 14 := by
  rintro ⟨hname, -⟩
  have hle := (isShortName_iff rfl (by decide)).1 hname
  have hdigits := @length_indexDigits_le 10 1 (by decide)
  have hstem : (abcTxt.stem 14).length = 6 := by decide
  have hnumber : abcTxt.number 14 = 10 := by decide
  rw [hnumber] at hle
  omega

end Request

end Windivs.ShortName

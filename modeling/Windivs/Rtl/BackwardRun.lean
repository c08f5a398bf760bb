import Windivs.Rtl.Bitmap

/-!
# The last clear run before an index

`RtlFindLastBackwardRunClear` reads the words of a bitmap backwards, twice: inverted, down to the
last clear bit that is not behind the given index, and from there as they are, down to the last set
bit before it. Both loops are `Windivs.RtlBitmap.skipZeroWordsBack`, and
`Windivs.RtlBitmap.ScannedBack.skip` says what either of them finds.

The routine sets the start of the run, but what it returns is the distance from the start to the
last bit, one less than the number of bits. `Windivs.RtlBitmap.backwardRunExact_iff` says that the
result is the length of the run only where there is none.
-/

namespace Windivs

open List

namespace RtlBitmap

variable {w : ℕ}

/-! ### The routine -/

/-- `BitScanReverse`: the highest set bit of a word. -/
def bitScanReverse (v : BitVec w) : ℕ :=
  ((range w).reverse.find? fun i => v.getLsbD i).getD 0

/-- The two loops of the routine: read back, until a value is not zero or no word is left before
word `k`. The result is the last value read and its place. -/
def skipZeroWordsBack (bm : RtlBitmap w) (f : BitVec w → BitVec w) :
    ℕ → BitVec w → BitVec w × ℕ
  | 0, value => (value, 0)
  | k + 1, value =>
    if value = 0 then bm.skipZeroWordsBack f k (f (bm.word k)) else (value, k + 1)

/-- `<< n >> n`: the bits that are left of a word without its highest `n` bits. -/
def keepLow (v : BitVec w) (n : ℕ) : BitVec w := v <<< n >>> n

/-- `min(FromIndex, BitMapHeader->SizeOfBitMap - 1)`, where the difference has the width of an
index. -/
def searchFrom (bm : RtlBitmap w) (fromIndex : ℕ) : ℕ :=
  min fromIndex ((bm.sizeOfBitMap + 2 ^ w - 1) % 2 ^ w)

/-- `RtlFindLastBackwardRunClear`: what is stored at `StartingRunIndex`, if anything, and the
result. -/
def rtlFindLastBackwardRunClear (bm : RtlBitmap w) (fromIndex : ℕ) : Option ℕ × ℕ :=
  let fromIndex := bm.searchFrom fromIndex
  let bitPos := (w - 1) - fromIndex % w
  let (invValue, k) := bm.skipZeroWordsBack (~~~ ·) (fromIndex / w)
    (keepLow (~~~ bm.word (fromIndex / w)) bitPos)
  if invValue = 0 then (none, 0)
  else
    let bitPos := bitScanReverse invValue
    let fromIndex := k * w + bitPos
    let (value, k) := bm.skipZeroWordsBack id k (keepLow (~~~ invValue) (w - 1 - bitPos))
    let startingRunIndex := if value ≠ 0 then k * w + bitScanReverse value + 1 else 0
    (some startingRunIndex, fromIndex - startingRunIndex)

/-! ### Reading back -/

theorem bitScanReverse_spec {v : BitVec w} (hv : v ≠ 0) :
    bitScanReverse v < w ∧ v.getLsbD (bitScanReverse v) = true ∧
      ∀ r, bitScanReverse v < r → v.getLsbD r = false := by
  obtain ⟨b, hb⟩ : ∃ b, (range w).reverse.find? (fun i => v.getLsbD i) = some b := by
    rw [← Option.isSome_iff_exists, find?_isSome]
    by_contra hno
    refine hv (BitVec.eq_of_getLsbD_eq fun i hi => ?_)
    simp only [mem_reverse, mem_range, not_exists, not_and] at hno
    simp [hno i hi]
  rw [bitScanReverse, hb, Option.getD_some]
  obtain ⟨hbit, as, bs, happend, has⟩ := find?_eq_some_iff_append.1 hb
  have hmem : b ∈ (range w).reverse := mem_of_find?_eq_some hb
  have hsorted : (as ++ b :: bs).Pairwise (· > ·) := by
    rw [← happend, pairwise_reverse]
    exact pairwise_lt_range
  refine ⟨by simpa using hmem, hbit, fun r hr => ?_⟩
  by_cases hrw : r < w
  · have hr' : r ∈ as ++ b :: bs := by
      rw [← happend]
      simpa using hrw
    rcases mem_append.1 hr' with hra | hrb
    · simpa using has r hra
    · rw [pairwise_append, pairwise_cons] at hsorted
      rcases mem_cons.1 hrb with rfl | hrb
      · omega
      · have := hsorted.2.1.1 r hrb
        omega
  · exact BitVec.getLsbD_of_ge v r (by omega)

theorem getLsbD_keepLow (v : BitVec w) {n : ℕ} (hn : n < w) (r : ℕ) :
    (keepLow v (w - 1 - n)).getLsbD r = (v.getLsbD r && decide (r ≤ n)) := by
  rw [keepLow, BitVec.getLsbD_ushiftRight, BitVec.getLsbD_shiftLeft, Nat.add_sub_cancel_left]
  have hlow : ¬ w - 1 - n + r < w - 1 - n := by omega
  by_cases hrn : r ≤ n
  · simp [hlow, hrn, show w - 1 - n + r < w by omega]
  · simp [hrn, show ¬ w - 1 - n + r < w by omega]

/-- What a loop knows after reading word `q`: nothing stops it between the end of the word and the
index it started at, and `value` has the stopping bits of the word, those behind the index
removed. -/
structure ScannedBack (f : BitVec w → BitVec w) (bm : RtlBitmap w) (e : ℕ) (value : BitVec w)
    (q : ℕ) : Prop where
  start : q * w ≤ e
  behind : ∀ i, (q + 1) * w ≤ i → i ≤ e → stopBit f bm i = false
  bits : ∀ r, r < w → value.getLsbD r = (stopBit f bm (q * w + r) && decide (q * w + r ≤ e))

variable {f : BitVec w → BitVec w} {bm : RtlBitmap w} {e q : ℕ} {value : BitVec w}

/-- A word without stopping bits: nothing stops the loop from its start on. -/
theorem ScannedBack.none_in_word (h : ScannedBack f bm e 0 q) {i : ℕ} (hq : q * w ≤ i)
    (hi : i ≤ e) : stopBit f bm i = false := by
  by_cases hlast : (q + 1) * w ≤ i
  · exact h.behind i hlast hi
  · rw [Nat.add_mul] at hlast
    obtain ⟨r, rfl⟩ : ∃ r, i = q * w + r := ⟨i - q * w, by omega⟩
    have hbit := h.bits r (by omega)
    simpa [hi] using hbit

/-- Such a word lets the loop through to the word before. -/
theorem ScannedBack.next (h : ScannedBack f bm e 0 (q + 1)) :
    ScannedBack f bm e (f (bm.word q)) q := by
  have hstart := h.start
  rw [Nat.add_mul] at hstart
  refine ⟨by omega, fun i hi hie => h.none_in_word hi hie, fun r hr => ?_⟩
  rw [stopBit_mul_add f bm q hr, decide_eq_true (by omega), Bool.and_true]

/-- The last index up to `e` at which a loop stops. -/
def IsLastStop (f : BitVec w → BitVec w) (bm : RtlBitmap w) (e x : ℕ) : Prop :=
  x ≤ e ∧ stopBit f bm x = true ∧ ∀ i, x < i → i ≤ e → stopBit f bm i = false

/-- The highest bit of a word that is not zero is where the loop stops. -/
theorem ScannedBack.isLastStop (h : ScannedBack f bm e value q) (hvalue : value ≠ 0) :
    IsLastStop f bm e (q * w + bitScanReverse value) := by
  obtain ⟨hw, hbit, hhigh⟩ := bitScanReverse_spec hvalue
  have hstop := h.bits _ hw
  rw [hbit, eq_comm, Bool.and_eq_true, decide_eq_true_eq] at hstop
  refine ⟨hstop.2, hstop.1, fun i hi hie => ?_⟩
  by_cases hlast : (q + 1) * w ≤ i
  · exact h.behind i hlast hie
  · rw [Nat.add_mul] at hlast
    obtain ⟨r, rfl⟩ : ∃ r, i = q * w + r := ⟨i - q * w, by omega⟩
    have hr := h.bits r (by omega)
    rw [hhigh r (by omega)] at hr
    simpa [hie] using hr

/-- **What a loop finds**: a word with the last stopping bit, or that there is none. -/
theorem ScannedBack.skip (h : ScannedBack f bm e value q) :
    ((bm.skipZeroWordsBack f q value).1 = 0 → ∀ i ≤ e, stopBit f bm i = false) ∧
      ScannedBack f bm e (bm.skipZeroWordsBack f q value).1
        (bm.skipZeroWordsBack f q value).2 := by
  induction q generalizing value with
  | zero =>
    refine ⟨fun hzero i hi => ?_, h⟩
    subst hzero
    exact h.none_in_word (by omega) hi
  | succ q ih =>
    rw [skipZeroWordsBack]
    split
    case isTrue hzero =>
      subst hzero
      exact ih h.next
    case isFalse hne => exact ⟨fun hzero => absurd hzero hne, h⟩

/-! ### The last clear run -/

/-- The first loop starts at the given index. -/
theorem scannedBack_not (hw : 0 < w) (bm : RtlBitmap w) (e : ℕ) :
    ScannedBack (~~~ ·) bm e (keepLow (~~~ bm.word (e / w)) (w - 1 - e % w)) (e / w) := by
  have he := Nat.div_add_mod' e w
  have hlt := Nat.mod_lt e hw
  refine ⟨by omega, fun i hi hie => ?_, fun r hr => ?_⟩
  · rw [Nat.add_mul] at hi
    omega
  · rw [stopBit_mul_add _ bm _ hr, getLsbD_keepLow _ hlt r]
    congr 2
    exact propext (by omega)

/-- The second loop starts at the bit where the first one has stopped. -/
theorem ScannedBack.scannedBack_id {invValue : BitVec w}
    (h : ScannedBack (~~~ ·) bm e invValue q) (hne : invValue ≠ 0) :
    ScannedBack id bm (q * w + bitScanReverse invValue)
      (keepLow (~~~ invValue) (w - 1 - bitScanReverse invValue)) q := by
  obtain ⟨hw, -, -⟩ := bitScanReverse_spec hne
  have hle := (h.isLastStop hne).1
  refine ⟨by omega, fun i hi hie => ?_, fun r hr => ?_⟩
  · rw [Nat.add_mul] at hi
    omega
  · rw [getLsbD_keepLow _ hw r]
    by_cases hrb : r ≤ bitScanReverse invValue
    · have hbit := h.bits r hr
      rw [decide_eq_true (by omega), stopBit_mul_add _ bm _ hr] at hbit
      rw [stopBit_mul_add _ bm _ hr, BitVec.getLsbD_not, hbit]
      simp [hr]
    · simp [hrb]

/-- **The last clear run up to an index** `top`: its last bit `e` is the last clear one, and `s` is
the first index from which on all bits up to `e` are clear. -/
structure LastClearRun (b : ℕ → Bool) (top s e : ℕ) : Prop where
  le_top : e ≤ top
  last : ∀ i, e < i → i ≤ top → b i = true
  start_le : s ≤ e
  clear : ∀ i, s ≤ i → i ≤ e → b i = false
  first : ∀ k < s, ∃ i, k ≤ i ∧ i ≤ e ∧ b i = true

/-- Without a clear bit nothing is stored. -/
theorem rtlFindLastBackwardRunClear_none (hw : 0 < w) (bm : RtlBitmap w) (fromIndex : ℕ)
    (h : ∀ i ≤ bm.searchFrom fromIndex, bm.rtlTestBit i = true) :
    bm.rtlFindLastBackwardRunClear fromIndex = (none, 0) := by
  have hscan := (scannedBack_not hw bm (bm.searchFrom fromIndex)).skip
  refine if_pos ?_
  by_contra hne
  obtain ⟨hle, hstop, -⟩ := hscan.2.isLastStop hne
  rw [stopBit_not bm hw, h _ hle] at hstop
  cases hstop

/-- **What the routine finds**: the last clear run. The result is the distance between its ends. -/
theorem rtlFindLastBackwardRunClear_some (hw : 0 < w) (bm : RtlBitmap w) (fromIndex : ℕ) {i : ℕ}
    (hi : i ≤ bm.searchFrom fromIndex) (hclear : bm.rtlTestBit i = false) :
    ∃ s e, LastClearRun bm.rtlTestBit (bm.searchFrom fromIndex) s e ∧
      bm.rtlFindLastBackwardRunClear fromIndex = (some s, e - s) := by
  obtain ⟨hnone, hscan⟩ := (scannedBack_not hw bm (bm.searchFrom fromIndex)).skip
  rw [rtlFindLastBackwardRunClear]
  dsimp only
  generalize bm.skipZeroWordsBack (~~~ ·) _ _ = first at hnone hscan ⊢
  obtain ⟨invValue, k⟩ := first
  have hne : invValue ≠ 0 := by
    intro hzero
    have hstop := hnone hzero i hi
    rw [stopBit_not bm hw, hclear] at hstop
    cases hstop
  obtain ⟨hle, hstop, hlast⟩ := hscan.isLastStop hne
  obtain ⟨hnone', hscan'⟩ := (hscan.scannedBack_id hne).skip
  simp only [stopBit_not bm hw, Bool.not_eq_true', Bool.not_eq_false'] at hstop hlast
  rw [if_neg hne]
  generalize bm.skipZeroWordsBack id _ _ = second at hnone' hscan' ⊢
  generalize k * w + bitScanReverse invValue = e at *
  obtain ⟨value, k'⟩ := second
  by_cases hvalue : value = 0
  · exact ⟨0, e, ⟨hle, hlast, Nat.zero_le e, fun i _ hie => hnone' hvalue i hie, by simp⟩,
      by simp [hvalue]⟩
  · obtain ⟨hle', hstop', hlast'⟩ := hscan'.isLastStop hvalue
    simp only [stopBit_id] at hstop' hlast'
    generalize k' * w + bitScanReverse value = x at *
    have hxe : x ≠ e := by
      rintro rfl
      rw [hstop] at hstop'
      cases hstop'
    refine ⟨x + 1, e, ⟨hle, hlast, by omega, fun i hi hie => hlast' i (by omega) hie,
      fun k hk => ⟨x, by omega, hle', hstop'⟩⟩, ?_⟩
    rw [if_pos hvalue]

/-- What is asked of `RtlFindLastBackwardRunClear`: zero if there is no clear bit up to the index,
and the start and the length of the last clear run otherwise. -/
def BackwardRunExact (bm : RtlBitmap w) (fromIndex : ℕ) : Prop :=
  ((∀ i ≤ min fromIndex (bm.sizeOfBitMap - 1), bm.rtlTestBit i = true) →
    (bm.rtlFindLastBackwardRunClear fromIndex).2 = 0) ∧
  ∀ s e, LastClearRun bm.rtlTestBit (min fromIndex (bm.sizeOfBitMap - 1)) s e →
    bm.rtlFindLastBackwardRunClear fromIndex = (some s, e - s + 1)

/-- **The result is right only where no bit is clear** up to the index. -/
theorem backwardRunExact_iff (bm : RtlBitmap 32) (hpos : 0 < bm.sizeOfBitMap)
    (hsize : bm.sizeOfBitMap < 2 ^ 32) (fromIndex : ℕ) :
    bm.BackwardRunExact fromIndex ↔
      ∀ i ≤ min fromIndex (bm.sizeOfBitMap - 1), bm.rtlTestBit i = true := by
  have hw : 0 < 32 := by decide
  have hfrom : bm.searchFrom fromIndex = min fromIndex (bm.sizeOfBitMap - 1) := by
    rw [searchFrom, show (bm.sizeOfBitMap + 2 ^ 32 - 1) % 2 ^ 32 = bm.sizeOfBitMap - 1 by omega]
  rw [BackwardRunExact, ← hfrom]
  constructor
  · intro hexact i hi
    by_contra hclear
    rw [Bool.not_eq_true] at hclear
    obtain ⟨s, e, hrun, heq⟩ := rtlFindLastBackwardRunClear_some hw bm fromIndex hi hclear
    have hlength := heq.symm.trans (hexact.2 s e hrun)
    rw [Prod.mk.injEq] at hlength
    omega
  · intro hset
    refine ⟨fun _ => by rw [rtlFindLastBackwardRunClear_none hw bm fromIndex hset], ?_⟩
    intro s e hrun
    have hclear := hrun.clear e hrun.start_le le_rfl
    rw [hset e hrun.le_top] at hclear
    cases hclear

/-- A byte whose bits are all set. -/
theorem backwardRunExact_byte :
    (0 < (RtlBitmap.mk 8 [0xFF#32]).sizeOfBitMap ∧
      (RtlBitmap.mk 8 [0xFF#32]).sizeOfBitMap < 2 ^ 32) ∧
      (RtlBitmap.mk 8 [0xFF#32]).BackwardRunExact 7 :=
  ⟨by decide, (backwardRunExact_iff ⟨8, [0xFF#32]⟩ (by decide) (by decide) 7).2 (by decide)⟩

/-- **The four clear bits of the byte `0b00001111`** are counted as three. -/
theorem four_clear_bits_counted_three :
    LastClearRun (RtlBitmap.mk 8 [0x0F#32]).rtlTestBit 7 4 7 ∧
      (RtlBitmap.mk 8 [0x0F#32]).rtlFindLastBackwardRunClear 7 = (some 4, 3) ∧
      ¬ (RtlBitmap.mk 8 [0x0F#32]).BackwardRunExact 7 := by
  have hrun : LastClearRun (RtlBitmap.mk 8 [0x0F#32]).rtlTestBit 7 4 7 := by
    refine ⟨le_rfl, fun i hi hi' => by omega, by decide, fun i hi hi' => ?_, fun k hk => ?_⟩
    · interval_cases i <;> decide
    · exact ⟨3, by omega, by decide, by decide⟩
  have heq : (RtlBitmap.mk 8 [0x0F#32]).rtlFindLastBackwardRunClear 7 = (some 4, 3) := by decide
  refine ⟨hrun, heq, fun hexact => ?_⟩
  have hlength := heq.symm.trans (hexact.2 4 7 hrun)
  revert hlength
  decide

end RtlBitmap

end Windivs

import Windivs.Rtl.Bitmap

/-!
# Ranges of a bitmap

`RtlClearBits` beside the `RtlSetBits` of `Windivs.Rtl.Bitmap`. Inverting every word turns one into
the other (`Windivs.RtlBitmap.invert_rtlClearBits`), so what is known of the setter carries over:
both change the bits of their range and no other bit of the buffer
(`Windivs.RtlBitmap.rangeSetters_exact`).
-/

namespace Windivs

namespace RtlBitmap

variable {w : ℕ} {bm : RtlBitmap w} {s i : ℕ}

/-- The end of `RtlClearBits`, once the range starts at a word. -/
def clearBitsFrom (bm : RtlBitmap w) (k numberToClear : ℕ) : RtlBitmap w :=
  let bm := bm.rtlFillMemoryUlong k (numberToClear / 8) 0
  if numberToClear % w ≠ 0 then
    bm.modifyWord (k + numberToClear / w) (· &&& (BitVec.allOnes w <<< (numberToClear % w)))
  else bm

/-- `RtlClearBits`. -/
def rtlClearBits (bm : RtlBitmap w) (startingIndex numberToClear : ℕ) : RtlBitmap w :=
  let k := startingIndex / w
  let bits := startingIndex % w
  if bits ≠ 0 then
    let mask := BitVec.allOnes w <<< bits
    let left := w - bits
    if numberToClear < left then
      let high := left - numberToClear
      bm.modifyWord k (· &&& ~~~(mask <<< high >>> high))
    else
      (bm.modifyWord k (· &&& ~~~mask)).clearBitsFrom (k + 1) (numberToClear - left)
  else bm.clearBitsFrom k numberToClear

/-! ### Clearing ranges -/

/-- The bitmap with every word inverted, in which clearing a range is setting it. -/
def invert (bm : RtlBitmap w) : RtlBitmap w := { bm with buffer := bm.buffer.map (~~~·) }

theorem invert_modifyWord (k : ℕ) {f g : BitVec w → BitVec w} (h : ∀ x, ~~~(f x) = g (~~~x)) :
    (bm.modifyWord k f).invert = bm.invert.modifyWord k g := by
  simp only [invert, modifyWord, mk.injEq, true_and]
  refine List.ext_getElem? fun j => ?_
  simp only [List.getElem?_map, List.getElem?_modify]
  split <;> simp [Function.comp_def, h]

theorem invert_rtlFillMemoryUlong (k n : ℕ) (v : BitVec w) :
    (bm.rtlFillMemoryUlong k n v).invert = bm.invert.rtlFillMemoryUlong k n (~~~v) := by
  simp only [invert, rtlFillMemoryUlong, mk.injEq, true_and]
  refine List.ext_getElem? fun j => ?_
  simp only [List.getElem?_map, List.getElem?_mapIdx, Option.map_map, Function.comp_def]
  split <;> rfl

theorem invert_clearBitsFrom (bm : RtlBitmap w) (k n : ℕ) :
    (bm.clearBitsFrom k n).invert = bm.invert.setBitsFrom k n := by
  have hfill : (bm.rtlFillMemoryUlong k (n / 8) 0).invert =
      bm.invert.rtlFillMemoryUlong k (n / 8) (BitVec.allOnes w) :=
    (invert_rtlFillMemoryUlong ..).trans (congrArg _ BitVec.not_zero)
  simp only [clearBitsFrom, setBitsFrom]
  split
  · rw [← hfill]
    exact invert_modifyWord _ fun x => BitVec.not_and
  · exact hfill

theorem invert_rtlClearBits (s n : ℕ) :
    (bm.rtlClearBits s n).invert = bm.invert.rtlSetBits s n := by
  have hword (k : ℕ) (m : BitVec w) :
      (bm.modifyWord k (· &&& ~~~m)).invert = bm.invert.modifyWord k (· ||| m) :=
    invert_modifyWord k fun x => by rw [BitVec.not_and, BitVec.not_not]
  simp only [rtlClearBits, rtlSetBits]
  split
  · split
    · exact hword _ _
    · rw [invert_clearBitsFrom, hword]
  · exact invert_clearBitsFrom ..

theorem rtlTestBit_invert (hw : 0 < w) (hi : i / w < bm.buffer.length) :
    bm.invert.rtlTestBit i = !bm.rtlTestBit i := by
  simp [rtlTestBit_eq, word, invert, hi, Nat.mod_lt i hw]

/-- The bits of a range become `v`, and no other bit of the buffer changes. -/
structure ChangesRange (v : Bool) (s n : ℕ) (bm bm' : RtlBitmap w) : Prop where
  size : bm'.sizeOfBitMap = bm.sizeOfBitMap
  length : bm'.buffer.length = bm.buffer.length
  bits : ∀ i < bm.buffer.length * w,
    bm'.rtlTestBit i = if s ≤ i ∧ i < s + n then v else bm.rtlTestBit i

theorem length_rtlSetBits (s n : ℕ) : (bm.rtlSetBits s n).buffer.length = bm.buffer.length := by
  simp only [rtlSetBits, setBitsFrom]
  split
  · split
    · simp
    · split <;> simp
  · split <;> simp

theorem changesRange_rtlSetBits (hw : 0 < w) (h8 : 8 ∣ w) (bm : RtlBitmap w) (s n : ℕ) :
    ChangesRange true s n bm (bm.rtlSetBits s n) := by
  refine ⟨sizeOfBitMap_rtlSetBits .., length_rtlSetBits s n, fun i hi => ?_⟩
  rw [rtlTestBit_rtlSetBits hw h8 _ _ _ ((Nat.div_lt_iff_lt_mul hw).2 hi)]
  split
  · next h => simp [h]
  · next h => simp [h]

theorem ChangesRange.of_invert {v : Bool} {n : ℕ} {bm' : RtlBitmap w} (hw : 0 < w)
    (h : ChangesRange v s n bm.invert bm'.invert) : ChangesRange (!v) s n bm bm' := by
  have hlength : bm'.buffer.length = bm.buffer.length := by simpa [invert] using h.length
  refine ⟨h.size, hlength, fun i hi => ?_⟩
  have hword := (Nat.div_lt_iff_lt_mul hw).2 hi
  have hbit := h.bits i (by simpa [invert] using hi)
  rw [rtlTestBit_invert hw (hlength ▸ hword), rtlTestBit_invert hw hword] at hbit
  rw [← Bool.not_not (rtlTestBit bm' i), hbit]
  split
  · rfl
  · exact Bool.not_not _

/-- **The range setters change exactly their range**, in a bitmap of 32-bit words and in one of
64-bit words. -/
theorem rangeSetters_exact (hw : w = 32 ∨ w = 64) (bm : RtlBitmap w) (s n : ℕ) :
    ChangesRange true s n bm (bm.rtlSetBits s n) ∧
      ChangesRange false s n bm (bm.rtlClearBits s n) := by
  have hpos : 0 < w := by omega
  have h8 : 8 ∣ w := by omega
  refine ⟨changesRange_rtlSetBits hpos h8 bm s n, .of_invert (v := true) hpos ?_⟩
  rw [invert_rtlClearBits]
  exact changesRange_rtlSetBits hpos h8 ..

theorem rangeSetters_exact_byte : (32 = 32 ∨ 32 = 64) ∧
    ChangesRange true 4 3 (⟨8, [0x12]⟩ : RtlBitmap 32) (rtlSetBits ⟨8, [0x12]⟩ 4 3) ∧
      ChangesRange false 4 3 (⟨8, [0x12]⟩ : RtlBitmap 32) (rtlClearBits ⟨8, [0x12]⟩ 4 3) :=
  ⟨.inl rfl, rangeSetters_exact (.inl rfl) ⟨8, [0x12]⟩ 4 3⟩

end RtlBitmap

end Windivs

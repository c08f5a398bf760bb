import Windivs.Lib.Loop

/-!
# Bitmaps of the run-time library

The bitmap package of `sdk/lib/rtl/bitmap.c`, at the level it is written: an
array of machine words, masks made by shifting, whole words filled at once. The
width of a word is a parameter `w`, because the source is compiled twice, with
`_BITCOUNT` 32 and 64; the hive code uses the first.

Each routine is then described bit by bit. `Windivs.RtlBitmap.rtlTestBit_rtlSetBits`
says which bits a range setter sets; `Windivs.RtlBitmap.rtlpGetLengthOfRun_spec`
says what a run length means, maximum included; and
`Windivs.RtlBitmap.rtlFindSetBits_one` says that a search for a single bit gives
the first one from the hint on, and wraps to the start of the bitmap when there
is none.

Indices are natural numbers: a bitmap has fewer than `2 ^ 32` bits, and no sum
the routines make on indices below its size reaches `2 ^ 32` when the size stays
below `2 ^ 31`.
-/

namespace Windivs

/-- `RTL_BITMAP`: a number of bits and the words that hold them. -/
structure RtlBitmap (w : ℕ) where
  /-- `SizeOfBitMap`, in bits. -/
  sizeOfBitMap : ℕ
  /-- `Buffer`. -/
  buffer : List (BitVec w)

namespace RtlBitmap

variable {w : ℕ} {bm : RtlBitmap w} {s i : ℕ}

/-- `MAXINDEX`: what a search returns when it finds nothing. -/
def maxIndex : ℕ := 0xFFFFFFFF

/-- `Buffer[k]`. -/
def word (bm : RtlBitmap w) (k : ℕ) : BitVec w :=
  bm.buffer.getD k 0

/-- `*Buffer = f(*Buffer)`, at word `k`. -/
def modifyWord (bm : RtlBitmap w) (k : ℕ) (f : BitVec w → BitVec w) : RtlBitmap w :=
  { bm with buffer := bm.buffer.modify k f }

/-- `RtlFillMemoryUlong`: `bytes` bytes of whole words from word `k` on. -/
def rtlFillMemoryUlong (bm : RtlBitmap w) (k bytes : ℕ) (v : BitVec w) : RtlBitmap w :=
  { bm with buffer := bm.buffer.mapIdx fun i x => if k ≤ i ∧ i < k + bytes / (w / 8) then v else x }

/-- `RtlTestBit`. -/
def rtlTestBit (bm : RtlBitmap w) (bitNumber : ℕ) : Bool :=
  (bm.word (bitNumber / w) >>> (bitNumber % w)).getLsbD 0

/-- `RtlClearAllBits`. -/
def rtlClearAllBits (bm : RtlBitmap w) : RtlBitmap w :=
  bm.rtlFillMemoryUlong 0 ((bm.sizeOfBitMap + w - 1) / w * (w / 8)) 0

/-- `RtlSetAllBits`. -/
def rtlSetAllBits (bm : RtlBitmap w) : RtlBitmap w :=
  bm.rtlFillMemoryUlong 0 ((bm.sizeOfBitMap + w - 1) / w * (w / 8)) (BitVec.allOnes w)

/-- The end of `RtlSetBits`, once the range starts at a word: the full words,
then what is left. -/
def setBitsFrom (bm : RtlBitmap w) (k numberToSet : ℕ) : RtlBitmap w :=
  let bm := bm.rtlFillMemoryUlong k (numberToSet / 8) (BitVec.allOnes w)
  if numberToSet % w ≠ 0 then
    bm.modifyWord (k + numberToSet / w)
      (· ||| ~~~(BitVec.allOnes w <<< (numberToSet % w)))
  else bm

/-- `RtlSetBits`. -/
def rtlSetBits (bm : RtlBitmap w) (startingIndex numberToSet : ℕ) : RtlBitmap w :=
  let k := startingIndex / w
  let bits := startingIndex % w
  if bits ≠ 0 then
    let mask := BitVec.allOnes w <<< bits
    let left := w - bits
    if numberToSet < left then
      let high := left - numberToSet
      bm.modifyWord k (· ||| (mask <<< high >>> high))
    else
      (bm.modifyWord k (· ||| mask)).setBitsFrom (k + 1) (numberToSet - left)
  else bm.setBitsFrom k numberToSet

/-- A call of `RtlSetBits`, whose assertion `bitmap.c` defines to nothing: a range that does not lie
in the bitmap is written behind it. -/
def callRtlSetBits (bm : RtlBitmap w) (startingIndex numberToSet : ℕ) : Run (RtlBitmap w) :=
  if startingIndex + numberToSet ≤ bm.sizeOfBitMap then
    .ok (bm.rtlSetBits startingIndex numberToSet)
  else .error .accessViolation

theorem callRtlSetBits_of_le {s n : ℕ} (hle : s + n ≤ bm.sizeOfBitMap) :
    bm.callRtlSetBits s n = .ok (bm.rtlSetBits s n) :=
  if_pos hle

/-- `BitScanForward`: the lowest set bit of a word. -/
def bitScanForward (v : BitVec w) : ℕ :=
  ((List.range w).find? fun i => v.getLsbD i).getD 0

/-- The loop of the run-length routines: read on, at most `n` words from word
`k`, until a value is not zero. The result is the last value read and the word
after it. -/
def skipZeroWords (bm : RtlBitmap w) (f : BitVec w → BitVec w) :
    ℕ → BitVec w → ℕ → BitVec w × ℕ
  | 0, value, k => (value, k)
  | n + 1, value, k =>
    if value = 0 then bm.skipZeroWords f n (f (bm.word k)) (k + 1) else (value, k)

/-- The common body of `RtlpGetLengthOfRunClear` and `RtlpGetLengthOfRunSet`: the
run stops at the first set bit of the words read through `f`. -/
def rtlpGetLengthOfRun (f : BitVec w → BitVec w) (bm : RtlBitmap w)
    (startingIndex maxLength : ℕ) : ℕ :=
  if bm.sizeOfBitMap ≤ startingIndex then 0
  else
    let k := startingIndex / w
    let bitPos := startingIndex % w
    let maxLength := min maxLength (bm.sizeOfBitMap - startingIndex)
    let maxBuffer := k + (bitPos + maxLength + w - 1) / w
    let value := f (bm.word k) >>> bitPos <<< bitPos
    let (value, k) := bm.skipZeroWords f (maxBuffer - (k + 1)) value (k + 1)
    if value = 0 then maxLength
    else
      let length := k * w - startingIndex + bitScanForward value - w
      if bm.sizeOfBitMap - startingIndex < length then bm.sizeOfBitMap - startingIndex
      else length

/-- `RtlpGetLengthOfRunClear`. -/
def rtlpGetLengthOfRunClear : RtlBitmap w → ℕ → ℕ → ℕ :=
  rtlpGetLengthOfRun id

/-- `RtlpGetLengthOfRunSet`: the words are read inverted. -/
def rtlpGetLengthOfRunSet : RtlBitmap w → ℕ → ℕ → ℕ :=
  rtlpGetLengthOfRun (~~~ ·)

/-- One turn of the search loop of `RtlFindSetBits`: skip a clear run, measure
the set run after it. -/
def findSetTurn (bm : RtlBitmap w) (numberToFind margin currentBit : ℕ) : Turn ℕ (Option ℕ) :=
  if currentBit + numberToFind ≤ margin then
    let currentBit := currentBit + bm.rtlpGetLengthOfRunClear currentBit maxIndex
    let currentLength := bm.rtlpGetLengthOfRunSet currentBit numberToFind
    if numberToFind ≤ currentLength then .leave (some currentBit)
    else .again (currentBit + currentLength)
  else .leave none

/-- The search loop of `RtlFindSetBits` from a given bit up to a margin. The
budget is one turn per bit and one to leave, and is never spent
(`Windivs.RtlBitmap.findSetFrom_searched`), so that `none` is the loop's own answer. -/
def findSetFrom (bm : RtlBitmap w) (numberToFind margin currentBit : ℕ) : Option ℕ :=
  (loop (bm.findSetTurn numberToFind margin) (bm.sizeOfBitMap + 2) currentBit).getD none

/-- `RtlFindSetBits`. -/
def rtlFindSetBits (bm : RtlBitmap w) (numberToFind hintIndex : ℕ) : ℕ :=
  if bm.sizeOfBitMap < numberToFind then maxIndex
  else
    let hintIndex := if bm.sizeOfBitMap ≤ hintIndex then 0 else hintIndex
    if numberToFind = 0 then hintIndex / 8 * 8
    else
      match bm.findSetFrom numberToFind bm.sizeOfBitMap hintIndex with
      | some bit => bit
      | none =>
        if hintIndex ≠ 0 then
          let margin := min (hintIndex + numberToFind) bm.sizeOfBitMap
          (bm.findSetFrom numberToFind margin 0).getD maxIndex
        else maxIndex

/-! ### Bits and words -/

section

variable (bm : RtlBitmap w)

theorem rtlTestBit_eq (i : ℕ) : bm.rtlTestBit i = (bm.word (i / w)).getLsbD (i % w) := by
  simp [rtlTestBit]

/-- Comparing a bit index with a word boundary plus an offset. -/
theorem lt_mul_add_iff {i c b : ℕ} (hw : 0 < w) (hb : b ≤ w) :
    i < c * w + b ↔ i / w < c ∨ (i / w = c ∧ i % w < b) := by
  have hi := Nat.div_add_mod' i w
  have hr := Nat.mod_lt i hw
  constructor
  · intro h
    rcases lt_trichotomy (i / w) c with hlt | heq | hgt
    · exact .inl hlt
    · refine .inr ⟨heq, ?_⟩
      rw [heq] at hi
      omega
    · have : (c + 1) * w ≤ i / w * w := Nat.mul_le_mul_right w hgt
      rw [Nat.add_mul] at this
      omega
  · rintro (h | ⟨rfl, h⟩)
    · have : (i / w + 1) * w ≤ c * w := Nat.mul_le_mul_right w h
      rw [Nat.add_mul] at this
      omega
    · omega

@[simp] theorem length_modifyWord (k : ℕ) (f : BitVec w → BitVec w) :
    (bm.modifyWord k f).buffer.length = bm.buffer.length := by
  simp [modifyWord]

@[simp] theorem length_rtlFillMemoryUlong (k n : ℕ) (v : BitVec w) :
    (bm.rtlFillMemoryUlong k n v).buffer.length = bm.buffer.length := by
  simp [rtlFillMemoryUlong]

theorem word_modifyWord (k j : ℕ) (f : BitVec w → BitVec w) (hj : j < bm.buffer.length) :
    (bm.modifyWord k f).word j = if j = k then f (bm.word j) else bm.word j := by
  simp only [word, modifyWord, List.getD_eq_getElem?_getD, List.getElem?_modify,
    List.getElem?_eq_getElem hj]
  by_cases h : k = j
  · simp [h]
  · simp [h, Ne.symm h]

theorem word_rtlFillMemoryUlong (k n j : ℕ) (v : BitVec w) (hj : j < bm.buffer.length) :
    (bm.rtlFillMemoryUlong k n v).word j =
      if k ≤ j ∧ j < k + n / (w / 8) then v else bm.word j := by
  simp [word, rtlFillMemoryUlong, hj]

/-! ### Setting ranges -/

/-- The words `RtlFillMemoryUlong` is asked for in bytes are the full words of
the range. -/
theorem div_eight_div (hw : 8 ∣ w) (n : ℕ) : n / 8 / (w / 8) = n / w := by
  rw [Nat.div_div_eq_div_mul, Nat.mul_div_cancel' hw]

@[simp] theorem sizeOfBitMap_rtlSetBits (s n : ℕ) :
    (bm.rtlSetBits s n).sizeOfBitMap = bm.sizeOfBitMap := by
  simp only [rtlSetBits, setBitsFrom]
  split
  · split
    · rfl
    · split <;> rfl
  · split <;> rfl

theorem rtlTestBit_setBitsFrom (hw : 0 < w) (h8 : 8 ∣ w) (bm : RtlBitmap w) (k n : ℕ)
    (hi : i / w < bm.buffer.length) :
    (bm.setBitsFrom k n).rtlTestBit i =
      (bm.rtlTestBit i || decide (k * w ≤ i ∧ i < k * w + n)) := by
  have hr := Nat.mod_lt i hw
  have hn := Nat.mod_lt n hw
  have hlo : k * w ≤ i ↔ k ≤ i / w := (Nat.le_div_iff_mul_le hw).symm
  have hhi : i < k * w + n ↔ i / w < k + n / w ∨ (i / w = k + n / w ∧ i % w < n % w) := by
    rw [← lt_mul_add_iff hw hn.le, Nat.add_mul, Nat.add_assoc, Nat.div_add_mod']
  simp only [rtlTestBit_eq, hlo, hhi]
  by_cases h0 : n % w = 0
  · rw [setBitsFrom, if_neg (by simpa using h0), word_rtlFillMemoryUlong _ _ _ _ _ hi,
      div_eight_div h8]
    split
    · next h => simp [hr, h]
    · next h =>
      have : ¬(k ≤ i / w ∧ (i / w < k + n / w ∨ i / w = k + n / w ∧ i % w < n % w)) := by omega
      simp [this]
  · rw [setBitsFrom, if_pos h0, word_modifyWord _ _ _ _ (by simpa using hi),
      word_rtlFillMemoryUlong _ _ _ _ _ hi, div_eight_div h8]
    by_cases he : i / w = k + n / w
    · simp [hr, he]
    · rw [if_neg he]
      split
      · next h => simp [hr, h]
      · next h =>
        have : ¬(k ≤ i / w ∧ (i / w < k + n / w ∨ i / w = k + n / w ∧ i % w < n % w)) := by omega
        simp [this]

theorem rtlTestBit_modifyWord (k : ℕ) (m : BitVec w) (hi : i / w < bm.buffer.length) :
    (bm.modifyWord k (· ||| m)).rtlTestBit i =
      (bm.rtlTestBit i || (decide (i / w = k) && m.getLsbD (i % w))) := by
  rw [rtlTestBit_eq, rtlTestBit_eq, word_modifyWord _ _ _ _ hi]
  split
  · next h => simp [h]
  · next h => simp [h]

end

/-- **`RtlSetBits` sets the range and nothing else**, wherever the range starts
and ends in its words. -/
theorem rtlTestBit_rtlSetBits (hw : 0 < w) (h8 : 8 ∣ w) (bm : RtlBitmap w) (s n : ℕ)
    (hi : i / w < bm.buffer.length) :
    (bm.rtlSetBits s n).rtlTestBit i = (bm.rtlTestBit i || decide (s ≤ i ∧ i < s + n)) := by
  have hr := Nat.mod_lt i hw
  have hs := Nat.mod_lt s hw
  have hlo : s ≤ i ↔ s / w < i / w ∨ (i / w = s / w ∧ s % w ≤ i % w) := by
    rw [← not_lt, ← Nat.div_add_mod' s w, lt_mul_add_iff hw hs.le, Nat.div_add_mod']
    omega
  simp only [rtlSetBits]
  by_cases h0 : s % w = 0
  · have hsw : s / w * w = s := by
      have := Nat.div_add_mod' s w
      omega
    rw [if_neg (by simpa using h0), rtlTestBit_setBitsFrom hw h8 _ _ _ hi, hsw]
  · rw [if_pos h0]
    by_cases hn : n < w - s % w
    · rw [if_pos hn, rtlTestBit_modifyWord _ _ _ hi]
      have hhi : i < s + n ↔ i / w < s / w ∨ (i / w = s / w ∧ i % w < s % w + n) := by
        rw [← lt_mul_add_iff hw (by omega), ← Nat.add_assoc, Nat.div_add_mod']
      congr 1
      rw [Bool.eq_iff_iff]
      simp only [BitVec.getLsbD_ushiftRight, BitVec.getLsbD_shiftLeft, BitVec.getLsbD_allOnes,
        Bool.and_eq_true, decide_eq_true_eq, Bool.not_eq_true', decide_eq_false_iff_not, hlo, hhi]
      omega
    · rw [if_neg hn, rtlTestBit_setBitsFrom hw h8 _ _ _ (by simpa using hi),
        rtlTestBit_modifyWord _ _ _ hi, Bool.or_assoc]
      have hk : (s / w + 1) * w = s + (w - s % w) := by
        have := Nat.div_add_mod' s w
        rw [Nat.add_mul]
        omega
      have hki : s + (w - s % w) ≤ i ↔ s / w + 1 ≤ i / w := by
        rw [← hk]
        exact (Nat.le_div_iff_mul_le hw).symm
      congr 1
      rw [hk, Bool.eq_iff_iff]
      simp only [BitVec.getLsbD_shiftLeft, BitVec.getLsbD_allOnes, Bool.or_eq_true,
        Bool.and_eq_true, decide_eq_true_eq, Bool.not_eq_true', decide_eq_false_iff_not, hlo, hki]
      omega

/-! ### Run lengths -/

/-- The bit at which a run read through `f` stops. -/
def stopBit (f : BitVec w → BitVec w) (bm : RtlBitmap w) (i : ℕ) : Bool :=
  (f (bm.word (i / w))).getLsbD (i % w)

theorem stopBit_mul_add (f : BitVec w → BitVec w) (bm : RtlBitmap w) (q : ℕ) {r : ℕ}
    (hr : r < w) : stopBit f bm (q * w + r) = (f (bm.word q)).getLsbD r := by
  have hw : 0 < w := by omega
  rw [stopBit, Nat.add_comm, Nat.add_mul_div_right _ _ hw, Nat.add_mul_mod_self_right,
    Nat.div_eq_of_lt hr, Nat.mod_eq_of_lt hr, Nat.zero_add]

/-- What the word loop knows after reading word `q`: nothing stops the run
before that word, and `value` has the stopping bits of that word, those before
the start of the run removed. -/
structure Scanned (f : BitVec w → BitVec w) (bm : RtlBitmap w) (s : ℕ) (value : BitVec w)
    (q : ℕ) : Prop where
  start : s / w ≤ q
  before : ∀ i, s ≤ i → i < q * w → stopBit f bm i = false
  bits : ∀ r, r < w → value.getLsbD r = (stopBit f bm (q * w + r) && decide (s ≤ q * w + r))

/-- A word without stopping bits lets the run through to the next word. -/
theorem Scanned.next {f : BitVec w → BitVec w} {s q : ℕ} (hw : 0 < w)
    (h : Scanned f bm s 0 q) : Scanned f bm s (f (bm.word (q + 1))) (q + 1) := by
  have hs : s < (q + 1) * w := (Nat.div_lt_iff_lt_mul hw).1 (Nat.lt_succ_of_le h.start)
  refine ⟨h.start.trans (Nat.le_succ q), fun i hsi hi => ?_, fun r hr => ?_⟩
  · by_cases hq : i < q * w
    · exact h.before i hsi hq
    · rw [Nat.add_mul] at hi
      obtain ⟨r, rfl⟩ : ∃ r, i = q * w + r := ⟨i - q * w, by omega⟩
      have hb := h.bits r (by omega)
      simpa [hsi] using hb
  · rw [stopBit_mul_add f bm _ hr, decide_eq_true (by omega : s ≤ (q + 1) * w + r), Bool.and_true]

theorem skipZeroWords_spec {f : BitVec w → BitVec w} (hw : 0 < w)
    (n : ℕ) {value : BitVec w} {q : ℕ} (h : Scanned f bm s value q) :
    ∃ v q', bm.skipZeroWords f n value (q + 1) = (v, q' + 1) ∧ Scanned f bm s v q' ∧
      (v = 0 → q' = q + n) := by
  induction n generalizing value q with
  | zero => exact ⟨value, q, rfl, h, fun _ => rfl⟩
  | succ n ih =>
    by_cases h0 : value = 0
    · subst h0
      obtain ⟨v, q', heq, hv, hq⟩ := ih (h.next hw)
      refine ⟨v, q', ?_, hv, fun h => by rw [hq h]; omega⟩
      rw [skipZeroWords, if_pos rfl, heq]
    · refine ⟨value, q, ?_, h, fun h => absurd h h0⟩
      rw [skipZeroWords, if_neg h0]

theorem bitScanForward_spec {v : BitVec w} (hv : v ≠ 0) :
    bitScanForward v < w ∧ v.getLsbD (bitScanForward v) = true ∧
      ∀ r, r < bitScanForward v → v.getLsbD r = false := by
  obtain ⟨b, hb⟩ : ∃ b, (List.range w).find? (fun i => v.getLsbD i) = some b := by
    rw [← Option.isSome_iff_exists, List.find?_isSome]
    by_contra hno
    refine hv (BitVec.eq_of_getLsbD_eq fun i hi => ?_)
    simp only [List.mem_range, not_exists, not_and] at hno
    simp [hno i hi]
  rw [bitScanForward, hb]
  obtain ⟨h₁, h₂, h3⟩ := List.find?_range_eq_some.1 hb
  exact ⟨List.mem_range.1 h₂, h₁, fun r hr => by simpa using h3 r hr⟩

/-- **What a run length means**: no bit inside the run stops it, the run stays in
the bitmap, and a run shorter than the maximum asked for is stopped by the bit
after it. -/
theorem rtlpGetLengthOfRun_spec (f : BitVec w → BitVec w) (bm : RtlBitmap w) (hw : 0 < w)
    (hs : s < bm.sizeOfBitMap) (maxLength : ℕ) :
    rtlpGetLengthOfRun f bm s maxLength ≤ bm.sizeOfBitMap - s ∧
    (∀ i, s ≤ i → i < s + rtlpGetLengthOfRun f bm s maxLength → stopBit f bm i = false) ∧
    (rtlpGetLengthOfRun f bm s maxLength < min maxLength (bm.sizeOfBitMap - s) →
      stopBit f bm (s + rtlpGetLengthOfRun f bm s maxLength) = true) := by
  have hsw := Nat.div_add_mod' s w
  have hr := Nat.mod_lt s hw
  -- the first word, with the bits below the start masked out
  have h₀ : Scanned f bm s (f (bm.word (s / w)) >>> (s % w) <<< (s % w)) (s / w) := by
    refine ⟨le_rfl, fun i hsi hi => absurd hi (by omega), fun r hrw => ?_⟩
    rw [stopBit_mul_add f bm _ hrw]
    by_cases hlt : r < s % w
    · simp [hlt, show ¬ s ≤ s / w * w + r by omega]
    · simp [hlt, show s ≤ s / w * w + r by omega, hrw, Nat.add_sub_cancel' (not_lt.1 hlt)]
  set m := min maxLength (bm.sizeOfBitMap - s) with hm
  set n := s / w + (s % w + m + w - 1) / w - (s / w + 1) with hn
  obtain ⟨v, q, hskip, hscan, hq⟩ := skipZeroWords_spec hw n h₀
  have hqs : s < (q + 1) * w := (Nat.div_lt_iff_lt_mul hw).1 (Nat.lt_succ_of_le hscan.start)
  have hdef : rtlpGetLengthOfRun f bm s maxLength =
      if v = 0 then m
      else if bm.sizeOfBitMap - s < (q + 1) * w - s + bitScanForward v - w then
        bm.sizeOfBitMap - s
      else (q + 1) * w - s + bitScanForward v - w := by
    rw [rtlpGetLengthOfRun, if_neg (not_le.2 hs)]
    simp only [← hm, ← hn, hskip]
  by_cases hv : v = 0
  · rw [hdef, if_pos hv]
    subst hv
    have hnext := hscan.next hw
    have hfar : s + m ≤ (q + 1) * w := by
      have h₁ : s % w + m ≤ (s % w + m + w - 1) / w * w := by
        have := Nat.div_add_mod' (s % w + m + w - 1) w
        have := Nat.mod_lt (s % w + m + w - 1) hw
        omega
      have h₂ : s / w + (s % w + m + w - 1) / w ≤ q + 1 := by
        rw [hq rfl]
        omega
      have h3 := Nat.mul_le_mul_right w h₂
      rw [Nat.add_mul] at h3
      omega
    exact ⟨min_le_right _ _, fun i hsi hi => hnext.before i hsi (by omega),
      fun h => absurd h (lt_irrefl _)⟩
  · rw [hdef, if_neg hv]
    obtain ⟨hb, hset, hlow⟩ := bitScanForward_spec hv
    set b := bitScanForward v
    have hstop := hscan.bits b hb
    rw [hset, eq_comm, Bool.and_eq_true, decide_eq_true_eq] at hstop
    have hlen : (q + 1) * w - s + b - w = q * w + b - s := by
      rw [Nat.add_mul] at hqs ⊢
      omega
    have hclear : ∀ i, s ≤ i → i < q * w + b → stopBit f bm i = false := by
      intro i hsi hi
      by_cases hiq : i < q * w
      · exact hscan.before i hsi hiq
      · obtain ⟨r, rfl⟩ : ∃ r, i = q * w + r := ⟨i - q * w, by omega⟩
        have hb' := hscan.bits r (by omega)
        rw [hlow r (by omega)] at hb'
        simpa [hsi] using hb'
    rw [hlen]
    split
    · exact ⟨le_rfl, fun i hsi hi => hclear i hsi (by omega), fun h => by omega⟩
    · refine ⟨by omega, fun i hsi hi => hclear i hsi (by omega), fun _ => ?_⟩
      rw [Nat.add_sub_cancel' hstop.2]
      exact hstop.1

/-! ### Clear runs -/

section

variable (bm : RtlBitmap w)

theorem stopBit_id (i : ℕ) : stopBit id bm i = bm.rtlTestBit i := by
  rw [stopBit, rtlTestBit_eq, id]

theorem stopBit_not (hw : 0 < w) (i : ℕ) : stopBit (~~~ ·) bm i = !bm.rtlTestBit i := by
  simp [stopBit, rtlTestBit_eq, Nat.mod_lt i hw]

/-- A clear run: its bits are clear, and the bit that stops it is set. -/
theorem rtlpGetLengthOfRunClear_spec (hw : 0 < w) (hs : s < bm.sizeOfBitMap) (maxLength : ℕ) :
    bm.rtlpGetLengthOfRunClear s maxLength ≤ bm.sizeOfBitMap - s ∧
    (∀ i, s ≤ i → i < s + bm.rtlpGetLengthOfRunClear s maxLength → bm.rtlTestBit i = false) ∧
    (bm.rtlpGetLengthOfRunClear s maxLength < min maxLength (bm.sizeOfBitMap - s) →
      bm.rtlTestBit (s + bm.rtlpGetLengthOfRunClear s maxLength) = true) := by
  have h := rtlpGetLengthOfRun_spec id bm hw hs maxLength
  simp only [stopBit_id] at h
  exact h

end

end RtlBitmap

end Windivs

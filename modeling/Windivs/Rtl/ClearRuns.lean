import Windivs.Rtl.BitmapRuns

/-!
# The longest clear runs of a bitmap

`RtlFindClearRuns` over the bits of a bitmap. A maximal clear run is a stretch of clear bits
with a set bit, or an end of the bitmap, on either side; `Windivs.RtlBitmap.clearRuns` is the
list of them.

The routine makes its sums in 32 bits. In a bitmap of `2 ^ 32 - 31` bits or more, the number of
words that are left comes out as zero for a run that starts in the first word, so that nothing
behind that word is read: a run that reaches the end of the word is taken to reach the end of
the bitmap. The bits as the routine sees them are `Windivs.RtlBitmap.seenBit`, and the runs in
them `Windivs.RtlBitmap.seenRuns`; in a smaller bitmap these are the clear runs.
-/

namespace Windivs

open List RtlBitmapRun

variable {a later : List RtlBitmapRun} {bm : RtlBitmap 32} {from_ i : ℕ} {r r' : RtlBitmapRun}

namespace RtlBitmap

/-! ### The routine -/

/-- `RtlpGetLengthOfRunClear` and `RtlpGetLengthOfRunSet` for any bitmap with 32-bit indices.
The sum that gives the number of words is a `ULONG`. -/
def ulongLengthOfRun (f : BitVec 32 → BitVec 32) (bm : RtlBitmap 32)
    (startingIndex maxLength : ℕ) : ℕ :=
  if bm.sizeOfBitMap ≤ startingIndex then 0
  else
    let k := startingIndex / 32
    let bitPos := startingIndex % 32
    let maxLength := min maxLength (bm.sizeOfBitMap - startingIndex)
    let maxBuffer := k + (bitPos + maxLength + 32 - 1) % 0x100000000 / 32
    let value := f (bm.word k) >>> bitPos <<< bitPos
    let (value, k) := bm.skipZeroWords f (maxBuffer - (k + 1)) value (k + 1)
    if value = 0 then maxLength
    else
      let length := k * 32 - startingIndex + bitScanForward value - 32
      if bm.sizeOfBitMap - startingIndex < length then bm.sizeOfBitMap - startingIndex
      else length

/-- `RtlFindNextForwardRunClear`: the start of the run and its length. -/
def rtlFindNextForwardRunClear (bm : RtlBitmap 32) (fromIndex : ℕ) : RtlBitmapRun :=
  if bm.sizeOfBitMap ≤ fromIndex then ⟨fromIndex, 0⟩
  else
    let length := ulongLengthOfRun (~~~ ·) bm fromIndex maxIndex
    ⟨fromIndex + length, ulongLengthOfRun id bm (fromIndex + length) maxIndex⟩

/-- `RtlFindClearRuns`: the runs it puts into the array, whose number it returns. -/
def rtlFindClearRuns (bm : RtlBitmap 32) (sizeOfRunArray : ℕ) (locateLongestRuns : Bool) :
    Run (List RtlBitmapRun) :=
  selectRuns bm.rtlFindNextForwardRunClear bm.sizeOfBitMap sizeOfRunArray locateLongestRuns

/-! ### The maximal runs of a word of bits -/

section Runs

variable {b : ℕ → Bool} {n s : ℕ}

/-- A maximal run of clear bits among the first `n`. -/
structure IsRun (b : ℕ → Bool) (n : ℕ) (r : RtlBitmapRun) : Prop where
  pos : 0 < r.numberOfBits
  stop_le : r.stop ≤ n
  clear : ∀ i, r.startingIndex ≤ i → i < r.stop → b i = false
  before : r.startingIndex = 0 ∨ b (r.startingIndex - 1) = true
  after : r.stop = n ∨ b r.stop = true

theorem IsRun.start_lt_stop (h : IsRun b n r) : r.startingIndex < r.stop :=
  Nat.lt_add_of_pos_right h.pos

/-- The number of clear bits from bit `i` on, among the next `k`. -/
def clearFrom (b : ℕ → Bool) : ℕ → ℕ → ℕ
  | 0, _ => 0
  | k + 1, i => if b i then 0 else clearFrom b k (i + 1) + 1

theorem clearFrom_spec (b : ℕ → Bool) (k i : ℕ) :
    clearFrom b k i ≤ k ∧ (∀ j, i ≤ j → j < i + clearFrom b k i → b j = false) ∧
      (clearFrom b k i < k → b (i + clearFrom b k i) = true) := by
  induction k generalizing i with
  | zero => exact ⟨le_rfl, fun j hij hj => absurd hj (by simp [clearFrom]; omega), by simp⟩
  | succ k ih =>
    obtain ⟨hle, hclear, hstop⟩ := ih (i + 1)
    rw [clearFrom]
    by_cases hbit : b i = true
    · rw [if_pos hbit]
      exact ⟨Nat.zero_le _, fun j hij hj => absurd hj (by omega), fun _ => hbit⟩
    · rw [if_neg hbit]
      refine ⟨by omega, fun j hij hj => ?_, fun hlt => ?_⟩
      · rcases hij.eq_or_lt with rfl | hlt
        · exact Bool.eq_false_of_not_eq_true hbit
        · exact hclear j hlt (by omega)
      · have h := hstop (by omega)
        rwa [show i + 1 + clearFrom b k (i + 1) = i + (clearFrom b k (i + 1) + 1) by omega] at h

/-- A run starts at a bit. -/
def runStarts (b : ℕ → Bool) (i : ℕ) : Bool :=
  !b i && (i == 0 || b (i - 1))

theorem runStarts_iff : runStarts b i = true ↔ b i = false ∧ (i = 0 ∨ b (i - 1) = true) := by
  simp [runStarts]

/-- The maximal clear runs, from the first to the last. -/
def runsOf (b : ℕ → Bool) (n : ℕ) : List RtlBitmapRun :=
  ((range n).filter (runStarts b)).map fun i => ⟨i, clearFrom b (n - i) i⟩

theorem isRun_clearFrom (hi : i < n) (hstart : runStarts b i = true) :
    IsRun b n ⟨i, clearFrom b (n - i) i⟩ := by
  obtain ⟨hbit, hbefore⟩ := runStarts_iff.1 hstart
  obtain ⟨hle, hclear, hstop⟩ := clearFrom_spec b (n - i) i
  have hpos : 0 < clearFrom b (n - i) i := by
    by_contra h0
    have h := hstop (by omega)
    rw [show clearFrom b (n - i) i = 0 by omega, add_zero, hbit] at h
    cases h
  refine ⟨hpos, ?_, hclear, hbefore, ?_⟩
  · simp only [stop]
    omega
  · simp only [stop]
    rcases hle.eq_or_lt with heq | hlt
    · exact .inl (by omega)
    · exact .inr (hstop hlt)

/-- A run is known by where it starts. -/
theorem IsRun.eq_of_start (h : IsRun b n r) (h' : IsRun b n r')
    (hstart : r.startingIndex = r'.startingIndex) : r = r' := by
  have key : ∀ {r r' : RtlBitmapRun}, IsRun b n r → IsRun b n r' →
      r.startingIndex = r'.startingIndex → r'.stop ≤ r.stop := fun {r r'} h h' hstart => by
    by_contra hlt
    have hstop : b r.stop = true := by
      refine h.after.resolve_left fun heq => ?_
      have := h'.stop_le
      omega
    rw [h'.clear r.stop (by simp only [stop]; omega) (by omega)] at hstop
    cases hstop
  have h₁ := key h h' hstart
  have h₂ := key h' h hstart.symm
  simp only [stop] at h₁ h₂
  cases r
  cases r'
  simp only [RtlBitmapRun.mk.injEq] at *
  omega

theorem mem_runsOf : r ∈ runsOf b n ↔ IsRun b n r := by
  simp only [runsOf, mem_map, mem_filter, mem_range]
  constructor
  · rintro ⟨i, ⟨hi, hstart⟩, rfl⟩
    exact isRun_clearFrom hi hstart
  · intro h
    have hpos := h.pos
    have hle := h.stop_le
    rw [stop] at hle
    have hstart : runStarts b r.startingIndex = true :=
      runStarts_iff.2 ⟨h.clear _ le_rfl (by rw [stop]; omega), h.before⟩
    refine ⟨r.startingIndex, ⟨by omega, hstart⟩, ?_⟩
    exact (isRun_clearFrom (by omega) hstart).eq_of_start h rfl

/-- The runs lie one behind the other, with a set bit between them. -/
theorem sorted_runsOf (b : ℕ → Bool) (n : ℕ) :
    (runsOf b n).Pairwise fun x y => x.stop < y.startingIndex := by
  rw [runsOf, pairwise_map]
  have hlt : ((range n).filter (runStarts b)).Pairwise (· < ·) :=
    pairwise_lt_range.filter _
  refine hlt.imp_of_mem fun {i j} hi hj hij => ?_
  rw [mem_filter, mem_range] at hi hj
  have hrun := isRun_clearFrom hi.1 hi.2
  by_contra hle
  have hset : b (j - 1) = true := ((runStarts_iff.1 hj.2).2).resolve_left (by omega)
  rw [hrun.clear (j - 1) (by dsimp only; omega) (by dsimp only at hle; omega)] at hset
  cases hset

theorem nodup_runsOf (b : ℕ → Bool) (n : ℕ) : (runsOf b n).Nodup := by
  refine (sorted_runsOf b n).imp_of_mem fun {x y} hx hy hlt => ?_
  rintro rfl
  rw [stop] at hlt
  omega

/-- Every clear bit lies in a run. -/
theorem exists_isRun (hi : i < n) (hbit : b i = false) :
    ∃ r, IsRun b n r ∧ r.startingIndex ≤ i ∧ i < r.stop := by
  induction i with
  | zero =>
    have hrun := isRun_clearFrom hi (runStarts_iff.2 ⟨hbit, .inl rfl⟩)
    exact ⟨_, hrun, le_rfl, hrun.start_lt_stop⟩
  | succ i ih =>
    by_cases hbefore : b i = true
    · have hrun := isRun_clearFrom hi (runStarts_iff.2 ⟨hbit, .inr hbefore⟩)
      exact ⟨_, hrun, le_rfl, hrun.start_lt_stop⟩
    · -- the run of the bit before cannot end here
      obtain ⟨r, hr, hstart, hstop⟩ := ih (by omega) (Bool.eq_false_of_not_eq_true hbefore)
      refine ⟨r, hr, by omega, lt_of_le_of_ne hstop fun heq => ?_⟩
      rcases hr.after with hend | hset
      · omega
      · rw [← heq, hbit] at hset
        cases hset

/-- Two runs that share a bit are one. -/
theorem IsRun.eq_of_mem (h : IsRun b n r) (h' : IsRun b n r')
    (hi : r.startingIndex ≤ i ∧ i < r.stop) (hi' : r'.startingIndex ≤ i ∧ i < r'.stop) :
    r = r' := by
  have key : ∀ {r r' : RtlBitmapRun}, IsRun b n r → IsRun b n r' →
      r.startingIndex ≤ i ∧ i < r.stop → r'.startingIndex ≤ i ∧ i < r'.stop →
      r.startingIndex ≤ r'.startingIndex := fun {r r'} h h' hi hi' => by
    by_contra hlt
    have hset := h.before.resolve_left (by omega)
    rw [h'.clear _ (by omega) (by omega)] at hset
    cases hset
  exact h.eq_of_start h' (le_antisymm (key h h' hi hi') (key h' h hi' hi))

/-- The length of a run of bits with the value `v` that starts at a bit. -/
def RunLength (b : ℕ → Bool) (n : ℕ) (v : Bool) (s l : ℕ) : Prop :=
  l ≤ n - s ∧ (∀ i, s ≤ i → i < s + l → b i = v) ∧ (l < n - s → b (s + l) = !v)

/-- The next clear run from a bit on. When there is none, its start is `n`. -/
structure NextRun (b : ℕ → Bool) (n from_ : ℕ) (r : RtlBitmapRun) : Prop where
  from_le : from_ ≤ r.startingIndex
  start_le : r.startingIndex ≤ n
  set : ∀ i, from_ ≤ i → i < r.startingIndex → b i = true
  start : r.startingIndex < n → b r.startingIndex = false
  run : RunLength b n false r.startingIndex r.numberOfBits

theorem NextRun.stop_le (h : NextRun b n from_ r) : r.stop ≤ n := by
  have hle := h.run.1
  have hstart := h.start_le
  rw [stop]
  omega

/-- Two run lengths put together: first the set bits, then the clear ones. -/
theorem RunLength.nextRun {from_ l l' : ℕ} (hfrom : from_ ≤ n) (h : RunLength b n true from_ l)
    (h' : RunLength b n false (from_ + l) l') : NextRun b n from_ ⟨from_ + l, l'⟩ := by
  obtain ⟨hle, hset, hstop⟩ := h
  exact ⟨Nat.le_add_right _ _, by dsimp only; omega, hset,
    fun hlt => hstop (by dsimp only at hlt; omega), h'⟩

/-- From between two runs, the next run is the second one. -/
theorem NextRun.eq (h : NextRun b n from_ r') (hr : IsRun b n r) (hfrom : from_ ≤ r.startingIndex)
    (hset : ∀ i, from_ ≤ i → i < r.startingIndex → b i = true) : r' = r := by
  have hlt := hr.start_lt_stop
  have hclear := hr.clear _ le_rfl hlt
  have hstart : r'.startingIndex = r.startingIndex := by
    rcases lt_trichotomy r'.startingIndex r.startingIndex with hlt' | heq | hgt
    · have h₁ := h.start (by have := hr.stop_le; omega)
      rw [hset _ h.from_le hlt'] at h₁
      cases h₁
    · exact heq
    · rw [h.set _ hfrom hgt] at hclear
      cases hclear
  obtain ⟨hle, hrun, hstop⟩ := h.run
  have hpos : 0 < r'.numberOfBits := by
    by_contra h0
    have h₁ := hstop (by have := hr.stop_le; omega)
    rw [show r'.numberOfBits = 0 by omega, add_zero, hstart, hclear] at h₁
    cases h₁
  refine IsRun.eq_of_start ⟨hpos, h.stop_le, hrun, ?_, ?_⟩ hr hstart
  · rw [hstart]
    exact hr.before
  · rcases hle.eq_or_lt with heq | hlt'
    · rw [stop]
      exact .inl (by omega)
    · exact .inr (hstop hlt')

/-- From inside a run, the next run is what is left of it. -/
theorem NextRun.of_inside (h : NextRun b n from_ r') (hr : IsRun b n r)
    (hin : r.startingIndex < from_) (hlt : from_ < r.stop) : from_ + r'.numberOfBits = r.stop := by
  have hle := hr.stop_le
  have hstart : r'.startingIndex = from_ := by
    by_contra hne
    have h₁ := h.set from_ le_rfl (lt_of_le_of_ne h.from_le (Ne.symm hne))
    rw [hr.clear from_ hin.le hlt] at h₁
    cases h₁
  obtain ⟨hmax, hrun, hstop⟩ := h.run
  rw [hstart] at hmax hrun hstop
  rcases lt_trichotomy (from_ + r'.numberOfBits) r.stop with hshort | heq | hlong
  · have h₁ := hstop (by omega)
    rw [hr.clear _ (by omega) hshort] at h₁
    cases h₁
  · exact heq
  · have hset := hr.after.resolve_left (by omega)
    rw [hrun _ (by omega) hlong] at hset
    cases hset

/-- Behind the last run there is no next one. -/
theorem NextRun.of_behind (h : NextRun b n from_ r')
    (hpast : ∀ d ∈ runsOf b n, d.stop ≤ from_) : r'.numberOfBits = 0 := by
  have hend : ¬ r'.startingIndex < n := fun hlt => by
    obtain ⟨d, hd, -, hstop⟩ := exists_isRun hlt (h.start hlt)
    have hle := hpast d (mem_runsOf.2 hd)
    have hfrom := h.from_le
    omega
  have hle := h.run.1
  omega

end Runs

/-! ### The bits as the routine sees them -/

/-- The number of words of the bitmap, counted from the first one, does not fit the sum. -/
def Wraps (bm : RtlBitmap 32) : Prop := 2 ^ 32 - 31 ≤ bm.sizeOfBitMap

instance (bm : RtlBitmap 32) : Decidable bm.Wraps := inferInstanceAs (Decidable (_ ≤ _))

/-- A bit as a routine that starts in the first word sees it. -/
def seenBit (bm : RtlBitmap 32) (i : ℕ) : Bool :=
  if bm.Wraps ∧ 32 ≤ i then bm.rtlTestBit 31 else bm.rtlTestBit i

/-- The maximal clear runs of a bitmap. -/
def clearRuns (bm : RtlBitmap 32) : List RtlBitmapRun :=
  runsOf bm.rtlTestBit bm.sizeOfBitMap

/-- The maximal clear runs as the routine sees them. -/
def seenRuns (bm : RtlBitmap 32) : List RtlBitmapRun :=
  runsOf bm.seenBit bm.sizeOfBitMap

section Seen

theorem seenBit_of_not_wraps (h : ¬ bm.Wraps) : bm.seenBit = bm.rtlTestBit := by
  funext i
  rw [seenBit, if_neg fun hi => h hi.1]

theorem seenBit_of_lt (h : i < 32) : bm.seenBit i = bm.rtlTestBit i := by
  rw [seenBit, if_neg fun hi => absurd hi.2 (by omega)]

theorem seenBit_of_le (hwraps : bm.Wraps) (h : 31 ≤ i) : bm.seenBit i = bm.rtlTestBit 31 := by
  rcases h.eq_or_lt with rfl | hlt
  · exact seenBit_of_lt (by decide)
  · rw [seenBit, if_pos ⟨hwraps, hlt⟩]

/-- In a bitmap that is not too large, the routine sees the clear runs. -/
theorem seenRuns_of_not_wraps (h : ¬ bm.Wraps) : bm.seenRuns = bm.clearRuns := by
  rw [seenRuns, seenBit_of_not_wraps h, clearRuns]

/-- How the words are read for the length of a run with the value `v`. -/
def reading (v : Bool) : BitVec 32 → BitVec 32 :=
  if v then (~~~ ·) else id

theorem runLength_lengthOfRun (bm : RtlBitmap 32) (v : Bool) (hsize : bm.sizeOfBitMap < 2 ^ 32)
    (hs : s < bm.sizeOfBitMap) :
    RunLength bm.rtlTestBit bm.sizeOfBitMap v s (lengthOfRun v bm s maxIndex) := by
  have hmax : min maxIndex (bm.sizeOfBitMap - s) = bm.sizeOfBitMap - s :=
    min_eq_right (by rw [maxIndex]; omega)
  have hspec := lengthOfRun_spec (by decide) v hs maxIndex
  rwa [hmax] at hspec

/-- The sum does not wrap: the length is that of the run. -/
theorem ulongLengthOfRun_of_lt (v : Bool)
    (hsum : s % 32 + (bm.sizeOfBitMap - s) + 32 - 1 < 0x100000000) :
    ulongLengthOfRun (reading v) bm s maxIndex = lengthOfRun v bm s maxIndex := by
  have hmin : s % 32 + min maxIndex (bm.sizeOfBitMap - s) + 32 - 1 < 0x100000000 := by
    omega
  have heq : ∀ f, ulongLengthOfRun f bm s maxIndex = rtlpGetLengthOfRun f bm s maxIndex :=
    fun f => by
      rw [ulongLengthOfRun]
      simp only [Nat.mod_eq_of_lt hmin]
      rfl
  cases v <;> exact heq _

/-- The sum wraps: only the first word is read, as in a bitmap that has no other. -/
theorem ulongLengthOfRun_of_wraps (v : Bool) (hwraps : bm.Wraps)
    (hsize : bm.sizeOfBitMap < 2 ^ 32) (hs : s < 32) :
    ulongLengthOfRun (reading v) bm s maxIndex =
      if lengthOfRun v ⟨32, bm.buffer⟩ s maxIndex = 32 - s then bm.sizeOfBitMap - s
      else lengthOfRun v ⟨32, bm.buffer⟩ s maxIndex := by
  rw [Wraps] at hwraps
  have hmax : min maxIndex (bm.sizeOfBitMap - s) = bm.sizeOfBitMap - s :=
    min_eq_right (by rw [maxIndex]; omega)
  have hmax' : min maxIndex (32 - s) = 32 - s := min_eq_right (by rw [maxIndex]; omega)
  have hdiv : s / 32 = 0 := Nat.div_eq_of_lt hs
  have hmod : s % 32 = s := Nat.mod_eq_of_lt hs
  have hwords : (s + (bm.sizeOfBitMap - s) + 32 - 1) % 0x100000000 / 32 = 0 := by omega
  have hword : (s + (32 - s) + 32 - 1) / 32 = 1 := by omega
  have heq : ∀ f, ulongLengthOfRun f bm s maxIndex =
      if rtlpGetLengthOfRun f ⟨32, bm.buffer⟩ s maxIndex = 32 - s then bm.sizeOfBitMap - s
      else rtlpGetLengthOfRun f ⟨32, bm.buffer⟩ s maxIndex := fun f => by
    have hone : rtlpGetLengthOfRun f ⟨32, bm.buffer⟩ s maxIndex =
        if f (bm.word 0) >>> s <<< s = 0 then 32 - s
        else if 32 - s < 32 - s + bitScanForward (f (bm.word 0) >>> s <<< s) - 32 then 32 - s
        else 32 - s + bitScanForward (f (bm.word 0) >>> s <<< s) - 32 := by
      rw [rtlpGetLengthOfRun, if_neg (not_le.2 hs)]
      simp only [hmax', hdiv, hmod, hword, skipZeroWords, zero_add, Nat.sub_self, one_mul]
      rfl
    rw [hone, ulongLengthOfRun, if_neg (by omega)]
    simp only [hmax, hdiv, hmod, hwords, skipZeroWords, zero_add, Nat.zero_sub, one_mul]
    by_cases hzero : f (bm.word 0) >>> s <<< s = 0
    · rw [if_pos hzero, if_pos hzero, if_pos rfl]
    · have hbit := (bitScanForward_spec hzero).1
      have hshort : ¬ 32 - s < 32 - s + bitScanForward (f (bm.word 0) >>> s <<< s) - 32 := by
        omega
      simp only [if_neg hzero, if_neg hshort]
      rw [if_neg (by omega), if_neg (by omega)]
  cases v <;> exact heq _

/-- **The length of a run as the routine sees the bits.** -/
theorem runLength_seen (v : Bool) (hsize : bm.sizeOfBitMap < 2 ^ 32)
    (hs : s < bm.sizeOfBitMap) (hseen : ¬ bm.Wraps ∨ s < 32) :
    RunLength bm.seenBit bm.sizeOfBitMap v s (ulongLengthOfRun (reading v) bm s maxIndex) := by
  by_cases hwraps : bm.Wraps
  · have hs32 := hseen.resolve_left (not_not.2 hwraps)
    obtain ⟨hle, hrun, hstop⟩ : RunLength bm.rtlTestBit 32 v s
        (lengthOfRun v ⟨32, bm.buffer⟩ s maxIndex) :=
      runLength_lengthOfRun ⟨32, bm.buffer⟩ v (show 32 < 2 ^ 32 by decide) hs32
    have hsize' : 2 ^ 32 - 31 ≤ bm.sizeOfBitMap := hwraps
    rw [ulongLengthOfRun_of_wraps v hwraps hsize hs32]
    generalize lengthOfRun v ⟨32, bm.buffer⟩ s maxIndex = l at *
    split
    · -- the run reaches the end of the word, and is taken to reach the end of the bitmap
      refine ⟨le_rfl, fun i hsi hi => ?_, fun h => absurd h (lt_irrefl _)⟩
      rcases Nat.lt_or_ge i 32 with hlt | hge
      · rw [seenBit_of_lt hlt]
        exact hrun i hsi (by omega)
      · rw [seenBit_of_le hwraps (by omega)]
        exact hrun 31 (by omega) (by omega)
    · refine ⟨by omega, fun i hsi hi => ?_, fun _ => ?_⟩
      · rw [seenBit_of_lt (by omega)]
        exact hrun i hsi hi
      · rw [seenBit_of_lt (by omega)]
        exact hstop (by omega)
  · rw [seenBit_of_not_wraps hwraps, ulongLengthOfRun_of_lt]
    · exact runLength_lengthOfRun bm v hsize hs
    · rw [Wraps] at hwraps
      omega

theorem runLength_end (b : ℕ → Bool) (n : ℕ) (v : Bool) : RunLength b n v n 0 :=
  ⟨Nat.zero_le _, fun i hi hlt => absurd hlt (by omega), fun h => absurd h (by omega)⟩

section

variable (hsize : bm.sizeOfBitMap < 2 ^ 32)
include hsize

/-- From the first word, the next run is the next one of the bits the routine sees. -/
theorem nextRun_seen (hfrom : from_ ≤ bm.sizeOfBitMap)
    (hseen : ¬ bm.Wraps ∨ from_ < 32 ∨ from_ = bm.sizeOfBitMap) :
    NextRun bm.seenBit bm.sizeOfBitMap from_ (bm.rtlFindNextForwardRunClear from_) := by
  rw [rtlFindNextForwardRunClear]
  rcases hfrom.eq_or_lt with rfl | hlt
  · rw [if_pos le_rfl]
    exact (runLength_end _ _ true).nextRun le_rfl (runLength_end _ _ false)
  · rw [if_neg (not_le.2 hlt)]
    have hset := runLength_seen true hsize hlt (hseen.imp_right fun h => h.resolve_right hlt.ne)
    refine hset.nextRun hfrom ?_
    obtain ⟨hle, hbits, hstop⟩ := hset
    change RunLength _ _ _ (from_ + ulongLengthOfRun (reading true) bm from_ maxIndex)
      (ulongLengthOfRun (reading false) bm
        (from_ + ulongLengthOfRun (reading true) bm from_ maxIndex) maxIndex)
    generalize ulongLengthOfRun (reading true) bm from_ maxIndex = l at *
    rcases (show from_ + l ≤ bm.sizeOfBitMap by omega).eq_or_lt with heq | hlt'
    · rw [heq, ulongLengthOfRun, if_pos le_rfl]
      exact runLength_end _ _ _
    · refine runLength_seen false hsize hlt' ?_
      -- a set run that leaves the first word is seen to reach the end of the bitmap
      by_contra hno
      rw [not_or, not_not] at hno
      have hfirst := (hseen.resolve_left (not_not.2 hno.1)).resolve_right hlt.ne
      have h₁ := hstop (by omega)
      have h₂ := hbits 31 (by omega) (by omega)
      rw [seenBit_of_le hno.1 (by omega)] at h₁ h₂
      rw [h₁] at h₂
      cases h₂

/-- From behind the first word, the routine reads the bits that are there. -/
theorem rtlFindNextForwardRunClear_le (hfrom : from_ < bm.sizeOfBitMap) (hge : 32 ≤ from_) :
    from_ + (bm.rtlFindNextForwardRunClear from_).numberOfBits ≤ bm.sizeOfBitMap := by
  have hlen : ∀ v s, from_ ≤ s → s < bm.sizeOfBitMap →
      ulongLengthOfRun (reading v) bm s maxIndex ≤ bm.sizeOfBitMap - s := fun v s hs hlt => by
    rw [ulongLengthOfRun_of_lt v (by omega)]
    exact (runLength_lengthOfRun bm v hsize hlt).1
  rw [rtlFindNextForwardRunClear, if_neg (not_le.2 hfrom)]
  change from_ + ulongLengthOfRun (reading false) bm
    (from_ + ulongLengthOfRun (reading true) bm from_ maxIndex) maxIndex ≤ _
  have hset := hlen true from_ le_rfl hfrom
  generalize ulongLengthOfRun (reading true) bm from_ maxIndex = l at *
  rcases (show from_ + l ≤ bm.sizeOfBitMap by omega).eq_or_lt with heq | hlt
  · rw [heq, ulongLengthOfRun, if_pos le_rfl]
    omega
  · have := hlen false (from_ + l) (by omega) hlt
    omega

omit hsize in
/-- What is seen of a bitmap that is too large: runs in the first word, the last one of which
may seem to reach the end of the bitmap. -/
theorem isRun_seen (hwraps : bm.Wraps) {r : RtlBitmapRun}
    (hr : IsRun bm.seenBit bm.sizeOfBitMap r) :
    r.startingIndex < 32 ∧ (r.stop < 32 ∨ r.stop = bm.sizeOfBitMap) := by
  have hlt := hr.start_lt_stop
  constructor
  · by_contra hge
    have hset := hr.before.resolve_left (by omega)
    have hclear := hr.clear _ le_rfl hlt
    rw [seenBit_of_le hwraps (by omega)] at hset hclear
    rw [hset] at hclear
    cases hclear
  · by_contra hno
    rw [not_or] at hno
    have hset := hr.after.resolve_left hno.2
    have hclear := hr.clear (r.stop - 1) (by omega) (by omega)
    rw [seenBit_of_le hwraps (by omega)] at hset hclear
    rw [hset] at hclear
    cases hclear

/-- **The routine goes through the runs it sees.** -/
theorem shows_seenRuns : Shows bm.rtlFindNextForwardRunClear bm.sizeOfBitMap bm.seenRuns := by
  have hrun : ∀ {past r rest}, bm.seenRuns = past ++ r :: rest →
      IsRun bm.seenBit bm.sizeOfBitMap r := fun {past r rest} h =>
    mem_runsOf.1 (show r ∈ bm.seenRuns by rw [h]; simp)
  refine ⟨sorted_runsOf _ _, fun r hr => (mem_runsOf.1 hr).pos,
    fun r hr => (mem_runsOf.1 hr).stop_le, ?_, ?_, ?_⟩
  · intro past r rest from_ hruns hpast hfrom
    have hr := hrun hruns
    have hlt := hr.start_lt_stop
    have hle := hr.stop_le
    have hsorted : (past ++ r :: rest).Pairwise fun x y => x.stop < y.startingIndex := by
      rw [← hruns]
      exact sorted_runsOf _ _
    have hin : ¬ bm.Wraps ∨ from_ < 32 ∨ from_ = bm.sizeOfBitMap := by
      by_cases hwraps : bm.Wraps
      · have := (isRun_seen hwraps hr).1
        exact .inr (.inl (by omega))
      · exact .inl hwraps
    refine (nextRun_seen hsize (by omega) hin).eq hr hfrom fun i hi hir => ?_
    -- a clear bit before the run would lie in a run of its own
    by_contra hbit
    obtain ⟨d, hd, hdi, hid⟩ := exists_isRun (n := bm.sizeOfBitMap) (by omega)
      (Bool.eq_false_of_not_eq_true hbit)
    have hmem : d ∈ past ++ r :: rest := by
      rw [← hruns]
      exact mem_runsOf.2 hd
    rcases mem_append.1 hmem with hmem | hmem
    · have := hpast d hmem
      omega
    · rcases mem_cons.1 hmem with rfl | hmem
      · omega
      · have := (pairwise_cons.1 (pairwise_append.1 hsorted).2.1).1 d hmem
        omega
  · intro past r rest from_ hruns hstart hstop
    have hr := hrun hruns
    have hle := hr.stop_le
    by_cases hin : ¬ bm.Wraps ∨ from_ < 32 ∨ from_ = bm.sizeOfBitMap
    · have heq := (nextRun_seen hsize (by omega) hin).of_inside hr hstart hstop
      rw [stop] at heq hstop ⊢
      exact ⟨by omega, by omega, fun h => by omega⟩
    · -- behind the first word of a bitmap that is too large: the run is the last one
      rw [not_or, not_not] at hin
      have hend := (isRun_seen hin.1 hr).2.resolve_left (by omega)
      have hlen : from_ + (bm.rtlFindNextForwardRunClear from_).numberOfBits ≤ bm.sizeOfBitMap :=
        rtlFindNextForwardRunClear_le hsize (by omega) (by omega)
      have hrest : rest = [] := by
        have hsorted := sorted_runsOf bm.seenBit bm.sizeOfBitMap
        change bm.seenRuns.Pairwise _ at hsorted
        rw [hruns] at hsorted
        refine eq_nil_iff_forall_not_mem.2 fun d hd => ?_
        have hlt := (pairwise_cons.1 (pairwise_append.1 hsorted).2.1).1 d hd
        have hd' : IsRun bm.seenBit bm.sizeOfBitMap d :=
          mem_runsOf.1 (show d ∈ bm.seenRuns by rw [hruns]; simp [hd])
        have h₁ := hd'.start_lt_stop
        have h₂ := hd'.stop_le
        omega
      rw [stop] at hend ⊢
      exact ⟨by omega, by omega, fun _ => hrest⟩
  · intro from_ hfrom hpast
    have hin : from_ ≤ bm.sizeOfBitMap ∧
        (¬ bm.Wraps ∨ from_ < 32 ∨ from_ = bm.sizeOfBitMap) := by
      rcases hfrom with rfl | ⟨d, hd, rfl⟩
      · exact ⟨Nat.zero_le _, .inr (.inl (by decide))⟩
      · have hd' := mem_runsOf.1 hd
        refine ⟨hd'.stop_le, ?_⟩
        by_cases hwraps : bm.Wraps
        · exact .inr (isRun_seen hwraps hd').2
        · exact .inl hwraps
    exact (nextRun_seen hsize hin.1 hin.2).of_behind hpast

/-- A run that is seen where there is none is longer than all others. -/
theorem longest_of_not_clear (hr : r ∈ bm.seenRuns) (hclear : r ∉ bm.clearRuns) :
    ∀ d ∈ bm.seenRuns, d ≠ r → d.numberOfBits < r.numberOfBits := by
  have hwraps : bm.Wraps := by
    by_contra hno
    rw [seenRuns_of_not_wraps hno] at hr
    exact hclear hr
  have hr' := mem_runsOf.1 hr
  obtain ⟨hstart, hstop⟩ := isRun_seen hwraps hr'
  have hend : r.stop = bm.sizeOfBitMap := by
    refine hstop.resolve_left fun hlt => hclear (mem_runsOf.2 ?_)
    -- a run inside the first word is there
    refine ⟨hr'.pos, hr'.stop_le, fun i hi hir => ?_, hr'.before.imp_right fun h => ?_, ?_⟩
    · rw [← seenBit_of_lt (by omega)]
      exact hr'.clear i hi hir
    · rwa [seenBit_of_lt (by omega)] at h
    · refine hr'.after.imp_right fun h => ?_
      rwa [seenBit_of_lt hlt] at h
  intro d hd hne
  have hd' := mem_runsOf.1 hd
  have hlt := hd'.start_lt_stop
  have hle := hd'.stop_le
  have hbefore : d.stop ≤ r.startingIndex := by
    by_contra hafter
    refine hne (hd'.eq_of_mem hr' (i := max d.startingIndex r.startingIndex) ?_ ?_)
    · omega
    · omega
  rw [Wraps] at hwraps
  rw [stop] at hbefore hend
  omega

end

end Seen

/-! ### When the longest runs are found -/

/-- The entry of the array that was replaced, and the other ones. -/
theorem exists_split_of_lt (hi : i < a.length) (m : RtlBitmapRun) :
    ∃ a₁ a₂, a = a₁ ++ runAt a i :: a₂ ∧ a.set i m = a₁ ++ m :: a₂ := by
  refine ⟨a.take i, a.drop (i + 1), ?_, set_eq_take_append_cons_drop.trans (if_pos hi)⟩
  have h : a.set i (runAt a i) = a.take i ++ runAt a i :: a.drop (i + 1) :=
    set_eq_take_append_cons_drop.trans (if_pos hi)
  rwa [set_runAt] at h

theorem runAt_mem (hi : i < a.length) : runAt a i ∈ a := by
  simp [runAt, getD_eq_getElem?_getD, hi]

/-- A run that is longer than all others is selected. -/
theorem mem_set_of_longest (hi : Smallest a i) (hr : r ∈ a ++ later)
    (hlongest : ∀ d ∈ a ++ later, d ≠ r → d.numberOfBits < r.numberOfBits)
    (hnil : a = [] → later = []) : r ∈ a.set i (later.foldl longer (runAt a i)) := by
  rcases hi with ⟨rfl, -⟩ | ⟨hi, -⟩
  · simp [hnil rfl] at hr
  · obtain ⟨a₁, a₂, ha, hset⟩ := exists_split_of_lt hi (later.foldl longer (runAt a i))
    rw [hset]
    obtain ⟨hxm, hlm⟩ := le_foldl_longer (runAt a i) later
    have hmem : later.foldl longer (runAt a i) ∈ a ++ later := by
      rcases foldl_longer_mem (runAt a i) later with h | h
      · rw [h]
        exact mem_append_left _ (runAt_mem hi)
      · exact mem_append_right _ h
    have hbest : r.numberOfBits ≤ (later.foldl longer (runAt a i)).numberOfBits →
        later.foldl longer (runAt a i) = r := fun hle => by
      by_contra hne
      exact absurd (hlongest _ hmem hne) (not_lt.2 hle)
    generalize later.foldl longer (runAt a i) = m at *
    generalize runAt a i = x at *
    subst ha
    simp only [mem_append, mem_cons] at hr ⊢
    rcases hr with (hr | rfl | hr) | hr
    · exact .inl hr
    · exact .inr (.inl (hbest hxm).symm)
    · exact .inr (.inr hr)
    · exact .inr (.inl (hbest (hlm r hr)).symm)

/-- What is asked of `RtlFindClearRuns` with `LocateLongestRuns`: as many different clear runs as
there are and as the array can hold, and none left out that is longer than one of them. -/
def LongestRunsExact (bm : RtlBitmap 32) (k : ℕ) : Prop :=
  ∃ a, bm.rtlFindClearRuns k true = .ok a ∧ a.length = min k bm.clearRuns.length ∧ a.Nodup ∧
    (∀ r ∈ a, r ∈ bm.clearRuns) ∧
    ∀ u ∈ bm.clearRuns, u ∉ a → ∀ r ∈ a, u.numberOfBits ≤ r.numberOfBits

/-- **The bitmaps whose longest runs are found.** Of the runs behind those that fill the array,
no two are longer than two of them. The other fields are about the bitmaps in which the sum of
the routine wraps. -/
structure SelectsLongest (bm : RtlBitmap 32) (k : ℕ) : Prop where
  /-- Nothing is taken for a run that is not one. -/
  seen : ∀ r ∈ bm.seenRuns, r ∈ bm.clearRuns
  /-- There are enough runs in what the routine sees, or it sees them all. -/
  enough : k ≤ bm.seenRuns.length ∨ ∀ r ∈ bm.clearRuns, r ∈ bm.seenRuns
  later : ∀ y ∈ bm.seenRuns.drop k, ∀ z ∈ bm.seenRuns.drop k, y ≠ z →
    shorter (bm.seenRuns.take k) (min y.numberOfBits z.numberOfBits) ≤ 1
  /-- A run that is not seen could not have displaced another one. -/
  unseen : ∀ u ∈ bm.clearRuns, u ∉ bm.seenRuns →
    shorter (bm.seenRuns.take k) u.numberOfBits ≤ 1 ∧
      (shorter (bm.seenRuns.take k) u.numberOfBits = 0 ∨
        ∃ y ∈ bm.seenRuns.drop k, u.numberOfBits ≤ y.numberOfBits)

/-- In a bitmap that is not too large, only the later runs matter. -/
theorem selectsLongest_iff_of_not_wraps (h : ¬ bm.Wraps) (k : ℕ) :
    bm.SelectsLongest k ↔
      ∀ y ∈ bm.clearRuns.drop k, ∀ z ∈ bm.clearRuns.drop k, y ≠ z →
        shorter (bm.clearRuns.take k) (min y.numberOfBits z.numberOfBits) ≤ 1 := by
  have heq := seenRuns_of_not_wraps h
  refine ⟨fun hsel => ?_, fun hlater => ⟨?_, .inr ?_, ?_, ?_⟩⟩
  · rw [← heq]
    exact hsel.later
  · rw [heq]
    exact fun r hr => hr
  · rw [heq]
    exact fun r hr => hr
  · rwa [heq]
  · rw [heq]
    exact fun u hu hnot => absurd hu hnot

/-- What the selection leaves out, for the place of the smallest run the first loop gives. -/
theorem leftOut_set_iff {a later all : List RtlBitmapRun} (hi : Smallest a i)
    (hnil : a = [] → later = []) (hnodup : (a ++ later).Nodup) (hall : ∀ r ∈ a ++ later, r ∈ all) :
    (∀ u ∈ all, u ∉ a.set i (later.foldl longer (runAt a i)) →
        ∀ r ∈ a.set i (later.foldl longer (runAt a i)), u.numberOfBits ≤ r.numberOfBits) ↔
      (∀ y ∈ later, ∀ z ∈ later, y ≠ z →
        shorter a (min y.numberOfBits z.numberOfBits) ≤ 1) ∧
      ∀ u ∈ all, u ∉ a ++ later → shorter a u.numberOfBits ≤ 1 ∧
        (shorter a u.numberOfBits = 0 ∨ ∃ y ∈ later, u.numberOfBits ≤ y.numberOfBits) := by
  rcases hi with ⟨rfl, -⟩ | ⟨hi, hle⟩
  · simp [hnil rfl, shorter]
  · obtain ⟨a₁, a₂, ha, hset⟩ := exists_split_of_lt hi (later.foldl longer (runAt a i))
    rw [hset]
    generalize runAt a i = x at *
    subst ha
    exact leftOut_iff hnodup hall hle

theorem nodup_set_longer (hi : Smallest a i)
    (hnodup : (a ++ later).Nodup) : (a.set i (later.foldl longer (runAt a i))).Nodup := by
  obtain ⟨ha, hlater, hdisj⟩ := nodup_append.1 hnodup
  rcases hi with ⟨rfl, -⟩ | ⟨hi, -⟩
  · simp
  · rcases foldl_longer_mem (runAt a i) later with h | h
    · rwa [h, set_runAt]
    · refine ha.set fun hmem => ?_
      exact hdisj _ hmem _ h rfl

/-- **`RtlFindClearRuns` finds the longest runs** exactly of these bitmaps. -/
theorem longestRunsExact_iff (bm : RtlBitmap 32) (hsize : bm.sizeOfBitMap < 2 ^ 32) {k : ℕ}
    (hk : 1 ≤ k) : bm.LongestRunsExact k ↔ bm.SelectsLongest k := by
  obtain ⟨i, hi, hresult⟩ := (shows_seenRuns hsize).selectRuns_eq hk
  have hsplit : bm.seenRuns.take k ++ bm.seenRuns.drop k = bm.seenRuns :=
    take_append_drop k bm.seenRuns
  have hnodup : (bm.seenRuns.take k ++ bm.seenRuns.drop k).Nodup := by
    rw [hsplit]
    exact nodup_runsOf _ _
  have hnil : bm.seenRuns.take k = [] → bm.seenRuns.drop k = [] := fun h => by
    rcases take_eq_nil_iff.1 h with h0 | h0
    · omega
    · rw [h0, drop_nil]
  have hmem : ∀ r ∈ (bm.seenRuns.take k).set i
      ((bm.seenRuns.drop k).foldl longer (runAt (bm.seenRuns.take k) i)), r ∈ bm.seenRuns :=
    fun r hr => by
      rcases hi with ⟨h, -⟩ | ⟨hlt, -⟩
      · simp [h] at hr
      · rcases mem_or_eq_of_mem_set hr with h | rfl
        · exact mem_of_mem_take h
        · rcases foldl_longer_mem (runAt (bm.seenRuns.take k) i) (bm.seenRuns.drop k) with h | h
          · rw [h]
            exact mem_of_mem_take (runAt_mem hlt)
          · exact mem_of_mem_drop h
  constructor
  · rintro ⟨a, hrun, hlength, -, hclear, hout⟩
    obtain rfl : _ = a := Except.ok.inj (hresult.symm.trans hrun)
    have hseen : ∀ r ∈ bm.seenRuns, r ∈ bm.clearRuns := fun r hr => by
      by_contra hnot
      refine hnot (hclear r (mem_set_of_longest hi ?_ ?_ hnil))
      · rwa [hsplit]
      · rw [hsplit]
        exact longest_of_not_clear hsize hr hnot
    rw [leftOut_set_iff hi hnil hnodup (by rwa [hsplit]), hsplit] at hout
    refine ⟨hseen, ?_, hout.1, hout.2⟩
    rcases Nat.lt_or_ge bm.seenRuns.length k with hlt | hge
    · rw [length_set, length_take] at hlength
      have hperm := (subperm_of_subset (nodup_runsOf _ _) hseen).perm_of_length_le
        (by change bm.clearRuns.length ≤ bm.seenRuns.length; omega)
      exact .inr fun r hr => hperm.mem_iff.2 hr
    · exact .inl hge
  · intro h
    refine ⟨_, hresult, ?_, nodup_set_longer hi hnodup, fun r hr => h.seen r (hmem r hr), ?_⟩
    · rw [length_set, length_take]
      have hle : bm.seenRuns.length ≤ bm.clearRuns.length :=
        (subperm_of_subset (nodup_runsOf _ _) h.seen).length_le
      rcases h.enough with henough | hall
      · omega
      · have hge : bm.clearRuns.length ≤ bm.seenRuns.length :=
          (subperm_of_subset (nodup_runsOf _ _) hall).length_le
        rw [le_antisymm hle hge]
    · rw [leftOut_set_iff hi hnil hnodup (by rw [hsplit]; exact h.seen), hsplit]
      exact ⟨h.later, h.unseen⟩

/-- The array holds two runs; the third one is longer than both. -/
theorem longestRunsExact_byte : 1 ≤ 2 ∧ (RtlBitmap.mk 8 [0x12#32]).LongestRunsExact 2 :=
  ⟨by decide, (longestRunsExact_iff ⟨8, [0x12#32]⟩ (by decide) (by decide)).2
    ((selectsLongest_iff_of_not_wraps (by decide) 2).2 (by decide))⟩

/-- **A longer run is left out**: two runs of one bit fill the array, and of the two runs of two
bits behind them only the first is taken. -/
theorem longer_run_left_out :
    (RtlBitmap.mk 9 [0x4A#32]).clearRuns = [⟨0, 1⟩, ⟨2, 1⟩, ⟨4, 2⟩, ⟨7, 2⟩] ∧
      (RtlBitmap.mk 9 [0x4A#32]).rtlFindClearRuns 2 true = .ok [⟨4, 2⟩, ⟨2, 1⟩] ∧
      ¬ (RtlBitmap.mk 9 [0x4A#32]).LongestRunsExact 2 := by
  have hruns : (RtlBitmap.mk 9 [0x4A#32]).clearRuns = [⟨0, 1⟩, ⟨2, 1⟩, ⟨4, 2⟩, ⟨7, 2⟩] := by
    decide
  have hresult : (RtlBitmap.mk 9 [0x4A#32]).rtlFindClearRuns 2 true = .ok [⟨4, 2⟩, ⟨2, 1⟩] := by
    rfl
  refine ⟨hruns, hresult, ?_⟩
  rintro ⟨a, hrun, -, -, -, hout⟩
  obtain rfl := Except.ok.inj (hresult.symm.trans hrun)
  exact absurd (hout ⟨7, 2⟩ (by decide) (by decide) ⟨2, 1⟩ (by decide)) (by decide)

end RtlBitmap

end Windivs

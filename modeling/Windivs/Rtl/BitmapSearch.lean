import Windivs.Rtl.Bitmap

/-!
# Searching a bitmap for a number of equal bits

`RtlFindSetBits` and `RtlFindClearBits` look for `NumberToFind` bits in a row, from a hint to
the end of the bitmap and then, when the hint is not zero, once more from its start. Both go
from run to run: skip the bits that are of no use, measure the run after them, and either stop
there or go on behind it.

What one such turn knows is the same for both values of the bits,
`Windivs.RtlBitmap.search_step`: no place it passes over is one. The two loops differ in their
guard. `RtlFindSetBits` goes on while the bits still fit before the margin, and finds the first
place from the hint on (`Windivs.RtlBitmap.rtlFindSetBits_first`). `RtlFindClearBits` wants one
bit more than that. It can afford it at every turn but the first one of a pass, since later
turns start at a set bit; so all that is lost is a bitmap that is clear as a whole and asked for
as a whole (`Windivs.RtlBitmap.clearSearchExact_iff`).
-/

namespace Windivs

variable {cur k margin p q : ℕ} {v : Bool}

namespace RtlBitmap

variable {w : ℕ} {bm : RtlBitmap w}

/-! ### The search for clear bits -/

/-- One turn of the search loop of `RtlFindClearBits`: skip a set run, measure the clear run
after it. -/
def findClearTurn (bm : RtlBitmap w) (numberToFind margin currentBit : ℕ) : Turn ℕ (Option ℕ) :=
  if currentBit + numberToFind < margin then
    let currentBit := currentBit + bm.rtlpGetLengthOfRunSet currentBit maxIndex
    let currentLength := bm.rtlpGetLengthOfRunClear currentBit numberToFind
    if numberToFind ≤ currentLength then .leave (some currentBit)
    else .again (currentBit + currentLength)
  else .leave none

/-- The search loop of `RtlFindClearBits` from a given bit up to a margin, with the budget of
`Windivs.RtlBitmap.findSetFrom`, which is never spent either
(`Windivs.RtlBitmap.findClearFrom_searched`). -/
def findClearFrom (bm : RtlBitmap w) (numberToFind margin currentBit : ℕ) : Option ℕ :=
  (loop (bm.findClearTurn numberToFind margin) (bm.sizeOfBitMap + 2) currentBit).getD none

/-- `RtlFindClearBits`. -/
def rtlFindClearBits (bm : RtlBitmap w) (numberToFind hintIndex : ℕ) : ℕ :=
  if bm.sizeOfBitMap < numberToFind then maxIndex
  else
    let hintIndex := if bm.sizeOfBitMap ≤ hintIndex then 0 else hintIndex
    if numberToFind = 0 then hintIndex / 8 * 8
    else
      match bm.findClearFrom numberToFind bm.sizeOfBitMap hintIndex with
      | some bit => bit
      | none =>
        if hintIndex ≠ 0 then
          let margin := min (hintIndex + numberToFind) bm.sizeOfBitMap
          (bm.findClearFrom numberToFind margin 0).getD maxIndex
        else maxIndex

/-! ### Runs of either value -/

/-- The length of a run of bits with a given value. -/
def lengthOfRun (v : Bool) : RtlBitmap w → ℕ → ℕ → ℕ :=
  if v then rtlpGetLengthOfRunSet else rtlpGetLengthOfRunClear

/-- The two run lengths are one function of the value. -/
theorem lengthOfRun_spec (hw : 0 < w) (v : Bool) {s : ℕ} (hs : s < bm.sizeOfBitMap)
    (maxLength : ℕ) :
    lengthOfRun v bm s maxLength ≤ bm.sizeOfBitMap - s ∧
    (∀ i, s ≤ i → i < s + lengthOfRun v bm s maxLength → bm.rtlTestBit i = v) ∧
    (lengthOfRun v bm s maxLength < min maxLength (bm.sizeOfBitMap - s) →
      bm.rtlTestBit (s + lengthOfRun v bm s maxLength) = !v) := by
  cases v with
  | false => exact rtlpGetLengthOfRunClear_spec bm hw hs maxLength
  | true =>
    obtain ⟨hle, hrun, hstop⟩ := rtlpGetLengthOfRun_spec (~~~ ·) bm hw hs maxLength
    refine ⟨hle, fun i hsi hi => ?_, fun hlt => ?_⟩
    · simpa [stopBit_not bm hw] using hrun i hsi hi
    · have hbit := hstop hlt
      rw [stopBit_not bm hw, Bool.not_eq_true'] at hbit
      exact hbit

/-- `k` bits from `p` on lie in the bitmap and have the value `v`. -/
def Fits (bm : RtlBitmap w) (v : Bool) (k p : ℕ) : Prop :=
  p + k ≤ bm.sizeOfBitMap ∧ ∀ i, p ≤ i → i < p + k → bm.rtlTestBit i = v

instance (bm : RtlBitmap w) (v : Bool) (k p : ℕ) : Decidable (bm.Fits v k p) :=
  inferInstanceAs (Decidable (_ ∧ _))

/-- A bit with the other value is in the way. -/
theorem not_fits_of_bit {k p i : ℕ} (hpi : p ≤ i) (hip : i < p + k)
    (hbit : bm.rtlTestBit i = !v) : ¬ bm.Fits v k p := by
  rintro ⟨-, hall⟩
  rw [hall i hpi hip] at hbit
  cases v <;> cases hbit

/-- **What one turn of a search knows.** The run it measures after the bits it has skipped is
long enough and the first place from `cur` on; or there is no place up to its end, and the
run is followed by the other value or by the end of the bitmap. -/
theorem search_step (hw : 0 < w) (hmax : bm.sizeOfBitMap ≤ maxIndex) (v : Bool) (hk : 1 ≤ k)
    (hcur : cur < bm.sizeOfBitMap) : let start := cur + lengthOfRun (!v) bm cur maxIndex
    let length := lengthOfRun v bm start k
    (k ≤ length → bm.Fits v k start ∧ ∀ q, cur ≤ q → q < start → ¬ bm.Fits v k q) ∧
      (length < k → cur < start + length ∧ start + length ≤ bm.sizeOfBitMap ∧
        (∀ q, cur ≤ q → q < start + length → ¬ bm.Fits v k q) ∧
        (start + length < bm.sizeOfBitMap → bm.rtlTestBit (start + length) = !v)) := by
  intro start length
  obtain ⟨hskip, hskipped, hfirst⟩ := lengthOfRun_spec hw (!v) hcur maxIndex
  have hstart : start ≤ bm.sizeOfBitMap := by
    rw [Nat.le_sub_iff_add_le' hcur.le] at hskip
    exact hskip
  have hbefore : ∀ q, cur ≤ q → q < start → ¬ bm.Fits v k q := fun q hq hlt =>
    not_fits_of_bit le_rfl (by omega) (hskipped q hq hlt)
  rcases hstart.eq_or_lt with hend | hlt
  · -- nothing but bits of the other value up to the end of the bitmap
    have hzero : length = 0 := by cases v <;> exact if_pos hend.ge
    refine ⟨fun hle => by omega, fun _ => ?_⟩
    rw [hzero]
    exact ⟨by omega, hstart, hbefore, fun h => by omega⟩
  · obtain ⟨hlen, hrun, hstop⟩ := lengthOfRun_spec hw v hlt k
    have hbit : bm.rtlTestBit start = v := by
      have h := hfirst (lt_min (by omega) (by omega))
      rwa [Bool.not_not] at h
    refine ⟨fun hle => ⟨⟨by omega, fun i hi hik => hrun i hi (by omega)⟩, hbefore⟩,
      fun hshort => ?_⟩
    have hpos : 0 < length := by
      by_contra hzero
      have h := hstop (by omega)
      rw [show lengthOfRun v bm start k = 0 by omega, add_zero, hbit] at h
      cases v <;> cases h
    refine ⟨by omega, by omega, fun q hq hqlt => ?_, fun hin => hstop (by omega)⟩
    rcases Nat.lt_or_ge q start with hqs | hqs
    · exact hbefore q hq hqs
    · rcases Nat.lt_or_ge (start + length) bm.sizeOfBitMap with hin | hout
      · exact not_fits_of_bit hqlt.le (by omega) (hstop (by omega))
      · rintro ⟨hfit, -⟩
        omega

/-! ### The loop of a search -/

/-- The turn of a search for bits with a given value, as long as a guard lets it go on. -/
def searchTurn (bm : RtlBitmap w) (v : Bool) (k : ℕ) (guard : ℕ → Bool) (cur : ℕ) :
    Turn ℕ (Option ℕ) :=
  if guard cur then
    let start := cur + lengthOfRun (!v) bm cur maxIndex
    let length := lengthOfRun v bm start k
    if k ≤ length then .leave (some start) else .again (start + length)
  else .leave none

theorem findSetTurn_eq (bm : RtlBitmap w) (k margin : ℕ) :
    bm.findSetTurn k margin = bm.searchTurn true k fun c => c + k ≤ margin := by
  funext c
  simp only [searchTurn, decide_eq_true_eq]
  rfl

theorem findClearTurn_eq (bm : RtlBitmap w) (k margin : ℕ) :
    bm.findClearTurn k margin = bm.searchTurn false k fun c => c + k < margin := by
  funext c
  simp only [searchTurn, decide_eq_true_eq]
  rfl

/-- The first place from a bit on. -/
def FirstFit (bm : RtlBitmap w) (v : Bool) (k from_ p : ℕ) : Prop :=
  from_ ≤ p ∧ bm.Fits v k p ∧ ∀ q, from_ ≤ q → q < p → ¬ bm.Fits v k q

/-- What a search from `cur` on has come to: the first place, or a bit where its guard has
stopped it and before which there is no place. Unless this is where it has started, there is a
bit of the other value or the end of the bitmap there. -/
def Searched (bm : RtlBitmap w) (v : Bool) (k : ℕ) (guard : ℕ → Bool) (cur : ℕ) :
    Option ℕ → Prop
  | some p => bm.FirstFit v k cur p
  | none => ∃ c, cur ≤ c ∧ guard c = false ∧ (∀ q, cur ≤ q → q < c → ¬ bm.Fits v k q) ∧
      (c = cur ∨ bm.sizeOfBitMap ≤ c ∨ bm.rtlTestBit c = !v)

section

variable (hw : 0 < w) (hmax : bm.sizeOfBitMap ≤ maxIndex)
include hw hmax

/-- **A search comes back**, and has passed over no place. -/
theorem loop_searchTurn (v : Bool)
    (guard : ℕ → Bool) (hk : 1 ≤ k) (hguard : ∀ c, guard c = true → c < bm.sizeOfBitMap) (cur : ℕ) :
    ∃ r, loop (bm.searchTurn v k guard) (bm.sizeOfBitMap + 2) cur = some r ∧
      bm.Searched v k guard cur r := by
  -- the invariant: no place is passed over, and a turn other than the first starts at a bit
  -- of the other value
  have hstep : ∀ c c', (cur ≤ c ∧ (∀ q, cur ≤ q → q < c → ¬ bm.Fits v k q) ∧
      (c = cur ∨ bm.sizeOfBitMap ≤ c ∨ bm.rtlTestBit c = !v)) →
      bm.searchTurn v k guard c = .again c' →
      (cur ≤ c' ∧ (∀ q, cur ≤ q → q < c' → ¬ bm.Fits v k q) ∧
        (c' = cur ∨ bm.sizeOfBitMap ≤ c' ∨ bm.rtlTestBit c' = !v)) ∧
      bm.sizeOfBitMap + 1 - c' < bm.sizeOfBitMap + 1 - c := by
    rintro c c' ⟨hc, hpassed, -⟩ hagain
    rw [searchTurn] at hagain
    split at hagain
    · next hg =>
      have hsize := hguard c hg
      dsimp only at hagain
      split at hagain
      · cases hagain
      · next hlong =>
        obtain ⟨hprog, hle, hnone, hbit⟩ :=
          (search_step hw hmax v hk hsize).2 (not_le.1 hlong)
        obtain rfl := Turn.again.inj hagain
        refine ⟨⟨hc.trans hprog.le, fun q hq hlt => ?_, .inr ?_⟩, by omega⟩
        · rcases Nat.lt_or_ge q c with hqc | hqc
          · exact hpassed q hq hqc
          · exact hnone q hqc hlt
        · exact (Nat.lt_or_ge _ _).symm.imp_right hbit
    · cases hagain
  obtain ⟨r, c, ⟨hc, hpassed, hbit⟩, hleave, hloop⟩ := loop_of_measure _ _ hstep
    (show cur ≤ cur ∧ _ from ⟨le_rfl, fun q hq hlt => by omega, .inl rfl⟩)
    (show bm.sizeOfBitMap + 1 - cur < bm.sizeOfBitMap + 2 by omega)
  refine ⟨r, hloop, ?_⟩
  rw [searchTurn] at hleave
  split at hleave
  · next hg =>
    dsimp only at hleave
    split at hleave
    · next hlong =>
      obtain ⟨hfits, hnone⟩ := (search_step hw hmax v hk (hguard c hg)).1 hlong
      obtain rfl := Turn.leave.inj hleave
      refine ⟨by omega, hfits, fun q hq hlt => ?_⟩
      rcases Nat.lt_or_ge q c with hqc | hqc
      · exact hpassed q hq hqc
      · exact hnone q hqc hlt
    · cases hleave
  · next hg =>
    obtain rfl := Turn.leave.inj hleave
    exact ⟨c, hc, by simpa using hg, hpassed, hbit⟩

theorem findSetFrom_searched (hk : 1 ≤ k) (hmargin : margin ≤ bm.sizeOfBitMap) (cur : ℕ) :
    (loop (bm.findSetTurn k margin) (bm.sizeOfBitMap + 2) cur).isSome ∧
      bm.Searched true k (fun c => c + k ≤ margin) cur (bm.findSetFrom k margin cur) := by
  obtain ⟨r, hloop, hr⟩ := loop_searchTurn hw hmax true (fun c => c + k ≤ margin) hk
    (fun c hc => by have := of_decide_eq_true hc; omega) cur
  rw [findSetFrom, findSetTurn_eq, hloop]
  exact ⟨rfl, hr⟩

theorem findClearFrom_searched (hk : 1 ≤ k) (hmargin : margin ≤ bm.sizeOfBitMap) (cur : ℕ) :
    (loop (bm.findClearTurn k margin) (bm.sizeOfBitMap + 2) cur).isSome ∧
      bm.Searched false k (fun c => c + k < margin) cur (bm.findClearFrom k margin cur) := by
  obtain ⟨r, hloop, hr⟩ := loop_searchTurn hw hmax false (fun c => c + k < margin) hk
    (fun c hc => by have := of_decide_eq_true hc; omega) cur
  rw [findClearFrom, findClearTurn_eq, hloop]
  exact ⟨rfl, hr⟩

end

/-! ### The first place for a number of set bits -/

/-- A search for set bits that finds nothing has left nothing before its margin. -/
theorem Searched.not_fits_set (h : bm.Searched true k (fun c => c + k ≤ margin) cur none)
    (hq : cur ≤ q) (hfit : q + k ≤ margin) : ¬ bm.Fits true k q := by
  obtain ⟨c, -, hguard, hpassed, -⟩ := h
  have hc : ¬ c + k ≤ margin := of_decide_eq_false hguard
  exact hpassed q hq (by omega)

theorem FirstFit.unique {k a p q : ℕ} (hp : bm.FirstFit v k a p) (hq : bm.FirstFit v k a q) :
    p = q := by
  rcases lt_trichotomy p q with hlt | heq | hgt
  · exact absurd hp.2.1 (hq.2.2 p hp.1 hlt)
  · exact heq
  · exact absurd hq.2.1 (hp.2.2 q hq.1 hgt)

/-- **`RtlFindSetBits` gives the first place** from the hint on; when there is none, the first
one of the bitmap; and `MAXINDEX` when there is none at all. Its loops come back. -/
theorem rtlFindSetBits_first (bm : RtlBitmap 32) (hsize : bm.sizeOfBitMap < 2 ^ 31) {k : ℕ}
    (hk : 1 ≤ k) (hintIndex : ℕ) : let hint := if bm.sizeOfBitMap ≤ hintIndex then 0 else hintIndex
    (∀ margin ≤ bm.sizeOfBitMap, ∀ cur,
      (loop (bm.findSetTurn k margin) (bm.sizeOfBitMap + 2) cur).isSome) ∧
    (∀ p, bm.FirstFit true k hint p → bm.rtlFindSetBits k hintIndex = p) ∧
    ((∀ p, hint ≤ p → ¬ bm.Fits true k p) →
      ∀ p, bm.FirstFit true k 0 p → bm.rtlFindSetBits k hintIndex = p) ∧
    ((∀ p, ¬ bm.Fits true k p) → bm.rtlFindSetBits k hintIndex = maxIndex) := by
  intro hint
  have hmax : bm.sizeOfBitMap ≤ maxIndex := by
    rw [maxIndex]
    omega
  refine ⟨fun margin hm cur => (findSetFrom_searched (by omega) hmax hk hm cur).1, ?_⟩
  rcases Nat.lt_or_ge bm.sizeOfBitMap k with hlarge | hle
  · -- more bits than there are
    have hnone : ∀ p, ¬ bm.Fits true k p := fun p hp => by
      have := hp.1
      omega
    exact ⟨fun p hp => absurd hp.2.1 (hnone p), fun _ p hp => absurd hp.2.1 (hnone p),
      fun _ => if_pos hlarge⟩
  · have hdef : bm.rtlFindSetBits k hintIndex =
        match bm.findSetFrom k bm.sizeOfBitMap hint with
        | some bit => bit
        | none =>
          if hint ≠ 0 then (bm.findSetFrom k (min (hint + k) bm.sizeOfBitMap) 0).getD maxIndex
          else maxIndex := by
      exact (if_neg (by omega)).trans (if_neg (by omega))
    have hfirst := (findSetFrom_searched (by omega) hmax hk le_rfl hint).2
    rw [hdef]
    rcases hpass : bm.findSetFrom k bm.sizeOfBitMap hint with _ | p
    · -- nothing from the hint on
      rw [hpass] at hfirst
      have hafter : ∀ q, hint ≤ q → ¬ bm.Fits true k q := fun q hq hfits =>
        hfirst.not_fits_set hq hfits.1 hfits
      have hsecond : (if hint ≠ 0 then
          (bm.findSetFrom k (min (hint + k) bm.sizeOfBitMap) 0).getD maxIndex else maxIndex) =
          maxIndex ∧ (∀ q, ¬ bm.Fits true k q) ∨
          bm.FirstFit true k 0 (if hint ≠ 0 then
            (bm.findSetFrom k (min (hint + k) bm.sizeOfBitMap) 0).getD maxIndex else maxIndex) := by
        by_cases hzero : hint = 0
        · rw [if_neg (not_not.2 hzero)]
          exact .inl ⟨rfl, fun q => hafter q (by omega)⟩
        · rw [if_pos hzero]
          have hagain := (findSetFrom_searched (by omega) hmax hk
            (min_le_right (hint + k) bm.sizeOfBitMap) 0).2
          rcases hpass' : bm.findSetFrom k (min (hint + k) bm.sizeOfBitMap) 0 with _ | p
          · rw [hpass'] at hagain
            refine .inl ⟨rfl, fun q hfits => ?_⟩
            -- a place that the margin cuts off lies at the hint or behind it
            have hfit := hfits.1
            rcases Nat.lt_or_ge q hint with hlt | hge
            · exact hagain.not_fits_set (Nat.zero_le q) (by omega) hfits
            · exact hafter q hge hfits
          · rw [hpass'] at hagain
            exact .inr hagain
      refine ⟨fun p hp => absurd hp.2.1 (hafter p hp.1), fun _ p hp => ?_, fun hno => ?_⟩
      · rcases hsecond with ⟨-, hno⟩ | hfound
        · exact absurd hp.2.1 (hno p)
        · exact hfound.unique hp
      · rcases hsecond with ⟨heq, -⟩ | hfound
        · exact heq
        · exact absurd hfound.2.1 (hno _)
    · rw [hpass] at hfirst
      exact ⟨fun q hq => FirstFit.unique hfirst hq,
        fun hno => absurd hfirst.2.1 (hno p hfirst.1), fun hno => absurd hfirst.2.1 (hno p)⟩

/-- Two set bits in the byte `0b01101100`, from the fifth bit on. -/
theorem rtlFindSetBits_byte :
    (RtlBitmap.mk 8 [0x6C#32]).sizeOfBitMap < 2 ^ 31 ∧
      (RtlBitmap.mk 8 [0x6C#32]).rtlFindSetBits 2 4 = 5 :=
  ⟨by decide, (rtlFindSetBits_first ⟨8, [0x6C#32]⟩ (by decide) (by decide) 4).2.1 5
    ⟨by decide, by decide, by decide⟩⟩

/-! ### Searching for one set bit -/

theorem fits_one : bm.Fits v 1 p ↔ p < bm.sizeOfBitMap ∧ bm.rtlTestBit p = v := by
  refine ⟨fun h => ⟨h.1, h.2 p le_rfl (Nat.lt_succ_self p)⟩, fun h => ⟨h.1, fun i hi hlt => ?_⟩⟩
  rw [le_antisymm (Nat.le_of_lt_succ hlt) hi, h.2]

/-- **A search for one set bit** from a hint inside the bitmap gives the first
set bit from the hint on. When there is none it wraps, and its answer is below
the hint or `MAXINDEX`. -/
theorem rtlFindSetBits_one (bm : RtlBitmap w) (hw : 0 < w) (hmax : bm.sizeOfBitMap ≤ maxIndex)
    {hint : ℕ} (hhint : hint < bm.sizeOfBitMap) :
    (hint ≤ bm.rtlFindSetBits 1 hint ∧ bm.rtlFindSetBits 1 hint < bm.sizeOfBitMap ∧
      bm.rtlTestBit (bm.rtlFindSetBits 1 hint) = true ∧
      ∀ i, hint ≤ i → i < bm.rtlFindSetBits 1 hint → bm.rtlTestBit i = false) ∨
    ((bm.rtlFindSetBits 1 hint = maxIndex ∨ bm.rtlFindSetBits 1 hint < hint) ∧
      ∀ i, hint ≤ i → i < bm.sizeOfBitMap → bm.rtlTestBit i = false) := by
  have hdef : bm.rtlFindSetBits 1 hint =
      match bm.findSetFrom 1 bm.sizeOfBitMap hint with
      | some bit => bit
      | none =>
        if hint ≠ 0 then (bm.findSetFrom 1 (min (hint + 1) bm.sizeOfBitMap) 0).getD maxIndex
        else maxIndex := by
    rw [rtlFindSetBits, if_neg (by omega), if_neg (not_le.2 hhint)]
    exact if_neg (by omega)
  have hfirst := (findSetFrom_searched hw hmax le_rfl le_rfl hint).2
  have hwrapped := (findSetFrom_searched hw hmax le_rfl (min_le_right (hint + 1) _) 0).2
  rw [hdef]
  cases hpass : bm.findSetFrom 1 bm.sizeOfBitMap hint with
  | some b =>
    rw [hpass] at hfirst
    obtain ⟨hle, hfits, hnone⟩ := hfirst
    obtain ⟨hlt, hbit⟩ := fits_one.1 hfits
    dsimp only
    refine .inl ⟨hle, hlt, hbit, fun i hi hib => ?_⟩
    exact Bool.eq_false_of_not_eq_true fun h => hnone i hi hib (fits_one.2 ⟨by omega, h⟩)
  | none =>
    rw [hpass] at hfirst
    have hclear : ∀ i, hint ≤ i → i < bm.sizeOfBitMap → bm.rtlTestBit i = false := fun i hi hlt =>
      Bool.eq_false_of_not_eq_true fun h => hfirst.not_fits_set hi hlt (fits_one.2 ⟨hlt, h⟩)
    refine .inr ⟨?_, hclear⟩
    dsimp only
    split
    · cases hagain : bm.findSetFrom 1 (min (hint + 1) bm.sizeOfBitMap) 0 with
      | none => exact .inl rfl
      | some b =>
        -- a bit found after wrapping cannot be one the first search has passed over
        rw [hagain] at hwrapped
        obtain ⟨hlt, hbit⟩ := fits_one.1 hwrapped.2.1
        refine .inr (not_le.1 fun hge => ?_)
        rw [hclear b hge hlt] at hbit
        cases hbit
    · exact .inl rfl

/-! ### A place for a number of clear bits -/

/-- What is asked of `RtlFindClearBits`: its loops come back, and it gives `MAXINDEX` if and only if
there is no place, and a place otherwise. -/
def ClearSearchExact (bm : RtlBitmap w) (k hintIndex : ℕ) : Prop :=
  (∀ margin ≤ bm.sizeOfBitMap, ∀ cur,
    (loop (bm.findClearTurn k margin) (bm.sizeOfBitMap + 2) cur).isSome) ∧
  (bm.rtlFindClearBits k hintIndex = maxIndex ↔ ∀ p, ¬ bm.Fits false k p) ∧
    (bm.rtlFindClearBits k hintIndex ≠ maxIndex →
      bm.Fits false k (bm.rtlFindClearBits k hintIndex))

/-- A search for clear bits that finds nothing has left at most a place right where it has
started, and right before its margin: any later turn starts at a set bit. -/
theorem Searched.fits_clear (hk : 1 ≤ k)
    (h : bm.Searched false k (fun c => c + k < margin) cur none) (hq : cur ≤ q)
    (hfit : q + k ≤ margin) (hfits : bm.Fits false k q) : q = cur ∧ cur + k = margin := by
  obtain ⟨c, hc, hguard, hpassed, hbit⟩ := h
  have hguard' : ¬ c + k < margin := of_decide_eq_false hguard
  have hqc : c ≤ q := by
    by_contra hlt
    exact hpassed q hq (not_le.1 hlt) hfits
  obtain rfl : q = c := by omega
  rcases hbit with rfl | hend | hbit
  · exact ⟨rfl, by omega⟩
  · have := hfits.1
    omega
  · exact absurd hfits (not_fits_of_bit le_rfl (by omega) hbit)

/-- Asked for the whole bitmap, the search does not even start. -/
theorem findClearFrom_size (hmargin : margin ≤ bm.sizeOfBitMap) (cur : ℕ) :
    bm.findClearFrom bm.sizeOfBitMap margin cur = none := by
  have hleave : bm.findClearTurn bm.sizeOfBitMap margin cur = .leave none := by
    rw [findClearTurn, if_neg (by omega)]
  rw [findClearFrom, loop_succ_leave _ hleave, Option.getD_some]

theorem fits_size_iff : bm.Fits v bm.sizeOfBitMap p ↔
    p = 0 ∧ ∀ i < bm.sizeOfBitMap, bm.rtlTestBit i = v := by
  constructor
  · rintro ⟨hle, hall⟩
    obtain rfl : p = 0 := by omega
    exact ⟨rfl, fun i hi => hall i (Nat.zero_le i) (by omega)⟩
  · rintro ⟨rfl, hall⟩
    exact ⟨by omega, fun i _ hi => hall i (by omega)⟩

/-- **The search for clear bits is exact**, except that it does not see that the whole bitmap
is clear when it is asked for the whole bitmap. -/
theorem clearSearchExact_iff (bm : RtlBitmap 32) (hsize : bm.sizeOfBitMap < 2 ^ 31) {k : ℕ}
    (hk : 1 ≤ k) (hintIndex : ℕ) :
    bm.ClearSearchExact k hintIndex ↔
      ¬ (k = bm.sizeOfBitMap ∧ ∀ i < bm.sizeOfBitMap, bm.rtlTestBit i = false) := by
  have hmax : bm.sizeOfBitMap < maxIndex := by
    rw [maxIndex]
    omega
  rw [ClearSearchExact, and_iff_right fun margin hm cur =>
    (findClearFrom_searched (by omega) hmax.le hk hm cur).1]
  have hlt_of_fits : ∀ p, bm.Fits false k p → p < maxIndex := fun p hp => by
    have := hp.1
    omega
  rcases Nat.lt_or_ge bm.sizeOfBitMap k with hlarge | hle
  · have hnone : ∀ p, ¬ bm.Fits false k p := fun p hp => by
      have := hp.1
      omega
    have hdef : bm.rtlFindClearBits k hintIndex = maxIndex := if_pos hlarge
    simp [hdef, hnone, show k ≠ bm.sizeOfBitMap by omega]
  set hint := if bm.sizeOfBitMap ≤ hintIndex then 0 else hintIndex with hhint
  have hdef : bm.rtlFindClearBits k hintIndex =
      match bm.findClearFrom k bm.sizeOfBitMap hint with
      | some bit => bit
      | none =>
        if hint ≠ 0 then (bm.findClearFrom k (min (hint + k) bm.sizeOfBitMap) 0).getD maxIndex
        else maxIndex := by
    rw [rtlFindClearBits, if_neg (by omega), if_neg (by omega)]
  rcases hle.eq_or_lt with rfl | hlt
  · -- the whole bitmap: neither pass starts
    have hresult : bm.rtlFindClearBits bm.sizeOfBitMap hintIndex = maxIndex := by
      rw [hdef, findClearFrom_size le_rfl, findClearFrom_size (min_le_right _ _)]
      simp
    simp [hresult, fits_size_iff]
  · -- fewer bits: a pass that finds nothing leaves nothing
    have hexact : bm.rtlFindClearBits k hintIndex = maxIndex ∧ (∀ p, ¬ bm.Fits false k p) ∨
        bm.Fits false k (bm.rtlFindClearBits k hintIndex) := by
      rw [hdef]
      have hfirst := (findClearFrom_searched (by omega) hmax.le hk le_rfl hint).2
      rcases hpass : bm.findClearFrom k bm.sizeOfBitMap hint with _ | p
      · rw [hpass] at hfirst
        have hafter : ∀ q, hint ≤ q → bm.Fits false k q → q = hint ∧ hint + k = bm.sizeOfBitMap :=
          fun q hq hfits => hfirst.fits_clear hk hq hfits.1 hfits
        by_cases hzero : hint = 0
        · refine .inl ⟨if_neg (not_not.2 hzero), fun q hfits => ?_⟩
          have := hafter q (by omega) hfits
          omega
        · rw [if_pos hzero]
          have hagain := (findClearFrom_searched (by omega) hmax.le hk
            (min_le_right (hint + k) bm.sizeOfBitMap) 0).2
          rcases hpass' : bm.findClearFrom k (min (hint + k) bm.sizeOfBitMap) 0 with _ | p
          · rw [hpass'] at hagain
            refine .inl ⟨rfl, fun q hfits => ?_⟩
            have hfit := hfits.1
            rcases Nat.lt_or_ge (min (hint + k) bm.sizeOfBitMap) (q + k) with hcut | hin
            · have := hafter q (by omega) hfits
              omega
            · have := hagain.fits_clear hk (Nat.zero_le q) hin hfits
              omega
          · rw [hpass'] at hagain
            exact .inr hagain.2.1
      · rw [hpass] at hfirst
        exact .inr hfirst.2.1
    have hne : ¬ (k = bm.sizeOfBitMap ∧ ∀ i < bm.sizeOfBitMap, bm.rtlTestBit i = false) := by
      omega
    refine iff_of_true ?_ hne
    rcases hexact with ⟨heq, hnone⟩ | hfits
    · exact ⟨by simp [heq, hnone], fun h => absurd heq h⟩
    · have hlt' := hlt_of_fits _ hfits
      exact ⟨⟨fun h => by omega, fun hno => absurd hfits (hno _)⟩, fun _ => hfits⟩

/-- Three clear bits in the byte `0b01101000`. -/
theorem clearSearchExact_byte :
    (RtlBitmap.mk 8 [0x68#32]).sizeOfBitMap < 2 ^ 31 ∧
      (RtlBitmap.mk 8 [0x68#32]).ClearSearchExact 3 0 :=
  ⟨by decide, (clearSearchExact_iff ⟨8, [0x68#32]⟩ (by decide) (by decide) 0).2 (by decide)⟩

/-- **A clear byte is not found** when all its bits are asked for. -/
theorem clear_byte_not_found :
    (RtlBitmap.mk 8 [0#32]).Fits false 8 0 ∧
      (RtlBitmap.mk 8 [0#32]).rtlFindClearBits 8 0 = maxIndex ∧
      ¬ (RtlBitmap.mk 8 [0#32]).ClearSearchExact 8 0 := by
  have hfits : (RtlBitmap.mk 8 [0#32]).Fits false 8 0 := by decide
  have hmax : (RtlBitmap.mk 8 [0#32]).rtlFindClearBits 8 0 = maxIndex := by decide
  exact ⟨hfits, hmax, fun h => h.2.1.1 hmax 0 hfits⟩

end RtlBitmap

end Windivs

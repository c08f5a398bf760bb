import Windivs.Rtl.BitmapSearch

/-!
# Selecting the longest runs

`RtlFindClearRuns` fills an array with clear runs. It takes the first runs of the bitmap until
the array is full, remembering where in it the smallest one stands, and then goes through the
rest: a run that is longer than the smallest one takes its place, and a new smallest one is
looked for. That last step compares the new run with itself, so the place of the smallest run
never changes: in the end it holds the longest run that has competed for it.

`Windivs.RtlBitmap.fillRuns` and `Windivs.RtlBitmap.longestTurn` are the two loops, over any
function that gives the next run. What they do with the runs of a list is
`Windivs.RtlBitmap.Shows.selectRuns_eq`; although the second loop advances by the length of a
run and not to its end, what it meets of a run once more is never longer than the run.
`Windivs.RtlBitmap.leftOut_iff` then says when no longer run is left out: no two of the later
runs may both be longer than two of the first ones.
-/

namespace Windivs

open List

variable {first met past rest : List RtlBitmapRun}

/-- `RTL_BITMAP_RUN`. -/
structure RtlBitmapRun where
  startingIndex : ℕ
  numberOfBits : ℕ
  deriving DecidableEq, Repr

namespace RtlBitmapRun

/-- The bit after the last one of a run. -/
def stop (r : RtlBitmapRun) : ℕ := r.startingIndex + r.numberOfBits

end RtlBitmapRun

namespace RtlBitmap

/-! ### The two loops -/

/-- The variables of `RtlFindClearRuns`. `Run` is the length of the part of the array that is
filled. -/
structure RunsState where
  runArray : List RtlBitmapRun
  smallestRun : ℕ
  fromIndex : ℕ

/-- `RunArray[i]`. -/
def runAt (runArray : List RtlBitmapRun) (i : ℕ) : RtlBitmapRun :=
  runArray.getD i ⟨0, 0⟩

/-- The first loop: at most so many runs more. -/
def fillRuns (next : ℕ → RtlBitmapRun) : ℕ → RunsState → RunsState
  | 0, s => s
  | k + 1, s =>
    let run := next s.fromIndex
    if run.numberOfBits = 0 then s
    else
      let runArray := s.runArray ++ [run]
      fillRuns next k
        { runArray := runArray
          smallestRun :=
            if run.numberOfBits < (runAt runArray s.smallestRun).numberOfBits then
              s.runArray.length
            else s.smallestRun
          fromIndex := run.startingIndex + run.numberOfBits }

/-- The loop in the second one that looks for the new smallest run. What it compares is the
number of bits of the run that was just put into the array. -/
def newSmallestRun (runArray : List RtlBitmapRun) (numberOfBits sizeOfRunArray smallestRun : ℕ) :
    ℕ :=
  (range sizeOfRunArray).foldl
    (fun smallest run =>
      if numberOfBits < (runAt runArray smallest).numberOfBits then run else smallest)
    smallestRun

/-- One turn of the second loop. -/
def longestTurn (next : ℕ → RtlBitmapRun) (sizeOfRunArray : ℕ) (s : RunsState) :
    Turn RunsState (Run RunsState) :=
  let run := next s.fromIndex
  if run.numberOfBits = 0 then .leave (.ok s)
  else if (runAt s.runArray s.smallestRun).numberOfBits < run.numberOfBits then
    let runArray := s.runArray.set s.smallestRun run
    .again
      { runArray := runArray
        smallestRun := newSmallestRun runArray run.numberOfBits sizeOfRunArray s.smallestRun
        fromIndex := s.fromIndex + run.numberOfBits }
  else .again { s with fromIndex := s.fromIndex + run.numberOfBits }

/-- The two loops together: the filled part of the array. -/
def selectRuns (next : ℕ → RtlBitmapRun) (sizeOfBitMap sizeOfRunArray : ℕ)
    (locateLongestRuns : Bool) : Run (List RtlBitmapRun) :=
  let s := fillRuns next sizeOfRunArray ⟨[], 0, 0⟩
  if s.runArray.length < sizeOfRunArray ∨ !locateLongestRuns then .ok s.runArray
  else do
    let s ← runLoop (longestTurn next sizeOfRunArray) (sizeOfBitMap + 2) s
    return s.runArray

/-! ### What the loops do with a list of runs -/

/-- A function gives the runs of a list, one after the other. Asked from inside a run, it gives
nothing that is longer than the run or goes beyond it. -/
structure Shows (next : ℕ → RtlBitmapRun) (size : ℕ) (runs : List RtlBitmapRun) : Prop where
  sorted : runs.Pairwise fun x y => x.stop < y.startingIndex
  pos : ∀ r ∈ runs, 0 < r.numberOfBits
  stop_le : ∀ r ∈ runs, r.stop ≤ size
  head : ∀ {past r rest from_}, runs = past ++ r :: rest → (∀ d ∈ past, d.stop ≤ from_) →
    from_ ≤ r.startingIndex → next from_ = r
  again : ∀ {past r rest from_}, runs = past ++ r :: rest → r.startingIndex < from_ →
    from_ < r.stop → (next from_).numberOfBits ≤ r.numberOfBits ∧
      from_ + (next from_).numberOfBits ≤ r.stop ∧ ((next from_).numberOfBits = 0 → rest = [])
  none : ∀ {from_}, (from_ = 0 ∨ ∃ d ∈ runs, from_ = d.stop) → (∀ d ∈ runs, d.stop ≤ from_) →
    (next from_).numberOfBits = 0

variable {next : ℕ → RtlBitmapRun} {size : ℕ} {runs a : List RtlBitmapRun} {s : RunsState} {i : ℕ}

theorem runAt_append_left (h : i < a.length) (b : List RtlBitmapRun) :
    runAt (a ++ b) i = runAt a i := by
  simp [runAt, getD_eq_getElem?_getD, getElem?_append_left h]

theorem runAt_append_cons (a b : List RtlBitmapRun) (r : RtlBitmapRun) :
    runAt (a ++ r :: b) a.length = r := by
  simp [runAt, getD_eq_getElem?_getD]

/-- A place in the array with no smaller run in it; place zero as long as the array is empty. -/
def Smallest (a : List RtlBitmapRun) (i : ℕ) : Prop :=
  (a = [] ∧ i = 0) ∨
    i < a.length ∧ ∀ r ∈ a, (runAt a i).numberOfBits ≤ r.numberOfBits

/-- The comparison of the first loop keeps the smallest run. -/
theorem Smallest.append (h : Smallest a i) (r : RtlBitmapRun) :
    Smallest (a ++ [r])
      (if r.numberOfBits < (runAt (a ++ [r]) i).numberOfBits then a.length else i) := by
  rcases h with ⟨rfl, rfl⟩ | ⟨hi, hle⟩
  · refine .inr ?_
    simp [runAt]
  · rw [runAt_append_left hi]
    refine .inr ?_
    split
    · next hlt =>
      refine ⟨by simp, fun x hx => ?_⟩
      rw [runAt_append_cons]
      rcases mem_append.1 hx with hx | hx
      · exact hlt.le.trans (hle x hx)
      · rw [mem_singleton.1 hx]
    · next hge =>
      refine ⟨by simp; omega, fun x hx => ?_⟩
      rw [runAt_append_left hi]
      rcases mem_append.1 hx with hx | hx
      · exact hle x hx
      · rw [mem_singleton.1 hx]
        exact not_lt.1 hge

/-- The state of the first loop after some of the runs. -/
structure Filled (past : List RtlBitmapRun) (s : RunsState) : Prop where
  runArray : s.runArray = past
  smallest : Smallest past s.smallestRun
  past_le : ∀ d ∈ past, d.stop ≤ s.fromIndex
  /-- The loop stands at the end of a run, or at the start of the bitmap. -/
  from_eq : s.fromIndex = 0 ∨ ∃ d ∈ past, s.fromIndex = d.stop

theorem Shows.from_le_start (h : Shows next size runs)
    {r : RtlBitmapRun} (hruns : runs = past ++ r :: rest) {from_ : ℕ}
    (hfrom : from_ = 0 ∨ ∃ d ∈ past, from_ = d.stop) : from_ ≤ r.startingIndex := by
  rcases hfrom with rfl | ⟨d, hd, rfl⟩
  · exact Nat.zero_le _
  · have hsorted := h.sorted
    rw [hruns] at hsorted
    exact ((pairwise_append.1 hsorted).2.2 d hd r (by simp)).le

/-- **The first loop** takes the runs in their order. -/
theorem Shows.filled_fillRuns (h : Shows next size runs) (k : ℕ) (hruns : runs = past ++ rest)
    (hs : Filled past s) : Filled (past ++ rest.take k) (fillRuns next k s) := by
  induction k generalizing past rest s with
  | zero => simpa [fillRuns] using hs
  | succ k ih =>
    rw [fillRuns]
    rcases rest with - | ⟨r, rest⟩
    · rw [append_nil] at hruns
      subst hruns
      simpa [h.none hs.from_eq hs.past_le] using hs
    · have hnext := h.head hruns hs.past_le (h.from_le_start hruns hs.from_eq)
      have hpos := h.pos r (by simp [hruns])
      have hstep : Filled (past ++ [r])
          { runArray := s.runArray ++ [r]
            smallestRun :=
              if r.numberOfBits < (runAt (s.runArray ++ [r]) s.smallestRun).numberOfBits then
                s.runArray.length
              else s.smallestRun
            fromIndex := r.startingIndex + r.numberOfBits } := by
        have hfrom := h.from_le_start hruns hs.from_eq
        refine ⟨by rw [hs.runArray], ?_, fun d hd => ?_, .inr ⟨r, by simp, rfl⟩⟩
        · rw [hs.runArray]
          exact hs.smallest.append r
        · rcases mem_append.1 hd with hd | hd
          · have := hs.past_le d hd
            dsimp only
            omega
          · rw [mem_singleton.1 hd]
            exact le_rfl
      rw [hnext, if_neg (by omega)]
      simpa using ih (by simpa using hruns) hstep

/-- The longer one of two runs, the first one if they are equal. -/
def longer (a r : RtlBitmapRun) : RtlBitmapRun :=
  if a.numberOfBits < r.numberOfBits then r else a

theorem le_longer_left (a r : RtlBitmapRun) : a.numberOfBits ≤ (longer a r).numberOfBits := by
  rw [longer]
  split
  · next h => exact h.le
  · exact le_rfl

theorem le_longer_right (a r : RtlBitmapRun) : r.numberOfBits ≤ (longer a r).numberOfBits := by
  rw [longer]
  split
  · exact le_rfl
  · next h => exact not_lt.1 h

theorem runAt_set (h : i < a.length) (r : RtlBitmapRun) : runAt (a.set i r) i = r := by
  simp [runAt, getD_eq_getElem?_getD, h]

theorem set_runAt (a : List RtlBitmapRun) (i : ℕ) : a.set i (runAt a i) = a := by
  refine ext_getElem? fun j => ?_
  rw [getElem?_set]
  split
  · next hij =>
    subst hij
    split
    · next hlt => simp [runAt, getD_eq_getElem?_getD, hlt]
    · next hge => simp [not_lt.1 hge]
  · rfl

/-- The place of the smallest run stays what it is. -/
theorem newSmallestRun_eq {i n : ℕ}
    (h : (runAt a i).numberOfBits = n) (k : ℕ) : newSmallestRun a n k i = i := by
  rw [newSmallestRun]
  induction k with
  | zero => rfl
  | succ k ih => rw [range_succ, foldl_append, ih, foldl_cons, foldl_nil,
      if_neg (by omega)]

/-- Where the second loop stands after it has met some runs: at the end of the last one, or
still before it. In the second case it goes on to meet what is left of that run. -/
def Stands (past met : List RtlBitmapRun) (from_ : ℕ) : Prop :=
  (∃ d ∈ past ++ met, from_ = d.stop ∧ ∀ e ∈ past ++ met, e.stop ≤ from_) ∨
    ∃ before_ d, met = before_ ++ [d] ∧ (∀ e ∈ past ++ before_, e.stop ≤ from_) ∧ from_ < d.stop

/-- The state of the second loop: the smallest place has the longest of the runs met. -/
structure Competed (first met : List RtlBitmapRun) (i : ℕ) (s : RunsState) : Prop where
  runArray : s.runArray = first.set i (met.foldl longer (runAt first i))
  smallestRun : s.smallestRun = i
  met_le : ∀ d ∈ met, d.numberOfBits ≤ (met.foldl longer (runAt first i)).numberOfBits
  stands : Stands first met s.fromIndex

/-- A run in the competition for the smallest place. -/
theorem longestTurn_of_pos {k i : ℕ} (hi : i < first.length) (hs : Competed first met i s)
    (hpos : (next s.fromIndex).numberOfBits ≠ 0) :
    longestTurn next k s = .again
      { runArray := first.set i
          (longer (met.foldl longer (runAt first i)) (next s.fromIndex))
        smallestRun := i
        fromIndex := s.fromIndex + (next s.fromIndex).numberOfBits } := by
  have hcur : runAt s.runArray s.smallestRun = met.foldl longer (runAt first i) := by
    rw [hs.runArray, hs.smallestRun, runAt_set hi]
  rw [longestTurn]
  dsimp only
  rw [if_neg hpos, hcur, longer]
  split
  · rw [hs.runArray, hs.smallestRun, set_set, newSmallestRun_eq (by rw [runAt_set hi])]
  · rw [← hs.runArray, ← hs.smallestRun]

/-- **A turn of the second loop** meets the next run, or meets the last one again. -/
theorem Shows.competed_turn (h : Shows next size runs) {i k : ℕ} (hi : i < first.length)
    (hruns : runs = first ++ (met ++ rest)) (hs : Competed first met i s) :
    (longestTurn next k s = .leave (.ok s) ∧ rest = []) ∨
      ∃ s' met' rest', longestTurn next k s = .again s' ∧ met ++ rest = met' ++ rest' ∧
        Competed first met' i s' ∧ s.fromIndex < s'.fromIndex ∧ s'.fromIndex ≤ size := by
  have hcur : runAt s.runArray s.smallestRun = met.foldl longer (runAt first i) := by
    rw [hs.runArray, hs.smallestRun, runAt_set hi]
  rcases hs.stands with ⟨d, hd, hfrom, hpast⟩ | ⟨before_, d, hmet, hpast, hbefore⟩
  · have hruns' : runs = (first ++ met) ++ rest := by rw [hruns, append_assoc]
    rcases rest with - | ⟨r, rest⟩
    · -- no run is left
      refine .inl ⟨?_, rfl⟩
      have hnone := h.none (.inr ⟨d, by simpa [hruns] using hd, hfrom⟩)
        (by simpa [hruns] using hpast)
      rw [longestTurn]
      rw [if_pos hnone]
    · have hstart := h.from_le_start hruns' (.inr ⟨d, hd, hfrom⟩)
      have hnext := h.head hruns' hpast hstart
      have hpos := h.pos r (by simp [hruns])
      have hsize := h.stop_le r (by simp [hruns])
      refine .inr ⟨_, met ++ [r], rest, longestTurn_of_pos hi hs (by rw [hnext]; omega),
        by simp, ⟨?_, rfl, ?_, ?_⟩, ?_, ?_⟩
      · rw [hnext, foldl_append, foldl_cons, foldl_nil]
      · rw [foldl_append]
        intro e he
        rcases mem_append.1 he with he | he
        · exact (hs.met_le e he).trans (le_longer_left _ _)
        · rw [mem_singleton.1 he]
          exact le_longer_right _ _
      · -- the loop adds the length of the run to where it stood, which may be before the run
        rw [hnext]
        have hle : s.fromIndex + r.numberOfBits ≤ r.stop := by
          rw [RtlBitmapRun.stop]
          omega
        rcases hle.eq_or_lt with heq | hlt
        · refine .inl ⟨r, by simp, heq, fun e he => ?_⟩
          rw [← append_assoc] at he
          rcases mem_append.1 he with he | he
          · exact (hpast e he).trans (Nat.le_add_right _ _)
          · rw [mem_singleton.1 he]
            exact heq.ge
        · exact .inr ⟨met, r, rfl, fun e he => (hpast e he).trans (Nat.le_add_right _ _), hlt⟩
      · rw [hnext]
        dsimp only
        omega
      · rw [hnext]
        rw [RtlBitmapRun.stop] at hsize
        dsimp only
        omega
  · -- the last run is met again, or a part of it
    have hruns' : runs = (first ++ before_) ++ d :: rest := by
      rw [hruns, hmet]
      simp
    have hmeets : (next s.fromIndex).numberOfBits ≤ d.numberOfBits ∧
        s.fromIndex + (next s.fromIndex).numberOfBits ≤ d.stop ∧
        ((next s.fromIndex).numberOfBits = 0 → rest = []) := by
      rcases Nat.lt_or_ge d.startingIndex s.fromIndex with hin | hout
      · exact h.again hruns' hin hbefore
      · have hpos := h.pos d (by simp [hruns'])
        rw [h.head hruns' hpast hout]
        refine ⟨le_rfl, ?_, fun h0 => by omega⟩
        rw [RtlBitmapRun.stop]
        omega
    obtain ⟨hle, hstop, hend⟩ := hmeets
    have hsize := h.stop_le d (by simp [hruns'])
    by_cases hzero : (next s.fromIndex).numberOfBits = 0
    · refine .inl ⟨?_, hend hzero⟩
      rw [longestTurn]
      rw [if_pos hzero]
    · refine .inr ⟨_, met, rest, (if_neg hzero).trans (if_neg (not_lt.2 ?_)), rfl,
        ⟨hs.runArray, hs.smallestRun, hs.met_le, ?_⟩, by dsimp only; omega, by dsimp only; omega⟩
      · rw [hcur]
        exact hle.trans (hs.met_le d (by simp [hmet]))
      · rcases hstop.eq_or_lt with heq | hlt
        · refine .inl ⟨d, by simp [hmet], heq, fun e he => ?_⟩
          rw [hmet, ← append_assoc] at he
          rcases mem_append.1 he with he | he
          · exact (hpast e he).trans (Nat.le_add_right _ _)
          · rw [mem_singleton.1 he]
            exact heq.ge
        · exact .inr ⟨before_, d, hmet, fun e he => (hpast e he).trans (Nat.le_add_right _ _), hlt⟩

/-- The second loop leaves when it has met all runs. -/
theorem Shows.runLoop_longestTurn (h : Shows next size runs)
    {i k n : ℕ} (hi : i < first.length) (hruns : runs = first ++ (met ++ rest))
    (hs : Competed first met i s) (hfrom : s.fromIndex ≤ size) (hn : size < n + s.fromIndex) :
    ∃ s', runLoop (longestTurn next k) n s = .ok s' ∧
      s'.runArray = first.set i ((met ++ rest).foldl longer (runAt first i)) := by
  induction n generalizing met rest s with
  | zero => omega
  | succ n ih =>
    rcases h.competed_turn hi hruns hs with
      ⟨hleave, rfl⟩ | ⟨s', met', rest', hagain, heq, hs', hlt, hle⟩
    · rw [append_nil]
      exact ⟨s, runLoop_leave n hleave, hs.runArray⟩
    · rw [heq] at hruns ⊢
      rw [runLoop_again n hagain]
      exact ih hruns hs' hle (by omega)

/-- **What the two loops leave in the array**: the first runs, and in the place of the smallest
one of them the longest of it and all later runs. -/
theorem Shows.selectRuns_eq (h : Shows next size runs) {k : ℕ} (hk : 1 ≤ k) :
    ∃ i, Smallest (runs.take k) i ∧ selectRuns next size k true =
      .ok ((runs.take k).set i ((runs.drop k).foldl longer (runAt (runs.take k) i))) := by
  have hfill : Filled ([] ++ runs.take k) (fillRuns next k ⟨[], 0, 0⟩) :=
    h.filled_fillRuns k (nil_append runs).symm
      ⟨rfl, .inl ⟨rfl, rfl⟩, by simp, .inl rfl⟩
  rw [nil_append] at hfill
  refine ⟨_, hfill.smallest, ?_⟩
  rw [selectRuns, hfill.runArray]
  split
  · next hshort =>
    have hlen : runs.length ≤ k := by
      simp only [length_take, Bool.not_true, Bool.false_eq_true, or_false] at hshort
      omega
    rw [drop_eq_nil_of_le hlen, foldl_nil, set_runAt]
  · next hfull =>
    have hlen : (runs.take k).length = k := by
      simp only [length_take] at hfull ⊢
      omega
    rcases hfill.smallest with ⟨hnil, -⟩ | ⟨hi, -⟩
    · rw [hnil, length_nil] at hlen
      omega
    · -- the second loop starts at the end of the last run of the array
      have hfrom : ∃ d ∈ runs.take k, (fillRuns next k ⟨[], 0, 0⟩).fromIndex = d.stop := by
        rcases hfill.from_eq with h0 | hd
        · obtain ⟨d, hd⟩ := exists_mem_of_length_pos (l := runs.take k) (by omega)
          have hle := hfill.past_le d hd
          have hpos := h.pos d (mem_of_mem_take hd)
          rw [RtlBitmapRun.stop] at hle
          omega
        · exact hd
      obtain ⟨d, hd, hstop⟩ := hfrom
      have hle : (fillRuns next k ⟨[], 0, 0⟩).fromIndex ≤ size := by
        rw [hstop]
        exact h.stop_le d (mem_of_mem_take hd)
      have hstart : Competed (runs.take k) [] (fillRuns next k ⟨[], 0, 0⟩).smallestRun
          (fillRuns next k ⟨[], 0, 0⟩) := by
        refine ⟨?_, rfl, by simp, .inl ⟨d, by simpa using hd, hstop, ?_⟩⟩
        · rw [foldl_nil, set_runAt]
          exact hfill.runArray
        · simpa using hfill.past_le
      obtain ⟨s', hrun, harray⟩ := h.runLoop_longestTurn (k := k) (n := size + 2) hi
        (take_append_drop k runs).symm hstart hle (by omega)
      rw [hrun, nil_append] at *
      rw [← harray]
      rfl

/-! ### The longest runs of a list -/

theorem foldl_longer_mem (x : RtlBitmapRun) (l : List RtlBitmapRun) :
    l.foldl longer x = x ∨ l.foldl longer x ∈ l := by
  induction l generalizing x with
  | nil => exact .inl rfl
  | cons r l ih =>
    rw [foldl_cons]
    have hlonger : longer x r = x ∨ longer x r = r := by
      rw [longer]
      split
      · exact .inr rfl
      · exact .inl rfl
    rcases ih (longer x r) with h | h
    · rw [h, mem_cons]
      exact hlonger.imp id .inl
    · exact .inr (mem_cons_of_mem r h)

theorem le_foldl_longer (x : RtlBitmapRun) (l : List RtlBitmapRun) :
    x.numberOfBits ≤ (l.foldl longer x).numberOfBits ∧
      ∀ r ∈ l, r.numberOfBits ≤ (l.foldl longer x).numberOfBits := by
  induction l generalizing x with
  | nil => simp
  | cons r l ih =>
    obtain ⟨hx, hl⟩ := ih (longer x r)
    rw [forall_mem_cons]
    exact ⟨(le_longer_left x r).trans hx, (le_longer_right x r).trans hx, hl⟩

/-- How many runs of a list are shorter than a number of bits. -/
def shorter (a : List RtlBitmapRun) (n : ℕ) : ℕ :=
  a.countP fun r => r.numberOfBits < n

section Selection

variable {a₁ a₂ : List RtlBitmapRun} {x : RtlBitmapRun}

section

variable (hx : ∀ r ∈ a₁ ++ x :: a₂, x.numberOfBits ≤ r.numberOfBits) (n : ℕ)
include hx

theorem shorter_eq_zero_iff : shorter (a₁ ++ x :: a₂) n = 0 ↔ n ≤ x.numberOfBits := by
  rw [shorter, countP_eq_zero]
  refine ⟨fun h => ?_, fun h r hr => ?_⟩
  · simpa using h x (by simp)
  · simpa using h.trans (hx r hr)

/-- With the smallest run taken out, no run is shorter. -/
theorem shorter_le_one_iff :
    shorter (a₁ ++ x :: a₂) n ≤ 1 ↔ ∀ r ∈ a₁ ++ a₂, n ≤ r.numberOfBits := by
  have hsplit : shorter (a₁ ++ x :: a₂) n =
      shorter (a₁ ++ a₂) n + if x.numberOfBits < n then 1 else 0 := by
    simp only [shorter, countP_append, countP_cons, decide_eq_true_eq]
    omega
  rw [hsplit]
  refine ⟨fun h r hr => ?_, fun h => ?_⟩
  · by_contra hlt
    have hpos : 0 < shorter (a₁ ++ a₂) n :=
      countP_pos_iff.2 ⟨r, hr, by simpa using not_le.1 hlt⟩
    have hmem : r ∈ a₁ ++ x :: a₂ := by
      simp only [mem_append, mem_cons] at hr ⊢
      exact hr.imp id .inr
    have hxr := hx r hmem
    rw [if_pos (by omega)] at h
    omega
  · have hzero : shorter (a₁ ++ a₂) n = 0 :=
      countP_eq_zero.2 fun r hr => by simpa using h r hr
    split <;> omega

end

/-- **When a selection leaves no longer run out.** The array is the first runs, with the longest
of the later ones in the place of the smallest. What it leaves out may be one of the later runs,
and then there is a second one that was longer; or one of the runs that were not looked at. -/
theorem leftOut_iff {later all : List RtlBitmapRun} (hnodup : (a₁ ++ x :: a₂ ++ later).Nodup)
    (hall : ∀ r ∈ a₁ ++ x :: a₂ ++ later, r ∈ all)
    (hx : ∀ r ∈ a₁ ++ x :: a₂, x.numberOfBits ≤ r.numberOfBits) :
    (∀ u ∈ all, u ∉ a₁ ++ later.foldl longer x :: a₂ →
        ∀ r ∈ a₁ ++ later.foldl longer x :: a₂, u.numberOfBits ≤ r.numberOfBits) ↔
      (∀ y ∈ later, ∀ z ∈ later, y ≠ z →
        shorter (a₁ ++ x :: a₂) (min y.numberOfBits z.numberOfBits) ≤ 1) ∧
      ∀ u ∈ all, u ∉ a₁ ++ x :: a₂ ++ later → shorter (a₁ ++ x :: a₂) u.numberOfBits ≤ 1 ∧
        (shorter (a₁ ++ x :: a₂) u.numberOfBits = 0 ∨
          ∃ y ∈ later, u.numberOfBits ≤ y.numberOfBits) := by
  obtain ⟨hxm, hlm⟩ := le_foldl_longer x later
  have hm := foldl_longer_mem x later
  simp only [shorter_le_one_iff hx, shorter_eq_zero_iff hx]
  generalize later.foldl longer x = m at *
  have hlater : ∀ y ∈ later, y ∉ a₁ ++ x :: a₂ := fun y hy hy' =>
    (nodup_append.1 hnodup).2.2 y hy' y hy rfl
  have hentries : ∀ r, r ∈ a₁ ++ m :: a₂ ↔ r = m ∨ r ∈ a₁ ++ a₂ := fun r => by
    simp only [mem_append, mem_cons]
    tauto
  have hfirst : ∀ r, r ∈ a₁ ++ x :: a₂ ↔ r = x ∨ r ∈ a₁ ++ a₂ := fun r => by
    simp only [mem_append, mem_cons]
    tauto
  simp only [hentries]
  constructor
  · intro h
    have hout : ∀ u ∈ all, u ≠ m → u ∉ a₁ ++ a₂ →
        u.numberOfBits ≤ m.numberOfBits ∧ ∀ r ∈ a₁ ++ a₂, u.numberOfBits ≤ r.numberOfBits :=
      fun u hu hum hua => by
        have hu' := h u hu (by rintro (h | h); exacts [hum h, hua h])
        exact ⟨hu' m (.inl rfl), fun r hr => hu' r (.inr hr)⟩
    refine ⟨fun y hy z hz hne r hr => ?_, fun u hu hunseen => ?_⟩
    · -- one of the two is not the one that was taken
      have hleft : ∀ u ∈ later, u ≠ m → u.numberOfBits ≤ r.numberOfBits := fun u hu hum =>
        (hout u (hall u (mem_append_right _ hu)) hum
          fun hua => hlater u hu ((hfirst u).2 (.inr hua))).2 r hr
      by_cases hym : y = m
      · exact (min_le_right _ _).trans (hleft z hz fun hzm => hne (hym.trans hzm.symm))
      · exact (min_le_left _ _).trans (hleft y hy hym)
    · rw [mem_append, hfirst, not_or, not_or] at hunseen
      obtain ⟨⟨hux, hua⟩, hul⟩ := hunseen
      have hum : u ≠ m := by
        rintro rfl
        exact hm.elim hux hul
      obtain ⟨hle, hrest⟩ := hout u hu hum hua
      refine ⟨hrest, ?_⟩
      rcases hm with rfl | hm
      · exact .inl hle
      · exact .inr ⟨m, hm, hle⟩
  · rintro ⟨hpair, hunseen⟩ u hu hout
    rw [not_or] at hout
    obtain ⟨hum, hua⟩ := hout
    suffices h : u.numberOfBits ≤ m.numberOfBits ∧
        ∀ r ∈ a₁ ++ a₂, u.numberOfBits ≤ r.numberOfBits by
      rintro r (rfl | hr)
      · exact h.1
      · exact h.2 r hr
    by_cases hseen : u ∈ a₁ ++ x :: a₂ ++ later
    · rcases mem_append.1 hseen with hu' | hu'
      · -- the smallest run itself
        obtain rfl := ((hfirst u).1 hu').resolve_right hua
        exact ⟨hxm, fun r hr => hx r ((hfirst r).2 (.inr hr))⟩
      · refine ⟨hlm u hu', fun r hr => ?_⟩
        rcases hm with rfl | hm
        · exact (hlm u hu').trans (hx r ((hfirst r).2 (.inr hr)))
        · have hmin := hpair m hm u hu' (Ne.symm hum) r hr
          rwa [min_eq_right (hlm u hu')] at hmin
    · obtain ⟨hrest, hle⟩ := hunseen u hu hseen
      refine ⟨?_, hrest⟩
      rcases hle with hle | ⟨y, hy, hle⟩
      · exact hle.trans hxm
      · exact hle.trans (hlm y hy)

end Selection

end RtlBitmap

end Windivs

import Windivs.Fs.McbRemove

/-!
# Splitting an MCB

`FsRtlSplitBaseMcb` is to make room for `Amount` blocks at `Vbn`: what lies behind moves up. It
gives every run that ends after `Vbn` the same new start, and shifts it; the part of a run
before `Vbn` is not put back, and a run that started later now starts too early. So it does
what it is for only if every run that ends after `Vbn` starts there, or is none at all because
its logical block reads as a hole (`Windivs.BaseMcb.splitPromise_iff`).
-/

namespace Windivs

open BaseMcb List LargeMcbMappingEntry

variable {amount vbn : ℤ} {l : List LargeMcbMappingEntry}

variable {a b : List LargeMcbMappingEntry} {r : LargeMcbMappingEntry}

/-- What the loop makes of a run. -/
def splitRun (vbn amount : ℤ) (r : LargeMcbMappingEntry) : LargeMcbMappingEntry :=
  if r.runEndVbn ≤ vbn then r
  else { r with runStartVbn := vbn + amount, runEndVbn := r.runEndVbn + amount }

namespace BaseMcb

/-! ### The loop -/

section Loop

variable {t : RtlGenericTable LargeMcbMappingEntry} {x : LargeMcbMappingEntry}

/-- One turn of the loop. -/
theorem splitTurn_eq (hv : 0 ≤ vbn) (ha : 0 < amount) (hva : vbn + amount < 0x8000000000000000)
    (hx' : x.runEndVbn + amount < 0x8000000000000000) (hat : t.At a x b) :
    ∃ t' : RtlGenericTable LargeMcbMappingEntry, t'.At a (splitRun vbn amount x) b ∧
      splitTurn vbn amount (some x, t) = .again (t'.rtlEnumerateGenericTable false) := by
  by_cases hend : x.runEndVbn ≤ vbn
  · refine ⟨t, ?_, by simp [splitTurn, hend]⟩
    rw [splitRun, if_pos hend]
    exact hat
  · have h₁ : wrap (vbn + amount) = vbn + amount := wrap_of_bounds (by omega) hva
    have h₂ : wrap (x.runEndVbn + amount) = x.runEndVbn + amount := wrap_of_bounds (by omega) hx'
    refine ⟨_, hat.setRoot (splitRun vbn amount x), ?_⟩
    simp [splitTurn, splitRun, hend, h₁, h₂, ha]

/-- The loop from the run at the root on. -/
theorem runLoop_splitTurn (hv : 0 ≤ vbn) (ha : 0 < amount) (hva : vbn + amount < 0x8000000000000000)
    (hat : t.At a x b) (hb : ∀ r ∈ x :: b, r.runEndVbn + amount < 0x8000000000000000) {fuel : ℕ}
    (hfuel : b.length + 1 < fuel) :
    ∃ t', runLoop (splitTurn vbn amount) fuel (some x, t) = .ok t' ∧
      t'.elements = a ++ (x :: b).map (splitRun vbn amount) := by
  induction b generalizing a x t fuel with
  | nil =>
    obtain ⟨fuel, rfl⟩ : ∃ n, fuel = n + 2 := ⟨fuel - 2, by simp at hfuel; omega⟩
    obtain ⟨t1, hat1, hagain⟩ := splitTurn_eq hv ha hva (hb x (by simp)) hat
    rw [RtlGenericTable.enumerate_end hat1] at hagain
    refine ⟨t1, ?_, hat1.elements_eq⟩
    exact (runLoop_again (fuel + 1) hagain).trans (runLoop_leave fuel rfl)
  | cons y b ih =>
    rcases fuel with - | fuel
    · simp at hfuel
    obtain ⟨t1, hat1, hagain⟩ := splitTurn_eq hv ha hva (hb x (by simp)) hat
    obtain ⟨t2, hnext, hat2, -⟩ := RtlGenericTable.enumerate_next hat1
    obtain ⟨t', hrun, helems⟩ := ih hat2 (fun r hr => hb r (mem_cons_of_mem x hr))
      (by simpa using hfuel)
    rw [hnext] at hagain
    exact ⟨t', (runLoop_again fuel hagain).trans hrun, by simpa using helems⟩

end Loop

/-- Splitting does not take a block number past 63 bits. -/
structure NoOverflow (m : BaseMcb) (vbn amount : ℤ) : Prop where
  start : vbn + amount < 0x8000000000000000
  runs : ∀ r ∈ m.runs, r.runEndVbn + amount < 0x8000000000000000

variable {m : BaseMcb}

theorem fsRtlSplitBaseMcb_eq (hv : 0 ≤ vbn) (ha : 0 < amount) (hno : m.NoOverflow vbn amount) :
    ∃ m', m.fsRtlSplitBaseMcb vbn amount = .ok (true, m') ∧
      m'.runs = m.runs.map (splitRun vbn amount) := by
  rcases hruns : m.runs with - | ⟨x, b⟩
  · refine ⟨m, ?_, by simpa using hruns⟩
    rw [fsRtlSplitBaseMcb, RtlGenericTable.enumerate_empty hruns]
    rfl
  · obtain ⟨t, hfirst, hat, -⟩ := RtlGenericTable.enumerate_first hruns
    obtain ⟨t', hrun, helems⟩ := runLoop_splitTurn hv ha hno.start hat
      (fun r hr => hno.runs r (hruns ▸ hr))
      (show b.length + 1 < b.length + 2 by omega)
    refine ⟨{ m with table := t' }, ?_, helems⟩
    rw [fsRtlSplitBaseMcb, hfirst, budget, hruns, length_cons, hrun]
    rfl

end BaseMcb

/-! ### The mapping afterwards -/

section Mapping

variable {v e : ℤ}

/-- What a run reports for the block at a distance from its start. -/
def LargeMcbMappingEntry.reportedAt (r : LargeMcbMappingEntry) (d : ℤ) : Option ℤ :=
  if r.startingLbn = -1 ∨ wrap (r.startingLbn + d) = -1 then none
  else some (wrap (r.startingLbn + d))

theorem reported_splitRun (hr : vbn < r.runEndVbn) (v : ℤ) :
    (splitRun vbn amount r).reported v = r.reportedAt (v - (vbn + amount)) := by
  rw [splitRun, if_neg (not_le.2 hr)]
  rfl

/-- Among shifted runs there are no holes, and a block behind the room is in the first run that
ends after it. -/
theorem entryMapped_shifted (hl : ∀ r ∈ l, vbn < r.runEndVbn) (hv : vbn + amount ≤ v) (he : e ≤ v) :
    entryMapped v (mcbEntries e (l.map (splitRun vbn amount))) =
      (l.find? fun r => v - amount < r.runEndVbn).bind (·.reportedAt (v - (vbn + amount))) := by
  induction l generalizing e with
  | nil => rfl
  | cons r l ih =>
    obtain ⟨hr, hl'⟩ := forall_mem_cons.1 hl
    have hsplit : splitRun vbn amount r =
        { r with runStartVbn := vbn + amount, runEndVbn := r.runEndVbn + amount } := by
      rw [splitRun, if_neg (not_le.2 hr)]
    rw [map_cons, mcbEntries]
    by_cases hin : v - amount < r.runEndVbn
    · rw [entryMapped_runEntries he (by rw [hsplit]; simp only; omega),
        if_neg (by rw [hsplit]; simp only; omega), reported_splitRun hr,
        find?_cons_of_pos (by simpa using hin), Option.bind_some]
    · rw [entryMapped_runEntries_skip (by rw [hsplit]; simp only; omega)
        (by rw [hsplit]; simp only; omega), find?_cons_of_neg (by simpa using hin)]
      exact ih hl' (by rw [hsplit]; simp only; omega)

/-- The blocks behind the room that was made. -/
theorem entryMapped_split_high (hl : RunsApart l) (he : e ≤ vbn) (hv : vbn + amount ≤ v)
    (ha : 0 < amount) :
    entryMapped v (mcbEntries e (l.map (splitRun vbn amount))) =
      (l.find? fun r => v - amount < r.runEndVbn).bind (·.reportedAt (v - (vbn + amount))) := by
  induction l generalizing e with
  | nil => rfl
  | cons r l ih =>
    obtain ⟨hr, hle, hl'⟩ := Apart.cons_iff.1 hl
    by_cases hend : r.runEndVbn ≤ vbn
    · have hsplit : splitRun vbn amount r = r := by rw [splitRun, if_pos hend]
      rw [map_cons, mcbEntries, hsplit, entryMapped_runEntries_skip hr.le (by omega),
        find?_cons_of_neg (by simp only [decide_eq_true_eq]; omega)]
      exact ih hl' hend
    · -- this run and all that follow are shifted
      refine entryMapped_shifted (fun s hs => ?_) hv (by omega)
      rcases mem_cons.1 hs with rfl | hs
      · exact not_le.1 hend
      · have hge := hle s hs
        have hlt := hl'.lt s hs
        omega

/-- The blocks before the end of the room: only runs that ended before the split point are left
there. -/
theorem entryMapped_split_low (hl : RunsApart l) (he : e ≤ vbn) (hev : e ≤ v)
    (hv : v < vbn + amount) :
    entryMapped v (mcbEntries e (l.map (splitRun vbn amount))) =
      (runAt (l.filter fun r => r.runEndVbn ≤ vbn) v).bind (·.reported v) := by
  induction l generalizing e with
  | nil => rfl
  | cons r l ih =>
    obtain ⟨hr, hle, hl'⟩ := Apart.cons_iff.1 hl
    rw [map_cons, mcbEntries]
    by_cases hend : r.runEndVbn ≤ vbn
    · have hsplit : splitRun vbn amount r = r := by rw [splitRun, if_pos hend]
      have hfilter : RunsApart (r :: l.filter fun r => r.runEndVbn ≤ vbn) := by
        refine Apart.cons_iff.2 ⟨hr, fun s hs => hle s (mem_of_mem_filter hs), ?_⟩
        exact ⟨fun s hs => hl'.lt s (mem_of_mem_filter hs), hl'.le.filter _⟩
      rw [hsplit, filter_cons_of_pos (by simpa using hend)]
      by_cases hin : v < r.runEndVbn
      · rw [entryMapped_runEntries hev hin, runAt_cons_of_lt_end hfilter hin]
        split <;> rfl
      · rw [entryMapped_runEntries_skip hr.le (not_lt.1 hin), runAt_cons_of_end_le (not_lt.1 hin)]
        exact ih hl' hend (not_lt.1 hin)
    · have hempty : (r :: l).filter (fun r => r.runEndVbn ≤ vbn) = [] := by
        refine filter_eq_nil_iff.2 fun s hs => ?_
        rcases mem_cons.1 hs with rfl | hs
        · simpa using hend
        · have hge := hle s hs
          have hlt := hl'.lt s hs
          simp only [decide_eq_true_eq]
          omega
      rw [hempty, runEntries, splitRun, if_neg hend, if_pos (by simp only; omega)]
      exact entryMapped_hole hv _

end Mapping

namespace BaseMcb

variable {m : BaseMcb}

/-- What a split is to do: the blocks before the split point stay, there is room for `amount`
blocks, and what was there and behind is behind the room. -/
def SplitPromise (m : BaseMcb) (vbn amount : ℤ) : Prop :=
  ∃ m', m.fsRtlSplitBaseMcb vbn amount = .ok (true, m') ∧
    (∀ v, 0 ≤ v → v < vbn → m'.mapping v = m.mapping v) ∧
    (∀ v, vbn ≤ v → v < vbn + amount → m'.mapping v = none) ∧
    ∀ v, vbn + amount ≤ v → m'.mapping v = m.mapping (v - amount)

theorem bounded_split (hm : Bounded m.runs) (hv : 0 ≤ vbn) (ha : 0 < amount)
    (hno : m.NoOverflow vbn amount) : Bounded (m.runs.map (splitRun vbn amount)) := by
  intro r hr
  obtain ⟨s, hs, rfl⟩ := mem_map.1 hr
  have hs' := hm s hs
  have hend := hno.runs s hs
  rw [splitRun]
  split
  · exact hs'
  · exact ⟨by simp only; omega, by simp only; omega, hend⟩

/-- The mapping after a split, from the runs before it. -/
theorem mapping_split (hm : Bounded m.runs) (hl : RunsApart m.runs) (hv : 0 ≤ vbn)
    (ha : 0 < amount) (hno : m.NoOverflow vbn amount) :
    ∃ m', m.fsRtlSplitBaseMcb vbn amount = .ok (true, m') ∧
      (∀ v, 0 ≤ v → v < vbn + amount → m'.mapping v =
        (runAt (m.runs.filter fun r => r.runEndVbn ≤ vbn) v).bind (·.reported v)) ∧
      ∀ v, vbn + amount ≤ v → m'.mapping v =
        (m.runs.find? fun r => v - amount < r.runEndVbn).bind
          (·.reportedAt (v - (vbn + amount))) := by
  obtain ⟨m', hsplit, hruns⟩ := fsRtlSplitBaseMcb_eq hv ha hno
  have hbound : Bounded m'.runs := by
    rw [hruns]
    exact bounded_split hm hv ha hno
  refine ⟨m', hsplit, fun v hv0 hlt => ?_, fun v hle => ?_⟩
  · rw [mapping_eq_entryMapped hbound, hruns]
    exact entryMapped_split_low hl hv hv0 hlt
  · rw [mapping_eq_entryMapped hbound, hruns]
    exact entryMapped_split_high hl hv hle ha

/-- The run found behind a block is the run of the block or starts after it. -/
theorem find?_end_of_runAt (hl : RunsApart l) {w : ℤ} (hr : runAt l w = some r) :
    (l.find? fun r => w < r.runEndVbn) = some r := by
  induction l with
  | nil => cases hr
  | cons s l ih =>
    by_cases hin : w < s.runEndVbn
    · rw [runAt_cons_of_lt_end hl hin] at hr
      rw [find?_cons_of_pos (by simpa using hin)]
      split at hr
      · cases hr
      · exact hr
    · rw [runAt_cons_of_end_le (not_lt.1 hin)] at hr
      rw [find?_cons_of_neg (by simpa using hin)]
      exact ih (Apart.cons_iff.1 hl).2.2 hr

/-- Every run that ends after the split point starts there, or reads as a hole. -/
def StartsAt (m : BaseMcb) (vbn : ℤ) : Prop :=
  ∀ r ∈ m.runs, vbn < r.runEndVbn → r.runStartVbn = vbn ∨ r.startingLbn = -1

/-- That is enough. -/
theorem splitPromise_of_startsAt (hm : Bounded m.runs) (hl : RunsApart m.runs) (hv : 0 ≤ vbn)
    (ha : 0 < amount) (hno : m.NoOverflow vbn amount) (hstart : m.StartsAt vbn) :
    m.SplitPromise vbn amount := by
  obtain ⟨m', hsplit, hlow, hhigh⟩ := mapping_split hm hl hv ha hno
  have hfilter : RunsApart (m.runs.filter fun r => r.runEndVbn ≤ vbn) :=
    ⟨fun s hs => hl.lt s (mem_of_mem_filter hs), hl.le.filter _⟩
  refine ⟨m', hsplit, fun v hv0 hlt => ?_, fun v hge hlt => ?_, fun v hge => ?_⟩
  · rw [hlow v hv0 (by omega), mapping_eq hm hl hv0]
    rcases hr : runAt m.runs v with - | r
    · have hnone : runAt (m.runs.filter fun r => r.runEndVbn ≤ vbn) v = none :=
        runAt_eq_none.2 fun s hs => runAt_eq_none.1 hr s (mem_of_mem_filter hs)
      rw [hnone]
    · obtain ⟨hmem, hin⟩ := (runAt_eq_some hl).1 hr
      by_cases hend : r.runEndVbn ≤ vbn
      · rw [(runAt_eq_some hfilter).2 ⟨mem_filter.2 ⟨hmem, by simpa using hend⟩, hin⟩]
      · -- the run crosses the split point, and reads as a hole
        have hhole : r.startingLbn = -1 := by
          rcases hstart r hmem (not_le.1 hend) with heq | heq
          · exact absurd hin.1 (by omega)
          · exact heq
        have hnone : runAt (m.runs.filter fun r => r.runEndVbn ≤ vbn) v = none := by
          refine runAt_eq_none.2 fun s hs hins => ?_
          obtain ⟨hs, hends⟩ := mem_filter.1 hs
          have heq : s = r := Option.some.inj (((runAt_eq_some hl).2 ⟨hs, hins⟩).symm.trans hr)
          rw [heq] at hends
          exact hend (by simpa using hends)
        rw [hnone]
        simp [reported, hhole]
  · have hnone : runAt (m.runs.filter fun r => r.runEndVbn ≤ vbn) v = none := by
      refine runAt_eq_none.2 fun s hs hin => ?_
      have hend : s.runEndVbn ≤ vbn := by simpa using (mem_filter.1 hs).2
      exact absurd hin.2 (by omega)
    rw [hlow v (by omega) hlt, hnone]
    rfl
  · rw [hhigh v hge, mapping_eq hm hl (by omega)]
    rcases hr : runAt m.runs (v - amount) with - | r
    · -- a run found behind the block starts after it, so not at the split point
      rcases hfind : m.runs.find? (fun r => v - amount < r.runEndVbn) with - | s
      · rw [hfind]
        rfl
      · have hmem := mem_of_find?_eq_some hfind
        have hend : v - amount < s.runEndVbn := by simpa using find?_some hfind
        rcases hstart s hmem (by omega) with heq | heq
        · exact absurd ⟨by omega, hend⟩ (runAt_eq_none.1 hr s hmem)
        · rw [hfind, Option.bind_some, reportedAt, if_pos (.inl heq)]
          rfl
    · obtain ⟨hmem, hin⟩ := (runAt_eq_some hl).1 hr
      rw [find?_end_of_runAt hl hr, Option.bind_some, Option.bind_some]
      rcases hstart r hmem (by have := hin.2; omega) with heq | heq
      · rw [reportedAt, reported, lbnAt, heq, sub_sub, add_comm amount]
      · simp [reportedAt, reported, heq]

theorem reported_start (hlo : -0x8000000000000000 ≤ r.startingLbn)
    (hhi : r.startingLbn < 0x8000000000000000) (hne : r.startingLbn ≠ -1) :
    r.reported r.runStartVbn = some r.startingLbn := by
  have hwrap : wrap (r.startingLbn + (r.runStartVbn - r.runStartVbn)) = r.startingLbn := by
    rw [sub_self, add_zero]
    exact wrap_of_bounds hlo hhi
  rw [reported, lbnAt, hwrap, if_neg (by simp [hne])]

/-- It is needed: the first block of a run that starts elsewhere is lost or misplaced. -/
theorem startsAt_of_splitPromise (hm : Bounded m.runs) (hl : RunsApart m.runs)
    (hs : Stored m.runs) (hv : 0 ≤ vbn) (ha : 0 < amount) (hno : m.NoOverflow vbn amount)
    (h : m.SplitPromise vbn amount) : m.StartsAt vbn := by
  obtain ⟨m', hsplit, hlow, hhigh⟩ := mapping_split hm hl hv ha hno
  obtain ⟨m'', hsplit', hbefore, -, hbehind⟩ := h
  obtain rfl : m' = m'' := (Prod.mk.inj (Except.ok.inj (hsplit.symm.trans hsplit'))).2
  intro r hr hend
  by_contra! hno'
  obtain ⟨hne, hne'⟩ := hno'
  obtain ⟨h₀, -, -⟩ := hm r hr
  have hrun : runAt m.runs r.runStartVbn = some r :=
    (runAt_eq_some hl).2 ⟨hr, le_refl _, hl.lt r hr⟩
  have hold : m.mapping r.runStartVbn = some r.startingLbn := by
    rw [mapping_eq hm hl h₀, hrun]
    exact reported_start (hs r hr).1 (hs r hr).2 hne'
  rcases lt_or_gt_of_ne hne with hlt | hgt
  · -- the run crosses the split point: its head is lost
    have hnone : runAt (m.runs.filter fun r => r.runEndVbn ≤ vbn) r.runStartVbn = none := by
      refine runAt_eq_none.2 fun s hs' hin => ?_
      obtain ⟨hs', hends⟩ := mem_filter.1 hs'
      have heq : s = r := Option.some.inj (((runAt_eq_some hl).2 ⟨hs', hin⟩).symm.trans hrun)
      have hends' : s.runEndVbn ≤ vbn := by simpa using hends
      rw [heq] at hends'
      omega
    have hnew := hlow r.runStartVbn h₀ (by omega)
    rw [hnone, hbefore r.runStartVbn h₀ hlt, hold] at hnew
    cases hnew
  · -- the run starts later: it is shifted to the split point with its logical block
    have hnew := hhigh (r.runStartVbn + amount) (by omega)
    rw [hbehind (r.runStartVbn + amount) (by omega), add_sub_cancel_right, hold,
      find?_end_of_runAt hl hrun, Option.bind_some, reportedAt] at hnew
    have hb := hm r hr
    split at hnew
    · cases hnew
    · have heq := Option.some.inj hnew
      rw [wrap, Int.bmod_def] at heq
      split at heq <;> omega

/-- **When a split keeps its promise**: for runs that lie apart, exactly if every run that ends
after the split point starts there or reads as a hole. -/
theorem splitPromise_iff (m : BaseMcb) (vbn amount : ℤ) (hm : Bounded m.runs)
    (hl : RunsApart m.runs) (hs : Stored m.runs) (hv : 0 ≤ vbn) (ha : 0 < amount)
    (hno : m.NoOverflow vbn amount) : m.SplitPromise vbn amount ↔ m.StartsAt vbn :=
  ⟨startsAt_of_splitPromise hm hl hs hv ha hno, splitPromise_of_startsAt hm hl hv ha hno⟩

theorem bounded_eightBlocks : Bounded eightBlocks.runs := by
  rintro r hr
  obtain rfl := mem_singleton.1 hr
  decide

theorem stored_eightBlocks : Stored eightBlocks.runs := by
  rintro r hr
  obtain rfl := mem_singleton.1 hr
  decide

theorem noOverflow_eightBlocks (hv : vbn < 10) (ha : amount < 10) :
    eightBlocks.NoOverflow vbn amount := by
  refine ⟨by omega, ?_⟩
  rintro r hr
  obtain rfl := mem_singleton.1 hr
  simp only
  omega

theorem splitPromise_eightBlocks : eightBlocks.SplitPromise 2 3 := by
  refine (splitPromise_iff eightBlocks 2 3 bounded_eightBlocks inOrder_eightBlocks.apart
    stored_eightBlocks (by decide) (by decide)
    (noOverflow_eightBlocks (by decide) (by decide))).2 ?_
  rintro r hr -
  obtain rfl := mem_singleton.1 hr
  exact .inl rfl

/-- A split inside a run loses the blocks before the split point. -/
theorem split_loses_head : Bounded eightBlocks.runs ∧ RunsApart eightBlocks.runs ∧
    Stored eightBlocks.runs ∧ eightBlocks.NoOverflow 4 2 ∧ ¬eightBlocks.SplitPromise 4 2 := by
  refine ⟨bounded_eightBlocks, inOrder_eightBlocks.apart, stored_eightBlocks,
    noOverflow_eightBlocks (by decide) (by decide), ?_⟩
  intro h
  have hstart := startsAt_of_splitPromise bounded_eightBlocks inOrder_eightBlocks.apart
    stored_eightBlocks (by decide) (by decide) (noOverflow_eightBlocks (by decide) (by decide)) h
  rcases hstart ⟨2, 10, 50⟩ (by decide) (by decide) with heq | heq
  · exact absurd heq (by decide)
  · exact absurd heq (by decide)

end BaseMcb

end Windivs

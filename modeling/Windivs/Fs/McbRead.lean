import Windivs.Fs.Mcb

/-!
# What is read from an MCB

`FsRtlGetNextBaseMcbEntry` numbers the runs of an MCB and the holes between them. The list it
numbers is `Windivs.mcbEntries`, and `FsRtlLookupBaseMcbEntry` returns its first entry that
ends after the block it is given. For runs that lie apart this is the run that holds the
block, so that the mapping of an MCB is read from its runs (`Windivs.BaseMcb.mapping_eq`).

Reading splays the table but changes no run.
-/

namespace Windivs

open BaseMcb List LargeMcbMappingEntry

variable {e v : ℤ} {fuel i : ℕ} {m : BaseMcb}

/-- The block numbers of the runs have 63 bits. -/
def Bounded (l : List LargeMcbMappingEntry) : Prop :=
  ∀ r ∈ l, 0 ≤ r.runStartVbn ∧ r.runStartVbn ≤ r.runEndVbn ∧ r.runEndVbn < 0x8000000000000000

/-- The logical blocks of the runs are numbers of 64 bits. -/
def Stored (l : List LargeMcbMappingEntry) : Prop :=
  ∀ r ∈ l, -0x8000000000000000 ≤ r.startingLbn ∧ r.startingLbn < 0x8000000000000000

/-- The entry of a run. -/
def LargeMcbMappingEntry.entry (r : LargeMcbMappingEntry) : McbEntry :=
  ⟨r.runStartVbn, r.startingLbn, r.runEndVbn - r.runStartVbn⟩

/-- The entries for a run after one that ends at `e`: a hole if there is one, and the run. -/
def runEntries (e : ℤ) (r : LargeMcbMappingEntry) : List McbEntry :=
  if e < r.runStartVbn then [⟨e, -1, r.runStartVbn - e⟩, r.entry] else [r.entry]

/-- The entries for runs after one that ends at `e`. -/
def mcbEntries : ℤ → List LargeMcbMappingEntry → List McbEntry
  | _, [] => []
  | e, r :: l => runEntries e r ++ mcbEntries r.runEndVbn l

theorem length_runEntries (e : ℤ) (r : LargeMcbMappingEntry) : (runEntries e r).length ≤ 2 := by
  rw [runEntries]
  split <;> simp

theorem length_mcbEntries (e : ℤ) (l : List LargeMcbMappingEntry) :
    (mcbEntries e l).length ≤ 2 * l.length := by
  induction l generalizing e with
  | nil => simp [mcbEntries]
  | cons r l ih =>
    have hr := length_runEntries e r
    have hl := ih r.runEndVbn
    rw [mcbEntries, length_append, length_cons]
    omega

namespace BaseMcb

/-! ### The enumeration -/

section Enumeration

variable {t : RtlGenericTable LargeMcbMappingEntry} {x : LargeMcbMappingEntry}
  {lastVbn lastSectorCount : ℤ}

/-- One turn at a run: it returns an entry of the run, or goes on behind them. -/
theorem nextTurn_eq (hx₀ : 0 ≤ x.runStartVbn) (hx₁ : x.runStartVbn ≤ x.runEndVbn)
    (hx₂ : x.runEndVbn < 0x8000000000000000) (he : 0 ≤ e) (he' : e < 0x8000000000000000)
    (hlast : lastVbn + lastSectorCount = e) (j k : ℕ) :
    nextTurn (j + k) ⟨some x, t, j, lastVbn, lastSectorCount⟩ =
      if k < (runEntries e x).length then .leave ((runEntries e x)[k]?, t)
      else
        .again ⟨(t.rtlEnumerateGenericTable false).1, (t.rtlEnumerateGenericTable false).2,
          j + (runEntries e x).length, x.runStartVbn, x.runEndVbn - x.runStartVbn⟩ := by
  have hunsigned : unsigned e = e := unsigned_of_bounds he he'
  have hstart : unsigned x.runStartVbn = x.runStartVbn := unsigned_of_bounds hx₀ (by omega)
  have hlength : unsigned (x.runEndVbn - x.runStartVbn) = x.runEndVbn - x.runStartVbn :=
    unsigned_of_bounds (by omega) (by omega)
  have hcount : wrap (x.runEndVbn - x.runStartVbn) = x.runEndVbn - x.runStartVbn :=
    wrap_of_bounds (by omega) (by omega)
  have hwrap : wrap e = e := wrap_of_bounds (by omega) he'
  have hgap : wrap (x.runStartVbn - e) = x.runStartVbn - e := wrap_of_bounds (by omega) (by omega)
  by_cases hhole : e < x.runStartVbn
  · rcases k with - | - | k
    · simp [nextTurn, runEntries, hlast, hunsigned, hstart, hhole, hwrap, hgap]
    · simp [nextTurn, runEntries, hlast, hunsigned, hstart, hhole, hcount, entry]
    · simp [nextTurn, runEntries, hlast, hunsigned, hstart, hhole, hlength]
  · rcases k with - | k
    · simp [nextTurn, runEntries, hlast, hunsigned, hstart, hhole, hcount, entry]
    · simp [nextTurn, runEntries, hlast, hunsigned, hstart, hhole, hlength]

/-- The loop from the run at the root on returns the entry with the given number, counted from
here. -/
theorem loop_nextTurn {a b : List LargeMcbMappingEntry} (hat : t.At a x b)
    (hb : Bounded (x :: b)) (he : 0 ≤ e) (he' : e < 0x8000000000000000)
    (hlast : lastVbn + lastSectorCount = e) (j k : ℕ) (hfuel : b.length + 1 < fuel) :
    ∃ t', loop (nextTurn (j + k)) fuel ⟨some x, t, j, lastVbn, lastSectorCount⟩ =
        some ((mcbEntries e (x :: b))[k]?, t') ∧ t'.elements = a ++ x :: b := by
  induction b generalizing a x t e lastVbn lastSectorCount j k fuel with
  | nil =>
    obtain ⟨fuel, rfl⟩ : ∃ n, fuel = n + 2 := ⟨fuel - 2, by simp at hfuel; omega⟩
    obtain ⟨hx₀, hx₁, hx2⟩ := hb x (by simp)
    have hstep := nextTurn_eq (t := t) hx₀ hx₁ hx2 he he' hlast j k
    rw [RtlGenericTable.enumerate_end hat] at hstep
    refine ⟨t, ?_, hat.elements_eq⟩
    rw [mcbEntries, mcbEntries, append_nil]
    by_cases hk : k < (runEntries e x).length
    · rw [if_pos hk] at hstep
      exact loop_succ_leave (fuel + 1) hstep
    · rw [if_neg hk] at hstep
      rw [loop_succ_again (fuel + 1) hstep, getElem?_eq_none (not_lt.1 hk)]
      exact loop_succ_leave fuel rfl
  | cons y b ih =>
    rcases fuel with - | fuel
    · simp at hfuel
    obtain ⟨hx₀, hx₁, hx2⟩ := hb x (by simp)
    have hstep := nextTurn_eq (t := t) hx₀ hx₁ hx2 he he' hlast j k
    rw [mcbEntries]
    by_cases hk : k < (runEntries e x).length
    · rw [if_pos hk] at hstep
      rw [getElem?_append_left hk]
      exact ⟨t, loop_succ_leave fuel hstep, hat.elements_eq⟩
    · -- behind the entries of this run, the numbering starts again with the next
      obtain ⟨t1, hnext, hat1, -⟩ := RtlGenericTable.enumerate_next hat
      rw [if_neg hk, hnext] at hstep
      obtain ⟨t', hloop, helems⟩ := ih hat1 (fun r hr => hb r (mem_cons_of_mem x hr))
        (by omega : 0 ≤ x.runEndVbn) hx2
        (show x.runStartVbn + (x.runEndVbn - x.runStartVbn) = x.runEndVbn by ring)
        (j + (runEntries e x).length)
        (k - (runEntries e x).length) (by simpa using hfuel)
      rw [show j + (runEntries e x).length + (k - (runEntries e x).length) = j + k by omega] at hloop
      refine ⟨t', ?_, by simpa using helems⟩
      rw [loop_succ_again fuel hstep, hloop, getElem?_append_right (not_lt.1 hk)]

end Enumeration

/-- Two MCBs with the same runs and the same count. -/
structure SameRuns (m m' : BaseMcb) : Prop where
  runs : m'.runs = m.runs
  pairCount : m'.pairCount = m.pairCount

theorem SameRuns.trans {m m' m'' : BaseMcb} (h : SameRuns m m') (h' : SameRuns m' m'') :
    SameRuns m m'' :=
  ⟨h'.runs.trans h.runs, h'.pairCount.trans h.pairCount⟩

/-- **`FsRtlGetNextBaseMcbEntry`** returns the entry with the given number. -/
theorem fsRtlGetNextBaseMcbEntry_eq (hm : Bounded m.runs) (i : ℕ) :
    ∃ m', m.fsRtlGetNextBaseMcbEntry i = .ok ((mcbEntries 0 m.runs)[i]?, m') ∧ SameRuns m m' := by
  rcases hruns : m.runs with - | ⟨x, b⟩
  · refine ⟨m, ?_, rfl, rfl⟩
    rw [fsRtlGetNextBaseMcbEntry, RtlGenericTable.enumerate_empty hruns]
    simp [loop, budget, hruns, nextTurn, mcbEntries]
  · obtain ⟨t, hfirst, hat, -⟩ := RtlGenericTable.enumerate_first hruns
    rw [hruns] at hm
    obtain ⟨t', hloop, helems⟩ := loop_nextTurn hat hm (le_refl 0) (by norm_num)
      (show (0 : ℤ) + 0 = 0 from rfl) 0 i (show b.length + 1 < b.length + 2 by omega)
    rw [Nat.zero_add] at hloop
    refine ⟨{ m with table := t' }, ?_, ?_, rfl⟩
    · rw [fsRtlGetNextBaseMcbEntry, hfirst]
      simp only [budget, hruns, length_cons, hloop]
    · rw [hruns]
      exact helems

/-! ### The lookup -/

/-- The entry that a lookup returns: the first one that ends after the block. -/
def findEntry (vbn : ℤ) : ℕ → List McbEntry → Option McbLookup
  | _, [] => none
  | i, e :: l =>
    if vbn < e.vbn + e.sectorCount then
      some
        { lbn := if e.lbn = -1 then -1 else wrap (e.lbn + (vbn - e.vbn))
          sectorCountFromLbn := e.vbn + e.sectorCount - vbn
          startingLbn := e.lbn
          sectorCountFromStartingLbn := e.vbn + e.sectorCount - e.vbn
          index := i }
    else findEntry vbn (i + 1) l

theorem runLoop_lookupTurn (vbn : ℤ) {rest : List McbEntry} (hm : Bounded m.runs)
    (hrest : (mcbEntries 0 m.runs).drop i = rest) (hfuel : rest.length < fuel) :
    ∃ m', runLoop (lookupTurn vbn) fuel (i, m) = .ok (findEntry vbn i rest, m') ∧
      SameRuns m m' := by
  induction rest generalizing m i fuel with
  | nil =>
    rcases fuel with - | fuel
    · simp at hfuel
    obtain ⟨m', hnext, hsame⟩ := fsRtlGetNextBaseMcbEntry_eq hm i
    rw [getElem?_eq_none (drop_eq_nil_iff.1 hrest)] at hnext
    exact ⟨m', runLoop_leave fuel (by simp [lookupTurn, hnext, findEntry]), hsame⟩
  | cons e rest ih =>
    rcases fuel with - | fuel
    · simp at hfuel
    obtain ⟨m', hnext, hsame⟩ := fsRtlGetNextBaseMcbEntry_eq hm i
    have hi : i < (mcbEntries 0 m.runs).length := by
      by_contra hge
      rw [drop_eq_nil_of_le (not_lt.1 hge)] at hrest
      cases hrest
    obtain ⟨he, hdrop⟩ := cons.inj ((drop_eq_getElem_cons hi).symm.trans hrest)
    rw [getElem?_eq_getElem hi, he] at hnext
    by_cases hend : vbn < e.vbn + e.sectorCount
    · exact ⟨m', runLoop_leave fuel (by simp [lookupTurn, hnext, findEntry, hend]), hsame⟩
    · obtain ⟨m'', hrun, hsame'⟩ := ih (show Bounded m'.runs by rwa [hsame.runs])
        (show (mcbEntries 0 m'.runs).drop (i + 1) = rest by rwa [hsame.runs]) (by simpa using hfuel)
      have hagain : lookupTurn vbn (i, m) = .again (i + 1, m') := by
        simp [lookupTurn, hnext, hend]
      refine ⟨m'', ?_, hsame.trans hsame'⟩
      rw [runLoop_again fuel hagain, hrun, findEntry, if_neg hend]

/-- **`FsRtlLookupBaseMcbEntry`** returns the first entry that ends after the block. -/
theorem fsRtlLookupBaseMcbEntry_eq (hm : Bounded m.runs) (vbn : ℤ) :
    ∃ m', m.fsRtlLookupBaseMcbEntry vbn = .ok (findEntry vbn 0 (mcbEntries 0 m.runs), m') ∧
      SameRuns m m' := by
  have hlength := length_mcbEntries 0 m.runs
  exact runLoop_lookupTurn vbn hm (drop_zero) (by omega)

end BaseMcb

/-! ### The mapping -/

namespace LargeMcbMappingEntry

/-- The block is in the run. -/
def Contains (r : LargeMcbMappingEntry) (v : ℤ) : Prop := r.runStartVbn ≤ v ∧ v < r.runEndVbn

instance (r : LargeMcbMappingEntry) (v : ℤ) : Decidable (r.Contains v) :=
  inferInstanceAs (Decidable (_ ∧ _))

/-- The logical block of a block of the run. -/
def lbnAt (r : LargeMcbMappingEntry) (v : ℤ) : ℤ := wrap (r.startingLbn + (v - r.runStartVbn))

/-- The same as a lookup reports it, for which `-1` is a hole. -/
def reported (r : LargeMcbMappingEntry) (v : ℤ) : Option ℤ :=
  if r.startingLbn = -1 ∨ r.lbnAt v = -1 then none else some (r.lbnAt v)

end LargeMcbMappingEntry

variable {l : List LargeMcbMappingEntry} {r : LargeMcbMappingEntry}

theorem LargeMcbMappingEntry.reported_eq_some :
    r.reported v = some (r.lbnAt v) ↔ r.startingLbn ≠ -1 ∧ r.lbnAt v ≠ -1 := by
  rw [reported]
  split
  · next hhole =>
    tauto
  · next hhole =>
    simp only [true_iff]
    tauto

/-- No block of the runs reads as a hole. -/
def AllReported (l : List LargeMcbMappingEntry) : Prop :=
  ∀ r ∈ l, ∀ v, r.Contains v → r.reported v = some (r.lbnAt v)

/-- Runs that lie apart, from left to right. -/
def RunsApart (l : List LargeMcbMappingEntry) : Prop :=
  Apart LargeMcbMappingEntry.runStartVbn LargeMcbMappingEntry.runEndVbn l

/-- What the first entry that ends after a block says about it. -/
def entryMapped (v : ℤ) : List McbEntry → Option ℤ
  | [] => none
  | e :: l =>
    if v < e.vbn + e.sectorCount then
      if e.lbn = -1 ∨ wrap (e.lbn + (v - e.vbn)) = -1 then none
      else some (wrap (e.lbn + (v - e.vbn)))
    else entryMapped v l

theorem entryMapped_hole {e s v : ℤ} (hv : v < s) (l : List McbEntry) :
    entryMapped v (⟨e, -1, s - e⟩ :: l) = none := by
  simp [entryMapped, hv]

theorem entryMapped_skip {e : McbEntry} (hv : e.vbn + e.sectorCount ≤ v)
    (l : List McbEntry) : entryMapped v (e :: l) = entryMapped v l := by
  rw [entryMapped, if_neg (not_lt.2 hv)]

theorem entryMapped_run (hv : v < r.runEndVbn)
    (l : List McbEntry) : entryMapped v (r.entry :: l) = r.reported v := by
  rw [entryMapped, if_pos (by simp only [entry]; omega)]
  rfl

/-- The entries of a run that ends before the block are passed over. -/
theorem entryMapped_runEntries_skip (hr : r.runStartVbn ≤ r.runEndVbn) (hv : r.runEndVbn ≤ v)
    (l : List McbEntry) : entryMapped v (runEntries e r ++ l) = entryMapped v l := by
  have hrun : entryMapped v (r.entry :: l) = entryMapped v l :=
    entryMapped_skip (by simp only [entry]; omega) l
  rw [runEntries]
  split
  · rw [cons_append, entryMapped_skip (by simp only; omega)]
    exact hrun
  · exact hrun

/-- Those of a run that ends after it say whether it is in the run. -/
theorem entryMapped_runEntries (he : e ≤ v) (hv : v < r.runEndVbn) (l : List McbEntry) :
    entryMapped v (runEntries e r ++ l) =
      if v < r.runStartVbn then none else r.reported v := by
  have hrun := entryMapped_run hv l
  rw [runEntries]
  by_cases hbefore : v < r.runStartVbn
  · rw [if_pos (he.trans_lt hbefore), if_pos hbefore]
    exact entryMapped_hole hbefore _
  · split
    · rw [cons_append, entryMapped_skip (by simp only; omega)]
      exact hrun
    · exact hrun

/-- The run that holds a block. -/
def runAt (l : List LargeMcbMappingEntry) (v : ℤ) : Option LargeMcbMappingEntry :=
  l.find? fun r => r.Contains v

theorem runAt_eq_none : runAt l v = none ↔ ∀ r ∈ l, ¬r.Contains v := by
  simp [runAt]

theorem runAt_eq_some (hl : RunsApart l) : runAt l v = some r ↔ r ∈ l ∧ r.Contains v := by
  constructor
  · intro h
    exact ⟨mem_of_find?_eq_some h, by simpa using find?_some h⟩
  · rintro ⟨hr, hv⟩
    rcases h : runAt l v with - | s
    · exact absurd hv (runAt_eq_none.1 h r hr)
    · have hs : s.Contains v := by simpa using find?_some h
      obtain ⟨⟨hr1, hr2⟩, hs1, hs2⟩ := hv, hs
      exact congrArg some (hl.eq_of_common (mem_of_find?_eq_some h) hr (by omega) (by omega))

theorem runAt_cons_of_end_le (hv : r.runEndVbn ≤ v) : runAt (r :: l) v = runAt l v := by
  have hout : ¬r.Contains v := fun hin => absurd hin.2 (not_lt.2 hv)
  rw [runAt, find?_cons_of_neg (by simpa using hout), runAt]

/-- A block before the end of the first run is in that run or in none. -/
theorem runAt_cons_of_lt_end (hl : RunsApart (r :: l)) (hv : v < r.runEndVbn) :
    runAt (r :: l) v = if v < r.runStartVbn then none else some r := by
  split
  · next hbefore =>
    refine runAt_eq_none.2 fun s hs hin => ?_
    rcases mem_cons.1 hs with rfl | hs
    · exact absurd hin.1 (not_le.2 hbefore)
    · have hge := (Apart.cons_iff.1 hl).2.1 s hs
      exact absurd hin.1 (by omega)
  · next hbefore =>
    exact (runAt_eq_some hl).2 ⟨by simp, not_lt.1 hbefore, hv⟩

/-- The entries of runs that lie apart map a block as the run that holds it does. -/
theorem entryMapped_mcbEntries (hl : RunsApart l)
    (he : e ≤ v) : entryMapped v (mcbEntries e l) = (runAt l v).bind (·.reported v) := by
  induction l generalizing e with
  | nil => rfl
  | cons r l ih =>
    obtain ⟨hr, -, hl'⟩ := Apart.cons_iff.1 hl
    rw [mcbEntries]
    by_cases hv : v < r.runEndVbn
    · rw [entryMapped_runEntries he hv, runAt_cons_of_lt_end hl hv]
      split <;> rfl
    · rw [entryMapped_runEntries_skip hr.le (not_lt.1 hv), runAt_cons_of_end_le (not_lt.1 hv)]
      exact ih hl' (not_lt.1 hv)

namespace BaseMcb

theorem findEntry_mapped (v : ℤ) (i : ℕ) (l : List McbEntry) :
    (findEntry v i l).bind (fun e => if e.lbn = -1 then none else some e.lbn) =
      entryMapped v l := by
  induction l generalizing i with
  | nil => rfl
  | cons e l ih =>
    rw [findEntry, entryMapped]
    split
    · by_cases hhole : e.lbn = -1
      · simp [hhole]
      · simp [hhole]
    · exact ih (i + 1)

/-- A lookup that reports a logical block tells how many blocks of the run are left. -/
theorem findEntry_run (hl : RunsApart l) (he : e ≤ v)
    {f : McbLookup} (h : findEntry v i (mcbEntries e l) = some f) (hf : f.lbn ≠ -1) :
    ∃ r, runAt l v = some r ∧ f.sectorCountFromLbn = r.runEndVbn - v := by
  induction l generalizing e i with
  | nil => cases h
  | cons r l ih =>
    obtain ⟨hr, -, hl'⟩ := Apart.cons_iff.1 hl
    have hrun : ∀ j, r.runStartVbn ≤ v →
        findEntry v j (r.entry :: mcbEntries r.runEndVbn l) = some f →
        ∃ s, runAt (r :: l) v = some s ∧ f.sectorCountFromLbn = s.runEndVbn - v := by
      intro j hstart hj
      by_cases hv : v < r.runEndVbn
      · rw [findEntry, if_pos (by simp only [entry]; omega)] at hj
        obtain rfl := Option.some.inj hj
        refine ⟨r, ?_, by simp only [entry]; omega⟩
        rw [runAt_cons_of_lt_end hl hv, if_neg (not_lt.2 hstart)]
      · rw [findEntry, if_neg (by simp only [entry]; omega)] at hj
        obtain ⟨s, hs, hcount⟩ := ih hl' (not_lt.1 hv) hj
        exact ⟨s, by rw [runAt_cons_of_end_le (not_lt.1 hv), hs], hcount⟩
    rw [mcbEntries, runEntries] at h
    by_cases hhole : e < r.runStartVbn
    · rw [if_pos hhole, cons_append, findEntry] at h
      split at h
      · -- a block of the hole
        exact absurd (by rw [← Option.some.inj h]; rfl) hf
      · next hv => exact hrun _ (by simp only at hv; omega) h
    · rw [if_neg hhole] at h
      exact hrun _ (by omega) h

theorem mapping_eq_entryMapped (hm : Bounded m.runs) (v : ℤ) :
    m.mapping v = entryMapped v (mcbEntries 0 m.runs) := by
  obtain ⟨m', hlookup, -⟩ := fsRtlLookupBaseMcbEntry_eq hm v
  rw [mapping, hlookup, ← findEntry_mapped v 0]
  cases findEntry v 0 (mcbEntries 0 m.runs) with
  | none => rfl
  | some e => rfl

/-- **The mapping is read from the runs.** -/
theorem mapping_eq (hm : Bounded m.runs) (hl : RunsApart m.runs) (hv : 0 ≤ v) :
    m.mapping v = (runAt m.runs v).bind (·.reported v) :=
  (mapping_eq_entryMapped hm v).trans (entryMapped_mcbEntries hl hv)

/-- Where no block reads as a hole, it is what the runs say. -/
theorem mapping_eq_of_allReported (hm : Bounded m.runs) (hl : RunsApart m.runs)
    (hall : AllReported m.runs) (hv : 0 ≤ v) : m.mapping v = (runAt m.runs v).map (·.lbnAt v) := by
  rw [mapping_eq hm hl hv]
  rcases hr : runAt m.runs v with - | r
  · rfl
  · obtain ⟨hmem, hin⟩ := (runAt_eq_some hl).1 hr
    exact hall r hmem v hin

end BaseMcb

end Windivs

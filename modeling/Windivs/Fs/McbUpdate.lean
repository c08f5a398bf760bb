import Windivs.Fs.McbAdd

/-!
# Updates of the mapping

An addition to an MCB is to be an update of the mapping that `FsRtlLookupBaseMcbEntry` reads: it
returns `TRUE` and the range is mapped as wanted, all else as before; or `FALSE`, and nothing
changes. The test by which `FsRtlAddBaseMcbEntry` takes in the run after the range is too weak
for this, as logical blocks that do not go on are renumbered. It is an update exactly in the
cases of `Windivs.BaseMcb.AddSafe` (`Windivs.BaseMcb.addPromise_iff`).

It is also to refuse to overwrite a mapping. But it looks at one block only, and refuses when
there is a conflict exactly if the conflict is at the first block
(`Windivs.BaseMcb.refuses_iff_conflict`).

A truncation is to end the mapping at a block. It removes the blocks up to `MAXLONG`, the largest
number of 32 bits, and so leaves what is mapped behind `2 ^ 31` (`Windivs.BaseMcb.truncates_iff`).

A logical block `-1` in the table reads as a hole. No block that is added here has it, but a
caller may have added one before, and the cases account for it.
-/

namespace Windivs

open LargeMcbMappingEntry

namespace BaseMcb

variable {m m' : BaseMcb} {r : LargeMcbMappingEntry} {rest : List LargeMcbMappingEntry}
  {vbn lbn sectorCount v : ℤ}

/-! ### The run behind the range -/

/-- The run behind the range keeps its mapping: if it is taken in, its logical blocks go on
from those of the range; if it is cut, no block of it starts or stops to read as a hole. -/
def NextSafe (m : BaseMcb) (vbn lbn sectorCount : ℤ) : Prop :=
  ∀ r, runAt m.runs (vbn + sectorCount) = some r →
    if addedLbn m.runs vbn lbn ≤ r.lbnAt (vbn + sectorCount) then
      r.lbnAt (vbn + sectorCount) = lbn + sectorCount ∧ r.startingLbn ≠ -1
    else
      r.runStartVbn = vbn + sectorCount ∨
        r.startingLbn ≠ -1 ∧
          (r.lbnAt (vbn + sectorCount) ≠ -1 ∨ r.runEndVbn = vbn + sectorCount + 1)

namespace Added

section

variable (h : m.Added m' vbn lbn sectorCount rest) (hm : m.Valid) (hm' : m'.Valid) (hvbn : 0 ≤ vbn)
  (hcount : 0 < sectorCount)
include h hm hm' hvbn hcount

theorem mapping_of_nextSafe (hnode : addedLbn m.runs vbn lbn ≠ -1)
    (hsafe : m.NextSafe vbn lbn sectorCount)
    (hle : vbn + sectorCount ≤ v) : m'.mapping v = m.mapping v := by
  by_cases hlater : ∀ r, runAt m.runs (vbn + sectorCount) = some r → r.runEndVbn ≤ v
  · exact h.mapping_later hm hm' hvbn hcount hlater hle
  · push Not at hlater
    obtain ⟨r, hr, hlt⟩ := hlater
    obtain ⟨hmem, hin1, -⟩ := (runAt_eq_some hm.apart).1 hr
    have hold : m.mapping v = r.reported v := by
      rw [BaseMcb.mapping_eq hm.bounded hm.apart (by omega),
        (runAt_eq_some hm.apart).2 ⟨hmem, by omega, hlt⟩, Option.bind_some]
    have hr' := hsafe r hr
    rw [hold, reported]
    by_cases hmerge : addedLbn m.runs vbn lbn ≤ r.lbnAt (vbn + sectorCount)
    · rw [if_pos hmerge] at hr'
      have hat : r.lbnAt v = wrap (lbn + (v - vbn)) := by
        rw [lbnAt_add r v (vbn + sectorCount), hr'.1]
        congr 1
        ring
      rw [h.mapping_merged hm hm' hvbn hcount hr hmerge hle hlt, hat]
      simp [hnode, hr'.2]
    · rw [if_neg hmerge] at hr'
      rw [h.mapping_cut hm hm' hvbn hcount hr hmerge hle hlt]
      rcases hr' with hstart | ⟨hne, hne' | hend⟩
      · rw [← hstart, lbnAt_of_start (hm.stored r hmem).1 (hm.stored r hmem).2]
      · simp [hne, hne']
      · -- one block is left, and it is the one that reads as a hole
        obtain rfl : v = vbn + sectorCount := by omega
        simp [hne]

theorem nextSafe_of_mapping (hlbn : 0 ≤ lbn)
    (hlast : lbn + sectorCount < 0x8000000000000000) (hnode : addedLbn m.runs vbn lbn ≠ -1)
    (hsame : ∀ v, vbn + sectorCount ≤ v → m'.mapping v = m.mapping v) :
    m.NextSafe vbn lbn sectorCount := by
  intro r hr
  obtain ⟨hmem, hin1, hin2⟩ := (runAt_eq_some hm.apart).1 hr
  have hold : ∀ v, vbn + sectorCount ≤ v → v < r.runEndVbn → m.mapping v = r.reported v := by
    intro v hle hlt
    rw [BaseMcb.mapping_eq hm.bounded hm.apart (by omega),
      (runAt_eq_some hm.apart).2 ⟨hmem, by omega, hlt⟩, Option.bind_some]
  have hfirst := hsame _ (le_refl (vbn + sectorCount))
  rw [hold _ (le_refl _) hin2, reported] at hfirst
  by_cases hmerge : addedLbn m.runs vbn lbn ≤ r.lbnAt (vbn + sectorCount)
  · rw [if_pos hmerge]
    have hwrap : wrap (lbn + (vbn + sectorCount - vbn)) = lbn + sectorCount := by
      rw [show lbn + (vbn + sectorCount - vbn) = lbn + sectorCount by ring]
      exact wrap_of_bounds (by omega) hlast
    rw [h.mapping_merged hm hm' hvbn hcount hr hmerge (le_refl _) hin2, hwrap,
      if_neg (by simp only [hnode, false_or]; omega)] at hfirst
    split at hfirst
    · cases hfirst
    · next hne => exact ⟨(Option.some.inj hfirst).symm, fun heq => hne (.inl heq)⟩
  · rw [if_neg hmerge]
    rw [h.mapping_cut hm hm' hvbn hcount hr hmerge (le_refl _) hin2] at hfirst
    by_contra! hno
    obtain ⟨hstart, hno⟩ := hno
    by_cases hhole : r.startingLbn = -1
    · -- the run read as a hole, and what is left of it does not
      have hat : r.lbnAt (vbn + sectorCount) = vbn + sectorCount - r.runStartVbn - 1 := by
        have hb := hm.bounded r hmem
        rw [lbnAt, hhole,
          show -1 + (vbn + sectorCount - r.runStartVbn) = vbn + sectorCount - r.runStartVbn - 1 by
            ring]
        exact wrap_of_bounds (by omega) (by omega)
      rw [if_neg (by omega), if_pos (.inl hhole)] at hfirst
      cases hfirst
    · -- the rest of the run starts with the block that read as a hole
      obtain ⟨hat, hend⟩ := hno hhole
      have hsecond := hsame (vbn + sectorCount + 1) (by omega)
      have hat' : r.lbnAt (vbn + sectorCount + 1) = 0 := by
        rw [lbnAt_add r _ (vbn + sectorCount), hat,
          show -1 + (vbn + sectorCount + 1 - (vbn + sectorCount)) = 0 by ring]
        exact wrap_of_bounds (by norm_num) (by norm_num)
      rw [h.mapping_cut hm hm' hvbn hcount hr hmerge (by omega) (by omega),
        hold _ (by omega) (by omega), reported, hat', if_pos (.inl hat),
        if_neg (by simp [hhole])] at hsecond
      cases hsecond

end

end Added

/-! ### What an addition returns -/

/-- The first block of the range is mapped elsewhere. -/
def FirstConflicts (m : BaseMcb) (vbn lbn : ℤ) : Prop := ∃ y, m.mapping vbn = some y ∧ y ≠ lbn

/-- It is mapped as wanted, by a run that covers the range. -/
def Covered (m : BaseMcb) (vbn lbn sectorCount : ℤ) : Prop :=
  m.mapping vbn = some lbn ∧
    ∃ r, runAt m.runs vbn = some r ∧ vbn + sectorCount ≤ r.runEndVbn

theorem SameRuns.valid (h : SameRuns m m') (hm : m.Valid) : m'.Valid :=
  ⟨⟨by rw [h.runs]; exact hm.apart, by rw [h.runs, h.pairCount]; exact hm.pairCount⟩,
    by rw [h.runs]; exact hm.bounded, by rw [h.runs]; exact hm.stored⟩

/-- **The cases of an addition.** -/
theorem fsRtlAddBaseMcbEntry_cases (hm : m.Valid) (lbn : ℤ) (hvbn : 0 ≤ vbn)
    (hcount : 0 < sectorCount) (hend : vbn + sectorCount < 0x8000000000000000) :
    ∃ m₀, SameRuns m m₀ ∧
      ((m.FirstConflicts vbn lbn ∧ m.fsRtlAddBaseMcbEntry vbn lbn sectorCount = .ok (false, m₀)) ∨
        (m.Covered vbn lbn sectorCount ∧
          m.fsRtlAddBaseMcbEntry vbn lbn sectorCount = .ok (true, m₀)) ∨
        (¬m.FirstConflicts vbn lbn ∧ ¬m.Covered vbn lbn sectorCount ∧
          ∃ m' rest, m.fsRtlAddBaseMcbEntry vbn lbn sectorCount = .ok (true, m') ∧
            m₀.Added m' vbn lbn sectorCount rest)) := by
  obtain ⟨m₀, hlookup, hsame⟩ := fsRtlLookupBaseMcbEntry_eq hm.bounded vbn
  have hm0 := hsame.valid hm
  obtain ⟨m1, rest, hrun, hadded⟩ := addRun_spec hm0.toInOrder hm0.stored lbn hvbn hcount hend
  refine ⟨m₀, hsame, ?_⟩
  have hadd : m.fsRtlAddBaseMcbEntry vbn lbn sectorCount =
      (findEntry vbn 0 (mcbEntries 0 m.runs)).elim (.ok (true, m1)) fun e =>
        if e.lbn ≠ -1 ∧ e.lbn ≠ lbn then .ok (false, m₀)
        else if e.lbn ≠ -1 ∧ sectorCount ≤ e.sectorCountFromLbn then .ok (true, m₀)
        else .ok (true, m1) := by
    rw [fsRtlAddBaseMcbEntry, if_neg (by omega), if_neg (by omega), hlookup, ← hrun]
    cases findEntry vbn 0 (mcbEntries 0 m.runs) <;> rfl
  have hmap : m.mapping vbn = (findEntry vbn 0 (mcbEntries 0 m.runs)).bind
      fun e => if e.lbn = -1 then none else some e.lbn := by
    rw [mapping_eq_entryMapped hm.bounded, findEntry_mapped]
  rcases hfind : findEntry vbn 0 (mcbEntries 0 m.runs) with - | e
  · rw [hfind] at hadd hmap
    exact .inr (.inr
        ⟨by simp [FirstConflicts, hmap], by simp [Covered, hmap], m1, rest, hadd, hadded⟩)
  · rw [hfind] at hadd hmap
    simp only [Option.bind_some, Option.elim_some] at hadd hmap
    by_cases hhole : e.lbn = -1
    · simp only [hhole] at hadd hmap
      exact .inr (.inr
        ⟨by simp [FirstConflicts, hmap], by simp [Covered, hmap], m1, rest, hadd, hadded⟩)
    · obtain ⟨r, hr, hleft⟩ := findEntry_run hm.apart hvbn hfind hhole
      simp only [ne_eq, hhole, not_false_eq_true, true_and, if_false] at hadd hmap
      by_cases heq : e.lbn = lbn
      · have hfirst : ¬m.FirstConflicts vbn lbn := by simp [FirstConflicts, hmap, heq]
        by_cases hcover : sectorCount ≤ e.sectorCountFromLbn
        · simp only [heq, if_pos hcover] at hadd
          exact .inr (.inl ⟨⟨by rw [hmap, heq], r, hr, by omega⟩, hadd⟩)
        · simp only [heq, if_neg hcover] at hadd
          refine .inr (.inr ⟨hfirst, ?_, m1, rest, hadd, hadded⟩)
          rintro ⟨-, s, hs, hle⟩
          obtain rfl : r = s := Option.some.inj (hr.symm.trans hs)
          omega
      · simp only [heq] at hadd
        exact .inl ⟨⟨e.lbn, hmap, heq⟩, hadd⟩

theorem SameRuns.mapping (h : SameRuns m m') (hm : m.Valid) (v : ℤ) :
    m'.mapping v = m.mapping v := by
  rw [mapping_eq_entryMapped (h.valid hm).bounded, mapping_eq_entryMapped hm.bounded, h.runs]

/-! ### The states of an MCB -/

/-- The MCBs that additions and removals lead to. A removal checks its arguments, an addition
does not notice that the end of its range has more than 63 bits. -/
inductive Reachable : BaseMcb → Prop
  | init : Reachable fsRtlInitializeBaseMcb
  | add {m m' : BaseMcb} {result : Bool} (vbn lbn sectorCount : ℤ) (hm : Reachable m)
      (hlo : -0x8000000000000000 ≤ lbn) (hhi : lbn < 0x8000000000000000)
      (hend : vbn + sectorCount < 0x8000000000000000)
      (h : m.fsRtlAddBaseMcbEntry vbn lbn sectorCount = .ok (result, m')) : Reachable m'
  | remove {m m' : BaseMcb} {result : Bool} (vbn sectorCount : ℤ) (hm : Reachable m)
      (hvbn : vbn < 0x8000000000000000) (hcount : sectorCount < 0x8000000000000000)
      (h : m.fsRtlRemoveBaseMcbEntry vbn sectorCount = .ok (result, m')) : Reachable m'

theorem valid_init : fsRtlInitializeBaseMcb.Valid :=
  ⟨⟨Apart.nil, rfl⟩, fun _ hr => absurd hr (List.not_mem_nil), fun _ hr =>
    absurd hr (List.not_mem_nil)⟩

/-- An addition keeps the state valid. -/
theorem Valid.add (hm : m.Valid) {result : Bool} (hlo : -0x8000000000000000 ≤ lbn)
    (hhi : lbn < 0x8000000000000000) (hend : vbn + sectorCount < 0x8000000000000000)
    (h : m.fsRtlAddBaseMcbEntry vbn lbn sectorCount = .ok (result, m')) : m'.Valid := by
  by_cases hargs : 0 ≤ vbn ∧ 0 < sectorCount
  · obtain ⟨hvbn, hcount⟩ := hargs
    obtain ⟨m0, hsame, ⟨-, hadd⟩ | ⟨-, hadd⟩ | ⟨-, -, m1, rest, hadd, hadded⟩⟩ :=
      fsRtlAddBaseMcbEntry_cases hm lbn hvbn hcount hend
    · obtain rfl := (Prod.mk.inj (Except.ok.inj (hadd.symm.trans h))).2
      exact hsame.valid hm
    · obtain rfl := (Prod.mk.inj (Except.ok.inj (hadd.symm.trans h))).2
      exact hsame.valid hm
    · obtain rfl := (Prod.mk.inj (Except.ok.inj (hadd.symm.trans h))).2
      exact hadded.valid (hsame.valid hm) hvbn hcount hend hlo hhi
  · -- the arguments are refused
    have hrefused : m.fsRtlAddBaseMcbEntry vbn lbn sectorCount = .ok (false, m) := by
      rw [fsRtlAddBaseMcbEntry]
      split
      · rfl
      · rw [if_pos (by omega)]
        rfl
    obtain rfl := (Prod.mk.inj (Except.ok.inj (hrefused.symm.trans h))).2
    exact hm

/-- So does a removal. -/
theorem Valid.remove (hm : m.Valid) {result : Bool} (hvbn : vbn < 0x8000000000000000)
    (hcount : sectorCount < 0x8000000000000000)
    (h : m.fsRtlRemoveBaseMcbEntry vbn sectorCount = .ok (result, m')) : m'.Valid := by
  by_cases hargs : 0 ≤ vbn ∧ 0 < sectorCount ∧ vbn + sectorCount < 0x8000000000000000
  · obtain ⟨h₀, h₁, hend⟩ := hargs
    obtain ⟨m1, hrun, hm1, hkept, -⟩ := fsRtlRemoveBaseMcbEntry_eq hm.toInOrder h₀ h₁ hend
    obtain rfl := (Prod.mk.inj (Except.ok.inj (hrun.symm.trans h))).2
    exact ⟨hm1, hkept.bounded hm1.apart hm.bounded, hkept.stored hm.stored⟩
  · have hrefused : m.fsRtlRemoveBaseMcbEntry vbn sectorCount = .ok (false, m) := by
      rw [fsRtlRemoveBaseMcbEntry]
      split
      · rfl
      · have hwrap : wrap (vbn + sectorCount) ≤ vbn := by
          rw [wrap, Int.bmod_def]
          split <;> omega
        rw [if_pos hwrap]
        rfl
    obtain rfl := (Prod.mk.inj (Except.ok.inj (hrefused.symm.trans h))).2
    exact hm

/-- **Every MCB that can be reached is valid.** -/
theorem Reachable.valid (hm : m.Reachable) : m.Valid := by
  induction hm with
  | init => exact valid_init
  | add vbn lbn sectorCount _ hlo hhi hend h ih => exact ih.add hlo hhi hend h
  | remove vbn sectorCount _ hvbn hcount h ih => exact ih.remove hvbn hcount h

/-! ### The update -/

/-- **What an addition is to do.** -/
def AddPromise (m : BaseMcb) (vbn lbn sectorCount : ℤ) : Prop :=
  ∃ result m', m.fsRtlAddBaseMcbEntry vbn lbn sectorCount = .ok (result, m') ∧
    if result then
      (∀ i, 0 ≤ i → i < sectorCount → m'.mapping (vbn + i) = some (lbn + i)) ∧
        ∀ v, 0 ≤ v → v < vbn ∨ vbn + sectorCount ≤ v → m'.mapping v = m.mapping v
    else ∀ v, 0 ≤ v → m'.mapping v = m.mapping v

/-- Nothing is inserted, or the run that is inserted does not read as a hole and the run behind
it keeps its mapping. -/
def AddSafe (m : BaseMcb) (vbn lbn sectorCount : ℤ) : Prop :=
  m.FirstConflicts vbn lbn ∨ m.Covered vbn lbn sectorCount ∨
    addedLbn m.runs vbn lbn ≠ -1 ∧ m.NextSafe vbn lbn sectorCount

/-- A range that is covered is mapped as wanted. -/
theorem Covered.mapping (h : m.Covered vbn lbn sectorCount) (hm : m.Valid) (hvbn : 0 ≤ vbn)
    (hlbn : 0 ≤ lbn) (hlast : lbn + sectorCount < 0x8000000000000000) {i : ℤ} (hi : 0 ≤ i)
    (hi' : i < sectorCount) : m.mapping (vbn + i) = some (lbn + i) := by
  obtain ⟨hfirst, r, hr, hle⟩ := h
  obtain ⟨hmem, hin1, -⟩ := (runAt_eq_some hm.apart).1 hr
  rw [mapping_eq hm.bounded hm.apart hvbn, hr, Option.bind_some, reported] at hfirst
  split at hfirst
  · cases hfirst
  · next hne =>
    have hat : r.lbnAt (vbn + i) = lbn + i := by
      rw [lbnAt_add r _ vbn, Option.some.inj hfirst, add_sub_cancel_left]
      exact wrap_of_bounds (by omega) (by omega)
    rw [mapping_eq hm.bounded hm.apart (by omega),
      (runAt_eq_some hm.apart).2 ⟨hmem, by omega, by omega⟩, Option.bind_some,
      reported, hat, if_neg]
    rintro (heq | heq)
    · exact hne (.inl heq)
    · omega

section

variable (hm : m.Valid) (hvbn : 0 ≤ vbn) (hlbn : 0 ≤ lbn) (hcount : 0 < sectorCount)
  (hend : vbn + sectorCount < 0x8000000000000000) (hlast : lbn + sectorCount < 0x8000000000000000)
include hm hvbn hlbn hcount hend hlast

theorem addPromise_of_addSafe (h : m.AddSafe vbn lbn sectorCount) :
    m.AddPromise vbn lbn sectorCount := by
  obtain ⟨m0, hsame, ⟨-, hadd⟩ | ⟨hcover, hadd⟩ | ⟨hfirst, hcover, m', rest, hadd, hadded⟩⟩ :=
    fsRtlAddBaseMcbEntry_cases hm lbn hvbn hcount hend
  · exact ⟨false, m0, hadd, fun v _ => hsame.mapping hm v⟩
  · refine ⟨true, m0, hadd, fun i hi hi' => ?_, fun v _ _ => hsame.mapping hm v⟩
    rw [hsame.mapping hm]
    exact hcover.mapping hm hvbn hlbn hlast hi hi'
  · obtain ⟨hnode, hnext⟩ := (h.resolve_left hfirst).resolve_left hcover
    have hm0 := hsame.valid hm
    have hm' := hadded.valid hm0 hvbn hcount hend (by omega) (by omega)
    rw [← hsame.runs] at hnode
    have hnext0 : m0.NextSafe vbn lbn sectorCount := by
      rw [NextSafe, hsame.runs]
      exact hnext
    refine ⟨true, m', hadd, fun i hi hi' => ?_, fun v hv hout => ?_⟩
    · rw [hadded.mapping_range hm0 hm' hvbn hlbn hlast (by omega) (by omega), if_neg hnode,
        add_sub_cancel_left]
    · rw [← hsame.mapping hm]
      rcases hout with hlt | hle
      · exact hadded.mapping_low hm0 hm' hcount hv hlt
      · exact hadded.mapping_of_nextSafe hm0 hm' hvbn hcount hnode hnext0 hle

theorem addSafe_of_addPromise (h : m.AddPromise vbn lbn sectorCount) :
    m.AddSafe vbn lbn sectorCount := by
  obtain ⟨m0, hsame, ⟨hfirst, -⟩ | ⟨hcover, -⟩ | ⟨-, -, m', rest, hadd, hadded⟩⟩ :=
    fsRtlAddBaseMcbEntry_cases hm lbn hvbn hcount hend
  · exact .inl hfirst
  · exact .inr (.inl hcover)
  · have hm0 := hsame.valid hm
    have hm' := hadded.valid hm0 hvbn hcount hend (by omega) (by omega)
    obtain ⟨result, m1, hresult, hpromise⟩ := h
    obtain ⟨rfl, rfl⟩ := Prod.mk.inj (Except.ok.inj (hadd.symm.trans hresult))
    obtain ⟨hrange, hout⟩ := hpromise
    have hnode : addedLbn m0.runs vbn lbn ≠ -1 := by
      intro hhole
      have hfirst := hrange 0 (le_refl 0) hcount
      rw [hadded.mapping_range hm0 hm' hvbn hlbn hlast (by omega) (by omega),
        if_pos hhole] at hfirst
      cases hfirst
    have hnext := hadded.nextSafe_of_mapping hm0 hm' hvbn hcount hlbn hlast hnode
      fun v hle => (hout v (by omega) (.inr hle)).trans (hsame.mapping hm v).symm
    rw [NextSafe, hsame.runs] at hnext
    rw [hsame.runs] at hnode
    exact .inr (.inr ⟨hnode, hnext⟩)

end

/-- **When an addition is an update of the mapping**: from every MCB that can be reached,
exactly if it is safe. -/
theorem addPromise_iff (m : BaseMcb) (hm : m.Reachable) (vbn lbn sectorCount : ℤ) (hvbn : 0 ≤ vbn)
    (hlbn : 0 ≤ lbn) (hcount : 0 < sectorCount) (hend : vbn + sectorCount < 0x8000000000000000)
    (hlast : lbn + sectorCount < 0x8000000000000000) :
    m.AddPromise vbn lbn sectorCount ↔ m.AddSafe vbn lbn sectorCount :=
  ⟨addSafe_of_addPromise hm.valid hvbn hlbn hcount hend hlast,
    addPromise_of_addSafe hm.valid hvbn hlbn hcount hend hlast⟩

/-- An MCB with the block 1 mapped to 50. -/
def oneBlock : BaseMcb := ⟨⟨.node ⟨1, 2, 50⟩ .nil .nil, [⟨1, 2, 50⟩], 0, 0⟩, 1⟩

theorem reachable_oneBlock : oneBlock.Reachable :=
  .add 1 50 1 .init (by decide) (by decide) (by decide)
    (show fsRtlInitializeBaseMcb.fsRtlAddBaseMcbEntry 1 50 1 = .ok (true, oneBlock) from rfl)

/-- When the block 0 is mapped to 49, the runs are merged, and block 1 stays where it is. -/
theorem addPromise_neighbour : oneBlock.Reachable ∧ oneBlock.AddPromise 0 49 1 := by
  refine ⟨reachable_oneBlock, (addPromise_iff oneBlock reachable_oneBlock 0 49 1 (by decide)
    (by decide) (by decide) (by decide) (by decide)).2 (.inr (.inr ⟨?_, ?_⟩))⟩
  · exact show (49 : ℤ) ≠ -1 by decide
  · rintro r hr
    obtain rfl : ⟨1, 2, 50⟩ = r := Option.some.inj hr
    exact (if_pos (by decide)).mpr (by decide)

/-- When the block 0 is mapped to 10, block 1 moves to 11. -/
theorem add_moves_next : oneBlock.Reachable ∧ ¬oneBlock.AddPromise 0 10 1 := by
  refine ⟨reachable_oneBlock, fun h => ?_⟩
  obtain ⟨result, m', hadd, hpromise⟩ := h
  obtain ⟨m1, hadd1, hblock⟩ : ∃ m1, oneBlock.fsRtlAddBaseMcbEntry 0 10 1 = .ok (true, m1) ∧
      m1.mapping 1 = some 11 := ⟨_, rfl, rfl⟩
  obtain ⟨rfl, rfl⟩ := Prod.mk.inj (Except.ok.inj (hadd1.symm.trans hadd))
  have hold : oneBlock.mapping 1 = some 50 := rfl
  have hnew := hpromise.2 1 (by decide) (.inr (by decide))
  rw [hblock] at hnew
  exact absurd hnew (by decide)

/-! ### Overwriting -/

/-- A block of the range is mapped elsewhere. -/
def ConflictsAt (m : BaseMcb) (vbn lbn i : ℤ) : Prop :=
  ∃ y, m.mapping (vbn + i) = some y ∧ y ≠ lbn + i

theorem conflictsAt_zero : m.ConflictsAt vbn lbn 0 ↔ m.FirstConflicts vbn lbn := by
  rw [ConflictsAt, FirstConflicts, add_zero, add_zero]

/-- An addition is refused exactly if the first block of the range is mapped elsewhere. -/
theorem refuses_iff (hm : m.Valid) (lbn : ℤ) (hvbn : 0 ≤ vbn) (hcount : 0 < sectorCount)
    (hend : vbn + sectorCount < 0x8000000000000000) :
    (∃ m', m.fsRtlAddBaseMcbEntry vbn lbn sectorCount = .ok (false, m')) ↔
      m.FirstConflicts vbn lbn := by
  obtain ⟨m0, hsame, ⟨hfirst, hadd⟩ | ⟨hcover, hadd⟩ | ⟨hfirst, -, m1, -, hadd, -⟩⟩ :=
    fsRtlAddBaseMcbEntry_cases hm lbn hvbn hcount hend
  · exact ⟨fun _ => hfirst, fun _ => ⟨m0, hadd⟩⟩
  · constructor
    · rintro ⟨m', hfalse⟩
      cases (Prod.mk.inj (Except.ok.inj (hadd.symm.trans hfalse))).1
    · rintro ⟨y, hy, hne⟩
      exact absurd (Option.some.inj (hy.symm.trans hcover.1)) hne
  · constructor
    · rintro ⟨m', hfalse⟩
      cases (Prod.mk.inj (Except.ok.inj (hadd.symm.trans hfalse))).1
    · exact fun h => absurd h hfirst

/-- **When an addition refuses to overwrite**: that it returns `FALSE` says exactly that there is
a conflict, if the first block conflicts or none of the later ones does. -/
theorem refuses_iff_conflict (m : BaseMcb) (hm : m.Reachable) (vbn lbn sectorCount : ℤ)
    (hvbn : 0 ≤ vbn) (hcount : 0 < sectorCount) (hend : vbn + sectorCount < 0x8000000000000000) :
    ((∃ m', m.fsRtlAddBaseMcbEntry vbn lbn sectorCount = .ok (false, m')) ↔
        ∃ i, 0 ≤ i ∧ i < sectorCount ∧ m.ConflictsAt vbn lbn i) ↔
      m.ConflictsAt vbn lbn 0 ∨ ∀ i, 0 < i → i < sectorCount → ¬m.ConflictsAt vbn lbn i := by
  rw [refuses_iff hm.valid lbn hvbn hcount hend, ← conflictsAt_zero]
  constructor
  · intro h
    by_cases hfirst : m.ConflictsAt vbn lbn 0
    · exact .inl hfirst
    · exact .inr fun i hi hi' hconf => hfirst (h.2 ⟨i, hi.le, hi', hconf⟩)
  · rintro (hfirst | hlater)
    · exact ⟨fun _ => ⟨0, le_refl 0, hcount, hfirst⟩, fun _ => hfirst⟩
    · refine ⟨fun hfirst => ⟨0, le_refl 0, hcount, hfirst⟩, ?_⟩
      rintro ⟨i, hi, hi', hconf⟩
      rcases hi.eq_or_lt with rfl | hpos
      · exact hconf
      · exact absurd hconf (hlater i hpos hi')

theorem refuses_oneBlock : oneBlock.Reachable ∧
    ((∃ m', oneBlock.fsRtlAddBaseMcbEntry 1 7 2 = .ok (false, m')) ↔
      ∃ i, 0 ≤ i ∧ i < 2 ∧ oneBlock.ConflictsAt 1 7 i) :=
  ⟨reachable_oneBlock, (refuses_iff_conflict oneBlock reachable_oneBlock 1 7 2 (by decide)
    (by decide) (by decide)).2 (.inl ⟨50, rfl, by decide⟩)⟩

/-- The block 1 is mapped to 50, and is overwritten by a range that starts at block 0. -/
theorem add_overwrites : oneBlock.Reachable ∧ oneBlock.ConflictsAt 0 10 1 ∧
    ¬∃ m', oneBlock.fsRtlAddBaseMcbEntry 0 10 2 = .ok (false, m') := by
  refine ⟨reachable_oneBlock, ⟨50, rfl, by decide⟩, fun h => ?_⟩
  obtain ⟨y, hy, -⟩ := (refuses_iff reachable_oneBlock.valid 10 (by decide) (by decide)
    (by decide)).1 h
  cases hy

/-! ### Truncation -/

/-- `FsRtlTruncateBaseMcb`. -/
def fsRtlTruncateBaseMcb (m : BaseMcb) (vbn : ℤ) : Run BaseMcb := do
  let (_, m) ← m.fsRtlRemoveBaseMcbEntry vbn (wrap (0x7FFFFFFF - vbn + 1))
  return m

/-- **What a truncation is for**: no block from the cut on is mapped, and every block before it is
mapped as before. -/
def Truncates (m : BaseMcb) (vbn : ℤ) : Prop :=
  ∃ m', m.fsRtlTruncateBaseMcb vbn = .ok m' ∧ (∀ v, vbn ≤ v → m'.mapping v = none) ∧
    ∀ v, 0 ≤ v → v < vbn → m'.mapping v = m.mapping v

/-- What is left of a run behind `2 ^ 31` when the blocks before are removed. -/
def leftBehind (vbn : ℤ) (r : LargeMcbMappingEntry) : LargeMcbMappingEntry :=
  if vbn < 0x80000000 then
    { r with
      runStartVbn := max r.runStartVbn 0x80000000
      startingLbn := r.lbnAt (max r.runStartVbn 0x80000000) }
  else r

/-- No block behind both the cut and `2 ^ 31` is mapped: no run has one, unless what is left of the
run reads as a hole. -/
def EndsInTime (m : BaseMcb) (vbn : ℤ) : Prop :=
  ∀ r ∈ m.runs, ∀ v, r.Contains v → vbn ≤ v → 0x80000000 ≤ v → (leftBehind vbn r).reported v = none

/-- What the blocks from the cut on are mapped to afterwards. -/
theorem fsRtlTruncateBaseMcb_eq (hm : m.Valid) (hvbn : 0 ≤ vbn) (hlt : vbn < 0x8000000000000000) :
    ∃ m', m.fsRtlTruncateBaseMcb vbn = .ok m' ∧
      (∀ v, 0 ≤ v → v < vbn → m'.mapping v = m.mapping v) ∧
      ∀ v, vbn ≤ v → m'.mapping v =
        if v < 0x80000000 then none
        else (runAt m.runs v).bind fun r => (leftBehind vbn r).reported v := by
  rw [fsRtlTruncateBaseMcb, wrap_of_bounds (by omega) (by omega)]
  by_cases hcut : vbn < 0x80000000
  · obtain ⟨m', hrun, hm', hkept, hmiss⟩ := fsRtlRemoveBaseMcbEntry_eq hm.toInOrder hvbn
      (show 0 < 0x7FFFFFFF - vbn + 1 by omega) (by omega)
    rw [show vbn + (0x7FFFFFFF - vbn + 1) = 0x80000000 by omega] at hkept hmiss
    have hbounded := hkept.bounded hm'.apart hm.bounded
    refine ⟨m', by rw [hrun]; rfl, fun v hv hlow => ?_, fun v hv => ?_⟩
    · rw [mapping_eq hbounded hm'.apart hv, mapping_eq hm.bounded hm.apart hv]
      rcases hkept.runAt_low hm.apart hm'.apart hm.stored hcut hlow with
        ⟨hr', hr⟩ | ⟨r, r', hr', hr, hstart, hlbn⟩
      · rw [hr', hr]
      · rw [hr', hr]
        exact reported_congr hstart hlbn v
    · rw [mapping_eq hbounded hm'.apart (by omega)]
      split
      · next hin =>
        have hnone : runAt m'.runs v = none := by
          refine runAt_eq_none.2 fun r hr hcontains => ?_
          have hmisses := hmiss r hr
          rw [Misses] at hmisses
          obtain ⟨hlo, hhi⟩ := hcontains
          simp only at hmisses
          omega
        rw [hnone]
        rfl
      · next hbehind =>
        rcases hkept.runAt_high hm.apart hm'.apart hm.stored hmiss hcut (not_lt.1 hbehind) with
          ⟨hr', hr⟩ | ⟨r, r', hr', hr, hstart, -, hlbn⟩
        · rw [hr', hr]
          rfl
        · rw [hr', hr]
          simp only [Option.bind_some, leftBehind, if_pos hcut]
          exact reported_congr hstart (hlbn.trans (congrArg _ hstart)) v
  · refine ⟨m, ?_, fun v _ _ => rfl, fun v hv => ?_⟩
    · rw [fsRtlRemoveBaseMcbEntry, if_pos (by omega)]
      rfl
    · rw [mapping_eq hm.bounded hm.apart (by omega), if_neg (by omega)]
      simp only [leftBehind, if_neg hcut]

/-- **When a truncation does what it is for**: exactly if no block behind both the cut and `2 ^ 31`
is mapped. -/
theorem truncates_iff (m : BaseMcb) (hm : m.Valid) (vbn : ℤ) (hvbn : 0 ≤ vbn)
    (hlt : vbn < 0x8000000000000000) : m.Truncates vbn ↔ m.EndsInTime vbn := by
  obtain ⟨m', hrun, hlow, hhigh⟩ := fsRtlTruncateBaseMcb_eq hm hvbn hlt
  constructor
  · rintro ⟨m1, hrun1, hnone, -⟩ r hr v hin hv hbehind
    obtain rfl := Except.ok.inj (hrun.symm.trans hrun1)
    have hmap := hhigh v hv
    rwa [hnone v hv, if_neg (not_lt.2 hbehind), (runAt_eq_some hm.apart).2 ⟨hr, hin⟩, eq_comm] at hmap
  · intro hends
    refine ⟨m', hrun, fun v hv => ?_, hlow⟩
    rw [hhigh v hv]
    split
    · rfl
    · next hbehind =>
      rcases hr : runAt m.runs v with - | r
      · rfl
      · obtain ⟨hmem, hin⟩ := (runAt_eq_some hm.apart).1 hr
        exact hends r hmem v hin hv (not_lt.1 hbehind)

theorem truncates_oneBlock : oneBlock.Valid ∧ oneBlock.Truncates 1 := by
  refine ⟨reachable_oneBlock.valid, (truncates_iff oneBlock reachable_oneBlock.valid 1 (by decide)
    (by decide)).2 fun r hr v hin _ hv => ?_⟩
  obtain rfl := List.mem_singleton.1 hr
  obtain ⟨-, hlt⟩ := hin
  simp only at hlt
  omega

/-- An MCB with one block, behind `2 ^ 31`. -/
def farBlock : BaseMcb :=
  ⟨⟨.node ⟨0x80000000, 0x80000001, 50⟩ .nil .nil, [⟨0x80000000, 0x80000001, 50⟩], 0, 0⟩, 1⟩

theorem valid_farBlock : farBlock.Valid := by
  refine ⟨⟨Apart.cons_iff.2 ⟨by decide, by simp, Apart.nil⟩, rfl⟩, ?_, ?_⟩ <;> rintro r hr <;>
    obtain rfl := List.mem_singleton.1 hr <;> decide

/-- Truncating to nothing leaves the block. -/
theorem truncate_leaves_farBlock : farBlock.Valid ∧ ¬farBlock.Truncates 0 := by
  refine ⟨valid_farBlock, ?_⟩
  rintro ⟨m', hrun', hnone, -⟩
  obtain ⟨m, hrun, -, hhigh⟩ := fsRtlTruncateBaseMcb_eq valid_farBlock (le_refl 0) (by decide)
  obtain rfl := Except.ok.inj (hrun.symm.trans hrun')
  have hmap := hhigh 0x80000000 (by decide)
  rw [hnone _ (by decide)] at hmap
  exact absurd hmap (by decide)

end BaseMcb

end Windivs

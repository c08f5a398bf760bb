import Windivs.Fs.McbRemove

/-!
# Adding a range to an MCB

`FsRtlAddBaseMcbEntry` looks at the first block of the range, and unless this settles the
matter it removes the range, and inserts a run (`Windivs.addedRun`). That run takes in the run
before it, if the logical blocks go on, and the run after it, if the logical block of *that* is
not smaller than its own.

The module says what is in the table afterwards (`Windivs.BaseMcb.addRun_spec`), and how the
blocks before, in and after the range are then mapped.
-/

namespace Windivs

open BaseMcb List LargeMcbMappingEntry Option

variable {l l' : List LargeMcbMappingEntry} {needle node' r : LargeMcbMappingEntry}
  {sectorCount : ℤ}

/-! ### The run that is inserted -/

section Added

/-- The run before the range, if its logical blocks go on. -/
def lowerRun (l : List LargeMcbMappingEntry) (vbn lbn : ℤ) : Option LargeMcbMappingEntry :=
  (runAt l (vbn - 1)).filter fun r => r.lbnAt vbn = lbn

/-- The first block of the inserted run. -/
def addedStart (l : List LargeMcbMappingEntry) (vbn lbn : ℤ) : ℤ :=
  (lowerRun l vbn lbn).elim vbn (·.runStartVbn)

/-- Its logical block. -/
def addedLbn (l : List LargeMcbMappingEntry) (vbn lbn : ℤ) : ℤ :=
  (lowerRun l vbn lbn).elim lbn (·.startingLbn)

/-- The run that a run with the end `e` and the logical block `lbn` is merged with. -/
def higherRun (l : List LargeMcbMappingEntry) (lbn e : ℤ) : Option LargeMcbMappingEntry :=
  (runAt l e).filter fun r => lbn ≤ r.lbnAt e

/-- The end of the run that is merged. -/
def addedEnd (l : List LargeMcbMappingEntry) (lbn e : ℤ) : ℤ :=
  (higherRun l lbn e).elim e (·.runEndVbn)

/-- **The run that is inserted**, from the runs before. -/
def addedRun (l : List LargeMcbMappingEntry) (vbn lbn sectorCount : ℤ) : LargeMcbMappingEntry where
  runStartVbn := addedStart l vbn lbn
  runEndVbn := addedEnd l (addedLbn l vbn lbn) (vbn + sectorCount)
  startingLbn := addedLbn l vbn lbn

variable {r' : LargeMcbMappingEntry} {vbn lbn e v : ℤ}

theorem lbnAt_of_start (hlo : -0x8000000000000000 ≤ r.startingLbn)
    (hhi : r.startingLbn < 0x8000000000000000) : r.lbnAt r.runStartVbn = r.startingLbn := by
  rw [lbnAt, sub_self, add_zero]
  exact wrap_of_bounds hlo hhi

/-- The logical block of one block from that of another. -/
theorem lbnAt_add (r : LargeMcbMappingEntry) (v w : ℤ) :
    r.lbnAt v = wrap (r.lbnAt w + (v - w)) := by
  rw [lbnAt, lbnAt, wrap_add_wrap]
  congr 1
  ring

/-- What a run reports does not depend on its end. -/
theorem reported_congr (hstart : r'.runStartVbn = r.runStartVbn)
    (hlbn : r'.startingLbn = r.startingLbn) (v : ℤ) : r'.reported v = r.reported v := by
  obtain ⟨s, e, lbn⟩ := r
  obtain ⟨s', e', lbn'⟩ := r'
  obtain rfl : s' = s := hstart
  obtain rfl : lbn' = lbn := hlbn
  rfl

theorem lowerRun_eq_some : lowerRun l vbn lbn = some r ↔
    runAt l (vbn - 1) = some r ∧ r.lbnAt vbn = lbn := by
  simp [lowerRun, filter_eq_some_iff]

theorem higherRun_eq_some : higherRun l lbn e = some r ↔
    runAt l e = some r ∧ lbn ≤ r.lbnAt e := by
  simp [higherRun, filter_eq_some_iff]

theorem lowerRun_of_none (h : runAt l (vbn - 1) = none) : lowerRun l vbn lbn = none := by
  rw [lowerRun, h, filter_none]

theorem lowerRun_of_some (h : runAt l (vbn - 1) = some r) :
    lowerRun l vbn lbn = if r.lbnAt vbn = lbn then some r else none := by
  rw [lowerRun, h, filter_some]
  simp

theorem higherRun_of_none (h : runAt l e = none) : higherRun l lbn e = none := by
  rw [higherRun, h, filter_none]

theorem higherRun_of_some (h : runAt l e = some r) :
    higherRun l lbn e = if lbn ≤ r.lbnAt e then some r else none := by
  rw [higherRun, h, filter_some]
  simp

/-- The inserted run maps the range as wanted. -/
theorem lbnAt_addedRun (l : List LargeMcbMappingEntry) (vbn lbn sectorCount v : ℤ) :
    (addedRun l vbn lbn sectorCount).lbnAt v = wrap (lbn + (v - vbn)) := by
  rcases hlow : lowerRun l vbn lbn with - | r
  · simp [addedRun, addedStart, addedLbn, hlow, lbnAt]
  · obtain ⟨-, heq⟩ := lowerRun_eq_some.1 hlow
    have hgoes := lbnAt_add r v vbn
    rw [heq] at hgoes
    rw [← hgoes]
    simp [addedRun, addedStart, addedLbn, hlow, lbnAt]

section

variable (h : Kept needle l l') (hl : RunsApart l) (hl' : RunsApart l')
include h hl hl'

/-- What is left before the range. -/
theorem Kept.runAt_low (hs : Stored l) (hn : needle.runStartVbn < needle.runEndVbn)
    (hv : v < needle.runStartVbn) :
    (runAt l' v = none ∧ runAt l v = none) ∨
      ∃ r r', runAt l' v = some r' ∧ runAt l v = some r ∧
        r'.runStartVbn = r.runStartVbn ∧ r'.startingLbn = r.startingLbn := by
  rcases h.runAt_cases hl hl' (.inl hv) with hnone | ⟨s, r', hr', hr, hmem, -, hin', hrest⟩
  · exact .inl hnone
  · have hstart : r'.runStartVbn = s.runStartVbn := by
      rcases hrest.start_eq with heq | heq
      · exact heq
      · exact absurd hin'.1 (by omega)
    refine .inr ⟨s, r', hr', hr, hstart, ?_⟩
    rcases hrest.lbn with ⟨-, heq⟩ | heq
    · exact heq
    · rw [heq, hstart, sub_self, add_zero]
      exact wrap_of_bounds (hs s hmem).1 (hs s hmem).2

/-- What is left after the range. -/
theorem Kept.runAt_high (hs : Stored l) (hmiss : ∀ r ∈ l', Misses needle r)
    (hn : needle.runStartVbn < needle.runEndVbn) (hv : needle.runEndVbn ≤ v) :
    (runAt l' v = none ∧ runAt l v = none) ∨
      ∃ r r', runAt l' v = some r' ∧ runAt l v = some r ∧
        r'.runStartVbn = max r.runStartVbn needle.runEndVbn ∧ r'.runEndVbn = r.runEndVbn ∧
        r'.startingLbn = r.lbnAt r'.runStartVbn := by
  rcases h.runAt_cases hl hl' (.inr hv) with
    hnone | ⟨s, r', hr', hr, hmem, hmem', ⟨hin1, hin2⟩, hrest⟩
  · exact .inl hnone
  · have hmisses := hmiss r' hmem'
    rw [Misses] at hmisses
    have hlo := hrest.start_le
    refine .inr ⟨s, r', hr', hr, ?_, ?_, ?_⟩
    · rcases hrest.start_eq with heq | heq <;> omega
    · rcases hrest.end_eq with heq | heq
      · exact heq
      · exact absurd hin2 (by omega)
    · rcases hrest.lbn with ⟨hstart, heq⟩ | heq
      · rw [hstart, heq]
        exact (lbnAt_of_start (hs s hmem).1 (hs s hmem).2).symm
      · exact heq

end

/-- Removing the range does not change the run that is inserted. -/
theorem Kept.addedRun_eq (h : Kept ⟨vbn, vbn + sectorCount, -1⟩ l l')
    (hl : RunsApart l) (hl' : RunsApart l') (hs : Stored l)
    (hmiss : ∀ r ∈ l', Misses ⟨vbn, vbn + sectorCount, -1⟩ r) (hcount : 0 < sectorCount) :
    addedRun l' vbn lbn sectorCount = addedRun l vbn lbn sectorCount := by
  have hn : vbn < vbn + sectorCount := by omega
  have hlow : addedStart l' vbn lbn = addedStart l vbn lbn ∧
      addedLbn l' vbn lbn = addedLbn l vbn lbn := by
    rcases h.runAt_low hl hl' hs hn (show vbn - 1 < vbn by omega) with
      ⟨h', h⟩ | ⟨r, r', h', h, hstart, hlbn⟩
    · simp [addedStart, addedLbn, lowerRun_of_none h, lowerRun_of_none h']
    · have hat : r'.lbnAt vbn = r.lbnAt vbn := by
        rw [lbnAt, hstart, hlbn, lbnAt]
      rw [addedStart, addedLbn, addedStart, addedLbn, lowerRun_of_some h, lowerRun_of_some h', hat]
      split
      · exact ⟨hstart, hlbn⟩
      · exact ⟨rfl, rfl⟩
  have hhigh : ∀ x, addedEnd l' x (vbn + sectorCount) = addedEnd l x (vbn + sectorCount) := by
    intro x
    rcases h.runAt_high hl hl' hs hmiss hn (le_refl _) with
      ⟨h', h⟩ | ⟨r, r', h', h, hstart, hend, hlbn⟩
    · rw [addedEnd, addedEnd, higherRun_of_none h, higherRun_of_none h']
    · have hle : r.runStartVbn ≤ vbn + sectorCount := ((runAt_eq_some hl).1 h).2.1
      have hstart' : r'.runStartVbn = vbn + sectorCount := by
        rw [hstart]
        exact max_eq_right hle
      have hat : r'.lbnAt (vbn + sectorCount) = r.lbnAt (vbn + sectorCount) := by
        rw [lbnAt, hstart', sub_self, add_zero, hlbn, hstart']
        exact Int.bmod_bmod
      rw [addedEnd, addedEnd, higherRun_of_some h, higherRun_of_some h', hat]
      split
      · exact hend
      · rfl
  rw [addedRun, addedRun, hlow.1, hlow.2, hhigh]

end Added

/-! ### The merges -/

/-- **A run takes in runs of a list**: the rest of the list has no block in common with it. -/
structure Absorbs (node : LargeMcbMappingEntry) (l rest : List LargeMcbMappingEntry) : Prop where
  perm : ∃ a, l.Perm (a ++ rest) ∧
    ∀ r ∈ a, node.runStartVbn ≤ r.runStartVbn ∧ r.runEndVbn ≤ node.runEndVbn
  misses : ∀ r ∈ rest, Misses node r

namespace Absorbs

variable {node : LargeMcbMappingEntry} {rest rest' : List LargeMcbMappingEntry} {v : ℤ}

theorem refl (h : ∀ r ∈ l, Misses node r) : Absorbs node l l :=
  ⟨⟨[], by simp, by simp⟩, h⟩

theorem trans (h : Absorbs node l rest) (h' : Absorbs node' rest rest')
    (hlo : node'.runStartVbn ≤ node.runStartVbn) (hhi : node.runEndVbn ≤ node'.runEndVbn) :
    Absorbs node' l rest' := by
  obtain ⟨a, hperm, ha⟩ := h.perm
  obtain ⟨b, hperm', hb⟩ := h'.perm
  refine ⟨⟨a ++ b, ?_, fun r hr => ?_⟩, h'.misses⟩
  · rw [append_assoc]
    exact hperm.trans (hperm'.append_left a)
  · rcases mem_append.1 hr with hr | hr
    · exact ⟨hlo.trans (ha r hr).1, (ha r hr).2.trans hhi⟩
    · exact hb r hr

theorem subset (h : Absorbs node l rest) (hr : r ∈ rest) : r ∈ l := by
  obtain ⟨a, hperm, -⟩ := h.perm
  exact hperm.mem_iff.2 (mem_append_right a hr)

/-- The blocks outside are in the runs they were in. -/
theorem runAt_eq (h : Absorbs node l rest) (hl : RunsApart l) (hrest : RunsApart rest)
    (hv : ¬node.Contains v) : runAt rest v = runAt l v := by
  obtain ⟨a, hperm, ha⟩ := h.perm
  rcases hr : runAt l v with - | r
  · exact runAt_eq_none.2 fun r hmem => runAt_eq_none.1 hr r (h.subset hmem)
  · obtain ⟨hmem, hin⟩ := (runAt_eq_some hl).1 hr
    refine (runAt_eq_some hrest).2 ⟨?_, hin⟩
    rcases mem_append.1 (hperm.mem_iff.1 hmem) with hmem | hmem
    · exact absurd ⟨(ha r hmem).1.trans hin.1, hin.2.trans_le (ha r hmem).2⟩ hv
    · exact hmem

end Absorbs

namespace BaseMcb

variable {m : BaseMcb} {node x : LargeMcbMappingEntry} {vbn : ℤ}

section

variable (hm : m.InOrder)
include hm

theorem InOrder.deleteRun (hx : x ∈ m.runs) : (m.deleteRun x).InOrder := by
  obtain ⟨hperm, hapart, hcount⟩ := deleteRun_spec hm.apart hx
  have hlength := hperm.length_eq
  have hcount' := hm.pairCount
  rw [length_cons] at hlength
  exact ⟨hapart, by omega⟩

/-- A node that is joined with a run next to it takes the run in. -/
theorem absorbs_deleteRun (hx : x ∈ m.runs) (hmiss : ∀ r ∈ m.runs, Misses node r)
    (hnode : node.runStartVbn < node.runEndVbn)
    (hjoin : x.runEndVbn = node.runStartVbn ∧ node'.runStartVbn = x.runStartVbn ∧
        node'.runEndVbn = node.runEndVbn ∨
      x.runStartVbn = node.runEndVbn ∧ node'.runStartVbn = node.runStartVbn ∧
        node'.runEndVbn = x.runEndVbn) : Absorbs node' m.runs (m.deleteRun x).runs := by
  obtain ⟨hperm, -, -⟩ := deleteRun_spec hm.apart hx
  have hltx := hm.apart.lt x hx
  refine ⟨⟨[x], hperm, fun r hr => ?_⟩, fun r hr => ?_⟩
  · obtain rfl := mem_singleton.1 hr
    omega
  · have hmem : r ∈ m.runs := hperm.mem_iff.2 (mem_cons_of_mem x hr)
    have hne : x ≠ r := by
      rintro rfl
      exact (nodup_cons.1 (hperm.nodup_iff.1 hm.apart.nodup)).1 hr
    have hcommon : ¬(x.runStartVbn < r.runEndVbn ∧ r.runStartVbn < x.runEndVbn) :=
      fun h => hne (hm.apart.eq_of_common hx hmem h.1 h.2)
    have hmisses := hmiss r hmem
    have hlt := hm.apart.lt r hmem
    rw [Misses] at hmisses ⊢
    omega

/-- The lookup of one block finds the run that holds it. -/
theorem lookup_block (needle : LargeMcbMappingEntry) (v : ℤ)
    (hn : needle.runStartVbn = v) (hn' : needle.runEndVbn = v + 1) :
    (runAt m.runs v = none ∧
      m.table.rtlLookupElementGenericTable (mcbMappingIntersectCompare needle) =
        (none, m.table)) ∨
    ∃ r t, runAt m.runs v = some r ∧
      m.table.rtlLookupElementGenericTable (mcbMappingIntersectCompare needle) = (some r, t) ∧
      (BaseMcb.mk t m.pairCount).runs = m.runs := by
  have hlt : needle.runStartVbn < needle.runEndVbn := by omega
  have hsorts := hm.apart.sorts (separates_intersectCompare hlt)
  rcases hlookup : m.table.rtlLookupElementGenericTable (mcbMappingIntersectCompare needle) with
    ⟨_ | x, t⟩
  · obtain ⟨rfl, hnone⟩ := RtlGenericTable.lookup_none hsorts hlookup
    refine .inl ⟨runAt_eq_none.2 fun r hr hin => hnone r hr ?_, rfl⟩
    obtain ⟨hin1, hin2⟩ := hin
    refine (intersectCompare_eq_iff hlt (hm.apart.lt r hr)).2 ?_
    rw [Misses]
    omega
  · obtain ⟨hx, a, b, hruns, hat, -⟩ := RtlGenericTable.lookup_some hlookup
    have hmem : m.runs = a ++ x :: b := hruns
    have hcommon := (intersectCompare_eq_iff hlt (hm.apart.lt x (by simp [hmem]))).1 hx
    rw [Misses] at hcommon
    refine .inr ⟨x, t, (runAt_eq_some hm.apart).2 ⟨by simp [hmem], ?_, ?_⟩, rfl,
      hat.elements_eq.trans hmem.symm⟩ <;> omega

/-- **The merge with the run before.** -/
theorem mergeLower_spec (lbn : ℤ) (hcount : 0 < sectorCount)
    (hmiss : ∀ r ∈ m.runs, Misses ⟨vbn, vbn + sectorCount, -1⟩ r) :
    ∃ m', m.mergeLower ⟨vbn, vbn + sectorCount, lbn⟩ =
        .ok (⟨addedStart m.runs vbn lbn, vbn + sectorCount, addedLbn m.runs vbn lbn⟩, m') ∧
      m'.InOrder ∧
      Absorbs ⟨addedStart m.runs vbn lbn, vbn + sectorCount, addedLbn m.runs vbn lbn⟩ m.runs
        m'.runs := by
  rcases lookup_block hm ⟨vbn - 1, vbn, -1⟩ (vbn - 1) rfl (by simp) with
    ⟨hnone, hlookup⟩ | ⟨r, t, hsome, hlookup, hruns⟩
  · rw [addedStart, addedLbn, lowerRun_of_none hnone]
    refine ⟨m, ?_, hm, Absorbs.refl hmiss⟩
    simp only [mergeLower, hlookup]
    rfl
  · obtain ⟨hmem, hin1, hin2⟩ := (runAt_eq_some hm.apart).1 hsome
    -- it ends where the range starts, as it has no block in common with it
    have hend : r.runEndVbn = vbn := by
      have hr := hmiss r hmem
      rw [Misses] at hr
      simp only at hr
      omega
    have hm1 : (BaseMcb.mk t m.pairCount).InOrder :=
      ⟨by rw [hruns]; exact hm.apart, by rw [hruns]; exact hm.pairCount⟩
    have hlbn : wrap (r.startingLbn + (r.runEndVbn - r.runStartVbn)) = r.lbnAt vbn := by
      rw [hend, lbnAt]
    rw [addedStart, addedLbn, lowerRun_of_some hsome]
    by_cases heq : r.lbnAt vbn = lbn
    · rw [if_pos heq]
      have hmem1 : r ∈ (BaseMcb.mk t m.pairCount).runs := by rwa [hruns]
      refine ⟨(BaseMcb.mk t m.pairCount).deleteRun r, ?_, hm1.deleteRun hmem1, ?_⟩
      · simp only [mergeLower, hlookup, hlbn, if_pos heq, assert_of hend]
        rfl
      · rw [← hruns] at hmiss ⊢
        exact absorbs_deleteRun hm1 hmem1 hmiss (by simp only; omega) (.inl ⟨hend, rfl, rfl⟩)
    · rw [if_neg heq]
      refine ⟨⟨t, m.pairCount⟩, ?_, hm1, ?_⟩
      · simp only [mergeLower, hlookup, hlbn, if_neg heq]
        rfl
      · rw [hruns]
        exact Absorbs.refl hmiss

/-- **The merge with the run after.** -/
theorem mergeHigher_spec (hs : Stored m.runs)
    (hnode : node.runStartVbn < node.runEndVbn) (hmiss : ∀ r ∈ m.runs, Misses node r) :
    ∃ m', m.mergeHigher node =
        .ok ({ node with runEndVbn := addedEnd m.runs node.startingLbn node.runEndVbn }, m') ∧
      m'.InOrder ∧
      Absorbs { node with runEndVbn := addedEnd m.runs node.startingLbn node.runEndVbn } m.runs
        m'.runs ∧
      node.runEndVbn ≤ addedEnd m.runs node.startingLbn node.runEndVbn := by
  rcases lookup_block hm ⟨node.runEndVbn, node.runEndVbn + 1, -1⟩ node.runEndVbn rfl rfl with
    ⟨hnone, hlookup⟩ | ⟨r, t, hsome, hlookup, hruns⟩
  · rw [addedEnd, higherRun_of_none hnone]
    refine ⟨m, ?_, hm, Absorbs.refl hmiss, le_refl _⟩
    simp only [mergeHigher, hlookup]
    rfl
  · obtain ⟨hmem, hin1, hin2⟩ := (runAt_eq_some hm.apart).1 hsome
    have hstart : r.runStartVbn = node.runEndVbn := by
      have hr := hmiss r hmem
      rw [Misses] at hr
      omega
    have hm1 : (BaseMcb.mk t m.pairCount).InOrder :=
      ⟨by rw [hruns]; exact hm.apart, by rw [hruns]; exact hm.pairCount⟩
    have hlbn : r.lbnAt node.runEndVbn = r.startingLbn := by
      rw [← hstart]
      exact lbnAt_of_start (hs r hmem).1 (hs r hmem).2
    rw [addedEnd, higherRun_of_some hsome, hlbn]
    by_cases hle : node.startingLbn ≤ r.startingLbn
    · rw [if_pos hle]
      have hmem1 : r ∈ (BaseMcb.mk t m.pairCount).runs := by rwa [hruns]
      refine ⟨(BaseMcb.mk t m.pairCount).deleteRun r, ?_, hm1.deleteRun hmem1, ?_,
        by simp only [elim_some]; omega⟩
      · simp only [mergeHigher, hlookup, if_pos hle, assert_of hstart]
        rfl
      · rw [← hruns] at hmiss ⊢
        exact absorbs_deleteRun hm1 hmem1 hmiss hnode (.inr ⟨hstart, rfl, rfl⟩)
    · rw [if_neg hle]
      refine ⟨⟨t, m.pairCount⟩, ?_, hm1, ?_, le_refl _⟩
      · simp only [mergeHigher, hlookup, if_neg hle]
        rfl
      · rw [hruns]
        exact Absorbs.refl hmiss

end

/-- **The state of an MCB**: the table is in order, and its numbers are what the code stores. -/
structure Valid (m : BaseMcb) : Prop extends m.InOrder where
  bounded : Bounded m.runs
  stored : Stored m.runs

end BaseMcb

theorem Kept.stored (h : Kept needle l l') (hs : Stored l) : Stored l' := by
  intro r' hr'
  obtain ⟨r, hr, hrest⟩ := h.parts r' hr'
  rcases hrest.lbn with ⟨-, heq⟩ | heq
  · rw [heq]
    exact hs r hr
  · rw [heq, wrap, Int.bmod_def]
    split <;> omega

namespace BaseMcb

variable {m : BaseMcb} {vbn lbn v : ℤ}

theorem addedStart_le (hl : RunsApart l) (vbn lbn : ℤ) : addedStart l vbn lbn ≤ vbn := by
  rcases hlow : lowerRun l vbn lbn with - | r
  · simp [addedStart, hlow]
  · have hin := ((runAt_eq_some hl).1 (lowerRun_eq_some.1 hlow).1).2.1
    rw [addedStart, hlow, elim_some]
    omega

/-- What an addition leaves: the inserted run, and outside it what the removal of the range has
left. -/
structure Added (m m' : BaseMcb) (vbn lbn sectorCount : ℤ) (rest : List LargeMcbMappingEntry) :
    Prop where
  inOrder : m'.InOrder
  apart : RunsApart rest
  kept : Kept ⟨vbn, vbn + sectorCount, -1⟩ m.runs rest
  misses : ∀ r ∈ rest, Misses ⟨vbn, vbn + sectorCount, -1⟩ r
  mem : ∀ r ∈ m'.runs, r = addedRun m.runs vbn lbn sectorCount ∨ r ∈ rest
  end_le : vbn + sectorCount ≤ (addedRun m.runs vbn lbn sectorCount).runEndVbn
  runAt_eq : ∀ v, runAt m'.runs v =
    if (addedRun m.runs vbn lbn sectorCount).Contains v then
      some (addedRun m.runs vbn lbn sectorCount)
    else runAt rest v

/-- **The insertion**: it removes the range, merges twice, and inserts the run. -/
theorem addRun_spec (hm : m.InOrder) (hs : Stored m.runs) (lbn : ℤ) (hvbn : 0 ≤ vbn)
    (hcount : 0 < sectorCount) (hend : vbn + sectorCount < 0x8000000000000000) :
    ∃ m' rest, m.addRun vbn lbn sectorCount = .ok (true, m') ∧
      m.Added m' vbn lbn sectorCount rest := by
  obtain ⟨m1, hremove, hm1, hkept, hmiss1⟩ := fsRtlRemoveBaseMcbEntry_eq hm hvbn hcount hend
  have hs1 := hkept.stored hs
  obtain ⟨m2, hlower, hm2, habs2⟩ := mergeLower_spec hm1 lbn hcount hmiss1
  have hstart := addedStart_le hm1.apart vbn lbn
  set node1 : LargeMcbMappingEntry :=
    ⟨addedStart m1.runs vbn lbn, vbn + sectorCount, addedLbn m1.runs vbn lbn⟩ with hnode1
  obtain ⟨m3, hhigher, hm3, habs3, hle⟩ := mergeHigher_spec hm2
    (fun r hr => hs1 r (habs2.subset hr))
    (show node1.runStartVbn < node1.runEndVbn by simp only [hnode1]; omega) habs2.misses
  -- the run behind the range is none of those taken in before
  have hbehind : runAt m2.runs (vbn + sectorCount) = runAt m1.runs (vbn + sectorCount) :=
    habs2.runAt_eq hm1.apart hm2.apart fun hin => absurd hin.2 (lt_irrefl _)
  have hnode : { node1 with runEndVbn := addedEnd m2.runs node1.startingLbn node1.runEndVbn } =
      addedRun m.runs vbn lbn sectorCount := by
    rw [← hkept.addedRun_eq hm.apart hm1.apart hs hmiss1 hcount, addedRun, hnode1]
    simp only [addedEnd, higherRun, hbehind]
  rw [hnode] at hhigher habs3
  have hle' : vbn + sectorCount ≤ (addedRun m.runs vbn lbn sectorCount).runEndVbn := by
    rw [← hnode]
    exact hle
  have hlo' : (addedRun m.runs vbn lbn sectorCount).runStartVbn = node1.runStartVbn := by
    rw [← hnode]
  have habs := habs2.trans habs3 hlo'.le hle'
  obtain ⟨m4, hins, hperm, hapart, hpairs⟩ := insertRun_spec hm3.apart
    (show (addedRun m.runs vbn lbn sectorCount).runStartVbn < _ by
      rw [hlo']; simp only [hnode1]; omega) habs3.misses
  have hm4 : m4.InOrder :=
    ⟨hapart, by rw [hpairs, hperm.length_eq, hm3.pairCount, length_cons]⟩
  refine ⟨m4, m1.runs, ?_, hm4, hm1.apart, hkept, hmiss1, fun r hr => ?_, hle', fun v => ?_⟩
  · have hwrap : wrap (vbn + sectorCount) = vbn + sectorCount := wrap_of_bounds (by omega) hend
    simp only [addRun, hremove, hwrap]
    show (m1.mergeLower ⟨vbn, vbn + sectorCount, lbn⟩ >>= _) = _
    rw [hlower]
    show (m2.mergeHigher node1 >>= _) = _
    rw [hhigher]
    show (m3.insertRun _ >>= _) = _
    rw [hins]
    rfl
  · rcases mem_cons.1 (hperm.mem_iff.1 hr) with hr | hr
    · exact .inl hr
    · exact .inr (habs.subset hr)
  · split
    · next hin => exact (runAt_eq_some hapart).2 ⟨hperm.mem_iff.2 (by simp), hin⟩
    · next hout =>
      have hrest := habs.runAt_eq hm1.apart hm3.apart hout
      rw [← hrest]
      rcases hr : runAt m3.runs v with - | r
      · refine runAt_eq_none.2 fun r hmem => ?_
        rcases mem_cons.1 (hperm.mem_iff.1 hmem) with rfl | hmem
        · exact hout
        · exact runAt_eq_none.1 hr r hmem
      · obtain ⟨hmem, hin⟩ := (runAt_eq_some hm3.apart).1 hr
        exact (runAt_eq_some hapart).2 ⟨hperm.mem_iff.2 (mem_cons_of_mem _ hmem), hin⟩

namespace Added

variable {m' : BaseMcb} {rest : List LargeMcbMappingEntry}

section

variable (h : m.Added m' vbn lbn sectorCount rest)
include h

theorem valid (hm : m.Valid) (hvbn : 0 ≤ vbn)
    (hcount : 0 < sectorCount) (hend : vbn + sectorCount < 0x8000000000000000)
    (hlo : -0x8000000000000000 ≤ lbn) (hhi : lbn < 0x8000000000000000) : m'.Valid := by
  have hstart : 0 ≤ addedStart m.runs vbn lbn := by
    rcases hlow : lowerRun m.runs vbn lbn with - | r
    · simpa [addedStart, hlow] using hvbn
    · have hmem := ((runAt_eq_some hm.apart).1 (lowerRun_eq_some.1 hlow).1).1
      simpa [addedStart, hlow] using (hm.bounded r hmem).1
  have hlast : ∀ x, addedEnd m.runs x (vbn + sectorCount) < 0x8000000000000000 := by
    intro x
    rcases hhigh : higherRun m.runs x (vbn + sectorCount) with - | r
    · simpa [addedEnd, hhigh] using hend
    · have hmem := ((runAt_eq_some hm.apart).1 (higherRun_eq_some.1 hhigh).1).1
      simpa [addedEnd, hhigh] using (hm.bounded r hmem).2.2
  have hlbn : -0x8000000000000000 ≤ addedLbn m.runs vbn lbn ∧
      addedLbn m.runs vbn lbn < 0x8000000000000000 := by
    rcases hlow : lowerRun m.runs vbn lbn with - | r
    · simpa [addedLbn, hlow] using ⟨hlo, hhi⟩
    · have hmem := ((runAt_eq_some hm.apart).1 (lowerRun_eq_some.1 hlow).1).1
      simpa [addedLbn, hlow] using hm.stored r hmem
  have hle := addedStart_le hm.apart vbn lbn
  have hge := h.end_le
  refine ⟨h.inOrder, fun r hr => ?_, fun r hr => ?_⟩
  · rcases h.mem r hr with rfl | hr
    · exact ⟨hstart, by simp only [addedRun] at hge ⊢; omega, hlast _⟩
    · exact h.kept.bounded h.apart hm.bounded r hr
  · rcases h.mem r hr with rfl | hr
    · exact hlbn
    · exact h.kept.stored hm.stored r hr

/-- The mapping afterwards. -/
theorem mapping_eq (hm' : m'.Valid) (hv : 0 ≤ v) :
    m'.mapping v =
      if (addedRun m.runs vbn lbn sectorCount).Contains v then
        (addedRun m.runs vbn lbn sectorCount).reported v
      else (runAt rest v).bind (·.reported v) := by
  rw [BaseMcb.mapping_eq hm'.bounded hm'.apart hv, h.runAt_eq v]
  split <;> rfl

section

variable (hm : m.Valid) (hm' : m'.Valid)
include hm hm'

/-- The blocks before the range are mapped as they were. -/
theorem mapping_low (hcount : 0 < sectorCount) (hv : 0 ≤ v) (hlt : v < vbn) :
    m'.mapping v = m.mapping v := by
  rw [h.mapping_eq hm' hv, BaseMcb.mapping_eq hm.bounded hm.apart hv]
  split
  · next hin =>
    -- the block is in the run before the range, which was taken in
    rcases hlow : lowerRun m.runs vbn lbn with - | r
    · have hstart := hin.1
      simp only [addedRun, addedStart, hlow, elim_none] at hstart
      omega
    · have hstart := hin.1
      simp only [addedRun, addedStart, hlow] at hstart
      obtain ⟨hmem, hin'⟩ := (runAt_eq_some hm.apart).1 (lowerRun_eq_some.1 hlow).1
      have hend := hin'.2
      rw [(runAt_eq_some hm.apart).2 ⟨hmem, hstart, by omega⟩]
      exact reported_congr (by simp [addedRun, addedStart, hlow])
        (by simp [addedRun, addedLbn, hlow]) v
  · rcases h.kept.runAt_low hm.apart h.apart hm.stored (show vbn < vbn + sectorCount by omega)
      (show v < vbn from hlt) with ⟨hrest, hruns⟩ | ⟨r, r', hrest, hruns, hstart, hlbn⟩
    · rw [hrest, hruns]
    · rw [hrest, hruns]
      exact reported_congr hstart hlbn v

/-- The blocks of the range are mapped as wanted, unless the run they are in reads as a hole. -/
theorem mapping_range (hvbn : 0 ≤ vbn) (hlbn : 0 ≤ lbn)
    (hlast : lbn + sectorCount < 0x8000000000000000) (hle : vbn ≤ v) (hlt : v < vbn + sectorCount) :
    m'.mapping v = if addedLbn m.runs vbn lbn = -1 then none else some (lbn + (v - vbn)) := by
  have hstart := addedStart_le hm.apart vbn lbn
  have hin : (addedRun m.runs vbn lbn sectorCount).Contains v :=
    ⟨hstart.trans hle, hlt.trans_le h.end_le⟩
  have hwrap : wrap (lbn + (v - vbn)) = lbn + (v - vbn) := wrap_of_bounds (by omega) (by omega)
  have hne : lbn + (v - vbn) ≠ -1 := by omega
  rw [h.mapping_eq hm' (hvbn.trans hle), if_pos hin, reported, lbnAt_addedRun, hwrap]
  simp [addedRun, hne]

section

variable (hvbn : 0 ≤ vbn) (hcount : 0 < sectorCount)
include hvbn hcount

/-- The block of the first run behind the range, if that was taken in. -/
theorem mapping_merged (hr : runAt m.runs (vbn + sectorCount) = some r)
    (hmerge : addedLbn m.runs vbn lbn ≤ r.lbnAt (vbn + sectorCount))
    (hle : vbn + sectorCount ≤ v) (hlt : v < r.runEndVbn) :
    m'.mapping v = if addedLbn m.runs vbn lbn = -1 ∨ wrap (lbn + (v - vbn)) = -1 then none
      else some (wrap (lbn + (v - vbn))) := by
  have hstart := addedStart_le hm.apart vbn lbn
  have hin : (addedRun m.runs vbn lbn sectorCount).Contains v := by
    refine ⟨by simp only [addedRun]; omega, ?_⟩
    rw [addedRun]
    simp only [addedEnd, higherRun_of_some hr, if_pos hmerge]
    exact hlt
  rw [h.mapping_eq hm' (by omega), if_pos hin, reported, lbnAt_addedRun]
  rfl

/-- And if it was not: it may have been cut. -/
theorem mapping_cut (hr : runAt m.runs (vbn + sectorCount) = some r)
    (hmerge : ¬addedLbn m.runs vbn lbn ≤ r.lbnAt (vbn + sectorCount))
    (hle : vbn + sectorCount ≤ v) (hlt : v < r.runEndVbn) :
    m'.mapping v = if r.lbnAt (vbn + sectorCount) = -1 ∨ r.lbnAt v = -1 then none
      else some (r.lbnAt v) := by
  have hout : ¬(addedRun m.runs vbn lbn sectorCount).Contains v := by
    intro hin
    have hend := hin.2
    simp only [addedRun, addedEnd, higherRun_of_some hr, if_neg hmerge, elim_none] at hend
    omega
  obtain ⟨hmem, hin1, -⟩ := (runAt_eq_some hm.apart).1 hr
  have hruns : runAt m.runs v = some r := (runAt_eq_some hm.apart).2 ⟨hmem, by omega, hlt⟩
  rw [h.mapping_eq hm' (by omega), if_neg hout]
  rcases h.kept.runAt_high hm.apart h.apart hm.stored h.misses
    (show vbn < vbn + sectorCount by omega) hle with ⟨-, hnone⟩ | ⟨s, r', hrest, hs, hstart, -, hlbn⟩
  · rw [hruns] at hnone
    cases hnone
  · obtain rfl : r = s := Option.some.inj (hruns.symm.trans hs)
    have hstart' : r'.runStartVbn = vbn + sectorCount := hstart.trans (max_eq_right hin1)
    have hat : r'.lbnAt v = r.lbnAt v := by
      rw [lbnAt, hlbn, ← lbnAt_add]
    rw [hrest, bind_some, reported, hat, hlbn, hstart']

/-- The blocks of later runs are mapped as they were. -/
theorem mapping_later (hr : ∀ r, runAt m.runs (vbn + sectorCount) = some r → r.runEndVbn ≤ v)
    (hle : vbn + sectorCount ≤ v) : m'.mapping v = m.mapping v := by
  have hout : ¬(addedRun m.runs vbn lbn sectorCount).Contains v := by
    intro hin
    have hend := hin.2
    rcases hhigh : higherRun m.runs (addedLbn m.runs vbn lbn) (vbn + sectorCount) with - | r
    · simp only [addedRun, addedEnd, hhigh, elim_none] at hend
      omega
    · have hge := hr r (higherRun_eq_some.1 hhigh).1
      simp only [addedRun, addedEnd, hhigh, elim_some] at hend
      omega
  rw [h.mapping_eq hm' (by omega), if_neg hout, BaseMcb.mapping_eq hm.bounded hm.apart (by omega)]
  rcases h.kept.runAt_high hm.apart h.apart hm.stored h.misses
    (show vbn < vbn + sectorCount by omega) hle with
    ⟨hrest, hruns⟩ | ⟨r, r', hrest, hruns, hstart, -, hlbn⟩
  · rw [hrest, hruns]
  · obtain ⟨hmem, hin1, hin2⟩ := (runAt_eq_some hm.apart).1 hruns
    have hstart' : r'.runStartVbn = r.runStartVbn := by
      rw [hstart]
      refine max_eq_left ?_
      by_contra hlt
      have hge := hr r ((runAt_eq_some hm.apart).2 ⟨hmem, by simp only at hlt; omega, by omega⟩)
      omega
    have hlbn' : r'.startingLbn = r.startingLbn := by
      rw [hlbn, hstart']
      exact lbnAt_of_start (hm.stored r hmem).1 (hm.stored r hmem).2
    rw [hrest, hruns]
    exact reported_congr hstart' hlbn' v

end

end

end

end Added

end BaseMcb

end Windivs

import Windivs.Cm.CellInvariant

/-!
# What others do to a cell

The invariant of the allocator says where the cells are; this file is about what is in them.
A cell that is live stays where it is, live and with the bytes it had, through every run of
calls and writes for other cells (`Windivs.survives_of_run`): no call frees it, hands it out a
second time or writes to it while it merges, splits and lists the free cells around it.
-/

namespace Windivs

variable {bins' : List BinLayout} {h h' : HHive} {p : ℕ × ℤ} {t : HStorageType}

/-- A live cell of a storage. -/
def LiveAt (h : HHive) (t : HStorageType) (p : ℕ × ℤ) : Prop :=
  ∃ bins, Layout (h.storage t) bins ∧ p ∈ liveCells bins

/-- The cell that a call frees or may move. -/
def Call.target : Call → Option ℕ
  | allocate .. => none
  | reallocate c _ _ => some c
  | free c => some c

/-- A step of somebody else: a call for another cell, or a write to another cell. -/
inductive OtherStep (t : HStorageType) (p : ℕ × ℤ) : HHive → HHive → Prop
  | call {h h' : HHive} (call : Call) (hadm : call.Admissible h) (hfit : call.Fits h)
      (hrun : call.run h = .ok h') (hne : call.target ≠ some (cellIndex t p.1)) : OtherStep t p h h'
  | write {h : HHive} {t' : HStorageType} {bins : List BinLayout} {q : ℕ × ℤ} (m : Mem)
      (hl : Layout (h.storage t') bins) (hq : q ∈ liveCells bins)
      (hout : ∀ a, a < q.1 + 4 ∨ q.1 + q.2.natAbs ≤ a → m a = h.mem t' a)
      (hne : ¬(t' = t ∧ q = p)) : OtherStep t p h (h.setMem t' m)

theorem OtherStep.step (hstep : OtherStep t p h h') : Step h h' := by
  cases hstep with
  | call call hadm hfit hrun _ => exact .call call hadm hfit hrun
  | write m hl hq hout _ => exact .write m hl hq hout

/-- The cell is live and has the bytes it had. -/
def Survives (t : HStorageType) (p : ℕ × ℤ) (h h' : HHive) : Prop :=
  LiveAt h' t p ∧ Mem.AgreeOn (h'.mem t) (h.mem t) p.1 (p.1 + p.2.natAbs)

/-- A cell among those that a step keeps, or of the other storage, survives it. -/
theorem Keeps.survives {t' : HStorageType} {kept : Set (ℕ × ℤ)} (hk : Keeps t' kept h h')
    (hl' : Layout (h'.storage t') bins') (hsub : kept ⊆ liveCells bins') (hp : LiveAt h t p)
    (hin : t' = t → p ∈ kept) : Survives t p h h' := by
  by_cases ht : t' = t
  · subst ht
    exact ⟨⟨bins', hl', hsub (hin rfl)⟩, hk.bytes p (hin rfl)⟩
  · have hsame := hk.other t (Ne.symm ht)
    refine ⟨by rwa [LiveAt, hsame], fun a _ _ => ?_⟩
    rw [HHive.mem, hsame, HHive.mem]

/-- **One step of somebody else** leaves a live cell alone. -/
theorem OtherStep.survives (hstep : OtherStep t p h h') (hc : Consistent h) (hp : LiveAt h t p) :
    Survives t p h h' := by
  -- the cells that are kept are the live ones but for the one that the step is about
  have hkept : ∀ {t' bins q}, Layout (h.storage t') bins → ¬(t' = t ∧ q = p) → t' = t →
      p ∈ liveCells bins \ {q} := by
    rintro t' bins q hl hne rfl
    obtain ⟨bins₁, hl₁, hp⟩ := hp
    rw [hl.unique hl₁]
    exact ⟨hp, fun heq => hne ⟨rfl, heq.symm⟩⟩
  have hsame : Survives t p h h := ⟨hp, fun _ _ _ => rfl⟩
  cases hstep with
  | call call hadm hfit hrun hne =>
    cases call with
    | allocate size t' alloc =>
      obtain ⟨bins, hs⟩ := hc t'
      rcases hvAllocateCell_spec hs hadm.1 hadm.2 hfit with heq | ⟨q, h₁, bins', heq, hd⟩
      · rw [Call.run, heq] at hrun
        obtain rfl : h = h' := Except.ok.inj hrun
        exact hsame
      · rw [Call.run, heq] at hrun
        obtain rfl : h₁ = h' := Except.ok.inj hrun
        refine hd.keeps.survives hd.state.layout (hd.live ▸ Set.subset_insert _ _) hp fun ht => ?_
        obtain ⟨bins₁, hl₁, hp⟩ := hp
        subst ht
        rwa [hs.layout.unique hl₁]
    | reallocate c size alloc =>
      obtain ⟨hlive, hsize, hbm⟩ := hadm
      obtain ⟨t', bins, hs, q, hq, rfl⟩ := hc.liveCell hlive
      have hlt := (hs.layout.cell_bounds hq.1).2.2.2.2
      have hread : h.readI32 ⟨t', q.1⟩ = q.2 := hs.header hq.1
      have hfit' : -q.2 - 4 < size → Windivs.Fits h t' size alloc := fun hlarge => by
        have := hfit _ (hs.getCellHeader hq.1) (by rwa [hread])
        rwa [hvGetCellType_cellIndex (by omega)] at this
      rw [Call.run] at hrun
      rcases hvReallocateCell_spec hs hsize hbm hq hfit' with
        ⟨heq, -⟩ | heq | ⟨r, h₁, bins', heq, hd⟩ <;> rw [heq] at hrun
      · exact (Except.ok.inj hrun : h = h') ▸ hsame
      · exact (Except.ok.inj hrun : h = h') ▸ hsame
      · obtain rfl : h₁ = h' := Except.ok.inj hrun
        exact hd.keeps.survives hd.state.layout (hd.live ▸ Set.subset_insert _ _) hp
          (hkept hs.layout fun hqp => hne (by rw [hqp.1, hqp.2, Call.target]))
    | free c =>
      obtain ⟨t', bins, hs, q, hq, rfl⟩ := hc.liveCell hadm
      obtain ⟨h₁, bins', heq, hd⟩ := hvFreeCell_spec hs hq
      obtain rfl : h₁ = h' := Except.ok.inj (heq.symm.trans hrun)
      exact hd.keeps.survives hd.state.layout (subset_of_eq hd.live.symm) hp
        (hkept hs.layout fun hqp => hne (by rw [hqp.1, hqp.2, Call.target]))
  | @write t' bins q m hl hq hout hne =>
    obtain ⟨bins', hs⟩ := hc t'
    obtain rfl := hl.unique hs.layout
    obtain ⟨hs', hk⟩ := hs.writeLive hq hout
    exact hk.survives hs'.layout Set.sdiff_subset hp (hkept hl hne)

/-- **A live cell is its owner's.** Whatever calls are made for other cells and whatever is
written to them: a cell that is live stays where it is, live and with the bytes it had. -/
theorem survives_of_run (hc : Consistent h) (hp : LiveAt h t p)
    (hrun : Relation.ReflTransGen (OtherStep t p) h h') : Survives t p h h' := by
  suffices hall : Consistent h' ∧ Survives t p h h' from hall.2
  induction hrun with
  | refl => exact ⟨hc, hp, fun _ _ _ => rfl⟩
  | tail _ hstep ih =>
    obtain ⟨hc', hp', hbytes⟩ := ih
    obtain ⟨hlive, hkept⟩ := hstep.survives hc' hp'
    exact ⟨(hstep.step.consistent hc').1, hlive, hkept.trans hbytes⟩

/-- The first cell of a block. The free cell after it is split by an allocation, and what is left of
it is merged with the last cell, which is freed. -/
theorem survives_sharedHive : ∃ h₁ h₂,
    Call.run sharedHive (.allocate 10 .stable ⟨true, true, true⟩) = .ok h₁ ∧
      Call.run h₁ (.free 2080) = .ok h₂ ∧ Survives .stable (32, -64) sharedHive h₂ := by
  have hc := consistent_sharedHive
  have hlive : ∀ p ∈ liveCells sharedBins, LiveAt sharedHive .stable p := fun p hp =>
    ⟨sharedBins, layout_sharedDual, hp⟩
  rw [liveCells_sharedBins] at hlive
  have hadm : (Call.allocate 10 .stable ⟨true, true, true⟩).Admissible sharedHive :=
    ⟨by decide, rfl⟩
  have hfit : (Call.allocate 10 .stable ⟨true, true, true⟩).Fits sharedHive :=
    fun _ _ _ _ _ => by decide
  obtain ⟨h₁, hrun₁, hc₁, -⟩ := Call.run_spec hc _ hadm hfit
  have hstep : ∀ p, OtherStep .stable p sharedHive h₁ := fun p =>
    .call (.allocate 10 .stable ⟨true, true, true⟩) hadm hfit hrun₁ nofun
  -- the last cell is live after the allocation
  obtain ⟨⟨bins, hl, hp⟩, -⟩ := (hstep (2080, -2016)).survives hc (hlive _ (by simp))
  have hadm₁ : (Call.free 2080).Admissible h₁ := ⟨.stable, bins, hl, _, hp, rfl⟩
  obtain ⟨h₂, hrun₂, -⟩ := Call.run_spec hc₁ (.free 2080) hadm₁ trivial
  have hfree : OtherStep .stable (32, -64) h₁ h₂ :=
    .call (.free 2080) hadm₁ trivial hrun₂ (by decide)
  exact ⟨h₁, h₂, hrun₁, hrun₂,
    survives_of_run hc (hlive _ (by simp)) (.tail (.single (hstep _)) hfree)⟩

end Windivs

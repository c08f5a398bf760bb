import Windivs.Cm.CellRelease

/-!
# The invariant of the cell allocator

A hive is *consistent* when each of its two storages is tiled by bins and cells
and its free lists are exactly its free cells (`Windivs.Consistent`). The calls
of the allocator keep a hive consistent as long as no storage outgrows the cell
index; this file puts the three calls together as the steps of a machine and
proves what holds in all of its runs.

The layout of a storage is determined by its memory (`Windivs.Layout.unique`), so
that one may speak of *the* live cells of a hive.

A storage that grows beyond `2 ^ 31` bytes is out of reach of the invariant:
`HvpAddBin` adds the bin all the same, and the cells after that offset have
indices of the other storage. `Windivs.fullHive` is a hive two blocks away from it.
-/

namespace Windivs

open List

variable {bins bins' : List BinLayout} {d : Dual} {h : HHive} {hi lo size : ℕ} {m : Mem}
  {t : HStorageType}

/-! ### The layout is unique -/

/-- A bin is never empty. -/
theorem Contiguous.lt {b : BinLayout} (h : Contiguous lo (b :: bins) hi) (hb : b.Holds m) :
    lo < hi := by
  have h₁ := h.2.le
  have h₂ := hb.blocks_pos
  have h3 := h.1
  rw [BinLayout.fin] at h₁
  omega

theorem Contiguous.unique (h : Contiguous lo bins hi) (h' : Contiguous lo bins' hi)
    (hb : ∀ b ∈ bins, b.Holds m) (hb' : ∀ b ∈ bins', b.Holds m) : bins = bins' := by
  induction bins generalizing lo bins' with
  | nil =>
    cases bins' with
    | nil => rfl
    | cons b l => exact absurd h (h'.lt (hb' b (by simp))).ne
  | cons a bins ih =>
    cases bins' with
    | nil => exact absurd h' (h.lt (hb a (by simp))).ne
    | cons b l =>
      obtain ⟨start, blocks, sizes⟩ := a
      obtain ⟨start', blocks', sizes'⟩ := b
      have ha := hb ⟨start, blocks, sizes⟩ (by simp)
      have hb1 := hb' ⟨start', blocks', sizes'⟩ (by simp)
      obtain rfl : start = start' := h.1.trans h'.1.symm
      obtain rfl : blocks = blocks' := by
        have := ha.size.symm.trans hb1.size
        simp only at this
        omega
      obtain rfl : sizes = sizes' := eq_of_piecesFrom (f := m.readI32) ha.headers hb1.headers
        (fun s hs => (ha.sizes s hs).1) (fun s hs => (hb1.sizes s hs).1) (by
          have h₁ := ha.span_sizes
          have h₂ := hb1.span_sizes
          simp only at h₁ h₂
          omega)
      rw [ih h.2 h'.2 (fun c hc => hb c (by simp [hc])) fun c hc => hb' c (by simp [hc])]

/-- **The memory of a storage determines its layout.** -/
theorem Layout.unique (h : Layout d bins) (h' : Layout d bins') : bins = bins' :=
  h.contiguous.unique h'.contiguous h.holds h'.holds

/-! ### Consistent hives -/

/-- **The invariant**: the hive is writable and in memory, each storage is tiled,
and its lists hold exactly its free cells. -/
def Consistent (h : HHive) : Prop :=
  ∀ t, ∃ bins, AllocState t h bins (freeCells bins)

/-- No bin of the hive has two adjacent free cells. -/
def Merged (h : HHive) : Prop :=
  ∀ t bins, Layout (h.storage t) bins → NoAdjacentFree bins

/-- The index of a live cell. -/
def LiveCell (h : HHive) (c : ℕ) : Prop :=
  ∃ t bins, Layout (h.storage t) bins ∧ ∃ p ∈ liveCells bins, c = cellIndex t p.1

/-! ### Calls -/

/-- The calls of the allocator. -/
inductive Call where
  | allocate (size : ℕ) (t : HStorageType) (alloc : Allocations)
  | reallocate (c size : ℕ) (alloc : Allocations)
  | free (c : ℕ)

namespace Call

/-- The hive after a call. -/
def run (h : HHive) : Call → Run HHive
  | allocate size t alloc => (hvAllocateCell h size t alloc).map Prod.snd
  | reallocate c size alloc => (hvReallocateCell h c size alloc).map Prod.snd
  | free c => hvFreeCell h c

/-- What a caller has to respect: sizes below `2 ^ 30`, and indices of live
cells. The memory for the bin or its block list may be refused. -/
def Admissible (h : HHive) : Call → Prop
  | allocate size _ alloc => size < 0x40000000 ∧ alloc.bitmap = true
  | reallocate c size alloc => LiveCell h c ∧ size < 0x40000000 ∧ alloc.bitmap = true
  | free c => LiveCell h c

/-- The call does not make a storage outgrow the cell index. -/
def Fits (h : HHive) : Call → Prop
  | allocate size t alloc => Windivs.Fits h t size alloc
  | reallocate c size alloc => ∀ p, hvpGetCellHeader h c = .ok p → -h.readI32 p - 4 < size →
      Windivs.Fits h (hvGetCellType c) size alloc
  | free _ => True

end Call

/-! ### One call -/

section Step

variable {h' : HHive} {kept : Set (ℕ × ℤ)}

/-- A step on one storage does not concern the other. -/
theorem Consistent.update (hc : Consistent h) (hs : AllocState t h' bins' (freeCells bins'))
    (hk : Keeps t kept h h') : Consistent h' := by
  intro t'
  by_cases ht : t' = t
  · exact ht ▸ ⟨bins', hs⟩
  · obtain ⟨bins, hb⟩ := hc t'
    refine ⟨bins, hs.ready, ?_, ?_, hb.subset⟩
    · rw [hk.other t' ht]
      exact hb.layout
    · rw [hk.other t' ht]
      exact hb.lists

theorem Merged.update (hm : Merged h) (hl : Layout (h.storage t) bins)
    (hl' : Layout (h'.storage t) bins') (hno : NoAdjacentFree bins → NoAdjacentFree bins')
    (hk : Keeps t kept h h') : Merged h' := by
  intro t' b hb
  by_cases ht : t' = t
  · subst ht
    rw [hb.unique hl']
    exact hno (hm t' bins hl)
  · rw [hk.other t' ht] at hb
    exact hm t' b hb

/-- The live cell that an index names. -/
theorem Consistent.liveCell (hc : Consistent h) {c : ℕ} (hlive : LiveCell h c) :
    ∃ t bins, AllocState t h bins (freeCells bins) ∧ ∃ p ∈ liveCells bins, c = cellIndex t p.1 := by
  obtain ⟨t, bins, hl, p, hp, rfl⟩ := hlive
  obtain ⟨bins', hs⟩ := hc t
  obtain rfl := hl.unique hs.layout
  exact ⟨t, bins, hs, p, hp, rfl⟩

/-- **One call**: it returns, and the invariant is kept. -/
theorem Call.run_spec (hc : Consistent h) (call : Call) (hadm : call.Admissible h)
    (hfit : call.Fits h) : ∃ h', call.run h = .ok h' ∧ Consistent h' ∧ (Merged h → Merged h') := by
  cases call with
  | allocate size t alloc =>
    obtain ⟨bins, hs⟩ := hc t
    rcases hvAllocateCell_spec hs hadm.1 hadm.2 hfit with heq | ⟨p, h', bins', heq, hd⟩
    · refine ⟨h, ?_, hc, id⟩
      rw [Call.run, heq]
      rfl
    · refine ⟨h', ?_, hc.update hd.state hd.keeps, fun hm =>
        hm.update hs.layout hd.state.layout hd.noAdjacent hd.keeps⟩
      rw [Call.run, heq]
      rfl
  | reallocate c size alloc =>
    obtain ⟨hlive, hsize, hbm⟩ := hadm
    obtain ⟨t, bins, hs, p, hp, rfl⟩ := hc.liveCell hlive
    have hlt := (hs.layout.cell_bounds hp.1).2.2.2.2
    have hread : h.readI32 ⟨t, p.1⟩ = p.2 := hs.header hp.1
    have hfit' : -p.2 - 4 < size → Windivs.Fits h t size alloc := by
      intro hlarge
      rw [← hread] at hlarge
      have := hfit _ (hs.getCellHeader hp.1) hlarge
      rwa [hvGetCellType_cellIndex (by omega)] at this
    rcases hvReallocateCell_spec hs hsize hbm hp hfit' with
      ⟨heq, -⟩ | heq | ⟨q, h', bins', heq, hd⟩
    · refine ⟨h, ?_, hc, id⟩
      rw [Call.run, heq]
      rfl
    · refine ⟨h, ?_, hc, id⟩
      rw [Call.run, heq]
      rfl
    · refine ⟨h', ?_, hc.update hd.state hd.keeps, fun hm =>
        hm.update hs.layout hd.state.layout hd.noAdjacent hd.keeps⟩
      rw [Call.run, heq]
      rfl
  | free c =>
    obtain ⟨t, bins, hs, p, hp, rfl⟩ := hc.liveCell hadm
    obtain ⟨h', bins', heq, hd⟩ := hvFreeCell_spec hs hp
    exact ⟨h', heq, hc.update hd.state hd.keeps, fun hm =>
      hm.update hs.layout hd.state.layout hd.noAdjacent hd.keeps⟩

/-- The steps of a run: a call that respects its conditions and does not outgrow
the cell index, or a write to the data of a live cell by its owner. -/
inductive Step : HHive → HHive → Prop
  | call {h h' : HHive} (call : Call) (hadm : call.Admissible h) (hfit : call.Fits h)
      (hrun : call.run h = .ok h') : Step h h'
  | write {h : HHive} {t : HStorageType} {bins : List BinLayout} {p : ℕ × ℤ} (m : Mem)
      (hl : Layout (h.storage t) bins) (hp : p ∈ liveCells bins)
      (hout : ∀ a, a < p.1 + 4 ∨ p.1 + p.2.natAbs ≤ a → m a = h.mem t a) : Step h (h.setMem t m)

theorem Step.consistent (hstep : Step h h') (hc : Consistent h) :
    Consistent h' ∧ (Merged h → Merged h') := by
  cases hstep with
  | call call hadm hfit hrun =>
    obtain ⟨h₁, heq, hc1, hm1⟩ := call.run_spec hc hadm hfit
    obtain rfl : h₁ = h' := Except.ok.inj (heq.symm.trans hrun)
    exact ⟨hc1, hm1⟩
  | @write t bins p m hl hp hout =>
    obtain ⟨bins', hs⟩ := hc t
    obtain rfl := hl.unique hs.layout
    obtain ⟨hs', hk⟩ := hs.writeLive hp hout
    exact ⟨hc.update hs' hk, fun hm => hm.update hs.layout hs'.layout id hk⟩

/-- **Every run keeps the invariant.** From a consistent hive, whatever calls are
made and whatever the owners of live cells write to them, as long as no call
makes a storage outgrow the cell index: the hive stays consistent, live cells do
not overlap, every further call returns – no assertion fails, that at the end of
`HvpRemoveFree` among them – and free cells stay merged if they were. -/
theorem consistent_of_run (hc : Consistent h) (hrun : Relation.ReflTransGen Step h h') :
    Consistent h' ∧
      (∀ t bins, Layout (h'.storage t) bins → ∀ p ∈ liveCells bins, ∀ q ∈ liveCells bins,
        p = q ∨ p.1 + p.2.natAbs ≤ q.1 ∨ q.1 + q.2.natAbs ≤ p.1) ∧
      (∀ call : Call, call.Admissible h' → call.Fits h' → ∃ h'', call.run h' = .ok h'') ∧
      (Merged h → Merged h') := by
  have hinv : Consistent h' ∧ (Merged h → Merged h') := by
    induction hrun with
    | refl => exact ⟨hc, id⟩
    | tail _ hstep ih =>
      obtain ⟨hc', hm'⟩ := hstep.consistent ih.1
      exact ⟨hc', fun hm => hm' (ih.2 hm)⟩
  refine ⟨hinv.1, fun t bins hl p hp q hq => hl.disjoint hp.1 hq.1, fun call hadm hfit => ?_,
    hinv.2⟩
  obtain ⟨h'', heq, -⟩ := call.run_spec hinv.1 hadm hfit
  exact ⟨h'', heq⟩

end Step

/-! ### Hives with nothing in them -/

/-- A storage without bins. -/
def emptyDual : Dual where
  blockList := []
  freeDisplay := fun _ => hcellNil
  mem := fun _ => 0

/-- A writable hive with the given storages. -/
def hiveOf (stable volatile : Dual) : HHive where
  signature := 0xbee0bee0
  baseBlock := fun _ => 0
  dirtyVector := ⟨(stable.length + 31) / 32 * 32, replicate ((stable.length + 31) / 32) 0⟩
  dirtyCount := 0
  flat := false
  readOnly := false
  log := false
  alternate := false
  hiveFlags := 0
  storage
    | .stable => stable
    | .volatile => volatile

theorem layout_emptyDual : Layout emptyDual [] :=
  ⟨rfl, by simp, by simp, by simp [emptyDual, Dual.length]⟩

/-- Empty lists are right for a storage without free cells. -/
theorem freeLists_of_nil (hnil : ∀ i, d.freeDisplay i = hcellNil) (hfree : freeCells bins = ∅) :
    FreeLists d t (freeCells bins) := by
  intro i _
  refine ⟨[], hnil i, nodup_nil, fun c => ?_⟩
  simp [hfree]

theorem freeCells_nil : freeCells [] = ∅ := by
  simp [freeCells, allCells]

theorem consistent_hiveOf {stable : Dual} (hl : Layout stable bins)
    (hlists : FreeLists stable .stable (freeCells bins)) :
    Consistent (hiveOf stable emptyDual) := by
  have hready : Ready (hiveOf stable emptyDual) := by
    refine ⟨rfl, rfl, ?_⟩
    simp only [hiveOf]
    omega
  rintro (_ | _)
  · exact ⟨bins, hready, hl, hlists, subset_rfl⟩
  · exact ⟨[], hready, layout_emptyDual, freeLists_of_nil (fun _ => rfl) freeCells_nil, subset_rfl⟩

theorem consistent_emptyHive : Consistent (hiveOf emptyDual emptyDual) :=
  consistent_hiveOf layout_emptyDual (freeLists_of_nil (fun _ => rfl) freeCells_nil)

/-! ### A bin with a free cell -/

/-- A storage of one block: a live cell, a free one and another live one. -/
def sharedDual : Dual :=
  { addedBin emptyDual 4096 with
    mem := ((((addedBin emptyDual 4096).mem.writeI32 32 (-64)).writeI32 96 1984).writeU32 100
      hcellNil).writeI32 2080 (-2016)
    freeDisplay := fun i => if i = 23 then 96 else hcellNil }

/-- Its layout. -/
def sharedBins : List BinLayout := [⟨0, 1, [-64, 1984, -2016]⟩]

/-- A hive with this storage. -/
def sharedHive : HHive := hiveOf sharedDual emptyDual

theorem layout_sharedDual : Layout sharedDual sharedBins where
  contiguous := ⟨rfl, rfl⟩
  holds := by
    simp only [sharedBins, mem_singleton, forall_eq]
    constructor <;> decide +kernel
  blockList := by
    simp only [sharedBins, mem_singleton, forall_eq]
    decide
  small := by decide

theorem freeCells_sharedBins : freeCells sharedBins = {(96, 1984)} := by
  ext ⟨c, s⟩
  simp only [freeCells, sharedBins, allCells, BinLayout.cells, piecesFrom, Set.mem_ofPred_eq,
    Set.mem_singleton_iff, flatMap_cons, flatMap_nil]
  grind

theorem liveCells_sharedBins : liveCells sharedBins = {(32, -64), (2080, -2016)} := by
  ext ⟨c, s⟩
  simp only [liveCells, sharedBins, allCells, BinLayout.cells, piecesFrom, Set.mem_ofPred_eq,
    Set.mem_singleton_iff, Set.mem_insert_iff, flatMap_cons, flatMap_nil]
  grind

theorem consistent_sharedHive : Consistent sharedHive := by
  refine consistent_hiveOf layout_sharedDual fun i _ => ?_
  rw [freeCells_sharedBins]
  have hindex : freeListIndex 1984 = 23 := by decide
  by_cases hi : i = 23
  · subst hi
    have hlast : nextFree sharedDual.mem 96 = hcellNil := by decide +kernel
    refine ⟨[96], ⟨rfl, by decide, hlast⟩, nodup_singleton 96, fun c => ?_⟩
    simp only [mem_singleton, Set.mem_singleton_iff, exists_eq_left]
    exact ⟨fun hc => ⟨hindex, hc⟩, fun hc => hc.2⟩
  · refine ⟨[], if_neg hi, nodup_nil, fun c => ?_⟩
    simp only [not_mem_nil, Set.mem_singleton_iff, exists_eq_left, false_iff]
    exact fun hc => hi (hc.1.symm.trans hindex)

/-- A run from the empty hive: a cell of ten bytes is allocated. -/
theorem consistent_of_run_allocate : Consistent (hiveOf emptyDual emptyDual) ∧
    ∃ h', Relation.ReflTransGen Step (hiveOf emptyDual emptyDual) h' ∧ Consistent h' ∧
      (∀ t bins, Layout (h'.storage t) bins → ∀ p ∈ liveCells bins, ∀ q ∈ liveCells bins,
        p = q ∨ p.1 + p.2.natAbs ≤ q.1 ∨ q.1 + q.2.natAbs ≤ p.1) ∧
      (∀ call : Call, call.Admissible h' → call.Fits h' → ∃ h'', call.run h' = .ok h'') ∧
      (Merged (hiveOf emptyDual emptyDual) → Merged h') := by
  have hc := consistent_emptyHive
  have hadm : (Call.allocate 10 .stable ⟨true, true, true⟩).Admissible
      (hiveOf emptyDual emptyDual) := ⟨by decide, rfl⟩
  have hfit : (Call.allocate 10 .stable ⟨true, true, true⟩).Fits
      (hiveOf emptyDual emptyDual) := fun _ _ _ _ _ => by decide
  obtain ⟨h', hrun, -⟩ := Call.run_spec hc _ hadm hfit
  have hsteps := Relation.ReflTransGen.single (Step.call _ hadm hfit hrun)
  exact ⟨hc, h', hsteps, consistent_of_run hc hsteps⟩

/-! ### When a bin is added -/

/-- **Bins are added only when needed**: `HvAllocateCell` calls `HvpAddBin` exactly
if no free cell of the storage has the rounded size, and carves the cell out of a
free cell otherwise. -/
theorem callsHvpAddBin_iff {h : HHive} (hc : Consistent h) {t : HStorageType}
    {bins : List BinLayout} (hl : Layout (h.storage t) bins) {size : ℕ}
    (hsize : size < 0x40000000) :
    (CallsHvpAddBin h size t ↔ ¬∃ c ∈ freeCells bins, cellSizeFor size ≤ c.2.toNat) ∧
    (CallsHvpAddBin h size t → ∀ alloc, hvAllocateCell h size t alloc =
      hvpAddBin h (cellSizeFor size) t alloc >>= takeFromBin (cellSizeFor size) t) ∧
    (¬CallsHvpAddBin h size t → Carves h size t bins) := by
  obtain ⟨bins0, hs⟩ := hc t
  obtain rfl := hs.layout.unique hl
  rcases hvAllocateCell_search hs hsize with hcarves | ⟨hsmall, hnil⟩
  · have ⟨c, hc, hle, _⟩ := hcarves
    have hno := hcarves.not_calls
    exact ⟨iff_of_false hno fun hnone => hnone ⟨c, hc, hle⟩, fun h => absurd h hno,
      fun _ => hcarves⟩
  · have hcalls : CallsHvpAddBin h size t := fun addBin alloc =>
      (hvAllocateCellWith_of_find hs.readOnly hnil addBin).trans (if_pos rfl)
    refine ⟨iff_of_true hcalls ?_, fun _ alloc => hcalls hvpAddBin alloc,
      fun hno => absurd hcalls hno⟩
    rintro ⟨c, hc, hle⟩
    exact absurd (hsmall c hc) hle.not_gt

/-- A bin is added for 2000 bytes, for which the free cell is too small, and the cell for ten
bytes is carved out of it. -/
theorem callsHvpAddBin_shared : Consistent sharedHive ∧ CallsHvpAddBin sharedHive 2000 .stable ∧
    Carves sharedHive 10 .stable sharedBins := by
  have hl : Layout (sharedHive.storage .stable) sharedBins := layout_sharedDual
  have hlarge := callsHvpAddBin_iff consistent_sharedHive hl (show 2000 < 0x40000000 by decide)
  have hsmall := callsHvpAddBin_iff consistent_sharedHive hl (show 10 < 0x40000000 by decide)
  rw [freeCells_sharedBins] at hlarge hsmall
  refine ⟨consistent_sharedHive, hlarge.1.2 ?_, hsmall.2.2 (mt hsmall.1.1 (not_not_intro ?_))⟩
  · rintro ⟨c, rfl, hle⟩
    exact absurd hle (by decide)
  · exact ⟨(96, 1984), rfl, by decide⟩

/-! ### A storage that outgrows the cell index -/

/-- **The cell that crosses offset `2 ^ 31`**: what is split off it goes to the
free lists of the volatile storage. -/
theorem takeFreeCell_crossing {o size : ℕ} {s : ℤ} (hro : h.readOnly = false)
    (ho : o + 4096 ≤ 0x80000000) (hcover : o / 4096 < h.dirtyVector.sizeOfBitMap)
    (hget : hvpGetCellHeader h o = .ok ⟨.stable, o⟩) (hread : (h.mem .stable).readI32 o = s)
    (hsize : 8 ≤ size) (hsplit : (size : ℤ) + 16 < s) (hs : s < 0x80000000)
    (hcross : 0x80000000 ≤ o + size) (hlt : o + size < 0x100000000) :
    ∃ h', takeFreeCell h size .stable o = .ok (o, h') ∧
      h'.storage .volatile = { h.storage .volatile with
        freeDisplay := Function.update (h.storage .volatile).freeDisplay
          (freeListIndex (s - size).toNat) (o + size) } := by
  have hreadU : h.readU32 ⟨.stable, o⟩ = s.toNat := Mem.readU32_eq_toNat hread (by omega)
  have hreadI : h.readI32 ⟨.stable, o⟩ = s := hread
  have hindex : (o + size) % 0x100000000 = o + size := Nat.mod_eq_of_lt hlt
  have htype : hvGetCellType (o + size) = .volatile := by
    rw [hvGetCellType, if_neg (by omega)]
  -- the two headers
  set h₁ := (h.writeI32 ⟨.stable, o + size⟩ (s - size)).writeI32 ⟨.stable, o⟩ size with hh1
  have hmem1 : h₁.mem .stable =
      ((h.mem .stable).writeI32 (o + size) (s - size)).writeI32 o size := by
    simp [hh1, HHive.writeI32_mk]
  have hread1 : h₁.readU32 ⟨.stable, o + size⟩ = (s - size).toNat := by
    refine Mem.readU32_eq_toNat (m := h₁.mem .stable) ?_ (by omega)
    rw [hmem1, Mem.readI32_writeI32_ne _ _ (by simp only; omega),
      Mem.readI32_writeI32 _ _ (by omega) (by omega)]
  have hvol1 : h₁.storage .volatile = h.storage .volatile := by
    rw [hh1, HHive.writeI32_mk, HHive.storage_setMem_ne _ _ (by decide), HHive.writeI32_mk,
      HHive.storage_setMem_ne _ _ (by decide)]
  -- the list of the volatile storage
  set i := freeListIndex (s - size).toNat with hi
  set h₂ := (h₁.writeU32 ⟨.stable, o + size + 4⟩
    ((h₁.storage .volatile).freeDisplay i)).setFreeDisplay .volatile i (o + size) with hh2
  have hadd : hvpAddFree h₁ ⟨.stable, o + size⟩ (o + size) = .ok h₂ := by
    rw [hvpAddFree, htype, hread1, hvpComputeFreeListIndex_of_le (by omega)]
    rfl
  have hvol2 : h₂.storage .volatile = { h.storage .volatile with
      freeDisplay := Function.update (h.storage .volatile).freeDisplay i (o + size) } := by
    rw [hh2, HHive.setFreeDisplay, HHive.setStorage_storage, HHive.writeU32,
      HHive.storage_setMem_ne _ _ (by simp), hvol1]
  have hro2 : h₂.readOnly = false := hro
  have heq3 : hvMarkCellDirty h₂ (o + size) = .ok h₂ := by
    rw [hvMarkCellDirty, assert_of hro2, htype]
    rfl
  obtain ⟨h4, heq4, hst4⟩ : ∃ h4, hvMarkCellDirty h₂ o = .ok h4 ∧ h4.storage = h₂.storage :=
    ⟨_, hvMarkCellDirty_stable hro2 ho hcover, rfl⟩
  have hsplit' : splitFreeCell h ⟨.stable, o⟩ size .stable o = .ok h₂ := by
    rw [splitFreeCell, if_pos (by rw [hreadU]; omega), hindex, hreadI]
    exact (congrArg (fun r => Except.bind r fun h => markIfStable h .stable (o + size)) hadd).trans
      heq3
  refine ⟨(h4.writeI32 ⟨.stable, o⟩ (-h4.readI32 ⟨.stable, o⟩)).setMem .stable
    (((h4.writeI32 ⟨.stable, o⟩ (-h4.readI32 ⟨.stable, o⟩)).mem .stable).fill (o + 4) (size - 4) 0),
    ?_, ?_⟩
  · rw [takeFreeCell, hget]
    simp only [bind, Except.bind, hsplit', markIfStable, if_true, heq4]
    rfl
  · rw [HHive.storage_setMem_ne _ _ (by decide), HHive.writeI32_mk,
      HHive.storage_setMem_ne _ _ (by decide), hst4]
    exact hvol2

/-- **An allocation that crosses offset `2 ^ 31`**: no free cell is large enough,
and the new bin of the stable storage reaches beyond. The rest of its cell ends up
on a list of the volatile storage. -/
theorem hvAllocateCell_crossing (hs : AllocState .stable h bins (freeCells bins))
    (hsize : size < 0x40000000) (hnone : ∀ p ∈ freeCells bins, p.2.toNat < cellSizeFor size)
    (hlo : (h.storage .stable).length * 4096 + 8192 ≤ 0x80000000)
    (hcross : 0x80000000 ≤ (h.storage .stable).length * 4096 + 32 + cellSizeFor size)
    (hsplit : cellSizeFor size + 48 < binSizeFor (cellSizeFor size)) :
    ∃ h', hvAllocateCell h size .stable ⟨true, true, true⟩ =
        .ok ((h.storage .stable).length * 4096 + 32, h') ∧
      h'.storage .volatile = { h.storage .volatile with
        freeDisplay := Function.update (h.storage .volatile).freeDisplay
          (freeListIndex (binSizeFor (cellSizeFor size) - 32 - cellSizeFor size))
          ((h.storage .stable).length * 4096 + 32 + cellSizeFor size) } := by
  obtain ⟨h16, hcell, hcell'⟩ := cellSizeFor_spec hsize
  obtain ⟨hdvd, -⟩ := binSizeFor_spec hsize
  have hbinle : binSizeFor (cellSizeFor size) < cellSizeFor size + 32 + 4096 := by
    rw [binSizeFor, Nat.mod_eq_of_lt (by omega)]
    exact (roundUp_spec (by omega) (by omega)).2.2
  set s := cellSizeFor size with hsdef
  set L := (h.storage .stable).length * 4096 with hL
  set n := binSizeFor s with hn
  clear_value s L n
  have hfind : hvpFindFree h s .stable = .ok (hcellNil, h) := by
    rcases hs.hvpFindFree_spec (show 8 ≤ s by omega) with ⟨p, hp, hle, -⟩ | ⟨-, heq⟩
    · exact absurd hle (not_le.2 (hnone p hp))
    · exact heq
  obtain ⟨v, b, hadd, hready⟩ := hvpAddBin_eq (t := .stable) hs.ready
    (show (Allocations.mk true true true).bin = true ∧ _ from ⟨rfl, rfl⟩) rfl
    (show (h.storage .stable).length * 4096 + binSizeFor s < 0x100000000 by omega)
  rw [← hL, ← hn] at hadd
  rw [← hn] at hready
  set h₁ : HHive := { h.setStorage .stable (addedBin (h.storage .stable) n) with
    dirtyVector := v, baseBlock := b } with hh1
  have hst1 : h₁.storage .stable = addedBin (h.storage .stable) n := by
    simp [hh1]
  have hne : HStorageType.volatile ≠ .stable := by decide
  have hvol1 : h₁.storage .volatile = h.storage .volatile :=
    h.setStorage_storage_ne (addedBin (h.storage .stable) n) hne
  have hmem1 : h₁.mem .stable = formatBin (h.storage .stable).mem L n := by
    rw [HHive.mem, hst1, addedBin, ← hL]
  have hholds := formatBin_holds (m := (h.storage .stable).mem) (show L % 4096 = 0 by omega) hdvd
    (by omega) (by omega) (by omega)
  have hoffset : h₁.readU32 ⟨.stable, L + 4⟩ = L := by
    rw [HHive.readU32, hmem1]
    exact hholds.fileOffset
  have hread : (h₁.mem .stable).readI32 (L + 32) = (n - 32 : ℕ) := by
    rw [hmem1]
    exact hholds.headers (L + 32, ((n - 32 : ℕ) : ℤ)) (by simp [BinLayout.cells])
  have hblock : (h₁.storage .stable).blockList[(h.storage .stable).length]? =
      some ⟨some L, some L⟩ := by
    rw [hst1]
    simp only [addedBin, ← hL]
    rw [Dual.length, getElem?_append_right le_rfl, Nat.sub_self, getElem?_map,
      getElem?_range (by omega), Option.map_some, Nat.zero_mul, Nat.add_zero]
  have hget : hvpGetCellHeader h₁ (L + 32) = .ok ⟨.stable, L + 32⟩ := by
    have htype : hvGetCellType (L + 32) = .stable := by
      rw [hvGetCellType, if_pos (by omega)]
    have hindex : hvGetCellBlock (L + 32) = (h.storage .stable).length := by
      rw [hvGetCellBlock]
      omega
    have hflat : h₁.flat = false := hs.flat
    rw [hvpGetCellHeader, assert_of (by rw [hcellNil]; omega), htype, hindex]
    simp only [bind, Except.bind, hflat, Bool.false_eq_true, if_false, hblock, Option.bind_some]
    rw [show L + (L + 32) % 4096 = L + 32 by omega]
    rfl
  have hcover : (L + 32) / 4096 < h₁.dirtyVector.sizeOfBitMap := by
    have hdirty := hready.dirty
    rw [hst1, length_addedBin] at hdirty
    omega
  obtain ⟨h', htake, hvol⟩ := takeFreeCell_crossing (h := h₁) (s := (n - 32 : ℕ)) hs.readOnly
    (by omega) hcover hget hread (show 8 ≤ s by omega) (by omega) (by omega) (by omega) (by omega)
  rw [hvol1, show (((n - 32 : ℕ) : ℤ) - s).toNat = n - 32 - s by omega] at hvol
  refine ⟨h', ?_, hvol⟩
  have hindex : (h₁.readU32 ⟨.stable, L + 4⟩ + 32) % 0x100000000 |||
      HStorageType.stable.toNat * 0x80000000 = L + 32 := by
    rw [hoffset, Nat.mod_eq_of_lt (by omega)]
    simp [HStorageType.toNat]
  rw [← hindex] at htake
  rw [hsdef] at hfind
  rw [hvAllocateCell, hvAllocateCellWith_of_find hs.readOnly hfind, if_pos rfl, ← hsdef, hadd,
    ← hindex]
  exact htake

/-- The storage of one bin that is a single live cell. -/
def filledDual (binSize : ℕ) : Dual :=
  { addedBin emptyDual binSize with
    mem := (addedBin emptyDual binSize).mem.writeI32 32 (-(binSize - 32 : ℕ)) }

theorem layout_filledDual {binSize : ℕ} (hdvd : 4096 ∣ binSize) (hpos : 0 < binSize)
    (hle : binSize < 0x80000000) :
    Layout (filledDual binSize) ((newBin [] 0 binSize).fill [-(binSize - 32 : ℕ)]) := by
  have hlen : emptyDual.length = 0 := rfl
  have hbin := layout_emptyDual.addBin hdvd hpos (by rw [hlen]; omega)
  rw [hlen] at hbin
  refine hbin.retile (by simp) (fun x hx => ?_) (fun p hp => ?_) fun a ha => ?_
  · rw [mem_singleton.1 hx]
    omega
  · rw [mem_singleton.1 hp]
    exact Mem.readI32_writeI32 _ _ (by omega) (by omega)
  · refine Mem.writeI32_of_notMem ?_
    simp only [Hole.offset, newBin, span_cons, span_nil] at ha
    omega

theorem freeCells_filledDual {binSize : ℕ} (hbin : 32 < binSize) :
    freeCells ((newBin [] 0 binSize).fill [-(binSize - 32 : ℕ)]) = ∅ := by
  rw [Hole.freeCells_fill_neg (by omega)]
  simp [Hole.freeAround, Hole.around, newBin, allCells]

theorem length_filledDual (binSize : ℕ) : (filledDual binSize).length = binSize / 4096 := by
  simp [filledDual, addedBin, emptyDual, Dual.length]

/-- A hive whose stable storage is one live cell, two blocks short of `2 ^ 31` bytes. -/
def fullHive : HHive := hiveOf (filledDual 0x7fffe000) emptyDual

theorem consistent_fullHive : Consistent fullHive :=
  consistent_hiveOf (layout_filledDual (by decide) (by decide) (by decide))
    (freeLists_of_nil (fun _ => rfl) (freeCells_filledDual (by decide)))

/-- A storage without blocks has empty lists in a consistent hive. -/
theorem Consistent.freeDisplay_eq_nil (hc : Consistent h) (hempty : (h.storage t).blockList = [])
    {i : ℕ} (hi : i < 24) : (h.storage t).freeDisplay i = hcellNil := by
  obtain ⟨bins, hs⟩ := hc t
  have hlen : (h.storage t).length * 4096 = 0 := by
    rw [Dual.length, hempty, length_nil]
  have hcont := hs.layout.contiguous
  rw [hlen] at hcont
  obtain rfl : bins = [] := by
    cases bins with
    | nil => rfl
    | cons b bins => exact absurd (hcont.lt (hs.layout.holds b (by simp))) (lt_irrefl 0)
  obtain ⟨l, hchain, -, hmem⟩ := hs.lists i hi
  cases l with
  | nil => exact hchain
  | cons c l =>
    obtain ⟨p, hp, -⟩ := (hmem c).1 (by simp)
    rw [freeCells_nil] at hp
    exact absurd hp (Set.notMem_empty p)

/-- **The invariant fails without a bound on the storages.** `HvAllocateCell` for
8172 bytes extends the stable storage beyond `2 ^ 31` bytes, and puts a cell of it
on a list of the volatile storage, which has no blocks at all. -/
theorem not_consistent_of_crossing : Consistent fullHive ∧ ∃ call : Call, call.Admissible fullHive ∧
      ∃ h', call.run fullHive = .ok h' ∧ (h'.storage .volatile).blockList = [] ∧
        (∃ i < 24, (h'.storage .volatile).freeDisplay i = 0x80000010) ∧ ¬Consistent h' := by
  refine ⟨consistent_fullHive, .allocate 8172 .stable ⟨true, true, true⟩, ⟨by decide, rfl⟩, ?_⟩
  have hl : Layout (fullHive.storage .stable) _ :=
    layout_filledDual (show 4096 ∣ 0x7fffe000 by decide) (by decide) (by decide)
  obtain ⟨bins, hs⟩ := consistent_fullHive .stable
  obtain rfl := hs.layout.unique hl
  have hlen : (fullHive.storage .stable).length = 0x7fffe := length_filledDual 0x7fffe000
  have hsize : cellSizeFor 8172 = 8176 := by decide
  have hbin : binSizeFor 8176 = 12288 := by decide
  have hnone : ∀ p ∈ freeCells ((newBin [] 0 0x7fffe000).fill [-(0x7fffe000 - 32 : ℕ)]),
      p.2.toNat < cellSizeFor 8172 := by
    rw [freeCells_filledDual (by decide)]
    exact fun p hp => absurd hp (Set.notMem_empty p)
  obtain ⟨h', heq, hvol⟩ := hvAllocateCell_crossing hs (by decide) hnone (by rw [hlen])
    (by rw [hlen, hsize]; decide) (by rw [hsize, hbin]; decide)
  rw [hlen, hsize, hbin] at hvol
  have hlist : (h'.storage .volatile).freeDisplay (freeListIndex 4080) = 0x80000010 := by
    simp [hvol]
  refine ⟨h', ?_, by rw [hvol]; rfl, ⟨_, freeListIndex_lt 4080, hlist⟩, fun hc => ?_⟩
  · rw [Call.run, heq]
    rfl
  · have hnil := hc.freeDisplay_eq_nil (t := .volatile) (by rw [hvol]; rfl) (freeListIndex_lt 4080)
    rw [hlist] at hnil
    exact absurd hnil (by decide)

end Windivs

import Windivs.Cm.HiveLoad

/-!
# Loading what the allocator keeps in order

A chunk that holds a storage in order – bins that follow one another, each filled by its
cells – is loaded, and the allocator can go on with it
(`Windivs.hvpInitializeMemoryHive_allocState`): the hive has the same cells, the live ones with
the data they had, and `HvpCreateHiveFreeCellList` has put each of the free ones on its list.
-/

namespace Windivs

open List

variable {a fuel lo : ℕ} {b : BinLayout} {bins : List BinLayout} {chunk : Mem} {d : Dual}
  {p : ℕ × ℤ} {s : WalkState}

/-- A loop that goes from bin to bin. -/
theorem Contiguous.runLoop {σ ρ : Type} {body : σ → Turn σ (Run ρ)} {P : ℕ → σ → Prop} {hi : ℕ}
    {s : σ} (hcont : Contiguous lo bins hi) (hs : P lo s) (hfuel : bins.length < fuel)
    (hstep : ∀ b ∈ bins, ∀ s, P b.start s → ∃ s', body s = .again s' ∧ P b.fin s') :
    ∃ s', P hi s' ∧ ∀ r, body s' = .leave r → runLoop body fuel s = r := by
  induction bins generalizing lo s fuel with
  | nil =>
    rcases fuel with - | fuel
    · simp at hfuel
    obtain rfl : lo = hi := hcont
    exact ⟨s, hs, fun r hr => runLoop_leave fuel hr⟩
  | cons b bins ih =>
    rcases fuel with - | fuel
    · simp at hfuel
    obtain ⟨hb, hrest⟩ := forall_mem_cons.1 hstep
    obtain ⟨rfl, hcont⟩ := hcont
    obtain ⟨s₁, hagain, hs1⟩ := hb s hs
    obtain ⟨s', hs', hleave⟩ := ih hcont hs1 (by simpa using hfuel) hrest
    exact ⟨s', hs', fun r hr => (runLoop_again fuel hagain).trans (hleave r hr)⟩

theorem Contiguous.end_unique {lo hi hi' : ℕ} (h : Contiguous lo bins hi)
    (h' : Contiguous lo bins hi') : hi = hi' := by
  induction bins generalizing lo with
  | nil => exact h.symm.trans h'
  | cons b bins ih => exact ih h.2 h'.2

theorem Layout.bin_bounds (hl : Layout d bins) (hb : b ∈ bins) : 0 < b.blocks ∧
    b.start + b.blocks * 4096 ≤ d.length * 4096 ∧ d.length * 4096 < 0x80000000 :=
  ⟨(hl.holds b hb).blocks_pos, (hl.contiguous.bounds hb).2, hl.small⟩

/-! ### The walk over the bins -/

/-- A chunk with the bytes of a storage after its base block. -/
structure HoldsDual (chunk : Mem) (d : Dual) : Prop where
  length : BaseBlock.length chunk = d.length * 4096
  bytes : ∀ a < d.length * 4096, chunk (4096 + a) = d.mem a

theorem HoldsDual.readU32 (h : HoldsDual chunk d) (ha : a + 4 ≤ d.length * 4096) :
    chunk.readU32 (4096 + a) = d.mem.readU32 a := by
  simp only [Mem.readU32, Nat.add_assoc]
  rw [h.bytes a (by omega), h.bytes (a + 1) (by omega), h.bytes (a + 2) (by omega),
    h.bytes (a + 3) (by omega)]

/-- What the walk has done when it comes to offset `lo`. -/
structure WalkedTo (d : Dual) (chunk : Mem) (lo : ℕ) (s : WalkState) : Prop where
  index : s.blockIndex * 4096 = lo
  chunk : s.chunk = chunk
  length : s.blockList.length = d.length
  entries : ∀ j < s.blockIndex, s.blockList[j]? = d.blockList[j]?
  bytes : ∀ a < lo, s.mem a = d.mem a

section Walk

variable {allocateBin : ℕ → Bool} (hl : Layout d bins) (hchunk : HoldsDual chunk d)
  (halloc : ∀ n, allocateBin n = true)
include hl hchunk halloc

/-- One bin of a storage in order. -/
theorem WalkedTo.step (hb : b ∈ bins) (hsig : d.binSignature b.start = hvHbinSignature)
    (hs : WalkedTo d chunk b.start s) :
    ∃ s', binTurn false allocateBin (4096 + BaseBlock.length chunk) s = .again s' ∧
      WalkedTo d chunk b.fin s' := by
  have hholds := hl.holds b hb
  obtain ⟨hpos, hfin, -⟩ := hl.bin_bounds hb
  have hplace : (s.blockIndex + 1) * 4096 = 4096 + b.start := by
    rw [← hs.index]
    ring
  have hindex : s.blockIndex = b.start / 4096 := by
    rw [← hs.index, Nat.mul_div_cancel _ (by decide)]
  have hsize : chunkBinSize s.chunk s.blockIndex = b.blocks * 4096 := by
    rw [chunkBinSize, hplace, hs.chunk, Nat.add_assoc, hchunk.readU32 (by omega), hholds.size]
  have hblocks : chunkBinSize s.chunk s.blockIndex / 4096 = b.blocks := by
    rw [hsize, Nat.mul_div_cancel _ (by decide)]
  have hgood : ¬ToastBin s.chunk s.blockIndex := by
    rintro (hne | hne | hne)
    · rw [chunkBinSignature, hplace, hs.chunk, hchunk.readU32 (by omega)] at hne
      exact hne hsig
    · rw [hsize] at hne
      exact hne (Nat.mul_mod_left _ _)
    · rw [chunkBinOffset, hplace, hs.chunk, Nat.add_assoc, hchunk.readU32 (by omega),
        hholds.fileOffset] at hne
      exact hne hindex.symm
  obtain ⟨s', hagain, -⟩ := copyBin_of_fits s.chunk (halloc s.bins)
    (show _ ≤ 4096 + BaseBlock.length chunk by rw [hplace, hsize, hchunk.length]; omega)
    (by rw [hblocks, hs.length]; omega)
  refine ⟨s', by rwa [binTurn, if_pos (by rw [hs.length]; omega), if_neg hgood], ?_⟩
  obtain rfl := copyBin_again hagain
  refine ⟨?_, hs.chunk, ?_, fun j hj => ?_, fun a ha => ?_⟩
  · simp only [hblocks]
    rw [Nat.add_mul, hs.index, BinLayout.fin]
  · simp only [enterBin, length_mapIdx]
    exact hs.length
  · simp only [hblocks] at hj ⊢
    rw [enterBin, getElem?_mapIdx]
    by_cases hold : j < s.blockIndex
    · simp only [if_neg (show ¬(s.blockIndex ≤ j ∧ j < s.blockIndex + max 1 b.blocks) by omega)]
      rw [← hs.entries j hold, Option.map_id']
    · have hentry := hl.blockList b hb (j - s.blockIndex) (by omega)
      rw [← hindex, show s.blockIndex + (j - s.blockIndex) = j by omega,
        show b.start + (j - s.blockIndex) * 4096 = j * 4096 by omega] at hentry
      rw [hentry, getElem?_eq_getElem (by rw [hs.length]; omega), Option.map_some,
        if_pos (by omega), hs.index]
  · simp only [hs.index, hsize]
    by_cases hold : a < b.start
    · rw [Mem.copy_of_notMem (.inl hold)]
      exact hs.bytes a hold
    · rw [BinLayout.fin] at ha
      rw [Mem.copy_of_mem (not_lt.1 hold) (by omega), hplace, hs.chunk, Nat.add_assoc,
        Nat.add_sub_cancel' (not_lt.1 hold)]
      exact hchunk.bytes a (by omega)

/-- **The walk over a storage in order** gives its block list and its bytes. -/
theorem binWalk_layout (hsig : ∀ b ∈ bins, d.binSignature b.start = hvHbinSignature) (fuel : ℕ)
    (hfuel : bins.length < fuel) :
    ∃ s, binWalk fuel false allocateBin chunk = .ok (.ok s) ∧ s.blockList = d.blockList ∧
      ∀ a < d.length * 4096, s.mem a = d.mem a := by
  have hstart : WalkedTo d chunk 0 (walkStart chunk) :=
    ⟨Nat.zero_mul 4096, rfl,
      by rw [(walkInv_start chunk).length, chunkBlocks, hchunk.length]; omega,
      by simp [walkStart], by simp⟩
  obtain ⟨s, hs, hleave⟩ := hl.contiguous.runLoop hstart hfuel fun b hb s hs =>
    hs.step hl hchunk halloc hb (hsig b hb)
  have hindex := hs.index
  refine ⟨s, hleave _ (by rw [binTurn, if_neg (by rw [hs.length]; omega)]),
    ext_getElem? fun j => ?_, hs.bytes⟩
  by_cases hj : j < s.blockIndex
  · exact hs.entries j hj
  · rw [getElem?_eq_none (by rw [hs.length]; omega),
      getElem?_eq_none (show d.length ≤ j by omega)]

end Walk

/-! ### The lists of free cells -/

section FreeLists

variable {g h : HHive}

/-- A hive with a dirty vector for any storage. The lists do not depend on it, and while they are
made there is none. -/
def HHive.prepared (g : HHive) : HHive := { g with dirtyVector := ⟨0x80000, []⟩ }

theorem hvpAddFree_of_prepared {k : HHive} {q : CellPtr} {c : ℕ}
    (hadd : hvpAddFree g.prepared q c = .ok k) :
    ∃ g', hvpAddFree g q c = .ok g' ∧ g'.prepared = k := by
  rw [hvpAddFree, show g.prepared.readU32 q = g.readU32 q from rfl] at hadd
  rw [hvpAddFree]
  cases hi : hvpComputeFreeListIndex (g.readU32 q) with
  | error e =>
    rw [hi] at hadd
    cases hadd
  | ok i =>
    rw [hi] at hadd
    exact ⟨_, rfl, Except.ok.inj hadd⟩

/-- What has been done when the loops come to an address: the lists hold the free cells below
it, and the cells in use are as they were. -/
structure ListedTo (bins : List BinLayout) (h : HHive) (lo : ℕ) (g : HHive) : Prop where
  state : AllocState .stable g.prepared bins {p ∈ freeCells bins | p.1 < lo}
  keeps : Keeps .stable (liveCells bins) h.prepared g.prepared

namespace ListedTo

theorem layout (hg : ListedTo bins h lo g) : Layout (g.storage .stable) bins := hg.state.layout

/-- Between two addresses without a free cell nothing is to be done. -/
theorem skip (hg : ListedTo bins h lo g) {hi : ℕ} (hle : lo ≤ hi)
    (hnone : ∀ p ∈ freeCells bins, p.1 < hi → p.1 < lo) : ListedTo bins h hi g := by
  have hfree : {p ∈ freeCells bins | p.1 < hi} = {p ∈ freeCells bins | p.1 < lo} := by
    ext p
    exact ⟨fun hp => ⟨hp.1, hnone p hp.1 hp.2⟩, fun hp => ⟨hp.1, hp.2.trans_le hle⟩⟩
  exact ⟨hfree ▸ hg.state, hg.keeps⟩

/-- No cell starts inside another one. -/
theorem eq_or_lt (hg : ListedTo bins h lo g) (hp : p ∈ allCells bins) {q : ℕ × ℤ}
    (hq : q ∈ allCells bins) (hlt : q.1 < p.1 + p.2.natAbs) : q = p ∨ q.1 < p.1 := by
  have hq8 := (hg.layout.cell_bounds hq).2.1
  rcases hg.layout.disjoint hq hp with heq | hbelow | habove
  · exact .inl heq
  · exact .inr (by omega)
  · omega

/-- A free cell is entered. -/
theorem addFree (hg : ListedTo bins h p.1 g) (hp : p ∈ freeCells bins) :
    ∃ g', hvpAddFree g ⟨.stable, p.1⟩ p.1 = .ok g' ∧
      ListedTo bins h (p.1 + p.2.natAbs) g' := by
  obtain ⟨k, hadd, hs, hk⟩ := hg.state.hvpAddFree_spec hp fun hmem => lt_irrefl _ hmem.2
  have hfree : {q ∈ freeCells bins | q.1 < p.1 + p.2.natAbs} =
      insert p {q ∈ freeCells bins | q.1 < p.1} := by
    have hp8 := (hg.layout.cell_bounds hp.1).2.1
    ext q
    constructor
    · rintro ⟨hq, hlt⟩
      exact (hg.eq_or_lt hp.1 hq.1 hlt).imp_right (And.intro hq)
    · rintro (rfl | ⟨hq, hbelow⟩)
      · exact ⟨hp, by omega⟩
      · exact ⟨hq, by omega⟩
  obtain ⟨g', hentered, rfl⟩ := hvpAddFree_of_prepared hadd
  exact ⟨g', hentered, hfree ▸ hs, hg.keeps.trans hk⟩

/-- The loop over the cells of a bin. -/
theorem freeCellTurn (hb : b ∈ bins) {o : ℕ} {sizes : List ℤ}
    (hg : ListedTo bins h (b.start + o) g)
    (hcells : ∀ p ∈ piecesFrom (b.start + o) sizes, p ∈ b.cells)
    (hend : o + span sizes = b.blocks * 4096) (hfuel : sizes.length < fuel) :
    ∃ g', runLoop (freeCellTurn b.start) fuel (o, g) = .ok g' ∧ ListedTo bins h b.fin g' := by
  induction sizes generalizing o g fuel with
  | nil =>
    rcases fuel with - | fuel
    · simp at hfuel
    have hsize : (g.storage .stable).binSize b.start = b.blocks * 4096 :=
      (hg.layout.holds b hb).size
    rw [span_nil, Nat.add_zero] at hend
    refine ⟨g, runLoop_leave fuel ?_, by rwa [BinLayout.fin, ← hend]⟩
    simp only [Windivs.freeCellTurn]
    rw [if_neg (by rw [hsize]; omega)]
  | cons s sizes ih =>
    rcases fuel with - | fuel
    · simp at hfuel
    have hholds := hg.layout.holds b hb
    obtain ⟨-, hfin, hsmall⟩ := hg.layout.bin_bounds hb
    have hsize : (g.storage .stable).binSize b.start = b.blocks * 4096 := hholds.size
    obtain ⟨hp, hrest⟩ := forall_mem_cons.1 hcells
    rw [span_cons] at hend
    obtain ⟨-, -, h8, -⟩ := hholds.cell_bounds hp
    have hmem : (b.start + o, s) ∈ allCells bins := mem_allCells.2 ⟨b, hb, hp⟩
    have hcell : (g.storage .stable).cellSize b.start o = s := hg.layout.header hmem
    have hnext : (o + s.natAbs) % 0x100000000 = o + s.natAbs := Nat.mod_eq_of_lt (by omega)
    have hstep : ∃ g', Windivs.freeCellTurn b.start (o, g) = .again (o + s.natAbs, g') ∧
        ListedTo bins h (b.start + (o + s.natAbs)) g' := by
      simp only [Windivs.freeCellTurn]
      rw [if_pos (by rw [hsize]; simp only at h8; omega), hcell, hnext, ← Nat.add_assoc]
      by_cases hfree : 0 < s
      · obtain ⟨g', hadd, hg'⟩ := hg.addFree (p := (b.start + o, s)) ⟨hmem, hfree⟩
        have hindex : ((g.storage .stable).binFileOffset b.start + o) % 0x100000000 =
            b.start + o := by
          rw [Dual.binFileOffset, hholds.fileOffset]
          exact Nat.mod_eq_of_lt (by omega)
        exact ⟨g', by rw [if_pos hfree, hindex, hadd], hg'⟩
      · refine ⟨g, by rw [if_neg hfree], hg.skip (Nat.le_add_right _ _) fun q hq hlt => ?_⟩
        refine (hg.eq_or_lt hmem hq.1 hlt).resolve_left ?_
        rintro rfl
        exact hfree hq.2
    obtain ⟨g', hagain, hg'⟩ := hstep
    obtain ⟨g'', hrun, hg''⟩ := ih hg' (by rwa [Nat.add_assoc] at hrest) (by omega)
      (by simpa using hfuel)
    exact ⟨g'', (runLoop_again fuel hagain).trans hrun, hg''⟩

/-- One turn of the loop over the bins. -/
theorem freeListTurn (hb : b ∈ bins) (hg : ListedTo bins h b.start g) (hfuel : b.fin < fuel) :
    ∃ g', freeListTurn fuel (b.start / 4096, g) = .again (b.fin / 4096, g') ∧
      ListedTo bins h b.fin g' := by
  have hl := hg.layout
  have hholds := hl.holds b hb
  obtain ⟨hpos, hfin, hsmall⟩ := hl.bin_bounds hb
  have hspan := hholds.span_sizes
  have hcount := length_mul_le_span (k := 1) fun s hs =>
    Nat.one_le_iff_ne_zero.2 (Int.natAbs_ne_zero.2 (hholds.sizes s hs).1)
  rw [BinLayout.fin] at hfuel
  -- the header of the bin has no cell
  have hstart : ListedTo bins h (b.start + 32) g := by
    refine hg.skip (Nat.le_add_right _ _) fun q hq hlt => ?_
    have hq8 := (hl.cell_bounds hq.1).2.1
    have := hl.bin_disjoint hb hq.1
    omega
  obtain ⟨g', hcells, hg'⟩ := hstart.freeCellTurn hb (fun _ hp => hp) (by omega)
    (show b.sizes.length < fuel by omega)
  have hsize : (g'.storage .stable).binSize b.start = b.blocks * 4096 :=
    (hg'.layout.holds b hb).size
  have hnext : (b.start / 4096 + b.blocks * 4096 / 4096) % 0x100000000 = b.fin / 4096 := by
    rw [BinLayout.fin]
    omega
  have hbin : (g.storage .stable).binAddress (b.start / 4096) = some b.start :=
    hl.binAddress hb hpos
  refine ⟨g', ?_, hg'⟩
  simp only [Windivs.freeListTurn]
  rw [if_pos (by omega), hbin]
  simp only [hcells]
  rw [hsize, hnext]

end ListedTo

/-- **`HvpCreateHiveFreeCellList`** makes the lists of the free cells. -/
theorem hvpCreateHiveFreeCellList_listed (hl : Layout (h.storage .stable) bins)
    (hread : h.readOnly = false) (hflat : h.flat = false) (fuel : ℕ)
    (hfuel : (h.storage .stable).length * 4096 + bins.length < fuel) :
    ∃ g, hvpCreateHiveFreeCellList fuel h = .ok g ∧
      ListedTo bins (clearFreeDisplay h) ((h.storage .stable).length * 4096) g := by
  have hsmall := hl.small
  have hclear : ListedTo bins (clearFreeDisplay h) 0 (clearFreeDisplay h) := by
    refine ⟨⟨⟨hread, hflat, ?_⟩, hl.frame rfl (fun _ _ _ _ _ => rfl) fun _ _ _ _ _ => rfl,
      fun i _ => ⟨[], rfl, nodup_nil, by simp⟩, fun _ hp => hp.1⟩, .refl ..⟩
    show (h.storage .stable).length ≤ 0x80000
    omega
  obtain ⟨⟨i, g⟩, ⟨hi, hg⟩, hleave⟩ := hl.contiguous.runLoop (s := (0, clearFreeDisplay h))
    (P := fun lo (s : ℕ × HHive) => s.1 = lo / 4096 ∧ ListedTo bins (clearFreeDisplay h) lo s.2)
    ⟨rfl, hclear⟩ (show bins.length < fuel by omega) fun b hb ⟨i, g⟩ ⟨hi, hg⟩ => by
      have hfin := (hl.contiguous.bounds hb).2
      obtain ⟨g', hagain, hg'⟩ := hg.freeListTurn hb (show b.fin < fuel by omega)
      exact ⟨_, hi ▸ hagain, rfl, hg'⟩
  have hlength : _ = (g.storage .stable).length * 4096 :=
    hl.contiguous.end_unique hg.layout.contiguous
  refine ⟨g, hleave _ ?_, hg⟩
  simp only [freeListTurn]
  rw [if_neg (by simp only at hi; omega)]

end FreeLists

/-! ### The initialization -/

/-- The dirty vector that is made last is long enough for the allocator. -/
theorem AllocState.finishHive {free : Set (ℕ × ℤ)} {g : HHive}
    (hs : AllocState .stable g.prepared bins free) (chunk : Mem)
    (fileName : Option (List UInt16)) :
    AllocState .stable (finishHive g chunk fileName) bins free := by
  have hsmall := hs.layout.small
  have hround : ∀ n, n * 4096 < 0x80000000 → n ≤ roundUp n 32 / 8 * 8 := by
    intro n hn
    rw [roundUp]
    omega
  rw [Windivs.finishHive]
  split <;> exact ⟨⟨hs.readOnly, hs.flat, hround _ hsmall⟩, hs.layout, hs.lists, hs.subset⟩

/-- **A storage in order is loaded again**: the allocator can go on with it, and the cells in
use have the data they had. -/
theorem hvpInitializeMemoryHive_allocState (hl : Layout d bins)
    (hsig : ∀ b ∈ bins, d.binSignature b.start = hvHbinSignature) (hchunk : HoldsDual chunk d)
    (hverify : hvpVerifyHiveHeader chunk .primary = true) (hpos : 0 < d.length)
    (hfuel : d.length * 4096 + bins.length < fuel) {h : HHive} (hread : h.readOnly = false)
    (hflat : h.flat = false) (fileName : Option (List UInt16)) :
    ∃ g, hvpInitializeMemoryHive fuel false ⟨true, true, fun _ => true, true⟩ h chunk fileName =
        .ok (.success, g) ∧
      AllocState .stable g bins (freeCells bins) ∧
      ∀ p ∈ liveCells bins, Mem.AgreeOn (g.mem .stable) d.mem p.1 (p.1 + p.2.natAbs) := by
  obtain ⟨s, hwalk, hlist, hbytes⟩ := binWalk_layout hl hchunk (fun _ => rfl) hsig fuel (by omega)
  have hlength : ((walkedHive h chunk s).storage .stable).length = d.length :=
    congrArg length hlist
  have hwalked : Layout ((walkedHive h chunk s).storage .stable) bins := by
    refine hl.frame hlist (fun b hb a _ ha => hbytes a ?_) fun p hp a _ ha => hbytes a ?_
    · have := hl.bin_bounds hb
      omega
    · have := hl.cell_bounds hp
      omega
  obtain ⟨g, hlists, hg⟩ :=
    hvpCreateHiveFreeCellList_listed hwalked hread hflat fuel (by rwa [hlength])
  have hall : {p ∈ freeCells bins |
      p.1 < ((walkedHive h chunk s).storage .stable).length * 4096} = freeCells bins := by
    refine Set.sep_eq_self_iff_mem_true.2 fun p hp => ?_
    have := hl.cell_bounds hp.1
    omega
  refine ⟨finishHive g s.chunk fileName, ?_, hall ▸ hg.state.finishHive s.chunk fileName,
    fun p hp => ?_⟩
  · rw [hvpInitializeMemoryHive, if_neg (by rw [hverify, hchunk.length]; simp; omega),
      if_neg (by simp), hwalk]
    show (do let h' ← hvpCreateHiveFreeCellList fuel (walkedHive h chunk s); _) = _
    rw [hlists]
    rfl
  · have hmem : (finishHive g s.chunk fileName).mem .stable = g.mem .stable := by
      rw [finishHive]
      split <;> rfl
    rw [hmem]
    refine Mem.AgreeOn.trans (hg.keeps.bytes p hp) fun a _ ha => ?_
    have := hl.cell_bounds hp.1
    exact hbytes a (by omega)

/-- A chunk with the bytes of a storage. -/
def chunkOf (d : Dual) : Mem := fun a =>
  if a < 4096 then chunkHeader (d.length * 4096) a else d.mem (a - 4096)

/-- A bin with a free cell between two live ones is loaded again, and the free cell is entered. -/
theorem hvpInitializeMemoryHive_shared :
    ∃ g, hvpInitializeMemoryHive 4098 false ⟨true, true, fun _ => true, true⟩
        (hiveOf emptyDual emptyDual) (chunkOf sharedDual) none = .ok (.success, g) ∧
      AllocState .stable g sharedBins (freeCells sharedBins) ∧
      freeCells sharedBins = {(96, 1984)} := by
  have hholds : HoldsDual (chunkOf sharedDual) sharedDual :=
    ⟨by decide +kernel, fun a _ => by rw [chunkOf, if_neg (by omega), Nat.add_sub_cancel_left]⟩
  obtain ⟨g, hrun, hg, -⟩ := hvpInitializeMemoryHive_allocState
    layout_sharedDual signed_sharedDual hholds
    (by decide +kernel) (by decide) (show _ < 4098 by decide)
    (show (hiveOf emptyDual emptyDual).readOnly = false from rfl) rfl none
  exact ⟨g, hrun, hg, freeCells_sharedBins⟩

end Windivs

import Windivs.Lib.Chain
import Windivs.Lib.Tiling
import Windivs.Cm.HiveCell

/-!
# The layout of a storage

What a storage looks like when the allocator is right about it. A
`Windivs.BinLayout` says where a bin starts, how many blocks it has and which
cells tile it; `Windivs.Layout d bins` says that the memory and the block list of
a storage are those of the bins. `Windivs.FreeLists d t free` says that the
twenty-four lists hold exactly a given set of free cells, each once and in the
list of its size.

The two are kept apart on purpose. In the middle of a call a cell is free by its
header and in no list yet, or in no list any more; `Windivs.AllocState` has both
parts with a set of listed cells that need not be all the free ones, and the
primitive steps of the allocator move between such states.
-/

namespace Windivs

variable {b : BinLayout} {bins : List BinLayout} {d : Dual} {free : Set (ℕ × ℤ)} {hi lo : ℕ}
  {p : ℕ × ℤ} {t : HStorageType}

/-! ### Bins -/

/-- A bin: where it starts in its storage, its blocks, and the sizes of the cells
that fill it after the header. -/
structure BinLayout where
  start : ℕ
  blocks : ℕ
  sizes : List ℤ

namespace BinLayout

/-- The first offset after the bin. -/
def fin (b : BinLayout) : ℕ := b.start + b.blocks * 4096

/-- The cells of the bin: offset in the storage, and signed size. -/
def cells (b : BinLayout) : List (ℕ × ℤ) := piecesFrom (b.start + 32) b.sizes

/-- The bin is in memory: its header has its offset and size, and its cells tile
it, with sizes that are multiples of eight. -/
structure Holds (b : BinLayout) (m : Mem) : Prop where
  blocks_pos : 0 < b.blocks
  aligned : b.start % 4096 = 0
  fileOffset : m.readU32 (b.start + 4) = b.start
  size : m.readU32 (b.start + 8) = b.blocks * 4096
  span_sizes : span b.sizes + 32 = b.blocks * 4096
  sizes : ∀ s ∈ b.sizes, s ≠ 0 ∧ 8 ∣ s.natAbs
  headers : ∀ p ∈ b.cells, m.readI32 p.1 = p.2

theorem Holds.cell_bounds {m : Mem} (h : b.Holds m) (hp : p ∈ b.cells) :
    b.start + 32 ≤ p.1 ∧ p.1 + p.2.natAbs ≤ b.fin ∧ 8 ≤ p.2.natAbs ∧ 8 ∣ p.1 ∧
      8 ∣ p.2.natAbs := by
  obtain ⟨hlo, hhi⟩ := piecesFrom_bounds hp
  obtain ⟨hne, hdvd⟩ := h.sizes p.2 (mem_sizes_of_mem_piecesFrom hp)
  have hstart : 8 ∣ b.start + 32 := by
    have := h.aligned
    omega
  have := h.span_sizes
  exact ⟨hlo, by rw [fin]; omega, by omega,
    piecesFrom_dvd hstart (fun s hs => (h.sizes s hs).2) hp, hdvd⟩

/-- A bin reads the bytes of its header and of the headers of its cells. -/
theorem Holds.frame {m m' : Mem} (h : b.Holds m) (hbin : Mem.AgreeOn m' m b.start (b.start + 32))
    (hcell : ∀ p ∈ b.cells, m'.readI32 p.1 = p.2) : b.Holds m' :=
  { h with
    fileOffset := (Mem.readU32_congr (hbin.mono (by omega) (by omega))).trans h.fileOffset
    size := (Mem.readU32_congr (hbin.mono (by omega) (by omega))).trans h.size
    headers := hcell }

end BinLayout

/-- The bins follow one another from offset `lo` to offset `hi`. -/
def Contiguous : ℕ → List BinLayout → ℕ → Prop
  | lo, [], hi => lo = hi
  | lo, b :: bins, hi => b.start = lo ∧ Contiguous b.fin bins hi

theorem Contiguous.le (h : Contiguous lo bins hi) : lo ≤ hi := by
  induction bins generalizing lo with
  | nil => exact le_of_eq h
  | cons b bins ih =>
    have := ih h.2
    rw [← h.1]
    exact (Nat.le_add_right _ _).trans this

theorem Contiguous.bounds (h : Contiguous lo bins hi) (hb : b ∈ bins) :
    lo ≤ b.start ∧ b.fin ≤ hi := by
  induction bins generalizing lo with
  | nil => cases hb
  | cons a bins ih =>
    rcases List.mem_cons.1 hb with rfl | hb
    · exact ⟨h.1.ge, h.2.le⟩
    · obtain ⟨h₁, h₂⟩ := ih h.2 hb
      have : a.start ≤ a.fin := Nat.le_add_right _ _
      exact ⟨by rw [← h.1]; omega, h₂⟩

/-- Different bins do not overlap. -/
theorem Contiguous.disjoint (h : Contiguous lo bins hi) {b b' : BinLayout} (hb : b ∈ bins)
    (hb' : b' ∈ bins) : b = b' ∨ b.fin ≤ b'.start ∨ b'.fin ≤ b.start := by
  induction bins generalizing lo with
  | nil => cases hb
  | cons a bins ih =>
    rcases List.mem_cons.1 hb with rfl | hmem <;> rcases List.mem_cons.1 hb' with rfl | hmem'
    · exact .inl rfl
    · exact .inr (.inl (h.2.bounds hmem').1)
    · exact .inr (.inr (h.2.bounds hmem).1)
    · exact ih h.2 hmem hmem'

/-- Every offset in between is in some bin. -/
theorem Contiguous.exists_mem {lo hi a : ℕ} (h : Contiguous lo bins hi)
    (hlo : lo ≤ a) (hhi : a < hi) : ∃ b ∈ bins, b.start ≤ a ∧ a < b.fin := by
  induction bins generalizing lo with
  | nil =>
    have heq : lo = hi := h
    omega
  | cons b bins ih =>
    by_cases ha : a < b.fin
    · exact ⟨b, List.mem_cons_self, by rw [h.1]; exact hlo, ha⟩
    · obtain ⟨b', hb', hin⟩ := ih h.2 (by omega)
      exact ⟨b', List.mem_cons_of_mem b hb', hin⟩

theorem contiguous_append {l r : List BinLayout} :
    Contiguous lo (l ++ r) hi ↔ ∃ mid, Contiguous lo l mid ∧ Contiguous mid r hi := by
  induction l generalizing lo with
  | nil => simp [Contiguous]
  | cons b l ih => simp [Contiguous, ih, and_assoc]

/-! ### Storages -/

/-- All cells of a storage. -/
def allCells (bins : List BinLayout) : List (ℕ × ℤ) := bins.flatMap BinLayout.cells

theorem mem_allCells : p ∈ allCells bins ↔ ∃ b ∈ bins, p ∈ b.cells :=
  List.mem_flatMap

/-- The free cells of a storage, those with a positive size. -/
def freeCells (bins : List BinLayout) : Set (ℕ × ℤ) := {p | p ∈ allCells bins ∧ 0 < p.2}

/-- The live cells of a storage, those with a negative size. -/
def liveCells (bins : List BinLayout) : Set (ℕ × ℤ) := {p | p ∈ allCells bins ∧ p.2 < 0}

/-- **The layout of a storage**: its memory and its block list are those of the
bins, and it is small enough for every offset to fit below the type bit of a cell
index. -/
structure Layout (d : Dual) (bins : List BinLayout) : Prop where
  contiguous : Contiguous 0 bins (d.length * 4096)
  holds : ∀ b ∈ bins, b.Holds d.mem
  blockList : ∀ b ∈ bins, ∀ i < b.blocks,
    d.blockList[b.start / 4096 + i]? = some ⟨some (b.start + i * 4096), some b.start⟩
  small : d.length * 4096 < 0x80000000

namespace Layout

variable {q : ℕ × ℤ}

section

variable (h : Layout d bins)
include h

section

variable (hp : p ∈ allCells bins)
include hp

theorem cell_bounds :
    p.1 + p.2.natAbs ≤ d.length * 4096 ∧ 8 ≤ p.2.natAbs ∧ 8 ∣ p.1 ∧ 8 ∣ p.2.natAbs ∧
      p.1 + 8 ≤ 0x80000000 ∧ p.1 + p.2.natAbs ≤ 0x80000000 := by
  obtain ⟨b, hb, hp⟩ := mem_allCells.1 hp
  obtain ⟨-, h₂, h3, h4, h5⟩ := (h.holds b hb).cell_bounds hp
  have := (h.contiguous.bounds hb).2
  have := h.small
  exact ⟨by omega, h3, h4, h5, by omega⟩

theorem header : d.mem.readI32 p.1 = p.2 := by
  obtain ⟨b, hb, hp⟩ := mem_allCells.1 hp
  exact (h.holds b hb).headers p hp

/-- **Different cells of a storage do not overlap.** -/
theorem disjoint (hq : q ∈ allCells bins) :
    p = q ∨ p.1 + p.2.natAbs ≤ q.1 ∨ q.1 + q.2.natAbs ≤ p.1 := by
  obtain ⟨b, hb, hpb⟩ := mem_allCells.1 hp
  obtain ⟨b', hb', hqb⟩ := mem_allCells.1 hq
  obtain ⟨hp₁, hp2, -⟩ := (h.holds b hb).cell_bounds hpb
  obtain ⟨hq1, hq2, -⟩ := (h.holds b' hb').cell_bounds hqb
  rcases h.contiguous.disjoint hb hb' with rfl | hlt | hlt
  · exact piecesFrom_disjoint hpb hqb
  · exact .inr (.inl (by omega))
  · exact .inr (.inr (by omega))

/-- A cell is determined by its offset. -/
theorem cell_ext (hq : q ∈ allCells bins) (he : p.1 = q.1) : p = q := by
  have h₁ := (h.cell_bounds hp).2.1
  have h₂ := (h.cell_bounds hq).2.1
  rcases h.disjoint hp hq with rfl | hlt | hlt
  · rfl
  · omega
  · omega

end

/-- The block list leads from the block of a cell to its memory and to its
bin. -/
theorem block_of_mem (hb : b ∈ bins) (hp : p ∈ b.cells) :
    d.blockList[p.1 / 4096]? = some ⟨some (p.1 / 4096 * 4096), some b.start⟩ := by
  have hholds := h.holds b hb
  obtain ⟨h₁, h₂, h3, -, -⟩ := hholds.cell_bounds hp
  have hal := hholds.aligned
  rw [BinLayout.fin] at h₂
  have hi : p.1 / 4096 - b.start / 4096 < b.blocks := by omega
  have hlist := h.blockList b hb _ hi
  rw [show b.start / 4096 + (p.1 / 4096 - b.start / 4096) = p.1 / 4096 by omega,
    show b.start + (p.1 / 4096 - b.start / 4096) * 4096 = p.1 / 4096 * 4096 by omega] at hlist
  exact hlist

end

end Layout

/-- Looking up a cell of the layout gives its header. -/
theorem hvpGetCellHeader_of_mem {h : HHive}
    (hflat : h.flat = false) (hl : Layout (h.storage t) bins)
    (hp : p ∈ allCells bins) : hvpGetCellHeader h (cellIndex t p.1) = .ok ⟨t, p.1⟩ := by
  obtain ⟨-, h₂, -, -, h5⟩ := hl.cell_bounds hp
  obtain ⟨b, hb, hpb⟩ := mem_allCells.1 hp
  have hlt : p.1 < 0x80000000 := by omega
  rw [hvpGetCellHeader, assert_of (cellIndex_ne_nil (by omega))]
  simp only [hflat, hvGetCellType_cellIndex hlt, hvGetCellBlock_cellIndex hlt,
    hl.block_of_mem hb hpb, cellIndex_mod_block, Option.bind_some, Nat.div_add_mod']
  rfl

namespace Layout

variable {d' : Dual} {q : ℕ × ℤ}

/-- The header of a bin and a cell do not overlap. -/
theorem bin_disjoint (h : Layout d bins) (hb : b ∈ bins)
    (hq : q ∈ allCells bins) : b.start + 32 ≤ q.1 ∨ q.1 + q.2.natAbs ≤ b.start := by
  obtain ⟨b', hb', hqb⟩ := mem_allCells.1 hq
  obtain ⟨hq1, hq2, -⟩ := (h.holds b' hb').cell_bounds hqb
  rcases h.contiguous.disjoint hb hb' with rfl | hlt | hlt
  · exact .inl hq1
  · rw [BinLayout.fin] at hlt
    exact .inl (by omega)
  · exact .inr (by omega)

/-- A layout reads the headers of the bins and of the cells, and no other
byte. -/
theorem frame (h : Layout d bins) (hlist : d'.blockList = d.blockList)
    (hbin : ∀ b ∈ bins, Mem.AgreeOn d'.mem d.mem b.start (b.start + 32))
    (hcell : ∀ p ∈ allCells bins, Mem.AgreeOn d'.mem d.mem p.1 (p.1 + 4)) :
    Layout d' bins where
  contiguous := by
    rw [Dual.length, hlist]
    exact h.contiguous
  holds b hb := (h.holds b hb).frame (hbin b hb) fun p hp =>
    (Mem.readI32_congr (hcell p (mem_allCells.2 ⟨b, hb, hp⟩))).trans ((h.holds b hb).headers p hp)
  blockList := by
    rw [hlist]
    exact h.blockList
  small := by
    rw [Dual.length, hlist]
    exact h.small

/-- Writing the link of a cell keeps the layout. -/
theorem writeLink (h : Layout d bins) (hq : q ∈ allCells bins) (v : ℕ) :
    Layout { d with mem := d.mem.writeU32 (q.1 + 4) v } bins := by
  have hsize := (h.cell_bounds hq).2.1
  refine h.frame rfl (fun b hb => Mem.agreeOn_writeU32 _ _ _ ?_)
    fun p hp => Mem.agreeOn_writeU32 _ _ _ ?_
  · have := h.bin_disjoint hb hq
    omega
  · rcases h.disjoint hp hq with rfl | hlt | hlt <;> omega

end Layout

/-! ### Free lists -/

/-- The link of a free cell: the index in the first bytes after its header. -/
def nextFree (m : Mem) (c : ℕ) : ℕ := m.readU32 (c % 0x80000000 + 4)

/-- **The free lists of a storage hold exactly the cells of `free`**: the chain
of each list has, once each, the cells whose size belongs to it. -/
def FreeLists (d : Dual) (t : HStorageType) (free : Set (ℕ × ℤ)) : Prop :=
  ∀ i < 24, ∃ l, Chain hcellNil (nextFree d.mem) (d.freeDisplay i) l ∧ l.Nodup ∧
    ∀ c, c ∈ l ↔ ∃ p ∈ free, freeListIndex p.2.toNat = i ∧ c = cellIndex t p.1

/-- What the allocator needs of the hive as a whole: it can be written, its blocks
are reached through the block lists, and the dirty vector covers the stable
storage. -/
structure Ready (h : HHive) : Prop where
  readOnly : h.readOnly = false
  flat : h.flat = false
  dirty : (h.storage .stable).length ≤ h.dirtyVector.sizeOfBitMap

theorem Ready.setStorage {h : HHive} (hr : Ready h)
    (hlen : d.length = (h.storage t).length) : Ready (h.setStorage t d) := by
  refine ⟨hr.readOnly, hr.flat, ?_⟩
  cases t with
  | stable =>
    rw [HHive.setStorage_storage, hlen]
    exact hr.dirty
  | volatile => exact hr.dirty

theorem Ready.setMem {h : HHive} (hr : Ready h) (t : HStorageType) (m : Mem) :
    Ready (h.setMem t m) :=
  hr.setStorage rfl

/-- A state of the allocator in the middle of a call: the storage has a layout,
and the lists hold some of its free cells. -/
structure AllocState (t : HStorageType) (h : HHive) (bins : List BinLayout)
    (free : Set (ℕ × ℤ)) : Prop where
  ready : Ready h
  layout : Layout (h.storage t) bins
  lists : FreeLists (h.storage t) t free
  subset : free ⊆ freeCells bins

theorem AllocState.readOnly {h : HHive} (hs : AllocState t h bins free) : h.readOnly = false :=
  hs.ready.readOnly

theorem AllocState.flat {h : HHive} (hs : AllocState t h bins free) : h.flat = false :=
  hs.ready.flat

/-- A step that works on storage `t` and keeps the bytes of the cells in
`kept`. -/
structure Keeps (t : HStorageType) (kept : Set (ℕ × ℤ)) (h h' : HHive) : Prop where
  readOnly : h'.readOnly = h.readOnly
  flat : h'.flat = h.flat
  other : ∀ t', t' ≠ t → h'.storage t' = h.storage t'
  bytes : ∀ p ∈ kept, Mem.AgreeOn (h'.mem t) (h.mem t) p.1 (p.1 + p.2.natAbs)

namespace Keeps

variable {kept : Set (ℕ × ℤ)} {h h' h'' : HHive}

theorem refl (t : HStorageType) (kept : Set (ℕ × ℤ)) (h : HHive) : Keeps t kept h h :=
  ⟨rfl, rfl, fun _ _ => rfl, fun _ _ _ _ _ => rfl⟩

theorem trans (h₁ : Keeps t kept h h') (h₂ : Keeps t kept h' h'') : Keeps t kept h h'' where
  readOnly := h₂.readOnly.trans h₁.readOnly
  flat := h₂.flat.trans h₁.flat
  other t' ht := (h₂.other t' ht).trans (h₁.other t' ht)
  bytes p hp := (h₂.bytes p hp).trans (h₁.bytes p hp)

theorem mono {kept' : Set (ℕ × ℤ)} (hk : Keeps t kept h h') (hsub : kept' ⊆ kept) :
    Keeps t kept' h h' :=
  { hk with bytes := fun p hp => hk.bytes p (hsub hp) }

/-- A step on a single storage. -/
theorem setStorage (hb : ∀ p ∈ kept, Mem.AgreeOn d.mem (h.mem t) p.1 (p.1 + p.2.natAbs)) :
    Keeps t kept h (h.setStorage t d) where
  readOnly := rfl
  flat := rfl
  other t' ht := h.setStorage_storage_ne d ht
  bytes p hp := by
    rw [HHive.mem, HHive.setStorage_storage]
    exact hb p hp

end Keeps

theorem freeListIndex_lt (size : ℕ) : freeListIndex size < 24 := by
  have htable : ∀ x ∈ findFirstSet, x < 8 := by simp [findFirstSet]
  rw [freeListIndex]
  split
  · split
    · omega
    · have : findFirstSet.getD (size / 8 - 1) 0 < 8 := by
        rw [List.getD_eq_getElem?_getD]
        rcases hget : findFirstSet[size / 8 - 1]? with _ | x
        · simp
        · exact htable x (List.mem_of_getElem? hget)
      omega
  · omega

theorem hvpComputeFreeListIndex_of_le {size : ℕ} (h : 8 ≤ size) :
    hvpComputeFreeListIndex size = .ok (freeListIndex size) := by
  rw [hvpComputeFreeListIndex, assert_of h]
  rfl

end Windivs

import Windivs.Cm.CellInvariant
import Windivs.Cm.SyncRetry

/-!
# Marking a cell dirty

`HvMarkCellDirty` is called before a cell is changed, so that the next
synchronisation writes it. It marks from the block of the cell to the block of the
byte 4095 bytes on, this one left out: a count that does not look at the size of the
cell, and comes to one block, or to none when the cell starts at a block boundary.

`Windivs.markPromise_iff` says for which cells that is enough: those all of whose other
blocks happen to be dirty already.
-/

namespace Windivs

variable {a i n : ℕ} {h : HHive} {bins : List BinLayout}

/-- The cell has bytes in block `i`. -/
def Overlaps (p : ℕ × ℤ) (i : ℕ) : Prop :=
  p.1 < (i + 1) * 4096 ∧ i * 4096 < p.1 + p.2.natAbs

/-- **What is expected of `HvMarkCellDirty`**: the blocks of the cell are dirty, and a
synchronisation that succeeds has the cell on the primary file. -/
def MarkPromise (h : HHive) (p : ℕ × ℤ) : Prop :=
  ∃ h', hvMarkCellDirty h p.1 = .ok h' ∧
    (∀ i, Overlaps p i → h'.dirtyVector.rtlTestBit i = true) ∧
    ∀ (cb : Callbacks) (low high : ℕ) (io : Io HFileType) (w : World),
      hvSyncHive cb low high ⟨h', io⟩ = .ok (true, w) →
        ∀ a, p.1 ≤ a → a < p.1 + p.2.natAbs →
          (w.io.disk .primary).bytes (4096 + a) = h.mem .stable a

/-- **When it does that**: the hive is not volatile, and the blocks of the cell are dirty
already, but for the one it starts in if that is not at its boundary. -/
def MarkKept (h : HHive) (p : ℕ × ℤ) : Prop :=
  h.hiveFlags % 2 ≠ 1 ∧
    ∀ i, Overlaps p i → h.dirtyVector.rtlTestBit i = true ∨ i = p.1 / 4096 ∧ p.1 % 4096 ≠ 0

/-! ### The dirty vector after the call -/

/-- The hive after `HvMarkCellDirty` of a stable cell. -/
def marked (h : HHive) (o : ℕ) : HHive :=
  { h with
    dirtyVector := h.dirtyVector.rtlSetBits (o / 4096) (if o % 4096 = 0 then 0 else 1)
    dirtyCount := (h.dirtyCount + 1) % 0x100000000 }

section Marked

variable {o : ℕ}

theorem rtlTestBit_marked (hbuffer : h.dirtyVector.sizeOfBitMap ≤ h.dirtyVector.buffer.length * 32)
    (hi : i < h.dirtyVector.sizeOfBitMap) :
    (marked h o).dirtyVector.rtlTestBit i = true ↔
      h.dirtyVector.rtlTestBit i = true ∨ i = o / 4096 ∧ o % 4096 ≠ 0 := by
  have hset := RtlBitmap.rtlTestBit_rtlSetBits (by decide) (by decide) h.dirtyVector (o / 4096)
    (if o % 4096 = 0 then 0 else 1) (show i / 32 < _ by omega)
  rw [marked, hset, Bool.or_eq_true, decide_eq_true_eq]
  refine or_congr_right ?_
  by_cases ho : o % 4096 = 0
  · rw [if_pos ho]
    exact ⟨fun hin => by omega, fun hin => absurd ho hin.2⟩
  · rw [if_neg ho]
    exact ⟨fun hin => ⟨by omega, ho⟩, fun hin => by omega⟩

/-- The hive can be written as before. -/
theorem Syncable.marked (hs : Syncable h)
    (hbuffer : h.dirtyVector.sizeOfBitMap ≤ h.dirtyVector.buffer.length * 32)
    (ho : o / 4096 < (h.storage .stable).length) : Syncable (marked h o) where
  readOnly := hs.readOnly
  length := hs.length
  small := hs.small
  signature := hs.signature
  format := hs.format
  major := hs.major
  rootCell := hs.rootCell
  blocks := hs.blocks
  cover := by simpa [Windivs.marked] using hs.cover
  max := by simpa [Windivs.marked] using hs.max
  stray j hj hlt hbit := by
    have hsize : (Windivs.marked h o).dirtyVector.sizeOfBitMap = h.dirtyVector.sizeOfBitMap := by
      simp [Windivs.marked]
    rw [hsize] at hlt
    have hj' : (h.storage .stable).length ≤ j := hj
    rcases (rtlTestBit_marked hbuffer hlt).1 hbit with hold | ⟨rfl, -⟩
    · refine (hs.stray j hj hlt hold).imp id fun hlast => ?_
      exact (rtlTestBit_marked hbuffer (by omega)).2 (.inl hlast)
    · omega

end Marked

/-- A set bit is found. -/
theorem rtlFindSetBits_ne_maxIndex {v : RtlBitmap 32} (hmax : v.sizeOfBitMap ≤ RtlBitmap.maxIndex)
    (hi : i < v.sizeOfBitMap) (hbit : v.rtlTestBit i = true) :
    v.rtlFindSetBits 1 0 ≠ RtlBitmap.maxIndex := by
  rcases v.rtlFindSetBits_one (by decide) hmax (show 0 < v.sizeOfBitMap by omega) with
    ⟨-, hlt, -⟩ | ⟨-, hclear⟩
  · omega
  · rw [hclear i (Nat.zero_le i) hi] at hbit
    cases hbit

/-! ### The cell on the primary file -/

/-- In a layout every block has its memory, at its offset. -/
theorem Layout.block_of_lt {d : Dual} (hl : Layout d bins)
    (hi : i < d.length) : ∃ bin, d.blockList[i]? = some ⟨some (i * 4096), bin⟩ := by
  obtain ⟨b, hb, hlo, hhi⟩ := hl.contiguous.exists_mem (a := i * 4096) (Nat.zero_le _) (by omega)
  have haligned := (hl.holds b hb).aligned
  rw [BinLayout.fin] at hhi
  have hentry := hl.blockList b hb (i - b.start / 4096) (by omega)
  rw [show b.start / 4096 + (i - b.start / 4096) = i by omega,
    show b.start + (i - b.start / 4096) * 4096 = i * 4096 by omega] at hentry
  exact ⟨_, hentry⟩

theorem Layout.blockAddr (hl : Layout (h.storage .stable) bins)
    (hi : i < (h.storage .stable).length) : blockAddr h i = i * 4096 := by
  obtain ⟨bin, hentry⟩ := hl.block_of_lt hi
  rw [Windivs.blockAddr, blockAddress, hentry]
  rfl

section Cell

variable {p : ℕ × ℤ}

/-- The blocks of a cell are blocks of the storage. -/
theorem Layout.lt_of_overlaps (hl : Layout (h.storage .stable) bins) (hp : p ∈ liveCells bins)
    (hi : Overlaps p i) : i < (h.storage .stable).length := by
  have hbounds := (hl.cell_bounds hp.1).1
  have hlt := hi.2
  omega

/-- A dirty cell is written. -/
theorem onPrimary_of_dirty {cb : Callbacks} {low high : ℕ} {io : Io HFileType} {w : World}
    (hs : Syncable h) (hsig : h.signature = 0xbee0bee0) (hvol : h.hiveFlags % 2 ≠ 1)
    (hl : Layout (h.storage .stable) bins) (hp : p ∈ liveCells bins)
    (hdirty : ∀ i, Overlaps p i → h.dirtyVector.rtlTestBit i = true)
    (hok : hvSyncHive cb low high ⟨h, io⟩ = .ok (true, w)) {a : ℕ} (hlo : p.1 ≤ a)
    (hhi : a < p.1 + p.2.natAbs) : (w.io.disk .primary).bytes (4096 + a) = h.mem .stable a := by
  have hover : Overlaps p (a / 4096) := ⟨by omega, by omega⟩
  have hlt := hl.lt_of_overlaps hp hover
  have hfound := rtlFindSetBits_ne_maxIndex hs.max (hlt.trans_le hs.cover) (hdirty _ hover)
  obtain ⟨hwritten, -⟩ := hvSyncHive_effect hs hsig hvol hfound hok
  have hbyte := hwritten (a / 4096) (mem_dirtyBlocks.2 ⟨hlt, hdirty _ hover⟩) (a % 4096)
    (Nat.mod_lt a (by decide))
  rw [hl.blockAddr hlt, Nat.div_add_mod'] at hbyte
  rw [← hbyte]
  congr 1
  omega

/-- The synchronisation of a volatile hive succeeds and writes nothing, so the primary
file may hold anything. -/
theorem not_onPrimary_of_volatile (hs : Syncable h) (hsig : h.signature = 0xbee0bee0)
    (hvol : h.hiveFlags % 2 = 1) (a : ℕ) (v : UInt8) :
    ∃ (cb : Callbacks) (io : Io HFileType) (w : World),
      hvSyncHive cb 0 0 ⟨h, io⟩ = .ok (true, w) ∧ (w.io.disk .primary).bytes a ≠ v := by
  refine ⟨⟨true, fun _ => none⟩, ⟨fun _ => ⟨fun _ => v + 1, 0⟩, [], 0⟩,
    ⟨h, ⟨fun _ => ⟨fun _ => v + 1, 0⟩, [], 0⟩⟩, ?_, ?_⟩
  · simp only [hvSyncHive, assert_of hs.readOnly, assert_of hsig, if_pos hvol]
    rfl
  · simp [Io.disk]

/-- **`HvMarkCellDirty` covers a cell** if and only if its blocks are dirty already, but
for the one it starts in if that is not at its boundary; and a synchronisation then
writes the cell unless the hive is volatile. -/
theorem markPromise_iff (hs : Syncable h) (hsig : h.signature = 0xbee0bee0)
    (hbuffer : h.dirtyVector.sizeOfBitMap ≤ h.dirtyVector.buffer.length * 32)
    (hl : Layout (h.storage .stable) bins) (hp : p ∈ liveCells bins) :
    MarkPromise h p ↔ MarkKept h p := by
  obtain ⟨hend, height, -⟩ := hl.cell_bounds hp.1
  have hsmall := hl.small
  have hcover := hs.cover
  have hblock : p.1 / 4096 < (h.storage .stable).length := by omega
  have hmark : hvMarkCellDirty h p.1 = .ok (marked h p.1) :=
    hvMarkCellDirty_stable hs.readOnly (by omega) (by omega)
  have hs' := hs.marked hbuffer hblock
  have hbits : ∀ i, Overlaps p i → ((marked h p.1).dirtyVector.rtlTestBit i = true ↔
      h.dirtyVector.rtlTestBit i = true ∨ i = p.1 / 4096 ∧ p.1 % 4096 ≠ 0) := fun i hi =>
    rtlTestBit_marked hbuffer ((hl.lt_of_overlaps hp hi).trans_le hcover)
  constructor
  · rintro ⟨h', hmark', hdirty, hsync⟩
    obtain rfl : marked h p.1 = h' := Except.ok.inj (hmark.symm.trans hmark')
    refine ⟨fun hvol => ?_, fun i hi => (hbits i hi).1 (hdirty i hi)⟩
    obtain ⟨cb, io, w, hok, hne⟩ :=
      not_onPrimary_of_volatile hs' hsig hvol (4096 + p.1) (h.mem .stable p.1)
    exact hne (hsync cb 0 0 io w hok p.1 le_rfl (by omega))
  · rintro ⟨hvol, hkept⟩
    have hdirty : ∀ i, Overlaps p i → (marked h p.1).dirtyVector.rtlTestBit i = true := fun i hi =>
      (hbits i hi).2 (hkept i hi)
    exact ⟨_, hmark, hdirty, fun cb low high io w hok a hlo hhi =>
      onPrimary_of_dirty hs' hsig hvol hl hp hdirty hok hlo hhi⟩

end Cell

/-! ### Hives of a single cell -/

/-- A hive of one cell that fills its blocks, none of them dirty. -/
def filledHive (n : ℕ) : HHive :=
  { hiveOf (filledDual (n * 4096)) emptyDual with baseBlock := headerOf (n * 4096) }

/-- Its layout. -/
def filledBins (n : ℕ) : List BinLayout :=
  (newBin [] 0 (n * 4096)).fill [-(n * 4096 - 32 : ℕ)]

section Filled

theorem layout_filledHive (hpos : 0 < n) (hlt : n < 0x80000) :
    Layout ((filledHive n).storage .stable) (filledBins n) :=
  layout_filledDual (Dvd.intro_left n rfl) (by omega) (by omega)

theorem length_filledHive : ((filledHive n).storage .stable).length = n := by
  have hdiv := length_filledDual (n * 4096)
  rwa [Nat.mul_div_cancel n (by decide)] at hdiv

theorem sizeOfBitMap_filledHive : (filledHive n).dirtyVector.sizeOfBitMap = (n + 31) / 32 * 32 := by
  have hlen : (filledDual (n * 4096)).length = n := length_filledHive
  simp only [filledHive, hiveOf, hlen]

theorem buffer_filledHive :
    (filledHive n).dirtyVector.sizeOfBitMap ≤ (filledHive n).dirtyVector.buffer.length * 32 := by
  simp only [filledHive, hiveOf, List.length_replicate, le_refl]

theorem rtlTestBit_filledHive (j : ℕ) : (filledHive n).dirtyVector.rtlTestBit j = false := by
  have hword : (filledHive n).dirtyVector.word (j / 32) = 0 := by
    simp only [filledHive, hiveOf, RtlBitmap.word, List.getD_eq_getElem?_getD,
      List.getElem?_replicate]
    split <;> rfl
  rw [RtlBitmap.rtlTestBit, hword]
  simp

theorem readU32_headerOf {length a : ℕ} (ha : a + 4 ≤ 40) :
    (headerOf length).readU32 a = (headerOf 0).readU32 a := by
  rw [headerOf, headerOf, Mem.readU32_writeU32_ne _ length (by omega),
    Mem.readU32_writeU32_ne _ 0 (by omega)]

theorem syncable_filledHive (hpos : 0 < n) (hlt : n < 0x80000) : Syncable (filledHive n) where
  readOnly := rfl
  length := by
    rw [length_filledHive, BaseBlock.length, filledHive, headerOf, Mem.readU32_writeU32]
    exact Nat.mod_eq_of_lt (by omega)
  small := by
    rw [length_filledHive]
    omega
  signature := (readU32_headerOf (a := 0) (by omega)).trans (by with_unfolding_all decide)
  format := (readU32_headerOf (a := 32) (by omega)).trans (by with_unfolding_all decide)
  major := (readU32_headerOf (a := 20) (by omega)).trans (by with_unfolding_all decide)
  rootCell := by
    rw [BaseBlock.rootCell, filledHive, readU32_headerOf (by omega)]
    with_unfolding_all decide
  blocks i hi := by
    obtain ⟨bin, hentry⟩ := (layout_filledHive hpos hlt).block_of_lt hi
    exact ⟨_, by rw [blockAddress, hentry]; rfl⟩
  cover := by
    rw [length_filledHive, sizeOfBitMap_filledHive]
    omega
  max := by
    rw [sizeOfBitMap_filledHive, RtlBitmap.maxIndex]
    omega
  stray j _ _ hbit := by
    rw [rtlTestBit_filledHive] at hbit
    cases hbit

end Filled

theorem mem_liveCells_filledBins (hpos : 0 < n) :
    (32, -((n * 4096 - 32 : ℕ) : ℤ)) ∈ liveCells (filledBins n) := by
  refine ⟨?_, by simp only; omega⟩
  simp [filledBins, Hole.fill, newBin, allCells, BinLayout.cells, piecesFrom]

/-- A cell inside one block is covered. -/
theorem markPromise_oneBlock :
    Layout ((filledHive 1).storage .stable) (filledBins 1) ∧
      (32, -4064) ∈ liveCells (filledBins 1) ∧ MarkPromise (filledHive 1) (32, -4064) := by
  have hl := layout_filledHive (n := 1) (by decide) (by decide)
  have hp := mem_liveCells_filledBins (n := 1) (by decide)
  refine ⟨hl, hp, (markPromise_iff (syncable_filledHive (by decide) (by decide)) rfl
    buffer_filledHive hl hp).2 ⟨by decide, fun i hi => .inr ⟨?_, by decide⟩⟩⟩
  obtain ⟨-, hlt⟩ := hi
  omega

/-- **A cell of two blocks is not.** The second block stays clean, so the end of the
cell does not reach the disk. -/
theorem secondBlock_not_marked :
    Syncable (filledHive 2) ∧ Layout ((filledHive 2).storage .stable) (filledBins 2) ∧
      (32, -8160) ∈ liveCells (filledBins 2) ∧ Overlaps (32, -8160) 1 ∧
      ∃ h', hvMarkCellDirty (filledHive 2) 32 = .ok h' ∧
        h'.dirtyVector.rtlTestBit 0 = true ∧ h'.dirtyVector.rtlTestBit 1 = false := by
  refine ⟨syncable_filledHive (by decide) (by decide), layout_filledHive (by decide) (by decide),
    mem_liveCells_filledBins (by decide), ⟨by decide, by decide⟩, marked (filledHive 2) 32, ?_, by decide, by decide⟩
  exact hvMarkCellDirty_stable rfl (by decide) (by decide)

end Windivs

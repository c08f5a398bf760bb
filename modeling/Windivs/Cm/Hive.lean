import Windivs.Lib.Memory
import Windivs.Rtl.Bitmap

/-!
# Hives

The data of `sdk/lib/cmlib/hivedata.h` that the registry library works on, and
the accessors of `hivecell.c` that everything else goes through.

A hive has two storages, stable and volatile. A storage is a run of 4096-byte
blocks grouped into bins; a bin starts with a 32-byte header and is filled by
cells, each with a signed size in its first four bytes – negative for a cell in
use, positive for a free one. A cell is named by a `HCELL_INDEX`: the storage in
the top bit, the block in the next nineteen, the offset in the block in the last
twelve.

Each storage has its own byte memory, and the address of a block in it is its
offset in the storage: the allocator gives every bin fresh memory and never
compares pointers of different bins, so nothing depends on where the bins lie. A
pointer to a cell is a storage and an address (`Windivs.CellPtr`); it is kept
apart from the index of the cell because the source computes the one and the
other in different ways. Arithmetic on indices is that of `ULONG`, modulo
`2 ^ 32`.
-/

namespace Windivs

/-! ### Cell indices -/

/-- `HSTORAGE_TYPE`. -/
inductive HStorageType where
  /-- The part of the hive that is written to disk. -/
  | stable
  /-- The part that is gone at the next boot. -/
  | volatile
  deriving DecidableEq, Repr

/-- `HCELL_NIL`. -/
def hcellNil : ℕ := 0xFFFFFFFF

/-- The value of a storage type, as the source shifts it into an index. -/
def HStorageType.toNat : HStorageType → ℕ
  | .stable => 0
  | .volatile => 1

/-- `HvGetCellType`: the top bit. -/
def hvGetCellType (c : ℕ) : HStorageType :=
  if c / 0x80000000 % 2 = 0 then .stable else .volatile

/-- `HvGetCellBlock`: the nineteen bits below it. -/
def hvGetCellBlock (c : ℕ) : ℕ :=
  c / 4096 % 0x80000

/-- The index of the cell at offset `o` of a storage. -/
def cellIndex (t : HStorageType) (o : ℕ) : ℕ :=
  o + t.toNat * 0x80000000

section CellIndex

variable {t : HStorageType} {o : ℕ}

theorem hvGetCellType_cellIndex (ho : o < 0x80000000) : hvGetCellType (cellIndex t o) = t := by
  cases t
  · rw [hvGetCellType, cellIndex, HStorageType.toNat, if_pos (by omega)]
  · rw [hvGetCellType, cellIndex, HStorageType.toNat, if_neg (by omega)]

theorem hvGetCellBlock_cellIndex (ho : o < 0x80000000) :
    hvGetCellBlock (cellIndex t o) = o / 4096 := by
  cases t <;> rw [hvGetCellBlock, cellIndex, HStorageType.toNat] <;> omega

theorem cellIndex_mod_block : cellIndex t o % 4096 = o % 4096 := by
  cases t <;> rw [cellIndex, HStorageType.toNat] <;> omega

theorem cellIndex_mod_type (ho : o < 0x80000000) : cellIndex t o % 0x80000000 = o := by
  cases t <;> rw [cellIndex, HStorageType.toNat] <;> omega

theorem cellIndex_lt (ho : o < 0x80000000) : cellIndex t o < 0x100000000 := by
  cases t <;> rw [cellIndex, HStorageType.toNat] <;> omega

/-- No cell that starts before the last four bytes of a storage has the nil
index. -/
theorem cellIndex_ne_nil (ho : o + 4 < 0x80000000) : cellIndex t o ≠ hcellNil := by
  cases t <;> rw [cellIndex, HStorageType.toNat, hcellNil] <;> omega

theorem cellIndex_inj {o' : ℕ} : cellIndex t o = cellIndex t o' ↔ o = o' := by
  rw [cellIndex, cellIndex]
  omega

end CellIndex

/-! ### Storages and hives -/

/-- `HMAP_ENTRY`: the memory of a block and of the bin it belongs to. `none` is
`NULL`. -/
structure HMapEntry where
  blockAddress : Option ℕ
  binAddress : Option ℕ
  deriving DecidableEq

/-- `DUAL`: one storage. -/
structure Dual where
  /-- `BlockList`; its length is the field `Length`. -/
  blockList : List HMapEntry
  /-- `FreeDisplay[24]`: the heads of the free lists. -/
  freeDisplay : ℕ → ℕ
  /-- The memory the block addresses point into. -/
  mem : Mem

/-- `Storage[t].Length`, in blocks. -/
def Dual.length (d : Dual) : ℕ := d.blockList.length

/-- `HHIVE`. -/
structure HHive where
  signature : ℕ
  /-- `BaseBlock`, 4096 bytes. -/
  baseBlock : Mem
  dirtyVector : RtlBitmap 32
  dirtyCount : ℕ
  flat : Bool
  readOnly : Bool
  log : Bool
  alternate : Bool
  hiveFlags : ℕ
  storage : HStorageType → Dual

/-- A pointer into the memory of a storage. -/
structure CellPtr where
  storage : HStorageType
  addr : ℕ

namespace CellPtr

/-- Pointer arithmetic, in bytes. -/
def add (p : CellPtr) (n : ℕ) : CellPtr := { p with addr := p.addr + n }

@[simp] theorem storage_add (p : CellPtr) (n : ℕ) : (p.add n).storage = p.storage := rfl
@[simp] theorem addr_add (p : CellPtr) (n : ℕ) : (p.add n).addr = p.addr + n := rfl

end CellPtr

namespace HHive

/-- The memory of a storage. -/
def mem (h : HHive) (t : HStorageType) : Mem := (h.storage t).mem

/-- Replace a storage. -/
def setStorage (h : HHive) (t : HStorageType) (d : Dual) : HHive :=
  { h with storage := Function.update h.storage t d }

/-- Replace the memory of a storage. -/
def setMem (h : HHive) (t : HStorageType) (m : Mem) : HHive :=
  h.setStorage t { h.storage t with mem := m }

/-- `FreeDisplay[i] = c`. -/
def setFreeDisplay (h : HHive) (t : HStorageType) (i : ℕ) (c : ℕ) : HHive :=
  h.setStorage t
    { h.storage t with freeDisplay := Function.update (h.storage t).freeDisplay i c }

def readU32 (h : HHive) (p : CellPtr) : ℕ := (h.mem p.storage).readU32 p.addr

def readI32 (h : HHive) (p : CellPtr) : ℤ := (h.mem p.storage).readI32 p.addr

def writeU32 (h : HHive) (p : CellPtr) (v : ℕ) : HHive :=
  h.setMem p.storage ((h.mem p.storage).writeU32 p.addr v)

def writeI32 (h : HHive) (p : CellPtr) (z : ℤ) : HHive :=
  h.setMem p.storage ((h.mem p.storage).writeI32 p.addr z)

section

variable (h : HHive)

section

variable (t : HStorageType)

@[simp] theorem setStorage_storage (d : Dual) : (h.setStorage t d).storage t = d :=
  Function.update_self ..

theorem setStorage_storage_ne {t t' : HStorageType} (d : Dual) (ht : t' ≠ t) :
    (h.setStorage t d).storage t' = h.storage t' :=
  Function.update_of_ne ht ..

@[simp] theorem setStorage_setStorage (d d' : Dual) :
    (h.setStorage t d).setStorage t d' = h.setStorage t d' := by
  simp [setStorage]

@[simp] theorem setStorage_self : h.setStorage t (h.storage t) = h := by
  simp [setStorage]

@[simp] theorem mem_setMem (m : Mem) : (h.setMem t m).mem t = m := by
  simp [setMem, mem]

@[simp] theorem setMem_setMem (m m' : Mem) : (h.setMem t m).setMem t m' = h.setMem t m' := by
  simp [setMem]

theorem storage_setMem_ne {t t' : HStorageType} (m : Mem) (ht : t' ≠ t) :
    (h.setMem t m).storage t' = h.storage t' :=
  h.setStorage_storage_ne _ ht

theorem writeI32_mk (a : ℕ) (z : ℤ) :
    h.writeI32 ⟨t, a⟩ z = h.setMem t ((h.mem t).writeI32 a z) := rfl

theorem readI32_mk (a : ℕ) : h.readI32 ⟨t, a⟩ = (h.mem t).readI32 a := rfl

end

end

end HHive

/-! ### Access to cells -/

/-- `HvpGetCellHeader`: from the index of a cell to its header in memory. -/
def hvpGetCellHeader (h : HHive) (c : ℕ) : Run CellPtr := do
  assert (c ≠ hcellNil)
  if h.flat then
    assert (hvGetCellType c = .stable)
    return ⟨.stable, c⟩
  else
    let t := hvGetCellType c
    match ((h.storage t).blockList[hvGetCellBlock c]?).bind (·.blockAddress) with
    | some block => return ⟨t, block + c % 4096⟩
    | none => throw .assertion

/-- `HvpGetCellData`, which `HvGetCell` calls: the bytes after the header. -/
def hvGetCell (h : HHive) (c : ℕ) : Run CellPtr :=
  return (← hvpGetCellHeader h c).add 4

/-- The number of blocks that `HvMarkCellDirty` marks: the difference of the block
numbers of the cell and of the last byte of a block from there, as a `ULONG`. -/
def dirtyBlockCount (c : ℕ) : ℕ :=
  (hvGetCellBlock ((c + 4096 - 1) % 0x100000000) + 0x100000000 - hvGetCellBlock c) % 0x100000000

/-- `HvMarkCellDirty`. -/
def hvMarkCellDirty (h : HHive) (c : ℕ) : Run HHive := do
  assert (h.readOnly = false)
  if hvGetCellType c ≠ .stable then return h
  else
    let vector ← h.dirtyVector.callRtlSetBits (hvGetCellBlock c) (dirtyBlockCount c)
    return { h with dirtyVector := vector, dirtyCount := (h.dirtyCount + 1) % 0x100000000 }

/-- One block is marked, or none for a cell that starts at a block boundary. -/
theorem dirtyBlockCount_eq {o : ℕ} (ho : o + 4096 ≤ 0x80000000) :
    dirtyBlockCount o = if o % 4096 = 0 then 0 else 1 := by
  rw [dirtyBlockCount, hvGetCellBlock, hvGetCellBlock]
  by_cases h : o % 4096 = 0
  · rw [if_pos h]
    omega
  · rw [if_neg h]
    omega

/-- `HvMarkCellDirty` of a stable cell marks at most the block the cell starts in. -/
theorem hvMarkCellDirty_stable {h : HHive} (hro : h.readOnly = false) {o : ℕ}
    (ho : o + 4096 ≤ 0x80000000) (hcover : o / 4096 < h.dirtyVector.sizeOfBitMap) :
    hvMarkCellDirty h o = .ok { h with
      dirtyVector := h.dirtyVector.rtlSetBits (o / 4096) (if o % 4096 = 0 then 0 else 1)
      dirtyCount := (h.dirtyCount + 1) % 0x100000000 } := by
  have htype : hvGetCellType o = .stable := by
    rw [hvGetCellType, if_pos (by omega)]
  have hblock : hvGetCellBlock o = o / 4096 := by
    rw [hvGetCellBlock]
    omega
  have hone : (if o % 4096 = 0 then 0 else 1) ≤ 1 := by split <;> simp
  rw [hvMarkCellDirty, assert_of hro, htype, hblock, dirtyBlockCount_eq ho,
    RtlBitmap.callRtlSetBits_of_le (by omega)]
  rfl

end Windivs

import Windivs.Cm.Hive

/-!
# The cell allocator

The allocator of `hivecell.c` and `hivebin.c`. Free cells are kept in twenty-four
lists by size, and the lists are threaded through the free cells themselves: the
first four bytes after the header of a free cell are the index of the next one.
A pointer to such a link – into `FreeDisplay`, or into a free cell – is a
`Windivs.FreeLink`, and the two routines that take a cell out of a list walk the
links and overwrite the one they stop at.

The callback `Allocate` may fail; `Windivs.Allocations` says which of the three
allocations that a new bin needs succeed. The third one is not checked in the
source: growing the dirty bitmap writes through the pointer at once.
-/

namespace Windivs

/-- `ROUND_UP`, with the sum a `ULONG`. -/
def roundUp (n a : ℕ) : ℕ := (n + a - 1) % 0x100000000 / a * a

/-! ### Free lists -/

/-- The table `FindFirstSet` of `HvpComputeFreeListIndex`. -/
def findFirstSet : List ℕ :=
  [0, 0, 1, 1, 2, 2, 2, 2, 3, 3, 3, 3, 3, 3, 3, 3,
   4, 4, 4, 4, 4, 4, 4, 4, 4, 4, 4, 4, 4, 4, 4, 4,
   5, 5, 5, 5, 5, 5, 5, 5, 5, 5, 5, 5, 5, 5, 5, 5,
   5, 5, 5, 5, 5, 5, 5, 5, 5, 5, 5, 5, 5, 5, 5, 5,
   6, 6, 6, 6, 6, 6, 6, 6, 6, 6, 6, 6, 6, 6, 6, 6,
   6, 6, 6, 6, 6, 6, 6, 6, 6, 6, 6, 6, 6, 6, 6, 6,
   6, 6, 6, 6, 6, 6, 6, 6, 6, 6, 6, 6, 6, 6, 6, 6,
   6, 6, 6, 6, 6, 6, 6, 6, 6, 6, 6, 6, 6, 6, 6, 6]

/-- The list a size belongs to, for the sizes that `HvpComputeFreeListIndex`
accepts. -/
def freeListIndex (size : ℕ) : ℕ :=
  let index := size / 8 - 1
  if 16 ≤ index then
    if 127 < index then 23 else findFirstSet.getD index 0 + 16
  else index

/-- `HvpComputeFreeListIndex`. -/
def hvpComputeFreeListIndex (size : ℕ) : Run ℕ := do
  assert (8 ≤ size)
  return freeListIndex size

/-- A `PHCELL_INDEX` of the free list code: the head of a list, or the link in a
free cell. -/
inductive FreeLink where
  /-- `&FreeDisplay[i]` of a storage. -/
  | display (t : HStorageType) (i : ℕ)
  /-- The first data bytes of a free cell. -/
  | cell (p : CellPtr)

namespace HHive

/-- The index a link holds. -/
def readLink (h : HHive) : FreeLink → ℕ
  | .display t i => (h.storage t).freeDisplay i
  | .cell p => h.readU32 p

/-- Overwrite a link. -/
def writeLink (h : HHive) (l : FreeLink) (c : ℕ) : HHive :=
  match l with
  | .display t i => h.setFreeDisplay t i c
  | .cell p => h.writeU32 p c

/-- More turns than a walk over the cells of a hive can take: no two cells start
within the same eight bytes. -/
def walkBudget (h : HHive) : ℕ :=
  ((h.storage .stable).length + (h.storage .volatile).length) * 512 + 2

end HHive

/-- `HvpAddFree`: push a free cell on the list of its size. The list is that of
the storage named by the index. -/
def hvpAddFree (h : HHive) (freeBlock : CellPtr) (freeIndex : ℕ) : Run HHive := do
  let t := hvGetCellType freeIndex
  let i ← hvpComputeFreeListIndex (h.readU32 freeBlock)
  let h := h.writeU32 (freeBlock.add 4) ((h.storage t).freeDisplay i)
  return h.setFreeDisplay t i freeIndex

/-- One turn of the walk of `HvpRemoveFree`. The end of the list is the
`ASSERT(FALSE)` of the source. -/
def removeFreeTurn (h : HHive) (c : ℕ) (link : FreeLink) : Turn FreeLink (Run HHive) :=
  let offset := h.readLink link
  if offset = hcellNil then .leave (.error .assertion)
  else
    match hvGetCell h offset with
    | .error e => .leave (.error e)
    | .ok data =>
      if offset = c then .leave (.ok (h.writeLink link (h.readU32 data)))
      else .again (.cell data)

/-- `HvpRemoveFree`: unlink a free cell from the list of its size. -/
def hvpRemoveFree (h : HHive) (cellBlock : CellPtr) (c : ℕ) : Run HHive := do
  assert (h.readOnly = false)
  let i ← hvpComputeFreeListIndex (h.readU32 cellBlock)
  runLoop (removeFreeTurn h c) h.walkBudget (.display (hvGetCellType c) i)

/-- One turn of the inner loop of `HvpFindFree`: take the first cell of a list
that is large enough. -/
def findFreeTurn (h : HHive) (size : ℕ) (link : FreeLink) :
    Turn FreeLink (Run (Option (ℕ × HHive))) :=
  let offset := h.readLink link
  if offset = hcellNil then .leave (.ok none)
  else
    match hvpGetCellHeader h offset with
    | .error e => .leave (.error e)
    | .ok cell =>
      if size ≤ h.readU32 cell then
        .leave (.ok (some (offset, h.writeLink link (h.readU32 (cell.add 4)))))
      else .again (.cell (cell.add 4))

/-- The outer loop of `HvpFindFree`, over the lists still to search. -/
def findFreeIn (h : HHive) (size : ℕ) (t : HStorageType) : List ℕ → Run (ℕ × HHive)
  | [] => return (hcellNil, h)
  | i :: is => do
    match ← runLoop (findFreeTurn h size) h.walkBudget (.display t i) with
    | some found => return found
    | none => findFreeIn h size t is

/-- `HvpFindFree`: search from the list of the size on, and unlink what is
found. -/
def hvpFindFree (h : HHive) (size : ℕ) (t : HStorageType) : Run (ℕ × HHive) := do
  let i ← hvpComputeFreeListIndex size
  findFreeIn h size t (List.range' i (24 - i))

/-! ### Bins -/

/-- Which of the allocations of a new bin succeed. -/
structure Allocations where
  bin : Bool
  blockList : Bool
  bitmap : Bool

/-- A larger dirty vector with the bits of the old one. -/
def copiedVector (old : RtlBitmap 32) (bitmapSize : ℕ) : RtlBitmap 32 where
  sizeOfBitMap := bitmapSize * 8
  buffer := (List.range (bitmapSize / 4)).map fun k =>
    if k < old.sizeOfBitMap / 32 then old.word k else 0

/-- The last part of `HvpAddBin`, for the stable storage: grow the dirty bitmap
if it is too small, mark the new blocks, and add them to the length in the base
block. -/
def growDirtyVector (h : HHive) (firstBlock blockCount : ℕ) (alloc : Allocations) :
    Run HHive := do
  let bitmapSize := roundUp (h.storage .stable).length 32 / 8
  let vector ←
    if h.dirtyVector.sizeOfBitMap / 8 < bitmapSize then
      if alloc.bitmap then pure (copiedVector h.dirtyVector bitmapSize)
      else throw .accessViolation
    else pure h.dirtyVector
  let vector ← vector.callRtlSetBits firstBlock blockCount
  return { h with
    dirtyVector := vector
    baseBlock := h.baseBlock.writeU32 40 (h.baseBlock.readU32 40 + blockCount * 4096) }

/-- The memory with a new bin at offset `bin`: zeroed, with its header and one
free cell. -/
def formatBin (m : Mem) (bin binSize : ℕ) : Mem :=
  let m := m.fill bin binSize 0
  let m := m.writeU32 bin 0x6e696268
  let m := m.writeU32 (bin + 4) bin
  let m := m.writeU32 (bin + 8) binSize
  m.writeI32 (bin + 32) (binSize - 32 : ℕ)

/-- The storage with a new bin. Its memory lies after the blocks there are. -/
def addedBin (d : Dual) (binSize : ℕ) : Dual :=
  let bin := d.length * 4096
  { d with
    blockList := d.blockList ++
      (List.range (binSize / 4096)).map fun i => ⟨some (bin + i * 4096), some bin⟩
    mem := formatBin d.mem bin binSize }

/-- The size of a bin with room for a cell of the given size. -/
def binSizeFor (size : ℕ) : ℕ := roundUp ((size + 32) % 0x100000000) 4096

/-- `HvpAddBin`: extend a storage by a bin with room for a cell of the given
size. The result is the address of the bin, `none` when the bin or the new block
list cannot be allocated. -/
def hvpAddBin (h : HHive) (size : ℕ) (t : HStorageType) (alloc : Allocations) :
    Run (Option ℕ × HHive) := do
  let binSize := binSizeFor size
  let bin := (h.storage t).length * 4096
  if !alloc.bin || !alloc.blockList then return (none, h)
  else
    let h' := h.setStorage t (addedBin (h.storage t) binSize)
    match t with
    | .stable =>
      return (some bin, ← growDirtyVector h' (bin / 4096) (binSize / 4096) alloc)
    | .volatile => return (some bin, h')

/-! ### Allocation -/

/-- `if (Storage == Stable) HvMarkCellDirty(...)`. -/
def markIfStable (h : HHive) (t : HStorageType) (c : ℕ) : Run HHive :=
  if t = .stable then hvMarkCellDirty h c else return h

/-- The split of `HvAllocateCell`: what is left of the free cell after `size`
bytes, if it is more than sixteen bytes, is a free cell of its own. -/
def splitFreeCell (h : HHive) (freeCell : CellPtr) (size : ℕ) (t : HStorageType)
    (freeCellOffset : ℕ) : Run HHive := do
  if size + 16 < h.readU32 freeCell then
    let newCell := freeCell.add size
    let newIndex := (freeCellOffset + size) % 0x100000000
    let h := h.writeI32 newCell (h.readI32 freeCell - size)
    let h := h.writeI32 freeCell size
    let h ← hvpAddFree h newCell newIndex
    markIfStable h t newIndex
  else return h

/-- `HvAllocateCell`, once the free cell is found. -/
def takeFreeCell (h : HHive) (size : ℕ) (t : HStorageType) (freeCellOffset : ℕ) :
    Run (ℕ × HHive) := do
  let freeCell ← hvpGetCellHeader h freeCellOffset
  let h ← splitFreeCell h freeCell size t freeCellOffset
  let h ← markIfStable h t freeCellOffset
  let h := h.writeI32 freeCell (-h.readI32 freeCell)
  let h := h.setMem freeCell.storage
    ((h.mem freeCell.storage).fill (freeCell.addr + 4) (size - 4) 0)
  return (freeCellOffset, h)

/-- `HvAllocateCell`, with the bin that `HvpAddBin` has returned: its cell is taken. -/
def takeFromBin (size : ℕ) (t : HStorageType) : Option ℕ × HHive → Run (ℕ × HHive)
  | (none, h) => return (hcellNil, h)
  | (some bin, h) =>
    let freeCellOffset := (h.readU32 ⟨t, bin + 4⟩ + 32) % 0x100000000 ||| t.toNat * 0x80000000
    takeFreeCell h size t freeCellOffset

/-- The type of `HvpAddBin`. -/
abbrev AddBin := HHive → ℕ → HStorageType → Allocations → Run (Option ℕ × HHive)

/-- The size of the cell for a request: header included, rounded to sixteen
bytes. -/
def cellSizeFor (size : ℕ) : ℕ := roundUp ((size + 4) % 0x100000000) 16

/-- `HvAllocateCell`, with a routine in the place of `HvpAddBin`. -/
def hvAllocateCellWith (addBin : AddBin) (h : HHive) (size : ℕ) (t : HStorageType)
    (alloc : Allocations) : Run (ℕ × HHive) := do
  assert (h.readOnly = false)
  let (freeCellOffset, h) ← hvpFindFree h (cellSizeFor size) t
  if freeCellOffset = hcellNil then
    addBin h (cellSizeFor size) t alloc >>= takeFromBin (cellSizeFor size) t
  else takeFreeCell h (cellSizeFor size) t freeCellOffset

/-- `HvAllocateCell`. -/
def hvAllocateCell : HHive → ℕ → HStorageType → Allocations → Run (ℕ × HHive) :=
  hvAllocateCellWith hvpAddBin

/-! ### Release -/

/-- The index of a cell of a bin, from its address, with the type bit of `c`. -/
def neighborIndex (h : HHive) (bin : CellPtr) (neighbor : CellPtr) (c : ℕ) : ℕ :=
  (neighbor.addr - bin.addr + h.readU32 (bin.add 4)) % 0x100000000 ||| c / 0x80000000 * 0x80000000

/-- `HvFreeCell`, first part: merge the cell with a free cell after it. -/
def mergeNext (h : HHive) (free bin : CellPtr) (c : ℕ) : Run HHive := do
  if (c % 0x80000000 + h.readU32 free) % 0x100000000 <
      (h.readU32 (bin.add 4) + h.readU32 (bin.add 8)) % 0x100000000 then
    let neighbor := free.add (h.readI32 free).toNat
    if 0 < h.readI32 neighbor then
      let h ← hvpRemoveFree h neighbor (neighborIndex h bin neighbor c)
      return h.writeI32 free (h.readI32 free + h.readI32 neighbor)
    else return h
  else return h

/-- One turn of the walk of `HvFreeCell` over the cells of the bin, up to the one
that is freed: does a free cell end where it starts? -/
def previousTurn (h : HHive) (free : CellPtr) (n : ℕ) : Turn ℕ (Run (Option CellPtr)) :=
  if n < free.addr then
    let size := h.readI32 ⟨free.storage, n⟩
    if 0 < size then
      if n + size.toNat = free.addr then .leave (.ok (some ⟨free.storage, n⟩))
      else .again (n + size.toNat)
    else .again (n + size.natAbs)
  else .leave (.ok none)

/-- `HvFreeCell`, second part: merge the cell into a free cell before it. The
neighbour stays where it is when its list does not change. -/
def mergePrevious (h : HHive) (neighbor free : CellPtr) (neighborIndex : ℕ) : Run HHive := do
  let size := h.readI32 neighbor + h.readI32 free
  let i ← hvpComputeFreeListIndex (h.readU32 neighbor)
  let j ← hvpComputeFreeListIndex ((h.readU32 neighbor + h.readU32 free) % 0x100000000)
  if i ≠ j then
    let h ← hvpRemoveFree h neighbor neighborIndex
    let h := h.writeI32 neighbor size
    hvpAddFree h neighbor neighborIndex
  else return h.writeI32 neighbor size

/-- `HvFreeCell`, after the cell that follows: look for a free cell that ends
where the freed one starts, and put the freed cell on a list if there is none. -/
def listFreed (h : HHive) (free bin : CellPtr) (c : ℕ) : Run HHive := do
  match ← runLoop (previousTurn h free) h.walkBudget (bin.addr + 32) with
  | some neighbor =>
    let index := neighborIndex h bin neighbor c
    let h ← mergePrevious h neighbor free index
    markIfStable h (hvGetCellType c) index
  | none =>
    let h ← hvpAddFree h free c
    markIfStable h (hvGetCellType c) c

/-- `HvFreeCell`. -/
def hvFreeCell (h : HHive) (c : ℕ) : Run HHive := do
  assert (h.readOnly = false)
  let free ← hvpGetCellHeader h c
  assert (h.readI32 free < 0)
  let h := h.writeI32 free (-h.readI32 free)
  let t := hvGetCellType c
  match ((h.storage t).blockList[hvGetCellBlock c]?).bind (·.binAddress) with
  | none => throw .accessViolation
  | some bin =>
    let h ← mergeNext h free ⟨t, bin⟩ c
    listFreed h free ⟨t, bin⟩ c

/-- `HvReallocateCell`, once the size of the data of the cell is known. -/
def moveIfLarger (h : HHive) (c : ℕ) (old : CellPtr) (oldSize : ℤ) (size : ℕ) (t : HStorageType)
    (alloc : Allocations) : Run (ℕ × HHive) := do
  if oldSize < size then
    let (new, h) ← hvAllocateCell h size t alloc
    if new = hcellNil then return (hcellNil, h)
    else
      let newCell ← hvGetCell h new
      let h := h.setMem t ((h.mem t).copy newCell.addr (h.mem t) (old.addr + 4) oldSize.toNat)
      let h ← hvFreeCell h c
      return (new, h)
  else return (c, h)

/-- `HvReallocateCell`. -/
def hvReallocateCell (h : HHive) (c size : ℕ) (alloc : Allocations) : Run (ℕ × HHive) := do
  assert (c ≠ hcellNil)
  let t := hvGetCellType c
  let old ← hvpGetCellHeader h c
  let oldSize := -h.readI32 old - 4
  assert (0 < oldSize)
  moveIfLarger h c old oldSize size t alloc

end Windivs

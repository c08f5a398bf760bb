import Windivs.Lib.Disk
import Windivs.Cm.BaseBlock
import Windivs.Cm.HiveCell

/-!
# Writing a hive to its files

The routines of `hivewrt.c`. `HvSyncHive` writes the dirty blocks of a hive first
to its log, then to its primary file, and to the alternate file if there is one.
Each writer marks the header before it starts (the sequence numbers differ) and
again when it is done.

The file callbacks are those of `Windivs.Io`, and their outcomes are given in
advance; a write or a flush that fails makes the writer return `FALSE` at once,
with the base block as it is then.
-/

namespace Windivs

/-- A hive and its files. -/
structure World where
  hive : HHive
  io : Io HFileType

/-- What the environment does during a call. -/
structure Callbacks where
  /-- The buffer for the header of the log can be allocated. -/
  allocate : Bool
  /-- The outcome of each file callback, by its number. -/
  outcome : ℕ → Option ℕ

/-- `HvpValidateBaseHeader`. -/
def hvpValidateBaseHeader (b : Mem) : Run Unit := do
  assert (BaseBlock.signature b = 0x66676572)
  assert (BaseBlock.format b = 1)
  assert (BaseBlock.major b = 1)

/-! ### The loops over the blocks -/

/-- The next dirty block from block `i` on: `none` when the search finds nothing
(`~HV_CLEAN_BLOCK` is `MAXINDEX`) or wraps. -/
def nextDirty (v : RtlBitmap 32) (i : ℕ) : Option ℕ :=
  let j := v.rtlFindSetBits 1 i
  if j = RtlBitmap.maxIndex ∨ j < i then none else some j

/-- One turn of `while (BlockIndex < Storage[Stable].Length)`: take the next block,
and stop when the work on it fails. -/
def blockTurn {σ : Type} (length : ℕ) (next : ℕ → Option ℕ) (body : ℕ → σ → Run (Bool × σ)) :
    ℕ × σ → Turn (ℕ × σ) (Run (Bool × σ))
  | (i, s) =>
    if i < length then
      match next i with
      | none => .leave (.ok (true, s))
      | some j =>
        match body j s with
        | .error e => .leave (.error e)
        | .ok (false, s) => .leave (.ok (false, s))
        | .ok (true, s) => .again (j + 1, s)
    else .leave (.ok (true, s))

/-- The loop over the blocks that `next` selects. -/
def forBlocks {σ : Type} (length : ℕ) (next : ℕ → Option ℕ) (body : ℕ → σ → Run (Bool × σ))
    (s : σ) : Run (Bool × σ) :=
  runLoop (blockTurn length next body) (length + 1) (0, s)

/-- The memory of a block. -/
def blockAddress (h : HHive) (i : ℕ) : Run ℕ :=
  match ((h.storage .stable).blockList[i]?).bind (·.blockAddress) with
  | some a => .ok a
  | none => .error .accessViolation

/-! ### The log -/

/-- The size of the part of the log that says which blocks are dirty. -/
def bitmapSize (v : RtlBitmap 32) : ℕ := roundUp (4 + v.sizeOfBitMap) 512

/-- The first write to the log: the header, a signature, and a byte for each
block, `0xFF` if it is dirty. -/
def logBuffer (h : HHive) : Run Mem := do
  let buffer : Mem := fun _ => 0
  let buffer := buffer.copy 0 h.baseBlock 0 512
  let buffer := buffer.writeU32 512 0x54524944
  let (_, buffer) ← forBlocks (h.storage .stable).length (nextDirty h.dirtyVector)
    (fun i buffer => .ok (true, Function.update buffer (516 + i) 0xFF)) buffer
  return buffer

/-- Write one block to the log, at the offset that has been reached. -/
def writeLogBlock (cb : Callbacks) (h : HHive) (i : ℕ) (s : ℕ × Io HFileType) :
    Run (Bool × ℕ × Io HFileType) := do
  let a ← blockAddress h i
  let (ok, io) := s.2.fileWrite cb.outcome
    { file := .log, offset := s.1, src := h.mem .stable, addr := a, length := 4096 }
  return (ok, s.1 + 4096, io)

/-- `HvpWriteLog`, from its first file callback on. -/
def writeLogFile (cb : Callbacks) (h : HHive) (io : Io HFileType) : Run (Bool × World) := do
  let buffer ← logBuffer h
  let bufferSize := 512 + bitmapSize h.dirtyVector
  let (ok, io) := io.fileWrite cb.outcome
    { file := .log, offset := 0, src := buffer, addr := 0, length := bufferSize }
  if !ok then return (false, ⟨h, io⟩)
  let (ok, _, io) ← forBlocks (h.storage .stable).length (nextDirty h.dirtyVector)
    (writeLogBlock cb h) (bufferSize, io)
  if !ok then return (false, ⟨h, io⟩)
  let (ok, io) := io.fileFlush cb.outcome
  if !ok then return (false, ⟨h, io⟩)
  let h := { h with baseBlock := BaseBlock.finishWrite h.baseBlock }
  let (ok, io) := io.fileWrite cb.outcome
    { file := .log, offset := 0, src := h.baseBlock, addr := 0, length := 512 }
  if !ok then return (false, ⟨h, io⟩)
  let (ok, io) := io.fileFlush cb.outcome
  return (ok, ⟨h, io⟩)

/-- `HvpWriteLog`. -/
def hvpWriteLog (cb : Callbacks) (w : World) : Run (Bool × World) := do
  let b := w.hive.baseBlock
  assert (w.hive.readOnly = false)
  assert (BaseBlock.length b = (w.hive.storage .stable).length * 4096 % 0x100000000)
  hvpValidateBaseHeader b
  if BaseBlock.sequence1 b ≠ BaseBlock.sequence2 b then return (false, w)
  else if cb.allocate = false then return (false, w)
  else writeLogFile cb { w.hive with baseBlock := BaseBlock.startWrite b .log } w.io

/-! ### The primary file and its mirror -/

/-- Write one block at its place. -/
def writeHiveBlock (cb : Callbacks) (f : HFileType) (h : HHive) (i : ℕ) (io : Io HFileType) :
    Run (Bool × Io HFileType) := do
  let a ← blockAddress h i
  return io.fileWrite cb.outcome
    { file := f, offset := (i + 1) * 4096, src := h.mem .stable, addr := a, length := 4096 }

/-- The write of the base block. -/
def writeBaseBlock (f : HFileType) (h : HHive) : Write HFileType where
  file := f
  offset := 0
  src := h.baseBlock
  addr := 0
  length := 4096

/-- `HvpWriteHive`, from its first file callback on. -/
def writeHiveFile (cb : Callbacks) (onlyDirty : Bool) (f : HFileType) (h : HHive)
    (io : Io HFileType) : Run (Bool × World) := do
  let (ok, io) := io.fileWrite cb.outcome (writeBaseBlock f h)
  if !ok then return (false, ⟨h, io⟩)
  let (ok, io) ← forBlocks (h.storage .stable).length
    (if onlyDirty then nextDirty h.dirtyVector else some) (writeHiveBlock cb f h) io
  if !ok then return (false, ⟨h, io⟩)
  let (ok, io) := io.fileFlush cb.outcome
  if !ok then return (false, ⟨h, io⟩)
  let h := { h with baseBlock := BaseBlock.finishWrite h.baseBlock }
  let (ok, io) := io.fileWrite cb.outcome (writeBaseBlock f h)
  if !ok then return (false, ⟨h, io⟩)
  let (ok, io) := io.fileFlush cb.outcome
  return (ok, ⟨h, io⟩)

/-- `HvpWriteHive`. The header says `HFILE_TYPE_PRIMARY` whichever file is
written. -/
def hvpWriteHive (cb : Callbacks) (onlyDirty : Bool) (f : HFileType) (w : World) :
    Run (Bool × World) := do
  let b := w.hive.baseBlock
  assert (w.hive.readOnly = false)
  assert (BaseBlock.length b = (w.hive.storage .stable).length * 4096 % 0x100000000)
  assert (BaseBlock.rootCell b ≠ hcellNil)
  hvpValidateBaseHeader b
  if BaseBlock.sequence1 b ≠ BaseBlock.sequence2 b then return (false, w)
  else
    writeHiveFile cb onlyDirty f { w.hive with baseBlock := BaseBlock.startWrite b .primary } w.io

/-! ### Synchronisation -/

/-- `RtlClearAllBits(&DirtyVector); DirtyCount = 0`. -/
def clean (h : HHive) : HHive :=
  { h with dirtyVector := h.dirtyVector.rtlClearAllBits, dirtyCount := 0 }

/-- `HvSyncHive`, after the log: the primary file, and the alternate file if there
is one. -/
def syncFiles (cb : Callbacks) (w : World) : Run (Bool × World) := do
  let (ok, w) ← hvpWriteHive cb true .primary w
  if !ok then return (false, w)
  if w.hive.alternate then
    let (ok, w) ← hvpWriteHive cb true .alternate w
    if !ok then return (false, w)
    return (true, { w with hive := clean w.hive })
  else return (true, { w with hive := clean w.hive })

/-- `HvSyncHive`, at the time `(low, high)`. -/
def hvSyncHive (cb : Callbacks) (low high : ℕ) (w : World) : Run (Bool × World) := do
  assert (w.hive.readOnly = false)
  assert (w.hive.signature = 0xbee0bee0)
  if w.hive.hiveFlags % 2 = 1 then return (true, w)
  else if w.hive.dirtyVector.rtlFindSetBits 1 0 = RtlBitmap.maxIndex then return (true, w)
  else
    let h := { w.hive with baseBlock := BaseBlock.setTimeStamp w.hive.baseBlock low high }
    if h.log then
      let (ok, w) ← hvpWriteLog cb ⟨h, w.io⟩
      if !ok then return (false, w)
      syncFiles cb w
    else syncFiles cb ⟨h, w.io⟩

end Windivs

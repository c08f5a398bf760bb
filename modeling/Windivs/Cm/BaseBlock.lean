import Windivs.Lib.Memory

/-!
# The base block of a hive

The first 4096 bytes of a hive file, `HBASE_BLOCK` of `hivedata.h`. Its fields are
read and written at their offsets; what matters to the code that writes and loads
hives is in the first 512 bytes: two sequence numbers, the time of the last
change, and a checksum of the 508 bytes before it.

A writer makes the two sequence numbers differ before it touches the file and
equal again when it is done (`Windivs.BaseBlock.startWrite` and `finishWrite`), and
the loader takes a header only when they agree (`Windivs.hvpVerifyHiveHeader`).
-/

namespace Windivs

/-- The types of the files of a hive, `HFILE_TYPE_*`. -/
inductive HFileType where
  | primary
  | log
  | external
  | alternate
  deriving DecidableEq, Repr

/-- The number stored in the field `Type`. -/
def HFileType.toNat : HFileType → ℕ
  | primary => 0
  | log => 1
  | external => 2
  | alternate => 3

/-- The dwords that `HvpHiveHeaderChecksum` combines. -/
def xorDwords (b : Mem) (n : ℕ) : ℕ :=
  (List.range n).foldl (fun sum i => sum ^^^ b.readU32 (i * 4)) 0

/-- `HvpHiveHeaderChecksum`. -/
def hvpHiveHeaderChecksum (b : Mem) : ℕ :=
  let sum := xorDwords b 127
  let sum := if sum = 0xFFFFFFFF then 0xFFFFFFFE else sum
  if sum = 0 then 1 else sum

namespace BaseBlock

/-! ### Fields -/

def signature (b : Mem) : ℕ := b.readU32 0
def sequence1 (b : Mem) : ℕ := b.readU32 4
def sequence2 (b : Mem) : ℕ := b.readU32 8
def major (b : Mem) : ℕ := b.readU32 20
def minor (b : Mem) : ℕ := b.readU32 24
def type (b : Mem) : ℕ := b.readU32 28
def format (b : Mem) : ℕ := b.readU32 32
def rootCell (b : Mem) : ℕ := b.readU32 36
def length (b : Mem) : ℕ := b.readU32 40
def cluster (b : Mem) : ℕ := b.readU32 44
def checkSum (b : Mem) : ℕ := b.readU32 508
def bootRecover (b : Mem) : ℕ := b.readU32 4092

/-- Bring the checksum up to date. -/
def withCheckSum (b : Mem) : Mem := b.writeU32 508 (hvpHiveHeaderChecksum b)

/-- The base block at the start of a write to a file: its type, the first
sequence number ahead of the second, the checksum. -/
def startWrite (b : Mem) (t : HFileType) : Mem :=
  let b := b.writeU32 28 t.toNat
  withCheckSum (b.writeU32 4 (b.readU32 4 + 1))

/-- The base block at the end of a write: the second sequence number follows. -/
def finishWrite (b : Mem) : Mem :=
  withCheckSum (b.writeU32 8 (b.readU32 8 + 1))

/-- `KeQuerySystemTime(&BaseBlock->TimeStamp)`. -/
def setTimeStamp (b : Mem) (low high : ℕ) : Mem :=
  (b.writeU32 12 low).writeU32 16 high

end BaseBlock

/-- `HvpVerifyHiveHeader`. -/
def hvpVerifyHiveHeader (b : Mem) (t : HFileType) : Bool :=
  BaseBlock.signature b = 0x66676572 && BaseBlock.major b = 1 && 3 ≤ BaseBlock.minor b &&
    BaseBlock.type b = t.toNat && BaseBlock.format b = 1 && BaseBlock.cluster b = 1 &&
    BaseBlock.sequence1 b = BaseBlock.sequence2 b &&
    hvpHiveHeaderChecksum b = BaseBlock.checkSum b

namespace BaseBlock

/-! ### Frames of the updates -/

variable {b : Mem} {a : ℕ}

theorem readU32_withCheckSum (b : Mem) {a : ℕ} (h : a + 4 ≤ 508 ∨ 512 ≤ a) :
    (withCheckSum b).readU32 a = b.readU32 a :=
  Mem.readU32_writeU32_ne _ _ (by omega)

section

variable (t : HFileType)

/-- The fields a write does not touch. -/
theorem readU32_startWrite (h : a + 4 ≤ 4 ∨ 8 ≤ a ∧ a + 4 ≤ 28 ∨
    32 ≤ a ∧ a + 4 ≤ 508 ∨ 512 ≤ a) : (startWrite b t).readU32 a = b.readU32 a := by
  rw [startWrite, readU32_withCheckSum _ (by omega), Mem.readU32_writeU32_ne _ _ (by omega),
    Mem.readU32_writeU32_ne _ _ (by omega)]

theorem readU32_finishWrite (h : a + 4 ≤ 8 ∨ 12 ≤ a ∧ a + 4 ≤ 508 ∨ 512 ≤ a) :
    (finishWrite b).readU32 a = b.readU32 a := by
  rw [finishWrite, readU32_withCheckSum _ (by omega), Mem.readU32_writeU32_ne _ _ (by omega)]

theorem readU32_setTimeStamp (low high : ℕ) (h : a + 4 ≤ 12 ∨ 20 ≤ a) :
    (setTimeStamp b low high).readU32 a = b.readU32 a := by
  rw [setTimeStamp, Mem.readU32_writeU32_ne _ _ (by omega), Mem.readU32_writeU32_ne _ _ (by omega)]

/-- No write is in progress: the sequence numbers agree. -/
abbrev InStep (b : Mem) : Prop := sequence1 b = sequence2 b

theorem sequence_setTimeStamp (low high : ℕ) : InStep (setTimeStamp b low high) ↔ InStep b := by
  rw [InStep, sequence1, sequence2, readU32_setTimeStamp low high (by omega),
    readU32_setTimeStamp low high (by omega), InStep, sequence1, sequence2]

theorem sequence1_startWrite : sequence1 (startWrite b t) = (sequence1 b + 1) % 0x100000000 := by
  rw [sequence1, startWrite, readU32_withCheckSum _ (by omega), Mem.readU32_writeU32,
    Mem.readU32_writeU32_ne _ _ (by omega), sequence1]

theorem sequence2_finishWrite : sequence2 (finishWrite b) = (sequence2 b + 1) % 0x100000000 := by
  rw [sequence2, finishWrite, readU32_withCheckSum _ (by omega), Mem.readU32_writeU32, sequence2]

/-- A write in progress shows: the sequence numbers differ. -/
theorem sequence_ne_startWrite (hseq : InStep b) : ¬InStep (startWrite b t) := by
  have hseq2 : sequence2 (startWrite b t) = sequence2 b := readU32_startWrite t (by omega)
  rw [InStep, sequence1_startWrite]
  omega

/-- A write that is done does not. -/
theorem sequence_eq_finishWrite (hseq : InStep b) : InStep (finishWrite (startWrite b t)) := by
  have h₁ : sequence1 (finishWrite (startWrite b t)) = sequence1 (startWrite b t) :=
    readU32_finishWrite (by omega)
  have h₂ : sequence2 (startWrite b t) = sequence2 b := readU32_startWrite t (by omega)
  rw [InStep, h₁, sequence1_startWrite, sequence2_finishWrite, h₂, hseq]

end

end BaseBlock

end Windivs

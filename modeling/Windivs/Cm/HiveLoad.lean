import Windivs.Cm.BaseBlock
import Windivs.Cm.HiveCheck

/-!
# Loading a hive

`HvpInitializeMemoryHive` makes a hive from the bytes of a hive file: it walks over the
bins, copies each into memory of its own and enters its blocks into the block list, then
builds the lists of free cells.

The walk goes from bin to bin by the field `Size` that it finds in the bytes.
It checks that the size is a multiple of a block, and neither that it is not zero nor
that the bin ends inside the hive. `Windivs.walkPromise_iff` says for which bytes the
walk comes back and stays in bounds.

The memory of a bin is the one at its offset in the hive; an access outside the bytes or
the block list is a fault.
-/

namespace Windivs

open BaseBlock

/-- The statuses that the initialization of a hive returns. -/
inductive LoadStatus where
  | success
  | registryCorrupt
  | noMemory
  deriving DecidableEq, Repr

/-- Which of the allocations of `HvpInitializeMemoryHive` succeed; those of bins by their
number. -/
structure InitAllocations where
  baseBlock : Bool
  blockList : Bool
  bin : ℕ → Bool
  bitmap : Bool

/-! ### The walk over the bins -/

/-- The number of blocks of the hive in a chunk. -/
def chunkBlocks (chunk : Mem) : ℕ := BaseBlock.length chunk / 4096

/-- `Bin->Signature`, `Bin->FileOffset` and `Bin->Size` of the bin at block `i`. -/
def chunkBinSignature (chunk : Mem) (i : ℕ) : ℕ := chunk.readU32 ((i + 1) * 4096)
def chunkBinOffset (chunk : Mem) (i : ℕ) : ℕ := chunk.readU32 ((i + 1) * 4096 + 4)
def chunkBinSize (chunk : Mem) (i : ℕ) : ℕ := chunk.readU32 ((i + 1) * 4096 + 8)

/-- The test of a bin. -/
def ToastBin (chunk : Mem) (i : ℕ) : Prop :=
  chunkBinSignature chunk i ≠ hvHbinSignature ∨ chunkBinSize chunk i % 4096 ≠ 0 ∨
    chunkBinOffset chunk i / 4096 ≠ i

instance (chunk : Mem) (i : ℕ) : Decidable (ToastBin chunk i) :=
  inferInstanceAs (Decidable (_ ∨ _ ∨ _))

/-- The chunk with a bin repaired: `BootType |= HBOOT_TYPE_SELF_HEAL`. -/
def fixBin (chunk : Mem) (i : ℕ) : Mem :=
  let chunk := chunk.writeU32 ((i + 1) * 4096) hvHbinSignature
  let chunk := chunk.writeU32 ((i + 1) * 4096 + 8) 4096
  let chunk := chunk.writeU32 ((i + 1) * 4096 + 4) (i * 4096)
  chunk.writeU32 4088 (chunk.readU32 4088 ||| 4)

/-- The block list with the blocks of the bin at block `i`: the first, and those after it
if the bin has more than one. -/
def enterBin (list : List HMapEntry) (i n : ℕ) : List HMapEntry :=
  list.mapIdx fun j e =>
    if i ≤ j ∧ j < i + max 1 n then ⟨some (j * 4096), some (i * 4096)⟩ else e

/-- The state of the walk. -/
structure WalkState where
  blockIndex : ℕ
  /-- The number of bins allocated. -/
  bins : ℕ
  blockList : List HMapEntry
  mem : Mem
  chunk : Mem

/-- The rest of a turn, for a bin of `size` bytes that has passed the test or has been
repaired. -/
def copyBin (allocateBin : ℕ → Bool) (chunkSize : ℕ) (s : WalkState) (chunk : Mem) :
    Turn WalkState (Run (Except LoadStatus WalkState)) :=
  let i := s.blockIndex
  let size := chunkBinSize chunk i
  if allocateBin s.bins = false then .leave (.ok (.error .noMemory))
  else if (i + 1) * 4096 + size ≤ chunkSize ∧ i + max 1 (size / 4096) ≤ s.blockList.length then
    .again
      { blockIndex := i + size / 4096
        bins := s.bins + 1
        blockList := enterBin s.blockList i (size / 4096)
        mem := s.mem.copy (i * 4096) chunk ((i + 1) * 4096) size
        chunk := chunk }
  else .leave (.error .accessViolation)

/-- One turn of the walk over the bins. -/
def binTurn (selfHeal : Bool) (allocateBin : ℕ → Bool) (chunkSize : ℕ) (s : WalkState) :
    Turn WalkState (Run (Except LoadStatus WalkState)) :=
  if s.blockIndex < s.blockList.length then
    if ToastBin s.chunk s.blockIndex then
      if selfHeal = false then .leave (.ok (.error .registryCorrupt))
      else copyBin allocateBin chunkSize s (fixBin s.chunk s.blockIndex)
    else copyBin allocateBin chunkSize s s.chunk
  else .leave (.ok (.ok s))

/-- The state the walk starts from. -/
def walkStart (chunk : Mem) : WalkState where
  blockIndex := 0
  bins := 0
  blockList := List.replicate (chunkBlocks chunk) ⟨none, none⟩
  mem := fun _ => 0
  chunk := chunk

/-- The walk over the bins of a chunk, which is a base block and the bytes that its field
`Length` announces. -/
def binWalk (fuel : ℕ) (selfHeal : Bool) (allocateBin : ℕ → Bool) (chunk : Mem) :
    Run (Except LoadStatus WalkState) :=
  runLoop (binTurn selfHeal allocateBin (4096 + BaseBlock.length chunk)) fuel (walkStart chunk)

/-! ### The lists of free cells -/

/-- One turn of the loop over the cells of a bin: a free cell is entered into its list. -/
def freeCellTurn (bin : ℕ) (s : ℕ × HHive) : Turn (ℕ × HHive) (Run HHive) :=
  let d := s.2.storage .stable
  if s.1 < d.binSize bin then
    let size := d.cellSize bin s.1
    if 0 < size then
      match hvpAddFree s.2 ⟨.stable, bin + s.1⟩ ((d.binFileOffset bin + s.1) % 0x100000000) with
      | .error e => .leave (.error e)
      | .ok h => .again ((s.1 + size.natAbs) % 0x100000000, h)
    else .again ((s.1 + size.natAbs) % 0x100000000, s.2)
  else .leave (.ok s.2)

/-- One turn of the loop over the bins. -/
def freeListTurn (fuel : ℕ) (s : ℕ × HHive) : Turn (ℕ × HHive) (Run HHive) :=
  if s.1 < (s.2.storage .stable).length then
    match (s.2.storage .stable).binAddress s.1 with
    | none => .leave (.error .accessViolation)
    | some bin =>
      match runLoop (freeCellTurn bin) fuel (32, s.2) with
      | .error e => .leave (.error e)
      | .ok h => .again ((s.1 + (h.storage .stable).binSize bin / 4096) % 0x100000000, h)
  else .leave (.ok s.2)

/-- Empty lists of free cells. -/
def clearFreeDisplay (h : HHive) : HHive :=
  { h with storage := fun t => { h.storage t with freeDisplay := fun _ => hcellNil } }

/-- `HvpCreateHiveFreeCellList`. -/
def hvpCreateHiveFreeCellList (fuel : ℕ) (h : HHive) : Run HHive :=
  runLoop (freeListTurn fuel) fuel (0, clearFreeDisplay h)

/-! ### Initialization -/

/-- `HvpInitFileName`: the last 31 characters of the name. -/
def hvpInitFileName (b : Mem) (fileName : Option (List UInt16)) : Mem :=
  let b := b.fill 48 64 0
  match fileName with
  | none => b
  | some name =>
    let last := name.drop (name.length - 31)
    b.copy 48 (fun k =>
      let c := (last.getD (k / 2) 0).toNat
      UInt8.ofNat (if k % 2 = 0 then c else c / 256)) 0 (last.length * 2)

/-- The hive after the walk over its bins. -/
def walkedHive (h : HHive) (chunk : Mem) (s : WalkState) : HHive :=
  { h with
    baseBlock := Mem.copy (fun _ => 0) 0 chunk 0 4096
    storage := Function.update h.storage .stable
      { h.storage .stable with blockList := s.blockList, mem := s.mem } }

/-- The end of `HvpInitializeMemoryHive`: the dirty vector and the file name. -/
def finishHive (h : HHive) (chunk : Mem) (fileName : Option (List UInt16)) : HHive :=
  let bitmapSize := roundUp (h.storage .stable).length 32 / 8
  let vector : RtlBitmap 32 := ⟨bitmapSize * 8, List.replicate (bitmapSize / 4) 0⟩
  let h := { h with baseBlock := hvpInitFileName h.baseBlock fileName }
  if BaseBlock.bootRecover chunk = 2 then
    { h with dirtyVector := vector.rtlSetAllBits, dirtyCount := vector.sizeOfBitMap }
  else { h with dirtyVector := vector }

/-- `HvpInitializeMemoryHive`. The self-healing changes the chunk, but the base block has
been copied before. -/
def hvpInitializeMemoryHive (fuel : ℕ) (selfHeal : Bool) (alloc : InitAllocations) (h : HHive)
    (chunk : Mem) (fileName : Option (List UInt16)) : Run (LoadStatus × HHive) := do
  if BaseBlock.length chunk < 4096 ∨ hvpVerifyHiveHeader chunk .primary = false then
    return (.registryCorrupt, h)
  else if alloc.baseBlock = false ∨ alloc.blockList = false then return (.noMemory, h)
  else
    match ← binWalk fuel selfHeal alloc.bin chunk with
    | .error status => return (status, h)
    | .ok s =>
      let h' ← hvpCreateHiveFreeCellList fuel (walkedHive h chunk s)
      if alloc.bitmap = false then return (.noMemory, h)
      else return (.success, finishHive h' s.chunk fileName)

/-! ### When the walk is safe -/

/-- Every entry of a block list has been entered. -/
def Filled (list : List HMapEntry) : Prop :=
  ∀ e ∈ list, e.blockAddress.isSome = true ∧ e.binAddress.isSome = true

/-- **The bins fit**, from block `i` on: each has a size that is not zero and ends inside the
hive, up to the end of the hive or to a bin that is rejected. A bin that is repaired has
one block. -/
inductive BinsFit (selfHeal : Bool) (chunk : Mem) : ℕ → Prop
  | done {i : ℕ} (hi : chunkBlocks chunk ≤ i) : BinsFit selfHeal chunk i
  | rejected {i : ℕ} (htoast : ToastBin chunk i) (hheal : selfHeal = false) :
    BinsFit selfHeal chunk i
  | repaired {i : ℕ} (htoast : ToastBin chunk i) (hheal : selfHeal = true)
    (hnext : BinsFit selfHeal chunk (i + 1)) : BinsFit selfHeal chunk i
  | bin {i : ℕ} (hgood : ¬ToastBin chunk i) (hpos : 0 < chunkBinSize chunk i)
    (hend : i + chunkBinSize chunk i / 4096 ≤ chunkBlocks chunk)
    (hnext : BinsFit selfHeal chunk (i + chunkBinSize chunk i / 4096)) :
    BinsFit selfHeal chunk i

/-- The state of the walk: the bins ahead are those of the chunk, and the blocks behind are
entered. -/
structure WalkInv (chunk : Mem) (s : WalkState) : Prop where
  ahead : ∀ a, (s.blockIndex + 1) * 4096 ≤ a → s.chunk a = chunk a
  length : s.blockList.length = chunkBlocks chunk
  behind : ∀ j < s.blockIndex, ∀ e, s.blockList[j]? = some e →
    e.blockAddress.isSome = true ∧ e.binAddress.isSome = true

section Walk

variable {selfHeal : Bool} {allocateBin : ℕ → Bool} {chunkSize : ℕ} {chunk : Mem} {s s' : WalkState}
  {r : Except LoadStatus WalkState} {h h' : HHive} {fuel : ℕ} {c : Mem}

theorem walkInv_start (chunk : Mem) : WalkInv chunk (walkStart chunk) where
  ahead _ _ := rfl
  length := List.length_replicate
  behind j hj := absurd hj (Nat.not_lt_zero j)

namespace WalkInv

/-- The bin ahead is that of the chunk. -/
theorem readU32 (hs : WalkInv chunk s) {a : ℕ} (ha : (s.blockIndex + 1) * 4096 ≤ a) :
    s.chunk.readU32 a = chunk.readU32 a :=
  Mem.readU32_congr fun b hb _ => hs.ahead b (ha.trans hb)

theorem size_eq (hs : WalkInv chunk s) :
    chunkBinSize s.chunk s.blockIndex = chunkBinSize chunk s.blockIndex :=
  hs.readU32 (Nat.le_add_right _ _)

theorem toast_iff (hs : WalkInv chunk s) :
    ToastBin s.chunk s.blockIndex ↔ ToastBin chunk s.blockIndex := by
  rw [ToastBin, ToastBin, chunkBinSignature, chunkBinSignature, chunkBinOffset, chunkBinOffset,
    hs.size_eq, hs.readU32 le_rfl, hs.readU32 (Nat.le_add_right _ _)]

end WalkInv

theorem chunkBinSize_fixBin (chunk : Mem) (i : ℕ) : chunkBinSize (fixBin chunk i) i = 4096 := by
  simp only [chunkBinSize, fixBin]
  rw [Mem.readU32_writeU32_ne _ _ (by omega), Mem.readU32_writeU32_ne _ _ (by omega),
    Mem.readU32_writeU32]

theorem fixBin_of_le (chunk : Mem) {i a : ℕ} (ha : (i + 2) * 4096 ≤ a) :
    fixBin chunk i a = chunk a := by
  simp only [fixBin]
  rw [Mem.writeU32_of_notMem (by omega), Mem.writeU32_of_notMem (by omega),
    Mem.writeU32_of_notMem (by omega), Mem.writeU32_of_notMem (by omega)]

/-- What a turn that goes on has done. -/
theorem copyBin_again (h : copyBin allocateBin chunkSize s c = .again s') :
    s' =
      { blockIndex := s.blockIndex + chunkBinSize c s.blockIndex / 4096
        bins := s.bins + 1
        blockList := enterBin s.blockList s.blockIndex (chunkBinSize c s.blockIndex / 4096)
        mem := s.mem.copy (s.blockIndex * 4096) c ((s.blockIndex + 1) * 4096)
          (chunkBinSize c s.blockIndex)
        chunk := c } := by
  simp only [copyBin] at h
  split at h
  · cases h
  · split at h
    · exact (Turn.again.inj h).symm
    · cases h

/-- A bin that fits is copied. -/
theorem copyBin_of_fits (c : Mem) (halloc : allocateBin s.bins = true)
    (hchunk : (s.blockIndex + 1) * 4096 + chunkBinSize c s.blockIndex ≤ chunkSize)
    (hlist : s.blockIndex + max 1 (chunkBinSize c s.blockIndex / 4096) ≤ s.blockList.length) :
    ∃ s', copyBin allocateBin chunkSize s c = .again s' ∧
      s'.blockIndex = s.blockIndex + chunkBinSize c s.blockIndex / 4096 := by
  simp only [copyBin, halloc, if_pos (And.intro hchunk hlist)]
  exact ⟨_, rfl, rfl⟩

theorem copyBin_noMemory (halloc : allocateBin s.bins = false) :
    copyBin allocateBin chunkSize s c = .leave (.ok (.error .noMemory)) := by
  simp only [copyBin, halloc, if_true]

theorem getElem?_enterBin {list : List HMapEntry} {i n j : ℕ} {e : HMapEntry}
    (h : (enterBin list i n)[j]? = some e) :
    (i ≤ j ∧ j < i + max 1 n ∧ e = ⟨some (j * 4096), some (i * 4096)⟩) ∨
      ¬(i ≤ j ∧ j < i + max 1 n) ∧ list[j]? = some e := by
  rw [enterBin, List.getElem?_mapIdx] at h
  obtain ⟨e', he', heq⟩ := Option.map_eq_some_iff.1 h
  by_cases hin : i ≤ j ∧ j < i + max 1 n
  · rw [if_pos hin] at heq
    exact .inl ⟨hin.1, hin.2, heq.symm⟩
  · rw [if_neg hin] at heq
    exact .inr ⟨hin, heq ▸ he'⟩

/-- **Every turn keeps the invariant.** -/
theorem WalkInv.step (hs : WalkInv chunk s)
    (hturn : binTurn selfHeal allocateBin chunkSize s = .again s') : WalkInv chunk s' := by
  have hcopy : ∀ c : Mem, (∀ a, (s.blockIndex + chunkBinSize c s.blockIndex / 4096 + 1) * 4096 ≤ a →
      c a = chunk a) → copyBin allocateBin chunkSize s c = .again s' → WalkInv chunk s' := by
    intro c hc hagain
    obtain rfl := copyBin_again hagain
    refine ⟨hc, ?_, fun j hj e he => ?_⟩
    · simp only [enterBin, List.length_mapIdx]
      exact hs.length
    · rcases getElem?_enterBin he with ⟨-, -, rfl⟩ | ⟨hout, he'⟩
      · exact ⟨rfl, rfl⟩
      · refine hs.behind j ?_ e he'
        simp only at hj
        omega
  rw [binTurn] at hturn
  split at hturn
  · split at hturn
    · split at hturn
      · cases hturn
      · refine hcopy _ (fun a ha => ?_) hturn
        rw [chunkBinSize_fixBin] at ha
        rw [fixBin_of_le _ ha]
        exact hs.ahead a ((Nat.mul_le_mul_right 4096 (Nat.le_succ _)).trans ha)
    · refine hcopy _ (fun a ha => hs.ahead a (le_trans (Nat.mul_le_mul_right 4096 ?_) ha)) hturn
      exact Nat.succ_le_succ (Nat.le_add_right _ _)
  · cases hturn

/-- The bytes of `n` blocks are in the chunk if the blocks are. -/
theorem bin_end_le {i n length : ℕ} (h : i + n ≤ length / 4096) :
    (i + 1) * 4096 + n * 4096 ≤ 4096 + length := by
  omega

/-- **Where the bins fit, the walk comes back.** -/
theorem BinsFit.run {i : ℕ} (hfit : BinsFit selfHeal chunk i) (hs : WalkInv chunk s)
    (hi : s.blockIndex = i) :
    ∃ fuel r, runLoop (binTurn selfHeal allocateBin (4096 + length chunk)) fuel s =
      .ok r := by
  induction hfit generalizing s with
  | done hle =>
    refine ⟨1, .ok s, runLoop_leave 0 ?_⟩
    rw [binTurn, if_neg (by rw [hs.length]; omega)]
  | @rejected i htoast hheal =>
    by_cases hlt : i < chunkBlocks chunk
    · subst hi
      refine ⟨1, .error .registryCorrupt, runLoop_leave 0 ?_⟩
      rw [binTurn, if_pos (by rwa [hs.length]), if_pos (hs.toast_iff.2 htoast), if_pos hheal]
    · refine ⟨1, .ok s, runLoop_leave 0 ?_⟩
      rw [binTurn, if_neg (by rw [hs.length]; omega)]
  | @repaired i htoast hheal hnext ih =>
    by_cases hlt : i < chunkBlocks chunk
    · subst hi
      have hturn : binTurn selfHeal allocateBin (4096 + length chunk) s =
          copyBin allocateBin (4096 + length chunk) s (fixBin s.chunk s.blockIndex) := by
        rw [binTurn, if_pos (by rwa [hs.length]), if_pos (hs.toast_iff.2 htoast),
          if_neg (by rw [hheal]; decide)]
      cases halloc : allocateBin s.bins with
      | false =>
        exact ⟨1, .error .noMemory, runLoop_leave 0 (hturn.trans (copyBin_noMemory halloc))⟩
      | true =>
        have hsize := chunkBinSize_fixBin s.chunk s.blockIndex
        have hchunk : (s.blockIndex + 1) * 4096 + chunkBinSize (fixBin s.chunk s.blockIndex)
            s.blockIndex ≤ 4096 + length chunk := by
          rw [hsize]
          exact bin_end_le (n := 1) hlt
        obtain ⟨s', hagain, hindex⟩ := copyBin_of_fits _ halloc hchunk
          (by rw [hsize, hs.length]; exact hlt)
        rw [hsize] at hindex
        obtain ⟨fuel, r, hrun⟩ := ih (hs.step (hturn.trans hagain)) hindex
        exact ⟨fuel + 1, r, (runLoop_again fuel (hturn.trans hagain)).trans hrun⟩
    · refine ⟨1, .ok s, runLoop_leave 0 ?_⟩
      rw [binTurn, if_neg (by rw [hs.length]; omega)]
  | @bin i hgood hpos hend hnext ih =>
    by_cases hlt : i < chunkBlocks chunk
    · subst hi
      have hturn : binTurn selfHeal allocateBin (4096 + length chunk) s =
          copyBin allocateBin (4096 + length chunk) s s.chunk := by
        rw [binTurn, if_pos (by rwa [hs.length]), if_neg (mt hs.toast_iff.1 hgood)]
      cases halloc : allocateBin s.bins with
      | false =>
        exact ⟨1, .error .noMemory, runLoop_leave 0 (hturn.trans (copyBin_noMemory halloc))⟩
      | true =>
        have hmod : chunkBinSize chunk s.blockIndex % 4096 = 0 := by
          by_contra hne
          exact hgood (.inr (.inl hne))
        have hchunk : (s.blockIndex + 1) * 4096 + chunkBinSize s.chunk s.blockIndex ≤
            4096 + length chunk := by
          rw [hs.size_eq, ← Nat.div_mul_cancel (Nat.dvd_of_mod_eq_zero hmod)]
          exact bin_end_le hend
        obtain ⟨s', hagain, hindex⟩ := copyBin_of_fits _ halloc hchunk
          (by rw [hs.size_eq, hs.length]; omega)
        rw [hs.size_eq] at hindex
        obtain ⟨fuel, r, hrun⟩ := ih (hs.step (hturn.trans hagain)) hindex
        exact ⟨fuel + 1, r, (runLoop_again fuel (hturn.trans hagain)).trans hrun⟩
    · refine ⟨1, .ok s, runLoop_leave 0 ?_⟩
      rw [binTurn, if_neg (by rw [hs.length]; omega)]

end Walk

/-! ### Two chunks -/

/-- The base block of a chunk with the given length, as the loader accepts it. -/
def chunkHeader (length : ℕ) : Mem :=
  BaseBlock.withCheckSum ((((((Mem.writeU32 (fun _ => 0) 0 0x66676572).writeU32 20 1).writeU32 24
    3).writeU32 32 1).writeU32 44 1).writeU32 40 length)

end Windivs

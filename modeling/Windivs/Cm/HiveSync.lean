import Windivs.Cm.HiveWrite
import Windivs.Rtl.BitmapSearch

/-!
# What a synchronisation does

The loops of the writers visit the dirty blocks in order, each once
(`Windivs.Syncable.visits`), so that a writer is a fixed sequence of callbacks in
two phases: the header that opens the write, the blocks and a flush; then the
header that closes it and a flush. `Windivs.hvpWriteLog_eq` and
`Windivs.hvpWriteHive_eq` say so, whatever callback fails.

A synchronisation is the writers of the hive one after the other
(`Windivs.hvSyncHive_eq`). From there on everything is about sequences of callbacks:
what is on disk when all of them succeed, and what a failure leaves behind.
-/

namespace Windivs

open List BaseBlock

/-! ### Loops over blocks -/

section Blocks

variable {σ : Type} {length : ℕ} {next : ℕ → Option ℕ} {body : ℕ → σ → Run (Bool × σ)}

/-- The loop from block `i` on takes the blocks of the list. -/
def Visits (length : ℕ) (next : ℕ → Option ℕ) : ℕ → List ℕ → Prop
  | i, [] => length ≤ i ∨ next i = none
  | i, j :: l => i < length ∧ next i = some j ∧ Visits length next (j + 1) l

/-- The work on the blocks of a list, up to the first that fails. -/
def forEach (body : ℕ → σ → Run (Bool × σ)) : List ℕ → σ → Run (Bool × σ)
  | [], s => .ok (true, s)
  | j :: l, s =>
    match body j s with
    | .error e => .error e
    | .ok (false, s) => .ok (false, s)
    | .ok (true, s) => forEach body l s

theorem runLoop_blockTurn {l : List ℕ} {i fuel : ℕ} (hv : Visits length next i l)
    (hfuel : l.length < fuel) (s : σ) :
    runLoop (blockTurn length next body) fuel (i, s) = forEach body l s := by
  induction l generalizing i fuel s with
  | nil =>
    rcases fuel with - | fuel
    · simp at hfuel
    refine runLoop_leave fuel ?_
    by_cases hi : i < length
    · have hnone := hv.resolve_left (not_le.2 hi)
      simp only [blockTurn, if_pos hi, hnone, forEach]
    · simp only [blockTurn, if_neg hi, forEach]
  | cons j l ih =>
    rcases fuel with - | fuel
    · simp at hfuel
    obtain ⟨hi, hj, hrest⟩ := hv
    rw [forEach]
    rcases hb : body j s with e | ⟨_ | _, s'⟩
    · exact runLoop_leave fuel (by simp only [blockTurn, if_pos hi, hj, hb])
    · exact runLoop_leave fuel (by simp only [blockTurn, if_pos hi, hj, hb])
    · rw [runLoop_again fuel (show blockTurn length next body (i, s) = .again (j + 1, s') by
        simp only [blockTurn, if_pos hi, hj, hb])]
      exact ih hrest (by simpa using hfuel) s'

/-- A loop over at most `length` blocks has turns enough. -/
theorem forBlocks_eq {l : List ℕ} (hv : Visits length next 0 l) (hl : l.length ≤ length) (s : σ) :
    forBlocks length next body s = forEach body l s :=
  runLoop_blockTurn hv (by omega) s

end Blocks

/-- The dirty blocks of a hive, in order. -/
def dirtyBlocks (h : HHive) : List ℕ :=
  (range (h.storage .stable).length).filter fun i => h.dirtyVector.rtlTestBit i

variable {i : ℕ}

theorem mem_dirtyBlocks {h : HHive} :
    i ∈ dirtyBlocks h ↔ i < (h.storage .stable).length ∧ h.dirtyVector.rtlTestBit i = true := by
  simp [dirtyBlocks]

/-- The first element that a filter keeps of an interval. -/
theorem filter_range'_of_first {p : ℕ → Bool} {i j n : ℕ} (hij : i ≤ j) (hj : j < i + n)
    (hp : p j = true) (hbefore : ∀ k, i ≤ k → k < j → p k = false) :
    (range' i n).filter p = j :: (range' (j + 1) (i + n - (j + 1))).filter p := by
  have hsplit : range' i n =
      range' i (j - i) ++ j :: range' (j + 1) (i + n - (j + 1)) := by
    have happend := range'_append_1 (s := i) (m := j - i) (n := i + n - j)
    rw [show i + (j - i) = j by omega, show j - i + (i + n - j) = n by omega,
      show i + n - j = i + n - (j + 1) + 1 by omega] at happend
    exact happend.symm
  rw [hsplit, filter_append, filter_cons_of_pos hp, filter_eq_nil_iff.2 fun k hk => ?_, nil_append]
  rw [mem_range'_1] at hk
  simp [hbefore k hk.1 (by omega)]

theorem visits_from {v : RtlBitmap 32} {length : ℕ} (hcover : length ≤ v.sizeOfBitMap)
    (hmax : v.sizeOfBitMap ≤ RtlBitmap.maxIndex)
    (hstray : ∀ j, length ≤ j → j < v.sizeOfBitMap → v.rtlTestBit j = true →
      length = 0 ∨ v.rtlTestBit (length - 1) = true) (n i : ℕ) (hn : i + n = length) :
    Visits length (nextDirty v) i ((range' i n).filter fun i => v.rtlTestBit i) := by
  induction n using Nat.strong_induction_on generalizing i with
  | _ n ih =>
    by_cases hi : i < length
    · rcases RtlBitmap.rtlFindSetBits_one v (by decide) hmax (hi.trans_le hcover) with
        ⟨hlo, hhi, htest, hclear⟩ | ⟨hnone, hclear⟩
      · set j := v.rtlFindSetBits 1 i with hj
        have hjlen : j < length := by
          -- a stray bit is reached only over the last block
          by_contra hge
          rcases hstray j (not_lt.1 hge) hhi htest with h0 | hlast
          · omega
          · rw [hclear (length - 1) (by omega) (by omega)] at hlast
            exact absurd hlast (by decide)
        have hnext : nextDirty v i = some j := if_neg (by rintro (h | h) <;> omega)
        rw [filter_range'_of_first hlo (by omega) htest hclear]
        exact ⟨hi, hnext, ih _ (by omega) (j + 1) (by omega)⟩
      · rw [filter_eq_nil_iff.2 fun k hk => ?_]
        · exact .inr (if_pos hnone)
        · rw [mem_range'_1] at hk
          simp [hclear k hk.1 (by omega)]
    · obtain rfl : n = 0 := by omega
      exact .inl (by omega)

/-! ### Hives that can be written -/

/-- What the writers assume of a hive: the assertions they start with, a block
list without holes, and a dirty vector that covers the blocks. Bits beyond the
last block do no harm as long as the last block is dirty too: the loop ends
before it comes to them. -/
structure Syncable (h : HHive) : Prop where
  readOnly : h.readOnly = false
  length : BaseBlock.length h.baseBlock = (h.storage .stable).length * 4096
  small : (h.storage .stable).length * 4096 < 0x100000000
  signature : BaseBlock.signature h.baseBlock = 0x66676572
  format : BaseBlock.format h.baseBlock = 1
  major : BaseBlock.major h.baseBlock = 1
  rootCell : BaseBlock.rootCell h.baseBlock ≠ hcellNil
  blocks : ∀ i < (h.storage .stable).length, ∃ a, blockAddress h i = .ok a
  cover : (h.storage .stable).length ≤ h.dirtyVector.sizeOfBitMap
  max : h.dirtyVector.sizeOfBitMap ≤ RtlBitmap.maxIndex
  stray : ∀ j, (h.storage .stable).length ≤ j → j < h.dirtyVector.sizeOfBitMap →
    h.dirtyVector.rtlTestBit j = true →
      (h.storage .stable).length = 0 ∨
        h.dirtyVector.rtlTestBit ((h.storage .stable).length - 1) = true

namespace Syncable

variable {h : HHive} {b : Mem}

section

variable (hs : Syncable h)
include hs

/-- The writers change the base block only, and there none of what they
assert. -/
theorem setBaseBlock (hb : ∀ a, a = 0 ∨ 20 ≤ a ∧ a + 4 ≤ 24 ∨ 32 ≤ a ∧ a + 4 ≤ 44 →
      b.readU32 a = h.baseBlock.readU32 a) : Syncable { h with baseBlock := b } where
  readOnly := hs.readOnly
  length := (hb 40 (by omega)).trans hs.length
  small := hs.small
  signature := (hb 0 (by omega)).trans hs.signature
  format := (hb 32 (by omega)).trans hs.format
  major := (hb 20 (by omega)).trans hs.major
  rootCell := by
    rw [BaseBlock.rootCell, hb 36 (by omega)]
    exact hs.rootCell
  blocks := hs.blocks
  cover := hs.cover
  max := hs.max
  stray := hs.stray

theorem startWrite (t : HFileType) : Syncable { h with baseBlock := startWrite h.baseBlock t } :=
  hs.setBaseBlock fun _ _ => readU32_startWrite t (by omega)

theorem finishWrite : Syncable { h with baseBlock := finishWrite h.baseBlock } :=
  hs.setBaseBlock fun _ _ => readU32_finishWrite (by omega)

theorem setTimeStamp (low high : ℕ) :
    Syncable { h with baseBlock := setTimeStamp h.baseBlock low high } :=
  hs.setBaseBlock fun _ _ => readU32_setTimeStamp low high (by omega)

theorem validate : hvpValidateBaseHeader h.baseBlock = .ok () := by
  rw [hvpValidateBaseHeader, assert_of hs.signature, assert_of hs.format, assert_of hs.major]
  rfl

theorem length_mod :
    BaseBlock.length h.baseBlock = (h.storage .stable).length * 4096 % 0x100000000 := by
  rw [Nat.mod_eq_of_lt hs.small]
  exact hs.length

theorem visits : Visits (h.storage .stable).length (nextDirty h.dirtyVector) 0 (dirtyBlocks h) := by
  have hvisits := visits_from hs.cover hs.max hs.stray (h.storage .stable).length 0 (by omega)
  rwa [← range_eq_range'] at hvisits

end

end Syncable

theorem length_dirtyBlocks_le (h : HHive) :
    (dirtyBlocks h).length ≤ (h.storage .stable).length := by
  have hle := length_filter_le (fun i => h.dirtyVector.rtlTestBit i)
    (range (h.storage .stable).length)
  rwa [length_range] at hle

/-! ### Writers as sequences of callbacks -/

/-- The address of a block, for a block list without holes. -/
def blockAddr (h : HHive) (i : ℕ) : ℕ := (blockAddress h i).toOption.getD 0

theorem blockAddress_eq {h : HHive} (hs : Syncable h) (hi : i < (h.storage .stable).length) :
    blockAddress h i = .ok (blockAddr h i) := by
  obtain ⟨a, ha⟩ := hs.blocks i hi
  rw [blockAddr, ha]
  rfl

/-- The write of a block to the primary file or its mirror. -/
def blockWrite (f : HFileType) (h : HHive) (i : ℕ) : Write HFileType where
  file := f
  offset := (i + 1) * 4096
  src := h.mem .stable
  addr := blockAddr h i
  length := 4096

/-- The write of a block to the log, at a given offset. -/
def logBlockWrite (h : HHive) (off i : ℕ) : Write HFileType where
  file := .log
  offset := off
  src := h.mem .stable
  addr := blockAddr h i
  length := 4096

/-- The writes of blocks to the log, one after the other. -/
def logBlockOps (h : HHive) : ℕ → List ℕ → List (Io.Op HFileType)
  | _, [] => []
  | off, i :: l => .write (logBlockWrite h off i) :: logBlockOps h (off + 4096) l

@[simp] theorem length_logBlockOps (h : HHive) (off : ℕ) (l : List ℕ) :
    (logBlockOps h off l).length = l.length := by
  induction l generalizing off with
  | nil => rfl
  | cons i l ih => simp [logBlockOps, ih]

/-- The dirty blocks as the log has them: a byte for each block. -/
def markDirty (l : List ℕ) (buffer : Mem) : Mem :=
  l.foldl (fun m i => Function.update m (516 + i) 0xFF) buffer

/-- The first write to the log. -/
def logHeader (h : HHive) : Mem :=
  markDirty (dirtyBlocks h) ((Mem.copy (fun _ => 0) 0 h.baseBlock 0 512).writeU32 512 0x54524944)

section Loops

variable {cb : Callbacks} {h : HHive} {l : List ℕ}

theorem forEach_markDirty (l : List ℕ) (buffer : Mem) :
    forEach (fun i buffer => .ok (true, Function.update buffer (516 + i) 0xFF)) l buffer =
      .ok (true, markDirty l buffer) := by
  induction l generalizing buffer with
  | nil => rfl
  | cons i l ih => exact ih _

theorem logBuffer_eq (hs : Syncable h) : logBuffer h = .ok (logHeader h) := by
  rw [logBuffer]
  simp only [forBlocks_eq hs.visits (length_dirtyBlocks_le h), forEach_markDirty]
  rfl

theorem forEach_writeHiveBlock (hs : Syncable h) (f : HFileType)
    (hl : ∀ i ∈ l, i < (h.storage .stable).length) (io : Io HFileType) :
    forEach (writeHiveBlock cb f h) l io =
      .ok (io.runOps cb.outcome (l.map fun i => .write (blockWrite f h i))) := by
  induction l generalizing io with
  | nil => rfl
  | cons i l ih =>
    have hblock : writeHiveBlock cb f h i io =
        .ok (io.step cb.outcome (.write (blockWrite f h i))) := by
      rw [writeHiveBlock, blockAddress_eq hs (hl i mem_cons_self)]
      rfl
    rw [forEach, hblock, map_cons]
    rcases hstep : io.step cb.outcome (.write (blockWrite f h i)) with ⟨_ | _, io'⟩
    · rw [Io.runOps_cons_false hstep]
    · rw [Io.runOps_cons_true hstep]
      exact ih (fun j hj => hl j (mem_cons_of_mem _ hj)) io'

theorem forEach_writeLogBlock (hs : Syncable h) (hl : ∀ i ∈ l, i < (h.storage .stable).length)
    (off : ℕ) (io : Io HFileType) :
    ∃ off', forEach (writeLogBlock cb h) l (off, io) =
      .ok ((io.runOps cb.outcome (logBlockOps h off l)).1, off',
        (io.runOps cb.outcome (logBlockOps h off l)).2) := by
  induction l generalizing off io with
  | nil => exact ⟨off, rfl⟩
  | cons i l ih =>
    have hblock : writeLogBlock cb h i (off, io) =
        .ok ((io.step cb.outcome (.write (logBlockWrite h off i))).1, off + 4096,
          (io.step cb.outcome (.write (logBlockWrite h off i))).2) := by
      rw [writeLogBlock, blockAddress_eq hs (hl i mem_cons_self)]
      rfl
    rw [forEach, hblock, logBlockOps]
    rcases hstep : io.step cb.outcome (.write (logBlockWrite h off i)) with ⟨_ | _, io'⟩
    · exact ⟨off + 4096, by rw [Io.runOps_cons_false hstep]⟩
    · rw [Io.runOps_cons_true hstep]
      exact ih (fun j hj => hl j (mem_cons_of_mem _ hj)) (off + 4096) io'

end Loops

/-- The callbacks of a writer up to and including its first flush. -/
def openingOps (t : HFileType) (h : HHive) : List (Io.Op HFileType) :=
  match t with
  | .log =>
    .write ⟨.log, 0, logHeader h, 0, 512 + bitmapSize h.dirtyVector⟩ ::
      (logBlockOps h (512 + bitmapSize h.dirtyVector) (dirtyBlocks h) ++ [.flush])
  | f =>
    .write (writeBaseBlock f h) ::
      ((dirtyBlocks h).map (fun i => .write (blockWrite f h i)) ++ [.flush])

/-- The callbacks of a writer after that. -/
def closingOps (t : HFileType) (h : HHive) : List (Io.Op HFileType) :=
  match t with
  | .log => [.write ⟨.log, 0, h.baseBlock, 0, 512⟩, .flush]
  | f => [.write (writeBaseBlock f h), .flush]

/-- The type that a writer puts in the header. -/
def headerType : HFileType → HFileType
  | .log => .log
  | _ => .primary

/-- The hive while a writer is at work, and when it is done. -/
def opened (t : HFileType) (h : HHive) : HHive :=
  { h with baseBlock := BaseBlock.startWrite h.baseBlock (headerType t) }

def closed (t : HFileType) (h : HHive) : HHive :=
  { opened t h with baseBlock := BaseBlock.finishWrite (opened t h).baseBlock }

/-- **A writer**: the two phases, each up to the first callback that fails. -/
def twoPhase (outcome : ℕ → Option ℕ) (t : HFileType) (h : HHive) (io : Io HFileType) :
    Bool × World :=
  match io.runOps outcome (openingOps t (opened t h)) with
  | (false, io) => (false, ⟨opened t h, io⟩)
  | (true, io) =>
    match io.runOps outcome (closingOps t (closed t h)) with
    | (ok, io) => (ok, ⟨closed t h, io⟩)

section Writers

variable {cb : Callbacks} {h : HHive} {f : HFileType}

theorem lt_of_mem_dirtyBlocks (hi : i ∈ dirtyBlocks h) : i < (h.storage .stable).length :=
  (mem_dirtyBlocks.1 hi).1

/-- The end of a writer: a flush, then the header that closes the write and a
flush. -/
theorem closing_eq (cb : Callbacks) (io : Io HFileType) (h h' : HHive) (w : Write HFileType) :
    (if !(io.fileFlush cb.outcome).1 then
        (.ok (false, ⟨h, (io.fileFlush cb.outcome).2⟩) : Run (Bool × World))
      else if !((io.fileFlush cb.outcome).2.fileWrite cb.outcome w).1 then
        .ok (false, ⟨h', ((io.fileFlush cb.outcome).2.fileWrite cb.outcome w).2⟩)
      else
        .ok ((((io.fileFlush cb.outcome).2.fileWrite cb.outcome w).2.fileFlush cb.outcome).1,
          ⟨h', (((io.fileFlush cb.outcome).2.fileWrite cb.outcome w).2.fileFlush cb.outcome).2⟩)) =
      .ok (match io.runOps cb.outcome [.flush] with
        | (false, io) => (false, ⟨h, io⟩)
        | (true, io) =>
          match io.runOps cb.outcome [.write w, .flush] with
          | (ok, io) => (ok, ⟨h', io⟩)) := by
  rcases h₁ : io.step cb.outcome .flush with ⟨_ | _, io1⟩
  · rw [Io.runOps_cons_false h₁]
    simp only [Io.step] at h₁
    simp only [h₁]
    rfl
  · rw [Io.runOps_cons_true h₁]
    simp only [Io.step] at h₁
    simp only [h₁, Io.runOps]
    rcases h₂ : io1.step cb.outcome (.write w) with ⟨_ | _, io2⟩
    · simp only [Io.step] at h₂
      simp only [h₂]
      rfl
    · simp only [Io.step] at h₂
      simp only [h₂]
      rcases h3 : io2.step cb.outcome .flush with ⟨_ | _, io3⟩
      · simp only [Io.step] at h3
        simp only [h3]
        rfl
      · simp only [Io.step] at h3
        simp only [h3]
        rfl

/-- **`HvpWriteLog`** is the writer of the log. -/
theorem hvpWriteLog_eq (hs : Syncable h) (hseq : InStep h.baseBlock) (halloc : cb.allocate = true)
    (io : Io HFileType) : hvpWriteLog cb ⟨h, io⟩ = .ok (twoPhase cb.outcome .log h io) := by
  have hs' : Syncable (opened .log h) := hs.startWrite .log
  have hfile : hvpWriteLog cb ⟨h, io⟩ = writeLogFile cb (opened .log h) io := by
    rw [hvpWriteLog]
    simp only [assert_of hs.readOnly, assert_of hs.length_mod, hs.validate, hseq, halloc, ne_eq]
    rfl
  rw [hfile, writeLogFile, logBuffer_eq hs', twoPhase, openingOps]
  simp only [bind, Except.bind, forBlocks_eq hs'.visits (length_dirtyBlocks_le _)]
  -- the callbacks one by one, the loop over the blocks as one
  rcases h₁ : io.step cb.outcome (.write ⟨.log, 0, logHeader (opened .log h), 0,
    512 + bitmapSize (opened .log h).dirtyVector⟩) with ⟨_ | _, io1⟩
  · rw [Io.runOps_cons_false h₁]
    simp only [Io.step] at h₁
    simp only [h₁]
    rfl
  · rw [Io.runOps_cons_true h₁, Io.runOps_append]
    simp only [Io.step] at h₁
    obtain ⟨off, hloop⟩ := @forEach_writeLogBlock cb (opened .log h) (dirtyBlocks (opened .log h)) hs'
      (fun i hi => lt_of_mem_dirtyBlocks hi) (512 + bitmapSize (opened .log h).dirtyVector) io1
    simp only [h₁, hloop]
    rcases h₂ : io1.runOps cb.outcome (logBlockOps (opened .log h)
      (512 + bitmapSize (opened .log h).dirtyVector) (dirtyBlocks (opened .log h))) with
      ⟨_ | _, io2⟩
    · rfl
    · exact closing_eq cb io2 (opened .log h) (closed .log h) _

theorem openingOps_of_ne (hf : f ≠ .log) (h : HHive) :
    openingOps f h = .write (writeBaseBlock f h) ::
      ((dirtyBlocks h).map (fun i => .write (blockWrite f h i)) ++ [.flush]) := by
  cases f <;> first | rfl | exact absurd rfl hf

theorem closingOps_of_ne (hf : f ≠ .log) (h : HHive) :
    closingOps f h = [.write (writeBaseBlock f h), .flush] := by
  cases f <;> first | rfl | exact absurd rfl hf

theorem opened_of_ne (hf : f ≠ .log) (h : HHive) :
    opened f h = { h with baseBlock := startWrite h.baseBlock .primary } := by
  cases f <;> first | rfl | exact absurd rfl hf

/-- **`HvpWriteHive`**, for the dirty blocks, is the writer of its file. -/
theorem hvpWriteHive_eq (hs : Syncable h) (hseq : InStep h.baseBlock) (hf : f ≠ .log)
    (io : Io HFileType) : hvpWriteHive cb true f ⟨h, io⟩ = .ok (twoPhase cb.outcome f h io) := by
  have hs' : Syncable (opened f h) := hs.startWrite (headerType f)
  have hfile : hvpWriteHive cb true f ⟨h, io⟩ = writeHiveFile cb true f (opened f h) io := by
    rw [hvpWriteHive, opened_of_ne hf]
    simp only [assert_of hs.readOnly, assert_of hs.length_mod, assert_of hs.rootCell, hs.validate,
      hseq, ne_eq]
    rfl
  rw [hfile, writeHiveFile, twoPhase, openingOps_of_ne hf, closingOps_of_ne hf]
  simp only [if_true, forBlocks_eq hs'.visits (length_dirtyBlocks_le _)]
  rcases h₁ : io.step cb.outcome (.write (writeBaseBlock f (opened f h))) with ⟨_ | _, io1⟩
  · rw [Io.runOps_cons_false h₁]
    simp only [Io.step] at h₁
    simp only [h₁]
    rfl
  · rw [Io.runOps_cons_true h₁, Io.runOps_append]
    simp only [Io.step] at h₁
    simp only [h₁, forEach_writeHiveBlock hs' f (fun i hi => lt_of_mem_dirtyBlocks hi)]
    rcases h₂ : io1.runOps cb.outcome
      ((dirtyBlocks (opened f h)).map fun i => .write (blockWrite f (opened f h) i)) with
      ⟨_ | _, io2⟩
    · rfl
    · exact closing_eq cb io2 (opened f h) (closed f h) _

end Writers

/-! ### A synchronisation as a sequence of writers -/

/-- The writers of a hive. -/
def writers (h : HHive) : List HFileType :=
  (if h.log then [.log] else []) ++ .primary :: if h.alternate then [.alternate] else []

/-- The writers one after the other, up to the first that fails. -/
def runWriters (outcome : ℕ → Option ℕ) : List HFileType → HHive → Io HFileType → Bool × World
  | [], h, io => (true, ⟨clean h, io⟩)
  | t :: l, h, io =>
    match twoPhase outcome t h io with
    | (false, w) => (false, w)
    | (true, w) => runWriters outcome l w.hive w.io

section Sync

variable {cb : Callbacks} {h : HHive} {outcome : ℕ → Option ℕ}

/-- What a writer leaves of the hive. -/
theorem twoPhase_hive (outcome : ℕ → Option ℕ) (t : HFileType) (h : HHive) (io : Io HFileType) :
    (twoPhase outcome t h io).2.hive = opened t h ∧ (twoPhase outcome t h io).1 = false ∨
      (twoPhase outcome t h io).2.hive = closed t h := by
  rw [twoPhase]
  rcases io.runOps outcome (openingOps t (opened t h)) with ⟨_ | _, io1⟩
  · exact .inl ⟨rfl, rfl⟩
  · exact .inr rfl

theorem twoPhase_hive_of_true {t : HFileType} {io : Io HFileType}
    (hok : (twoPhase outcome t h io).1 = true) : (twoPhase outcome t h io).2.hive = closed t h := by
  rcases twoPhase_hive outcome t h io with ⟨-, hno⟩ | hhive
  · rw [hno] at hok
    exact absurd hok (by decide)
  · exact hhive

theorem Syncable.opened (hs : Syncable h) (t : HFileType) : Syncable (opened t h) :=
  hs.startWrite (headerType t)

theorem Syncable.closed (hs : Syncable h) (t : HFileType) : Syncable (closed t h) :=
  (hs.opened t).finishWrite

theorem sequence_closed (t : HFileType) (hseq : InStep h.baseBlock) :
    sequence1 (closed t h).baseBlock = sequence2 (closed t h).baseBlock :=
  sequence_eq_finishWrite _ hseq

/-- The primary file and the mirror. -/
theorem syncFiles_eq (hs : Syncable h) (hseq : InStep h.baseBlock) (io : Io HFileType) :
    syncFiles cb ⟨h, io⟩ = .ok (runWriters cb.outcome
      (.primary :: if h.alternate then [.alternate] else []) h io) := by
  rw [syncFiles, hvpWriteHive_eq hs hseq (by decide), runWriters]
  have hhive := @twoPhase_hive_of_true h cb.outcome .primary io
  rcases hres : twoPhase cb.outcome .primary h io with ⟨_ | _, ⟨h₁, io1⟩⟩
  · rfl
  · rw [hres] at hhive
    obtain rfl : h₁ = Windivs.closed .primary h := hhive rfl
    have halt : (Windivs.closed .primary h).alternate = h.alternate := rfl
    cases ha : h.alternate with
    | false =>
      simp only [bind, Except.bind, halt, ha]
      rfl
    | true =>
      simp only [bind, Except.bind, halt, ha, if_true,
        hvpWriteHive_eq (hs.closed .primary) (sequence_closed .primary hseq) (show HFileType.alternate ≠ .log by decide),
        runWriters]
      rcases twoPhase cb.outcome .alternate (Windivs.closed .primary h) io1 with ⟨_ | _, w2⟩
      · rfl
      · rfl

/-- `HvSyncHive` of a hive with something to write, past its tests. -/
theorem hvSyncHive_writes (hro : h.readOnly = false) (hsig : h.signature = 0xbee0bee0)
    (hvol : h.hiveFlags % 2 ≠ 1) (hdirty : h.dirtyVector.rtlFindSetBits 1 0 ≠ RtlBitmap.maxIndex)
    (low high : ℕ) (io : Io HFileType) :
    hvSyncHive cb low high ⟨h, io⟩ =
      if h.log then (do
        let (ok, w) ← hvpWriteLog cb
          ⟨{ h with baseBlock := setTimeStamp h.baseBlock low high }, io⟩
        if !ok then return (false, w)
        syncFiles cb w)
      else syncFiles cb
        ⟨{ h with baseBlock := setTimeStamp h.baseBlock low high }, io⟩ := by
  rw [hvSyncHive]
  simp only [assert_of hro, assert_of hsig, if_neg hvol, if_neg hdirty]
  rfl

/-- **`HvSyncHive`** of a dirty hive is its writers. -/
theorem hvSyncHive_eq (hs : Syncable h) (hsig : h.signature = 0xbee0bee0)
    (hseq : InStep h.baseBlock)
    (hvol : h.hiveFlags % 2 ≠ 1) (hdirty : h.dirtyVector.rtlFindSetBits 1 0 ≠ RtlBitmap.maxIndex)
    (halloc : h.log = true → cb.allocate = true) (low high : ℕ) (io : Io HFileType) :
    hvSyncHive cb low high ⟨h, io⟩ = .ok (runWriters cb.outcome (writers h)
      { h with baseBlock := setTimeStamp h.baseBlock low high } io) := by
  set h₁ := { h with baseBlock := setTimeStamp h.baseBlock low high } with hh1
  have hs1 : Syncable h₁ := hs.setTimeStamp low high
  have hseq1 : InStep h₁.baseBlock :=
    (sequence_setTimeStamp low high).2 hseq
  have hrun : hvSyncHive cb low high ⟨h, io⟩ = _ :=
    hvSyncHive_writes hs.readOnly hsig hvol hdirty low high io
  rw [← hh1] at hrun
  rw [hrun, writers]
  cases hlog : h.log with
  | false =>
    exact syncFiles_eq hs1 hseq1 io
  | true =>
    simp only [if_true, hvpWriteLog_eq hs1 hseq1 (halloc hlog), singleton_append]
    rw [runWriters]
    have hhive := @twoPhase_hive_of_true h₁ cb.outcome .log io
    rcases hres : twoPhase cb.outcome .log h₁ io with ⟨_ | _, ⟨h₂, io2⟩⟩
    · rfl
    · rw [hres] at hhive
      obtain rfl : h₂ = Windivs.closed .log h₁ := hhive rfl
      exact syncFiles_eq (hs1.closed .log) (sequence_closed .log hseq1) io2

end Sync

end Windivs

import Windivs.Cm.DirtyCells
import Windivs.Cm.HiveRecover

/-!
# The format of the log

The log of a hive is a header, a vector with a byte for each block, and the dirty
blocks one after the other. `HvpWriteLog` rounds the vector up to whole sectors and puts
the blocks behind it. `HvpRecoverDataFromLog` takes the vector to be one sector: it
reads 512 bytes of it, and the blocks from the third sector on.

So the two agree as long as the vector fits one sector, for which the size of the dirty
vector decides and not the number of blocks. `Windivs.roundTrip_iff` says that they agree
in no other case, except when there is nothing to recover and the reader does not look
behind its array.
-/

namespace Windivs

open List BaseBlock

variable {a : ℕ} {io : Io HFileType} {l : List ℕ}

variable {i k o : ℕ} {log : Mem} {w : Write HFileType}

/-! ### What is in the log -/

section MarkDirty

variable {buffer : Mem}

theorem markDirty_of_notMem (buffer : Mem) (ha : ∀ i ∈ l, a ≠ 516 + i) :
    markDirty l buffer a = buffer a := by
  induction l generalizing buffer with
  | nil => rfl
  | cons i l ih =>
    have hstep := ih (Function.update buffer (516 + i) 0xFF)
      fun j hj => ha j (mem_cons_of_mem i hj)
    rw [Function.update_of_ne (ha i mem_cons_self)] at hstep
    exact hstep

theorem markDirty_of_mem (hi : i ∈ l) : markDirty l buffer (516 + i) = 0xFF := by
  induction l generalizing buffer with
  | nil => cases hi
  | cons j l ih =>
    by_cases hmem : i ∈ l
    · exact ih hmem
    · obtain rfl : i = j := (mem_cons.1 hi).resolve_right hmem
      have hstep := markDirty_of_notMem (l := l) (a := 516 + i)
        (Function.update buffer (516 + i) 0xFF) fun j hj heq => hmem (by rwa [show i = j by omega])
      rw [Function.update_self] at hstep
      exact hstep

end MarkDirty

section Log

variable {h : HHive}

/-- The byte of a block in the first write to the log. -/
theorem logHeader_block (h : HHive) (i : ℕ) :
    logHeader h (516 + i) = if i ∈ dirtyBlocks h then 0xFF else 0 := by
  by_cases hi : i ∈ dirtyBlocks h
  · rw [if_pos hi, logHeader, markDirty_of_mem hi]
  · rw [if_neg hi, logHeader, markDirty_of_notMem _ fun j hj heq => hi (by rwa [show i = j by omega]),
      Mem.writeU32_of_notMem (by omega), Mem.copy_of_notMem (by omega)]

theorem logHeader_signature (h : HHive) : (logHeader h).readU32 512 = 0x54524944 := by
  have hagree : Mem.AgreeOn (logHeader h)
      ((Mem.copy (fun _ => 0) 0 h.baseBlock 0 512).writeU32 512 0x54524944) 512 516 :=
    fun a _ hhi => markDirty_of_notMem _ fun i _ => by omega
  rw [Mem.readU32_congr hagree, Mem.readU32_writeU32]

/-- Where the blocks start in the log. -/
def dataOffset (h : HHive) : ℕ := 512 + bitmapSize h.dirtyVector

theorem mem_logBlockOps {off : ℕ} :
    Io.Op.write w ∈ logBlockOps h off l ↔
      ∃ k i, l[k]? = some i ∧ w = logBlockWrite h (off + k * 4096) i := by
  induction l generalizing off with
  | nil => simp [logBlockOps]
  | cons j l ih =>
    rw [logBlockOps, mem_cons, ih, Io.Op.write.injEq]
    constructor
    · rintro (rfl | ⟨k, i, hk, rfl⟩)
      · exact ⟨0, j, rfl, by rw [Nat.zero_mul, Nat.add_zero]⟩
      · exact ⟨k + 1, i, hk, by rw [show off + 4096 + k * 4096 = off + (k + 1) * 4096 by ring]⟩
    · rintro ⟨_ | k, i, hk, rfl⟩
      · obtain rfl : j = i := Option.some.inj hk
        exact .inl (by rw [Nat.zero_mul, Nat.add_zero])
      · exact .inr ⟨k, i, hk, by rw [show off + 4096 + k * 4096 = off + (k + 1) * 4096 by ring]⟩

/-- The writes to the log. -/
theorem mem_writerOps_log :
    Io.Op.write w ∈ writerOps .log h ↔
      w = ⟨.log, 0, logHeader (opened .log h), 0, dataOffset h⟩ ∨
      (∃ k i, (dirtyBlocks h)[k]? = some i ∧ w = logBlockWrite h (dataOffset h + k * 4096) i) ∨
      w = ⟨.log, 0, (closed .log h).baseBlock, 0, 512⟩ := by
  have hblocks : Io.Op.write w ∈ logBlockOps (opened .log h)
      (512 + bitmapSize (opened .log h).dirtyVector) (dirtyBlocks (opened .log h)) ↔
      ∃ k i, (dirtyBlocks h)[k]? = some i ∧ w = logBlockWrite h (dataOffset h + k * 4096) i :=
    mem_logBlockOps
  simp only [writerOps, openingOps, closingOps, cons_append, mem_cons, mem_append, hblocks,
    Io.Op.write.injEq, reduceCtorEq, not_mem_nil, or_false]
  rfl

variable (d : HFileType → File)

/-- The vector in the log. -/
theorem disk_log_vector (hlo : 512 ≤ a) (hhi : a < dataOffset h) :
    (applyWrites (writerWrites .log h) d .log).bytes a = logHeader (opened .log h) a := by
  refine applyWrites_of_covers (fun w hw hcov => ?_) ?_ d
  · obtain ⟨-, hlo', hhi'⟩ := hcov
    rcases mem_writerOps_log.1 (mem_writesOf.1 hw) with rfl | ⟨k, i, -, rfl⟩ | rfl
    · simp only [Nat.zero_add, Nat.sub_zero]
    · simp only [logBlockWrite] at hlo'
      omega
    · simp only at hhi'
      omega
  · exact ⟨_, mem_writesOf.2 (mem_writerOps_log.2 (.inl rfl)), rfl, Nat.zero_le _, by
      simp only; omega⟩

/-- The blocks in the log. -/
theorem disk_log_block (hk : (dirtyBlocks h)[k]? = some i) (ho : o < 4096) :
    (applyWrites (writerWrites .log h) d .log).bytes (dataOffset h + k * 4096 + o) =
      h.mem .stable (blockAddr h i + o) := by
  refine applyWrites_of_covers (fun w hw hcov => ?_) ?_ d
  · obtain ⟨-, hlo, hhi⟩ := hcov
    rcases mem_writerOps_log.1 (mem_writesOf.1 hw) with rfl | ⟨k', i', hk', rfl⟩ | rfl
    · simp only at hhi
      omega
    · simp only [logBlockWrite] at hlo hhi
      obtain rfl : k' = k := by omega
      obtain rfl : i' = i := Option.some.inj (hk'.symm.trans hk)
      simp only [logBlockWrite, Nat.add_sub_cancel_left]
    · simp only [dataOffset] at hhi
      omega
  · exact ⟨_, mem_writesOf.2 (mem_writerOps_log.2 (.inr (.inl ⟨k, i, hk, rfl⟩))), rfl,
      Nat.le_add_right _ _, by simp only [logBlockWrite]; omega⟩

/-- The log is as long as what is in it. -/
theorem le_size_log :
    dataOffset h + (dirtyBlocks h).length * 4096 ≤
      (applyWrites (writerWrites .log h) d .log).size := by
  rcases hd : (dirtyBlocks h).length with _ | n
  · have hopen := le_size_of_mem (mem_writesOf.2 (mem_writerOps_log (h := h).2 (.inl rfl))) d
    simp only [Nat.zero_add] at hopen
    rw [Nat.add_zero]
    exact hopen
  · obtain ⟨i, hi⟩ : ∃ i, (dirtyBlocks h)[n]? = some i :=
      ⟨_, getElem?_eq_getElem (by omega)⟩
    have hlast := le_size_of_mem (mem_writesOf.2
      (mem_writerOps_log (h := h).2 (.inr (.inl ⟨n, i, hi, rfl⟩)))) d
    rw [show dataOffset h + (n + 1) * 4096 = dataOffset h + n * 4096 + 4096 by ring]
    exact hlast

end Log

/-! ### What is recovered -/

/-- The blocks that the reader takes for dirty. -/
def selected (dirtyVector : Mem) (l : List ℕ) : List ℕ :=
  l.filter fun i => dirtyVector (i + 4) = 0xFF

/-- The write of block `k` of the log to its place. -/
def recoveredWrite (log : Mem) (k i : ℕ) : Write HFileType where
  file := .primary
  offset := 4096 + i * 4096
  src := fun a => log (1024 + k * 4096 + a)
  addr := 0
  length := 4096

/-- The blocks of the log, one after the other. -/
def recoveredWrites (log : Mem) : ℕ → List ℕ → List (Write HFileType)
  | _, [] => []
  | k, i :: l => recoveredWrite log k i :: recoveredWrites log (k + 1) l

section Recover

variable {env : LoadEnv} {dv : Mem}

theorem recoverBlock_of_fits (hnone : ∀ n, env.outcome n = none)
    (hsel : dv (i + 4) = 0xFF) (hfits : 1024 + k * 4096 + 4096 ≤ (io.disk .log).size) :
    recoverBlock env dv i (k, io) = .ok (true, k + 1,
      { io with
        writes := io.writes ++ [recoveredWrite (io.disk .log).bytes k i]
        calls := io.calls + 1 + 1 }) := by
  simp only [recoverBlock, hsel, Io.fileRead, hnone, true_and, if_pos hfits, Io.fileWrite]
  rfl

/-- The loop writes the selected blocks, unless the log is too short for them. -/
theorem forEach_recoverBlock (dv : Mem) (hnone : ∀ n, env.outcome n = none) (l : List ℕ) (k : ℕ)
    (io : Io HFileType) :
    (∃ k' calls, forEach (recoverBlock env dv) l (k, io) = .ok (true, k',
      { io with
        writes := io.writes ++ recoveredWrites (io.disk .log).bytes k (selected dv l)
        calls := calls })) ∨
    (∃ s, forEach (recoverBlock env dv) l (k, io) = .ok (false, s)) ∧
      (io.disk .log).size < 1024 + (k + (selected dv l).length) * 4096 := by
  induction l generalizing k io with
  | nil => exact .inl ⟨k, io.calls, by rw [selected, filter_nil, recoveredWrites,
      append_nil, forEach]⟩
  | cons i l ih =>
    by_cases hsel : dv (i + 4) = 0xFF
    · have hcons : selected dv (i :: l) = i :: selected dv l :=
        filter_cons_of_pos (by simpa using hsel)
      rw [hcons, forEach]
      by_cases hfits : 1024 + k * 4096 + 4096 ≤ (io.disk .log).size
      · rw [recoverBlock_of_fits hnone hsel hfits]
        have hlog : Io.disk { io with
            writes := io.writes ++ [recoveredWrite (io.disk .log).bytes k i]
            calls := io.calls + 1 + 1 } .log = io.disk .log := by
          rw [Io.disk, applyWrites_append]
          refine applyWrites_of_ne (fun w hw => ?_) _
          rw [mem_singleton.1 hw]
          exact fun heq => HFileType.noConfusion heq
        have hrest := ih (k + 1) { io with
          writes := io.writes ++ [recoveredWrite (io.disk .log).bytes k i]
          calls := io.calls + 1 + 1 }
        rw [hlog, append_assoc] at hrest
        rcases hrest with hdone | ⟨hfail, hshort⟩
        · exact .inl hdone
        · refine .inr ⟨hfail, ?_⟩
          rw [length_cons, show k + ((selected dv l).length + 1) =
            k + 1 + (selected dv l).length by ring]
          exact hshort
      · simp only [recoverBlock, hsel, ne_eq, not_true_eq_false, if_false, Io.fileRead, hfits, and_false]
        refine .inr ⟨⟨_, rfl⟩, ?_⟩
        rw [length_cons]
        omega
    · have hcons : selected dv (i :: l) = selected dv l :=
        filter_cons_of_neg (by simpa using hsel)
      have hskip : recoverBlock env dv i (k, io) = .ok (true, k, io) := if_pos hsel
      rw [hcons, forEach, hskip]
      exact ih k io

theorem visits_all (n i : ℕ) (length : ℕ) (hn : i + n = length) :
    Visits length some i (range' i n) := by
  induction n generalizing i with
  | zero => exact .inl (by omega)
  | succ n ih => exact ⟨by omega, rfl, ih (i + 1) (by omega)⟩

/-- The sector of the vector, as the reader has it. -/
def vectorRead (env : LoadEnv) (io : Io HFileType) : Mem :=
  dirtyArray env fun a => (io.disk .log).bytes (512 + a)

/-- **`HvpRecoverDataFromLog`** with callbacks that succeed writes the blocks that it
takes for dirty, unless the log is too short for them. -/
theorem hvpRecoverDataFromLog_eq (hnone : ∀ n, env.outcome n = none) (b : Mem)
    (hsize : 1024 ≤ (io.disk .log).size) (hsig : (io.disk .log).bytes.readU32 512 = 0x54524944) :
    (∃ calls, hvpRecoverDataFromLog env b io = .ok (.hiveSuccess,
      { io with
        writes := io.writes ++ recoveredWrites (io.disk .log).bytes 0
          (selected (vectorRead env io) (range (length b / 4096)))
        calls := calls })) ∨
    (∃ io', hvpRecoverDataFromLog env b io = .ok (.fail, io')) ∧
      (io.disk .log).size < 1024 + (selected (vectorRead env io)
        (range (length b / 4096))).length * 4096 := by
  have hread : io.fileRead env.outcome .log 512 512 =
      (some fun a => (io.disk .log).bytes (512 + a), { io with calls := io.calls + 1 }) := by
    rw [Io.fileRead, if_pos ⟨hnone _, hsize⟩]
  have hsig' : Mem.readU32 (fun a => (io.disk .log).bytes (512 + a)) 0 = 0x54524944 := by
    rw [← hsig]
    simp only [Mem.readU32]
  have hlen : (range (length b / 4096)).length ≤ length b / 4096 := by
    rw [length_range]
  have hvisits := visits_all (length b / 4096) 0 _ (Nat.zero_add _)
  rw [← range_eq_range'] at hvisits
  have hloop := forEach_recoverBlock (vectorRead env io) hnone
    (range (length b / 4096)) 0 { io with calls := io.calls + 1 }
  rw [← forBlocks_eq hvisits hlen, Nat.zero_add] at hloop
  rw [hvpRecoverDataFromLog, hread]
  simp only [hsig']
  rcases hloop with ⟨k', calls, hrun⟩ | ⟨⟨s, hrun⟩, hshort⟩
  · refine .inl ⟨calls, ?_⟩
    rw [vectorRead] at hrun
    rw [hrun]
    rfl
  · refine .inr ⟨⟨s.2, ?_⟩, hshort⟩
    rw [vectorRead] at hrun
    rw [hrun]
    rfl

/-- Each recovered block is at its place. -/
theorem mem_recoveredWrites :
    w ∈ recoveredWrites log k l ↔ ∃ j i, l[j]? = some i ∧ w = recoveredWrite log (k + j) i := by
  induction l generalizing k with
  | nil => simp [recoveredWrites]
  | cons a l ih =>
    rw [recoveredWrites, mem_cons, ih]
    constructor
    · rintro (rfl | ⟨j, i, hj, rfl⟩)
      · exact ⟨0, a, rfl, rfl⟩
      · exact ⟨j + 1, i, hj, by rw [show k + 1 + j = k + (j + 1) by ring]⟩
    · rintro ⟨_ | j, i, hj, rfl⟩
      · obtain rfl : a = i := Option.some.inj hj
        exact .inl rfl
      · exact .inr ⟨j, i, hj, by rw [show k + 1 + j = k + (j + 1) by ring]⟩

theorem disk_recovered (hnodup : l.Nodup) {j i o : ℕ}
    (hj : l[j]? = some i) (ho : o < 4096) (d : HFileType → File) :
    (applyWrites (recoveredWrites log 0 l) d .primary).bytes ((i + 1) * 4096 + o) =
      log (1024 + j * 4096 + o) := by
  refine applyWrites_of_covers (fun w hw hcov => ?_) ?_ d
  · obtain ⟨j', i', hj', rfl⟩ := mem_recoveredWrites.1 hw
    obtain ⟨-, hlo, hhi⟩ := hcov
    simp only [recoveredWrite] at hlo hhi ⊢
    obtain rfl : i' = i := by omega
    obtain ⟨hlt', hget'⟩ := List.getElem?_eq_some_iff.1 hj'
    obtain ⟨hlt, hget⟩ := List.getElem?_eq_some_iff.1 hj
    obtain rfl : j' = j := (hnodup.getElem_inj_iff).1 (hget'.trans hget.symm)
    rw [show 1024 + (0 + j') * 4096 + (0 + ((i' + 1) * 4096 + o - (4096 + i' * 4096))) =
      1024 + j' * 4096 + o by omega]
  · refine ⟨_, mem_recoveredWrites.2 ⟨j, i, hj, rfl⟩, rfl, ?_, ?_⟩
    · simp only [recoveredWrite]
      omega
    · simp only [recoveredWrite]
      omega

theorem disk_recovered_of_notMem (hi : i ∉ l) (ho : o < 4096) (d : HFileType → File) :
    (applyWrites (recoveredWrites log 0 l) d .primary).bytes ((i + 1) * 4096 + o) =
      (d .primary).bytes ((i + 1) * 4096 + o) := by
  refine applyWrites_of_not_covers (fun w hw hcov => hi ?_) d
  obtain ⟨j', i', hj', rfl⟩ := mem_recoveredWrites.1 hw
  obtain ⟨-, hlo, hhi⟩ := hcov
  simp only [recoveredWrite] at hlo hhi
  obtain rfl : i' = i := by omega
  exact mem_of_getElem? hj'

end Recover

/-! ### The round trip -/

/-- The dirty blocks of a hive have been brought to a primary file, and no others. -/
structure Replayed (h : HHive) (before after : File) : Prop where
  dirty : ∀ i ∈ dirtyBlocks h, ∀ o < 4096,
    after.bytes ((i + 1) * 4096 + o) = h.mem .stable (blockAddr h i + o)
  clean : ∀ i < (h.storage .stable).length, i ∉ dirtyBlocks h → ∀ o < 4096,
    after.bytes ((i + 1) * 4096 + o) = before.bytes ((i + 1) * 4096 + o)

/-- **What is expected of the format**: whatever is in the blocks, a log that has been
written brings the dirty ones back, over any image of the same length. -/
def RoundTrip (h : HHive) : Prop :=
  ∀ (m : Mem) (cb : Callbacks) (io : Io HFileType) (w : World),
    hvpWriteLog cb ⟨h.setMem .stable m, io⟩ = .ok (true, w) →
    ∀ (env : LoadEnv) (b : Mem) (io' : Io HFileType), (∀ n, env.outcome n = none) →
      BaseBlock.length b = (h.storage .stable).length * 4096 → io'.disk .log = w.io.disk .log →
      ∃ io'', hvpRecoverDataFromLog env b io' = .ok (.hiveSuccess, io'') ∧
        Replayed (h.setMem .stable m) (io'.disk .primary) (io''.disk .primary)

/-- **When that is so**: the vector fits one sector, or nothing is dirty and the bytes of
all blocks do. -/
def LogFits (h : HHive) : Prop :=
  4 + h.dirtyVector.sizeOfBitMap ≤ 512 ∨
    (h.storage .stable).length ≤ 508 ∧ dirtyBlocks h = []

section SetMem

variable {h : HHive} (m : Mem)

theorem length_setMem :
    ((h.setMem .stable m).storage .stable).length = (h.storage .stable).length := by
  simp [HHive.setMem, Dual.length]

theorem dirtyBlocks_setMem : dirtyBlocks (h.setMem .stable m) = dirtyBlocks h := by
  rfl

theorem Syncable.setMem (hs : Syncable h) : Syncable (h.setMem .stable m) where
  readOnly := hs.readOnly
  length := hs.length
  small := hs.small
  signature := hs.signature
  format := hs.format
  major := hs.major
  rootCell := hs.rootCell
  blocks i hi := hs.blocks i hi
  cover := hs.cover
  max := hs.max
  stray := hs.stray

end SetMem

section RoundTrip

variable {h : HHive} {env : LoadEnv}

/-- The files after `HvpWriteLog` has succeeded. -/
theorem disk_of_hvpWriteLog (hs : Syncable h) (hseq : InStep h.baseBlock) {cb : Callbacks}
    {w : World} (hok : hvpWriteLog cb ⟨h, io⟩ = .ok (true, w)) :
    w.io.disk = applyWrites (writerWrites .log h) io.disk := by
  cases halloc : cb.allocate with
  | false =>
    simp only [hvpWriteLog, assert_of hs.readOnly, assert_of hs.length_mod, hs.validate, hseq,
      ne_eq, halloc] at hok
    cases hok
  | true =>
    rw [hvpWriteLog_eq hs hseq halloc] at hok
    have hrun := Except.ok.inj hok
    rw [twoPhase_of_true (congrArg Prod.fst hrun)] at hrun
    rw [← (Prod.mk.inj hrun).2]
    exact applyWrites_append ..

theorem hvpWriteLog_succeeds (hs : Syncable h) (hseq : InStep h.baseBlock) (io : Io HFileType) :
    ∃ w, hvpWriteLog ⟨true, fun _ => none⟩ ⟨h, io⟩ = .ok (true, w) := by
  have hok : (twoPhase (fun _ => none) .log h io).1 = true := twoPhase_of_none fun _ _ => rfl
  exact ⟨_, by rw [hvpWriteLog_eq hs hseq rfl, twoPhase_of_true hok]⟩

theorem bitmapSize_bounds {v : RtlBitmap 32} (hsmall : v.sizeOfBitMap < 0x80000000) :
    512 ≤ bitmapSize v ∧ (4 + v.sizeOfBitMap ≤ 512 → bitmapSize v = 512) ∧
      (512 < 4 + v.sizeOfBitMap → 1024 ≤ bitmapSize v) := by
  rw [bitmapSize, roundUp]
  omega

/-- The blocks that the reader selects when it reads a log of the hive. -/
def readBlocks (env : LoadEnv) (h : HHive) : List ℕ :=
  (range (h.storage .stable).length).filter fun i =>
    if i < 508 then h.dirtyVector.rtlTestBit i else env.overrun (i - 508) = 0xFF

theorem nodup_readBlocks (env : LoadEnv) (h : HHive) : (readBlocks env h).Nodup :=
  nodup_range.filter _

/-- **What the reader makes of a log** with this content. -/
theorem recover_log (hsmall : h.dirtyVector.sizeOfBitMap < 0x80000000) (hnone : ∀ n, env.outcome n = none) {b : Mem}
    (hlen : length b = (h.storage .stable).length * 4096) {d : HFileType → File}
    {io : Io HFileType} (hlog : io.disk .log = applyWrites (writerWrites .log h) d .log) :
    (∃ calls, hvpRecoverDataFromLog env b io = .ok (.hiveSuccess,
      { io with
        writes := io.writes ++ recoveredWrites (io.disk .log).bytes 0 (readBlocks env h)
        calls := calls })) ∨
    (∃ io', hvpRecoverDataFromLog env b io = .ok (.fail, io')) ∧
      (io.disk .log).size < 1024 + (readBlocks env h).length * 4096 := by
  have hbitmap := (bitmapSize_bounds hsmall).1
  have hbyte : ∀ a, 512 ≤ a → a < 1024 → (io.disk .log).bytes a = logHeader (opened .log h) a :=
    fun a hlo hhi => by
      rw [hlog]
      exact disk_log_vector d hlo (by rw [dataOffset]; omega)
  have hsize : 1024 ≤ (io.disk .log).size := by
    have hle := le_size_log (h := h) d
    rw [← hlog, dataOffset] at hle
    omega
  have hsig : (io.disk .log).bytes.readU32 512 = 0x54524944 := by
    rw [← logHeader_signature (opened .log h)]
    exact Mem.readU32_congr fun a hlo hhi => hbyte a hlo (by omega)
  have hsel : selected (vectorRead env io) (range (length b / 4096)) =
      readBlocks env h := by
    rw [hlen, Nat.mul_div_cancel _ (by decide)]
    refine filter_congr fun i hi => ?_
    rw [mem_range] at hi
    rw [vectorRead, dirtyArray]
    by_cases hin : i < 508
    · have hmem : i ∈ dirtyBlocks (opened .log h) ↔ h.dirtyVector.rtlTestBit i = true :=
        mem_dirtyBlocks.trans (and_iff_right hi)
      rw [if_pos hin, if_pos (by omega), show 512 + (i + 4) = 516 + i by omega,
        hbyte _ (by omega) (by omega), logHeader_block]
      by_cases hbit : h.dirtyVector.rtlTestBit i = true
      · rw [if_pos (hmem.2 hbit), hbit]
        decide
      · rw [if_neg (mt hmem.1 hbit), Bool.eq_false_iff.2 hbit]
        decide
    · rw [if_neg hin, if_neg (by omega), show i + 4 - 512 = i - 508 by omega]
  have hspec := hvpRecoverDataFromLog_eq hnone b hsize hsig
  rwa [hsel] at hspec

section

variable (hs : Syncable h) (hsmall : h.dirtyVector.sizeOfBitMap < 0x80000000)
  (hseq : InStep h.baseBlock)
include hs hsmall hseq

/-- With the vector in one sector, the log brings back what it should. -/
theorem roundTrip_of_fits (hfits : LogFits h) : RoundTrip h := by
  intro m cb io w hok env b io' hnone hlen hlog
  have hs' := hs.setMem m
  have hcover := hs.cover
  rw [disk_of_hvpWriteLog hs' hseq hok] at hlog
  rw [← length_setMem m] at hlen
  have hspec := recover_log (h := h.setMem .stable m) hsmall hnone hlen hlog
  have hread : readBlocks env (h.setMem .stable m) = dirtyBlocks (h.setMem .stable m) := by
    rw [readBlocks, dirtyBlocks]
    refine filter_congr fun i hi => ?_
    rw [mem_range, length_setMem] at hi
    have hin : i < 508 := by
      rcases hfits with hsector | ⟨hsector, -⟩ <;> omega
    simp [hin]
  rw [hread] at hspec
  have hsize := le_size_log (h := h.setMem .stable m) io.disk
  rw [← hlog] at hsize
  have hnodup : (dirtyBlocks (h.setMem .stable m)).Nodup := nodup_range.filter _
  rcases hspec with ⟨calls, hrun⟩ | ⟨-, hshort⟩
  · have hdisk : ∀ c, Io.disk { io' with
        writes := io'.writes ++ recoveredWrites (io'.disk .log).bytes 0
          (dirtyBlocks (h.setMem .stable m))
        calls := c } = applyWrites (recoveredWrites (io'.disk .log).bytes 0
          (dirtyBlocks (h.setMem .stable m))) io'.disk := fun c => applyWrites_append ..
    refine ⟨_, hrun, fun i hi o ho => ?_, fun i _ hi o ho => ?_⟩
    · obtain ⟨j, hj⟩ := mem_iff_getElem?.1 hi
      rw [hdisk, disk_recovered hnodup hj ho, hlog, ← disk_log_block io.disk hj ho]
      -- a dirty block is there, so it is the first case
      have hsector : bitmapSize (h.setMem .stable m).dirtyVector = 512 := by
        rcases hfits with hsector | ⟨-, hnil⟩
        · exact (bitmapSize_bounds hsmall).2.1 hsector
        · rw [dirtyBlocks_setMem, hnil] at hi
          cases hi
      rw [dataOffset, hsector]
    · rw [hdisk, disk_recovered_of_notMem hi ho]
  · rw [dataOffset] at hsize
    have hbitmap := (bitmapSize_bounds (v := (h.setMem .stable m).dirtyVector) hsmall).1
    omega

/-- An environment in which all callbacks succeed, with the bytes behind the array all
the same. -/
def quietEnv (v : UInt8) : LoadEnv :=
  ⟨false, fun _ => none, fun _ => v⟩

/-- Files with a given log, the others filled with a byte. -/
def imageOf (log : File) (c : UInt8) : Io HFileType where
  base
    | .log => log
    | _ => ⟨fun _ => c, 0⟩
  writes := []
  calls := 0

/-- If the log of a hive filled with `0x55` makes the round trip, then so it does over any
image, whatever is behind the array. -/
theorem replayed_of_roundTrip (htrip : RoundTrip h) (hbig : ¬4 + h.dirtyVector.sizeOfBitMap ≤ 512) :
    ∃ log : Mem, (log 1024 = 0 ∨ log 1024 = 0xFF) ∧ ∀ (v c : UInt8), ∃ d : HFileType → File,
      Replayed (h.setMem .stable fun _ => 0x55) ⟨fun _ => c, 0⟩
        (applyWrites (recoveredWrites log 0 (readBlocks (quietEnv v) h)) d .primary) ∧
      (d .primary).bytes = fun _ => c := by
  have hs' := hs.setMem fun _ => 0x55
  obtain ⟨w, hok⟩ := hvpWriteLog_succeeds hs' hseq ⟨fun _ => ⟨fun _ => 0, 0⟩, [], 0⟩
  have hdisk := disk_of_hvpWriteLog hs' hseq hok
  refine ⟨(w.io.disk .log).bytes, ?_, fun v c => ⟨(imageOf (w.io.disk .log) c).disk, ?_, rfl⟩⟩
  · have hbitmap := (bitmapSize_bounds hsmall).2.2 (by omega)
    have hlt : 1024 < dataOffset (h.setMem .stable fun _ => 0x55) :=
      show 1024 < 512 + bitmapSize h.dirtyVector by omega
    rw [hdisk, disk_log_vector _ (by omega) hlt, show 1024 = 516 + 508 by rfl, logHeader_block]
    split
    · exact .inr rfl
    · exact .inl rfl
  · -- a header that has the length of the hive is the one in memory
    obtain ⟨io'', hrun, hreplayed⟩ := htrip _ _ _ w hok (quietEnv v) h.baseBlock
      (imageOf (w.io.disk .log) c) (fun _ => rfl) hs.length rfl
    have hread : readBlocks (quietEnv v) (h.setMem .stable fun _ => 0x55) =
        readBlocks (quietEnv v) h := rfl
    have hspec := @recover_log (h.setMem .stable fun _ => 0x55) (quietEnv v) hsmall (fun _ => rfl)
      h.baseBlock (by rw [length_setMem]; exact hs.length) _ (imageOf (w.io.disk .log) c)
      (congrFun hdisk .log)
    rw [hrun] at hspec
    rcases hspec with ⟨calls, heq⟩ | ⟨⟨io', heq⟩, -⟩
    · obtain rfl := (Prod.mk.inj (Except.ok.inj heq)).2
      exact hreplayed
    · cases (Prod.mk.inj (Except.ok.inj heq)).1

/-- With the vector in more than one sector, the reader finds bytes of the vector where it
looks for the first block. -/
theorem not_roundTrip (hbig : ¬LogFits h) : ¬RoundTrip h := by
  intro htrip
  rw [LogFits, not_or] at hbig
  obtain ⟨hvector, hblocks⟩ := hbig
  obtain ⟨log, hbyte, hreplay⟩ := replayed_of_roundTrip hs hsmall hseq htrip hvector
  rcases hdirty : dirtyBlocks h with _ | ⟨i, l⟩
  · -- nothing is dirty, but a byte behind the array says that block 508 is
    have hlen : 508 < (h.storage .stable).length := by
      by_contra hle
      exact hblocks ⟨not_lt.1 hle, hdirty⟩
    have hread : (readBlocks (quietEnv 0xFF) h)[0]? = some 508 := by
      rw [readBlocks, range_eq_range', filter_range'_of_first (Nat.zero_le 508) (by omega)
        (by rw [if_neg (lt_irrefl 508)]; rfl) fun k _ hk => ?_]
      · rfl
      · rw [if_pos hk, Bool.eq_false_iff]
        intro hbit
        have hmem := mem_dirtyBlocks.2 ⟨hk.trans hlen, hbit⟩
        rw [hdirty] at hmem
        cases hmem
    obtain ⟨d, hreplayed, -⟩ := hreplay 0xFF 1
    have hclean := hreplayed.clean 508 (by rwa [length_setMem])
      (by rw [dirtyBlocks_setMem, hdirty]; simp) 0 (by decide)
    rw [disk_recovered (nodup_readBlocks _ h) hread (show 0 < 4096 by decide)] at hclean
    rcases hbyte with hzero | hones
    · exact absurd (hzero.symm.trans hclean) (by decide)
    · exact absurd (hones.symm.trans hclean) (by decide)
  · obtain ⟨d, hreplayed, hd⟩ := hreplay 0 0
    have hvalue := hreplayed.dirty i (by rw [dirtyBlocks_setMem, hdirty]; exact mem_cons_self)
      0 (by decide)
    rw [HHive.mem_setMem] at hvalue
    have hread : readBlocks (quietEnv 0) h = (dirtyBlocks h).filter fun i => i < 508 := by
      rw [dirtyBlocks, filter_filter]
      refine filter_congr fun k _ => ?_
      by_cases hk : k < 508
      · simp [hk]
      · simp [hk, quietEnv]
    rw [hdirty] at hread
    by_cases hi : i < 508
    · rw [filter_cons_of_pos (by simpa using hi)] at hread
      have hfirst : (readBlocks (quietEnv 0) h)[0]? = some i := by
        rw [hread]
        rfl
      rw [disk_recovered (nodup_readBlocks _ h) hfirst (show 0 < 4096 by decide)] at hvalue
      rcases hbyte with hzero | hones
      · exact absurd (hzero.symm.trans hvalue) (by decide)
      · exact absurd (hones.symm.trans hvalue) (by decide)
    · -- the first dirty block is one the array does not reach
      have hnot : i ∉ readBlocks (quietEnv 0) h := by
        rw [hread]
        simp [hi]
      rw [disk_recovered_of_notMem hnot (show 0 < 4096 by decide), hd] at hvalue
      exact absurd (show (0 : UInt8) = 0x55 from hvalue) (by decide)

end

/-- **The log makes the round trip** for a given number of blocks and a given dirty
vector, whatever is in the blocks, if and only if the vector fits one sector, or nothing
is dirty and the hive has at most 508 blocks. -/
theorem roundTrip_iff (hs : Syncable h) (hsmall : h.dirtyVector.sizeOfBitMap < 0x80000000)
    (hseq : BaseBlock.sequence1 h.baseBlock = BaseBlock.sequence2 h.baseBlock) :
    RoundTrip h ↔ LogFits h := by
  constructor
  · intro htrip
    by_contra hbig
    exact not_roundTrip hs hsmall hseq hbig htrip
  · exact roundTrip_of_fits hs hsmall hseq

end RoundTrip

/-! ### Two hives with their first block dirty -/

section Marked

variable {n : ℕ}

theorem syncable_marked (hpos : 0 < n) (hlt : n < 0x80000) :
    Syncable (marked (filledHive n) 32) := by
  refine (syncable_filledHive hpos hlt).marked buffer_filledHive ?_
  rw [length_filledHive]
  omega

theorem sizeOfBitMap_marked :
    (marked (filledHive n) 32).dirtyVector.sizeOfBitMap = (n + 31) / 32 * 32 := by
  rw [marked, RtlBitmap.sizeOfBitMap_rtlSetBits, sizeOfBitMap_filledHive]

theorem sequence_marked : sequence1 (marked (filledHive n) 32).baseBlock =
    sequence2 (marked (filledHive n) 32).baseBlock := by
  have h₁ : (headerOf (n * 4096)).readU32 4 = _ := readU32_headerOf (by omega)
  have h₂ : (headerOf (n * 4096)).readU32 8 = _ := readU32_headerOf (by omega)
  exact (h₁.trans (by with_unfolding_all decide)).trans h₂.symm

end Marked

/-- The log of a hive of one block. -/
theorem roundTrip_oneBlock : RoundTrip (marked (filledHive 1) 32) :=
  (roundTrip_iff (syncable_marked (by decide) (by decide)) (by rw [sizeOfBitMap_marked]; decide)
    sequence_marked).2 (.inl (by rw [sizeOfBitMap_marked]; decide))

/-- **A hive of 481 blocks** has a dirty vector of 512 bits, and its log does not make
the round trip. -/
theorem not_roundTrip_manyBlocks :
    Syncable (marked (filledHive 481) 32) ∧
      (marked (filledHive 481) 32).dirtyVector.sizeOfBitMap = 512 ∧
      ¬RoundTrip (marked (filledHive 481) 32) := by
  have hs : Syncable (marked (filledHive 481) 32) := syncable_marked (by decide) (by decide)
  have hsize : (marked (filledHive 481) 32).dirtyVector.sizeOfBitMap = 512 := sizeOfBitMap_marked
  refine ⟨hs, hsize, not_roundTrip hs (by rw [hsize]; decide) sequence_marked ?_⟩
  rintro (hfits | ⟨-, hnil⟩)
  · rw [hsize] at hfits
    exact absurd hfits (by decide)
  · have hmem : 0 ∈ dirtyBlocks (marked (filledHive 481) 32) := by
      refine mem_dirtyBlocks.2 ⟨?_, (rtlTestBit_marked buffer_filledHive ?_).2 (.inr ⟨rfl, by decide⟩)⟩
      · have hlen : ((filledHive 481).storage .stable).length = 481 := length_filledHive
        exact hlen.symm ▸ show 0 < 481 by decide
      · rw [sizeOfBitMap_filledHive]
        decide
    rw [hnil] at hmem
    cases hmem

end Windivs

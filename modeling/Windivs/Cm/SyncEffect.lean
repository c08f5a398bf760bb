import Windivs.Cm.HiveSync

/-!
# What a synchronisation leaves behind

A writer makes one callback for its first header, one for each dirty block, a flush,
and two more for the header that closes the write. If all of them succeed, everything
it was to write is on disk; if one fails, the writer stops there, and what is left in
memory depends on one thing: whether the second sequence number had caught up
(`Windivs.twoPhase_of_true`, `Windivs.twoPhase_fail`).

From there both questions about a synchronisation are answered by following its
writers: what is on disk when it succeeds (`Windivs.hvSyncHive_effect`), and whether
it can be tried again when it fails (`Windivs.runWriters_fail`).
-/

namespace Windivs

open List BaseBlock

variable {h : HHive} {i k o : ℕ} {io : Io HFileType} {l : List HFileType} {t : HFileType}

/-! ### One writer -/

/-- The callbacks of a writer. -/
def writerOps (t : HFileType) (h : HHive) : List (Io.Op HFileType) :=
  openingOps t (opened t h) ++ closingOps t (closed t h)

/-- What a writer writes. -/
def writerWrites (t : HFileType) (h : HHive) : List (Write HFileType) :=
  Io.writesOf (writerOps t h)

/-- The number of callbacks of a writer. -/
def callCount (h : HHive) : ℕ := (dirtyBlocks h).length + 4

section Writer

variable {outcome : ℕ → Option ℕ}

theorem length_openingOps (t : HFileType) (h : HHive) :
    (openingOps t h).length = (dirtyBlocks h).length + 2 := by
  cases t <;> simp [openingOps]

theorem length_writerOps (t : HFileType) (h : HHive) : (writerOps t h).length = callCount h := by
  rw [writerOps, length_append, length_openingOps]
  cases t <;> rfl

/-- A writer is its callbacks. -/
theorem twoPhase_fst (outcome : ℕ → Option ℕ) (t : HFileType) (h : HHive) (io : Io HFileType) :
    (twoPhase outcome t h io).1 = (io.runOps outcome (writerOps t h)).1 ∧
      (twoPhase outcome t h io).2.io = (io.runOps outcome (writerOps t h)).2 := by
  rw [twoPhase, writerOps, Io.runOps_append]
  rcases io.runOps outcome (openingOps t (opened t h)) with ⟨_ | _, io1⟩
  · exact ⟨rfl, rfl⟩
  · exact ⟨rfl, rfl⟩

/-- **A writer that succeeds** has written everything. -/
theorem twoPhase_of_true (hok : (twoPhase outcome t h io).1 = true) :
    twoPhase outcome t h io = (true, ⟨closed t h,
      { io with
        writes := io.writes ++ writerWrites t h
        calls := io.calls + callCount h }⟩) := by
  obtain ⟨hfst, hio⟩ := twoPhase_fst outcome t h io
  have hnone := Io.outcome_of_runOps (hfst.symm.trans hok)
  rw [Io.runOps_of_none hnone, length_writerOps] at hio
  have hhive := twoPhase_hive_of_true hok
  rcases hres : twoPhase outcome t h io with ⟨ok, h', io'⟩
  rw [hres] at hok hio hhive
  dsimp only at hok hio hhive
  rw [hok, hio, hhive]
  rfl

theorem twoPhase_of_none (hnone : ∀ k < callCount h, outcome (io.calls + k) = none) :
    (twoPhase outcome t h io).1 = true := by
  rw [(twoPhase_fst outcome t h io).1, Io.runOps_of_none]
  rwa [length_writerOps]

/-- **A writer that fails**: with its first phase not done the sequence numbers are
apart, with it done they are not. -/
theorem twoPhase_fail (hk : k < callCount h)
    (hbefore : ∀ j < k, outcome (io.calls + j) = none) (hfail : outcome (io.calls + k) ≠ none) :
    (twoPhase outcome t h io).1 = false ∧
      (twoPhase outcome t h io).2.hive =
        if (dirtyBlocks h).length + 2 ≤ k then closed t h else opened t h := by
  have hfst : (twoPhase outcome t h io).1 = false := by
    rw [(twoPhase_fst outcome t h io).1]
    exact Io.runOps_of_some (by rwa [length_writerOps]) hbefore hfail
  refine ⟨hfst, ?_⟩
  have hlen : (openingOps t (opened t h)).length = (dirtyBlocks h).length + 2 :=
    length_openingOps t (opened t h)
  by_cases hphase : (dirtyBlocks h).length + 2 ≤ k
  · have hopen : io.runOps outcome (openingOps t (opened t h)) = (true, _) :=
      Io.runOps_of_none fun j hj => hbefore j (by omega)
    rw [if_pos hphase, twoPhase, hopen]
  · have hopen : (io.runOps outcome (openingOps t (opened t h))).1 = false :=
      Io.runOps_of_some (by omega) hbefore hfail
    rw [if_neg hphase, twoPhase]
    rcases hres : io.runOps outcome (openingOps t (opened t h)) with ⟨ok, io1⟩
    rw [hres] at hopen
    dsimp only at hopen
    rw [hopen]

end Writer

/-! ### Writers one after the other -/

/-- The hive after the writers. -/
def closedAll : List HFileType → HHive → HHive
  | [], h => h
  | t :: l, h => closedAll l (closed t h)

/-- What the writers write. -/
def allWrites : List HFileType → HHive → List (Write HFileType)
  | [], _ => []
  | t :: l, h => writerWrites t h ++ allWrites l (closed t h)

section Writers

variable {outcome : ℕ → Option ℕ}

theorem callCount_closed (t : HFileType) (h : HHive) : callCount (closed t h) = callCount h := rfl

theorem runWriters_cons_of_true (hok : (twoPhase outcome t h io).1 = true) :
    runWriters outcome (t :: l) h io = runWriters outcome l (closed t h) { io with
        writes := io.writes ++ writerWrites t h
        calls := io.calls + callCount h } := by
  rw [runWriters, twoPhase_of_true hok]

theorem runWriters_cons_of_false (hno : (twoPhase outcome t h io).1 = false) :
    runWriters outcome (t :: l) h io = (false, (twoPhase outcome t h io).2) := by
  rw [runWriters]
  rcases hres : twoPhase outcome t h io with ⟨ok, w⟩
  rw [hres] at hno
  dsimp only at hno
  rw [hno]

/-- **Writers that succeed** have written everything. -/
theorem runWriters_of_true (hok : (runWriters outcome l h io).1 = true) :
    ∃ calls, runWriters outcome l h io = (true, ⟨clean (closedAll l h),
      { io with writes := io.writes ++ allWrites l h, calls := calls }⟩) := by
  induction l generalizing h io with
  | nil => exact ⟨io.calls, by rw [runWriters, allWrites, append_nil, closedAll]⟩
  | cons t l ih =>
    cases hfirst : (twoPhase outcome t h io).1 with
    | false =>
      rw [runWriters_cons_of_false hfirst] at hok
      cases hok
    | true =>
      rw [runWriters_cons_of_true hfirst] at hok ⊢
      obtain ⟨calls, hrun⟩ := ih hok
      exact ⟨calls, by rw [hrun, allWrites, closedAll, append_assoc]⟩

theorem runWriters_of_none (hnone : ∀ k < l.length * callCount h, outcome (io.calls + k) = none) :
    (runWriters outcome l h io).1 = true := by
  induction l generalizing h io with
  | nil => rfl
  | cons t l ih =>
    have hfirst : (twoPhase outcome t h io).1 = true := by
      refine twoPhase_of_none fun k hk => hnone k ?_
      rw [length_cons, Nat.succ_mul]
      omega
    rw [runWriters_cons_of_true hfirst]
    refine ih fun k hk => ?_
    rw [callCount_closed] at hk
    have hlater := hnone (callCount h + k) (by rw [length_cons, Nat.succ_mul]; omega)
    rwa [← Nat.add_assoc] at hlater

/-- **Writers that fail** at callback `k`: only the base block of the hive has changed,
and its sequence numbers agree if and only if the writer that failed was in its second
phase. -/
theorem runWriters_fail (hs : Syncable h) (hseq : InStep h.baseBlock)
    (hk : k < l.length * callCount h) (hbefore : ∀ j < k, outcome (io.calls + j) = none)
    (hfail : outcome (io.calls + k) ≠ none) :
    (runWriters outcome l h io).1 = false ∧
      ∃ b, (runWriters outcome l h io).2.hive = { h with baseBlock := b } ∧
        Syncable { h with baseBlock := b } ∧
        (InStep b ↔
          (dirtyBlocks h).length + 2 ≤ k % callCount h) := by
  induction l generalizing h io k with
  | nil => simp at hk
  | cons t l ih =>
    by_cases hhere : k < callCount h
    · obtain ⟨hno, hhive⟩ := twoPhase_fail (t := t) hhere hbefore hfail
      rw [runWriters_cons_of_false hno, Nat.mod_eq_of_lt hhere]
      refine ⟨rfl, ?_⟩
      by_cases hphase : (dirtyBlocks h).length + 2 ≤ k
      · rw [if_pos hphase] at hhive
        exact ⟨_, hhive, hs.closed t, iff_of_true (sequence_closed t hseq) hphase⟩
      · rw [if_neg hphase] at hhive
        exact ⟨_, hhive, hs.opened t,
          iff_of_false (sequence_ne_startWrite _ hseq) hphase⟩
    · have hfirst : (twoPhase outcome t h io).1 = true :=
        twoPhase_of_none fun j hj => hbefore j (by omega)
      rw [runWriters_cons_of_true hfirst]
      rw [Nat.mod_eq_sub_mod (not_lt.1 hhere)]
      refine ih (hs.closed t) (sequence_closed t hseq) ?_ (fun j hj => ?_) ?_
      · rw [length_cons, Nat.succ_mul] at hk
        rw [callCount_closed]
        omega
      · have hj' := hbefore (callCount h + j) (by omega)
        rwa [← Nat.add_assoc] at hj'
      · rwa [Nat.add_assoc, Nat.add_sub_cancel' (not_lt.1 hhere)]

end Writers

/-! ### What the writers touch -/

/-- A write that reaches the primary file in its header or in a dirty block only. -/
def Touches (h : HHive) (w : Write HFileType) : Prop :=
  w.file = .primary → w.offset + w.length ≤ 4096 ∨
    ∃ i ∈ dirtyBlocks h, w.offset = (i + 1) * 4096 ∧ w.length ≤ 4096

theorem Touches.cut {w : Write HFileType} (ht : Touches h w) (k : ℕ) : Touches h (w.cut k) := by
  have hle : (w.cut k).length ≤ w.length := min_le_right _ _
  intro hfile
  rcases ht hfile with hhead | ⟨i, hi, hoff, hlen⟩
  · exact .inl (le_trans (Nat.add_le_add_left hle _) hhead)
  · exact .inr ⟨i, hi, hoff, hle.trans hlen⟩

theorem file_of_mem_logBlockOps {off : ℕ} {l : List ℕ} {w : Write HFileType}
    (hw : Io.Op.write w ∈ logBlockOps h off l) : w.file = .log := by
  induction l generalizing off with
  | nil => simp [logBlockOps] at hw
  | cons i l ih =>
    rcases mem_cons.1 hw with heq | hw
    · obtain rfl := Io.Op.write.inj heq
      rfl
    · exact ih hw

/-- The writer of the log writes the log. -/
theorem file_of_mem_log {w : Write HFileType}
    (hw : Io.Op.write w ∈ writerOps .log h) : w.file = .log := by
  simp only [writerOps, openingOps, closingOps, cons_append, mem_cons, mem_append,
    Io.Op.write.injEq, reduceCtorEq, not_mem_nil, or_false] at hw
  rcases hw with rfl | hw | rfl
  · rfl
  · exact file_of_mem_logBlockOps hw
  · rfl

/-- The writer of the primary file or its mirror writes the header and the dirty
blocks. -/
theorem mem_writerOps {f : HFileType} (hf : f ≠ .log) {w : Write HFileType} :
    Io.Op.write w ∈ writerOps f h ↔ w = writeBaseBlock f (opened f h) ∨
      (∃ i ∈ dirtyBlocks h, w = blockWrite f h i) ∨ w = writeBaseBlock f (closed f h) := by
  have hblock : ∀ i, blockWrite f (opened f h) i = blockWrite f h i := fun _ => rfl
  have hdirty : dirtyBlocks (opened f h) = dirtyBlocks h := rfl
  simp only [writerOps, openingOps_of_ne hf, closingOps_of_ne hf, hblock, hdirty, cons_append,
    mem_cons, mem_append, mem_map, Io.Op.write.injEq, reduceCtorEq, not_mem_nil, or_false,
    eq_comm (b := w)]

theorem touches_of_mem {w : Write HFileType} (hw : Io.Op.write w ∈ writerOps t h) :
    Touches h w := by
  intro hfile
  by_cases hlog : t = .log
  · subst hlog
    rw [file_of_mem_log hw] at hfile
    cases hfile
  · rcases (mem_writerOps hlog).1 hw with rfl | ⟨i, hi, rfl⟩ | rfl
    · exact .inl le_rfl
    · exact .inr ⟨i, hi, rfl, le_rfl⟩
    · exact .inl le_rfl

theorem twoPhase_touches (outcome : ℕ → Option ℕ) (t : HFileType) (h : HHive) (io : Io HFileType) :
    (twoPhase outcome t h io).2.io.base = io.base ∧
      ∃ ws, (twoPhase outcome t h io).2.io.writes = io.writes ++ ws ∧ ∀ w ∈ ws, Touches h w := by
  rw [(twoPhase_fst outcome t h io).2]
  obtain ⟨hbase, ws, hws, hmem⟩ := @Io.runOps_writes _ outcome (writerOps t h) io
  refine ⟨hbase, ws, hws, fun w hw => ?_⟩
  obtain ⟨v, hv, rfl | ⟨k, rfl⟩⟩ := hmem w hw
  · exact touches_of_mem hv
  · exact (touches_of_mem hv).cut k

/-- Whatever fails, the writers touch headers and dirty blocks. -/
theorem runWriters_touches (outcome : ℕ → Option ℕ) (l : List HFileType) (h : HHive)
    (io : Io HFileType) :
    (runWriters outcome l h io).2.io.base = io.base ∧
      ∃ ws, (runWriters outcome l h io).2.io.writes = io.writes ++ ws ∧
        ∀ w ∈ ws, Touches h w := by
  induction l generalizing h io with
  | nil => exact ⟨rfl, [], (append_nil _).symm, by simp⟩
  | cons t l ih =>
    obtain ⟨hbase, ws, hws, htouch⟩ := twoPhase_touches outcome t h io
    cases hfirst : (twoPhase outcome t h io).1 with
    | false =>
      rw [runWriters_cons_of_false hfirst]
      exact ⟨hbase, ws, hws, htouch⟩
    | true =>
      have hrun := runWriters_cons_of_true (l := l) hfirst
      rw [twoPhase_of_true hfirst] at hbase hws
      obtain ⟨hbase', vs, hvs, htouch'⟩ := ih (closed t h) { io with
        writes := io.writes ++ writerWrites t h
        calls := io.calls + callCount h }
      rw [hrun]
      refine ⟨hbase', ws ++ vs, ?_, fun w hw => ?_⟩
      · rw [hvs, ← append_assoc, ← hws]
      · rcases mem_append.1 hw with hw | hw
        · exact htouch w hw
        · exact htouch' w hw

/-- A block that is not dirty is on the primary file as it was. -/
theorem disk_of_notMem_dirtyBlocks {io io' : Io HFileType} {ws : List (Write HFileType)}
    (hbase : io'.base = io.base) (hws : io'.writes = io.writes ++ ws)
    (htouch : ∀ w ∈ ws, Touches h w) (hi : i ∉ dirtyBlocks h) (ho : o < 4096) :
    (io'.disk .primary).bytes ((i + 1) * 4096 + o) =
      (io.disk .primary).bytes ((i + 1) * 4096 + o) := by
  rw [Io.disk, hbase, hws, applyWrites_append]
  refine applyWrites_of_not_covers (fun w hw => ?_) _
  rintro ⟨hfile, hlo, hhi⟩
  rcases htouch w hw hfile with hhead | ⟨j, hj, hoff, hlen⟩
  · omega
  · obtain rfl : j = i := by omega
    exact hi hj

/-! ### What is on disk when they succeed -/

theorem mem_writesOf {ops : List (Io.Op HFileType)} {w : Write HFileType} :
    w ∈ Io.writesOf ops ↔ Io.Op.write w ∈ ops := by
  rw [Io.writesOf, mem_filterMap]
  constructor
  · rintro ⟨op, hop, hw⟩
    cases op with
    | write v => exact Option.some.inj hw ▸ hop
    | flush => cases hw
  · exact fun hop => ⟨_, hop, rfl⟩

theorem closedAll_append (l r : List HFileType) (h : HHive) :
    closedAll (l ++ r) h = closedAll r (closedAll l h) := by
  induction l generalizing h with
  | nil => rfl
  | cons t l ih => exact ih (closed t h)

theorem allWrites_append (l r : List HFileType) (h : HHive) :
    allWrites (l ++ r) h = allWrites l h ++ allWrites r (closedAll l h) := by
  induction l generalizing h with
  | nil => rfl
  | cons t l ih => rw [cons_append, allWrites, allWrites, closedAll, ih, append_assoc]

/-- The writers change the base block and nothing else. -/
theorem closedAll_eq (l : List HFileType) (h : HHive) :
    ∃ b, closedAll l h = { h with baseBlock := b } := by
  induction l generalizing h with
  | nil => exact ⟨h.baseBlock, rfl⟩
  | cons t l ih => exact ih (closed t h)

theorem sequence_closedAll (l : List HFileType) (hseq : InStep h.baseBlock) :
    sequence1 (closedAll l h).baseBlock =
      sequence2 (closedAll l h).baseBlock := by
  induction l generalizing h with
  | nil => exact hseq
  | cons t l ih => exact ih (sequence_closed t hseq)

/-- Each write comes from one of the writers. -/
theorem exists_of_mem_allWrites {w : Write HFileType} (hw : w ∈ allWrites l h) :
    ∃ t ∈ l, ∃ b, Io.Op.write w ∈ writerOps t { h with baseBlock := b } := by
  induction l generalizing h with
  | nil => cases hw
  | cons t l ih =>
    rcases mem_append.1 hw with hw | hw
    · exact ⟨t, mem_cons_self, h.baseBlock, mem_writesOf.1 hw⟩
    · obtain ⟨t', ht', b, hb⟩ := ih hw
      exact ⟨t', mem_cons_of_mem t ht', b, hb⟩

/-- The file of a writer. -/
theorem file_of_mem_writerOps {w : Write HFileType}
    (hw : Io.Op.write w ∈ writerOps t h) : w.file = t := by
  by_cases hlog : t = .log
  · subst hlog
    exact file_of_mem_log hw
  · rcases (mem_writerOps hlog).1 hw with rfl | ⟨i, -, rfl⟩ | rfl
    · rfl
    · rfl
    · rfl

section Effect

variable {pre post : List HFileType}

/-- **A dirty block** is on the primary file as it is in memory. -/
theorem disk_of_mem_dirtyBlocks (hl : .primary ∈ l) (d : HFileType → File)
    (hi : i ∈ dirtyBlocks h) (ho : o < 4096) :
    (applyWrites (allWrites l h) d .primary).bytes ((i + 1) * 4096 + o) =
      h.mem .stable (blockAddr h i + o) := by
  refine applyWrites_of_covers (fun w hw hcov => ?_) ?_ d
  · obtain ⟨hfile, hlo, hhi⟩ := hcov
    obtain ⟨t, -, b, hop⟩ := exists_of_mem_allWrites hw
    obtain rfl : t = .primary := (file_of_mem_writerOps hop).symm.trans hfile
    rcases (mem_writerOps (by decide)).1 hop with rfl | ⟨j, -, rfl⟩ | rfl
    · simp only [writeBaseBlock] at hhi
      omega
    · simp only [blockWrite] at hlo hhi
      obtain rfl : j = i := by omega
      simp only [blockWrite, Nat.add_sub_cancel_left]
      rfl
    · simp only [writeBaseBlock] at hhi
      omega
  · obtain ⟨pre, post, rfl⟩ := append_of_mem hl
    refine ⟨blockWrite .primary h i, ?_, rfl, by simp only [blockWrite]; omega,
      by simp only [blockWrite]; omega⟩
    obtain ⟨b, hb⟩ := closedAll_eq pre h
    rw [allWrites_append, hb]
    refine mem_append_right _ (mem_append_left _ (mem_writesOf.2 ?_))
    exact (mem_writerOps (by decide)).2 (.inr (.inl ⟨i, hi, rfl⟩))

/-- The last write of a writer is its closing header. -/
theorem writerWrites_primary (h : HHive) :
    ∃ ws, writerWrites .primary h = ws ++ [writeBaseBlock .primary (closed .primary h)] := by
  refine ⟨Io.writesOf (openingOps .primary (opened .primary h)), ?_⟩
  rw [writerWrites, writerOps, Io.writesOf, filterMap_append]
  rfl

/-- **The header** on the primary file is the one that closes the write. -/
theorem disk_header (hpost : .primary ∉ post) (d : HFileType → File) {a : ℕ} (ha : a < 4096) :
    (applyWrites (allWrites (pre ++ .primary :: post) h) d .primary).bytes a =
      (closedAll (pre ++ [.primary]) h).baseBlock a := by
  obtain ⟨ws, hws⟩ := writerWrites_primary (closedAll pre h)
  have hlater : ∀ w ∈ allWrites post (closed .primary (closedAll pre h)), w.file ≠ .primary := by
    intro w hw hfile
    obtain ⟨t, ht, b, hop⟩ := exists_of_mem_allWrites hw
    obtain rfl : t = .primary := (file_of_mem_writerOps hop).symm.trans hfile
    exact hpost ht
  have hcov : (writeBaseBlock .primary (closed .primary (closedAll pre h))).Covers .primary a :=
    ⟨rfl, Nat.zero_le _, by simpa [writeBaseBlock] using ha⟩
  rw [allWrites_append, allWrites, hws, applyWrites_append, applyWrites_append,
    applyWrites_of_ne hlater, applyWrites_append, applyWrites_cons, applyWrites_nil,
    Write.apply_bytes_of_covers hcov, closedAll_append]
  simp only [writeBaseBlock, Nat.zero_add]
  rfl

/-- **The sequence numbers** on the primary file agree. -/
theorem sequence_disk (hpost : .primary ∉ post) (d : HFileType → File) (hseq : InStep h.baseBlock) :
    sequence1 (applyWrites (allWrites (pre ++ .primary :: post) h) d .primary).bytes =
      sequence2
        (applyWrites (allWrites (pre ++ .primary :: post) h) d .primary).bytes := by
  have hfield : ∀ a, a + 4 ≤ 4096 →
      (applyWrites (allWrites (pre ++ .primary :: post) h) d .primary).bytes.readU32 a =
        (closedAll (pre ++ [.primary]) h).baseBlock.readU32 a := fun a ha =>
    Mem.readU32_congr fun b _ hb => disk_header hpost d (by omega)
  have hclosed := sequence_closedAll (pre ++ [.primary]) hseq
  rw [sequence1, sequence2] at hclosed ⊢
  rw [hfield 4 (by omega), hfield 8 (by omega), hclosed]

end Effect

/-! ### A synchronisation -/

/-- A block is on the primary file as it is in memory. -/
def OnPrimary (h : HHive) (io : Io HFileType) (i : ℕ) : Prop :=
  ∀ o < 4096, (io.disk .primary).bytes ((i + 1) * 4096 + o) = h.mem .stable (blockAddr h i + o)

/-- The two sequence numbers on the primary file agree. -/
def PrimaryClosed (io : Io HFileType) : Prop :=
  BaseBlock.sequence1 (io.disk .primary).bytes = BaseBlock.sequence2 (io.disk .primary).bytes

theorem writers_eq (h : HHive) :
    ∃ pre post, writers h = pre ++ .primary :: post ∧ HFileType.primary ∉ post := by
  refine ⟨_, _, rfl, ?_⟩
  cases h.alternate <;> decide

section Sync

variable {cb : Callbacks} {low high : ℕ} {w : World}

section

variable (hs : Syncable h) (hsig : h.signature = 0xbee0bee0) (hvol : h.hiveFlags % 2 ≠ 1)
  (hdirty : h.dirtyVector.rtlFindSetBits 1 0 ≠ RtlBitmap.maxIndex)
include hs hsig hvol hdirty

/-- **Refusal**: with its sequence numbers apart, or without memory for the header of
the log, the hive is not written. -/
theorem hvSyncHive_refused (hno : sequence1 h.baseBlock ≠ sequence2 h.baseBlock ∨
      h.log = true ∧ cb.allocate = false) (low high : ℕ) (io : Io HFileType) :
    hvSyncHive cb low high ⟨h, io⟩ =
      .ok (false, ⟨{ h with baseBlock := setTimeStamp h.baseBlock low high }, io⟩) := by
  have hrun : hvSyncHive cb low high ⟨h, io⟩ = _ :=
    hvSyncHive_writes hs.readOnly hsig hvol hdirty low high io
  have hs1 : Syncable { h with baseBlock := setTimeStamp h.baseBlock low high } :=
    hs.setTimeStamp low high
  set h₁ := { h with baseBlock := setTimeStamp h.baseBlock low high } with hh1
  have hseq1 : sequence1 h₁.baseBlock = sequence2 h₁.baseBlock ↔
      sequence1 h.baseBlock = sequence2 h.baseBlock :=
    sequence_setTimeStamp low high
  rw [hrun]
  cases hlog : h.log with
  | false =>
    have hseq := hno.resolve_right (by simp [hlog])
    rw [ne_eq, ← hseq1] at hseq
    simp only [syncFiles, hvpWriteHive, assert_of hs1.readOnly, assert_of hs1.length_mod,
      assert_of hs1.rootCell, hs1.validate, ne_eq, hseq]
    rfl
  | true =>
    simp only [hvpWriteLog, assert_of hs1.readOnly, assert_of hs1.length_mod, hs1.validate]
    by_cases hseq : sequence1 h.baseBlock = sequence2 h.baseBlock
    · have halloc := (hno.resolve_left (not_not.2 hseq)).2
      rw [← hseq1] at hseq
      simp only [hseq, ne_eq, halloc]
      rfl
    · rw [← hseq1] at hseq
      simp only [ne_eq, hseq]
      rfl

/-- **A synchronisation that succeeds** has the dirty blocks on the primary file, leaves
the others there as they were, and closes the header. -/
theorem hvSyncHive_effect (hok : hvSyncHive cb low high ⟨h, io⟩ = .ok (true, w)) :
    (∀ i ∈ dirtyBlocks h, OnPrimary h w.io i) ∧
      (∀ i, i ∉ dirtyBlocks h → ∀ o < 4096, (w.io.disk .primary).bytes ((i + 1) * 4096 + o) =
        (io.disk .primary).bytes ((i + 1) * 4096 + o)) ∧ PrimaryClosed w.io := by
  have hyes : sequence1 h.baseBlock = sequence2 h.baseBlock ∧
      (h.log = true → cb.allocate = true) := by
    by_contra hno
    rw [hvSyncHive_refused hs hsig hvol hdirty ?_] at hok
    · cases hok
    · by_cases hseq : sequence1 h.baseBlock = sequence2 h.baseBlock
      · simpa [hseq] using hno
      · exact .inl hseq
  rw [hvSyncHive_eq hs hsig hyes.1 hvol hdirty hyes.2] at hok
  have hrun := Except.ok.inj hok
  obtain ⟨hbase, ws, hws, htouch⟩ := runWriters_touches cb.outcome (writers h)
    { h with baseBlock := setTimeStamp h.baseBlock low high } io
  obtain ⟨calls, hrun'⟩ := runWriters_of_true (congrArg Prod.fst hrun)
  obtain ⟨pre, post, hwriters, hpost⟩ := writers_eq h
  have hdisk : w.io.disk = applyWrites (allWrites (writers h)
      { h with baseBlock := setTimeStamp h.baseBlock low high }) io.disk := by
    rw [← congrArg (fun r => r.2.io.disk) hrun, hrun']
    exact applyWrites_append ..
  rw [hrun] at hbase hws
  refine ⟨fun i hi o ho => ?_, fun i hi o ho => disk_of_notMem_dirtyBlocks hbase hws htouch hi ho, ?_⟩
  · have hmem : HFileType.primary ∈ writers h := by simp [hwriters]
    rw [hdisk]
    exact disk_of_mem_dirtyBlocks hmem io.disk hi ho
  · rw [PrimaryClosed, hdisk, hwriters]
    exact sequence_disk hpost io.disk ((sequence_setTimeStamp low high).2 hyes.1)

end

end Sync

end Windivs

import Windivs.Cm.SyncEffect

/-!
# Trying a synchronisation again

`HvSyncHive` returns `FALSE` when a callback of one of its writers fails. The dirty
vector is still as it was then, so the blocks could be written by the next call. But
the writers start with a test of the sequence numbers of the base block in memory,
which the failed writer has left apart if it did not get through its first phase; and
nothing brings them together again. `Windivs.retryPromise_iff` says exactly which
failures can be repaired by trying again: those of the last two callbacks of a writer,
and the failure to allocate a buffer.
-/

namespace Windivs

open BaseBlock

/-- The first callback to fail is number `k`, counted from here. -/
def FailsAt (outcome : ℕ → Option ℕ) (io : Io HFileType) (k : ℕ) : Prop :=
  (∀ j < k, outcome (io.calls + j) = none) ∧ outcome (io.calls + k) ≠ none

/-- Callbacks of which none fails. -/
def Callbacks.Succeed (cb : Callbacks) : Prop :=
  cb.allocate = true ∧ ∀ n, cb.outcome n = none

/-- **What is expected of a hive after a failed synchronisation**: no dirty bit is
lost, and the next synchronisation, if no callback fails, succeeds and has every block on
the primary file, under a header that is closed. -/
def RetryPromise (h : HHive) (w : World) : Prop :=
  (∀ i, h.dirtyVector.rtlTestBit i = true → w.hive.dirtyVector.rtlTestBit i = true) ∧
    ∀ (cb : Callbacks) (low high : ℕ), cb.Succeed →
      ∃ w', hvSyncHive cb low high w = .ok (true, w') ∧
        (∀ i < (h.storage .stable).length, OnPrimary h w'.io i) ∧ PrimaryClosed w'.io

/-- **The failures that can be repaired**: there was no memory for the header of the
log, or the callback that failed is one of the last two of its writer. -/
def Repairable (cb : Callbacks) (h : HHive) (io : Io HFileType) : Prop :=
  h.log = true ∧ cb.allocate = false ∨
    ∃ k, FailsAt cb.outcome io k ∧ (dirtyBlocks h).length + 2 ≤ k % callCount h

section Retry

variable {cb : Callbacks} {h : HHive} {io : Io HFileType} {low high : ℕ} {w : World}

theorem FailsAt.unique {outcome : ℕ → Option ℕ} {k k' : ℕ} (hk : FailsAt outcome io k)
    (hk' : FailsAt outcome io k') : k = k' := by
  rcases lt_trichotomy k k' with hlt | heq | hlt
  · exact absurd (hk'.1 k hlt) hk.2
  · exact heq
  · exact absurd (hk.1 k' hlt) hk'.2

/-- A failure among the first `n` callbacks has a first one. -/
theorem exists_failsAt {outcome : ℕ → Option ℕ} {n : ℕ}
    (hsome : ¬∀ k < n, outcome (io.calls + k) = none) : ∃ k < n, FailsAt outcome io k := by
  classical
  push Not at hsome
  have hfind : ∃ k, k < n ∧ outcome (io.calls + k) ≠ none := hsome
  refine ⟨Nat.find hfind, (Nat.find_spec hfind).1, fun j hj => ?_, (Nat.find_spec hfind).2⟩
  by_contra hne
  exact Nat.find_min hfind hj ⟨hj.trans (Nat.find_spec hfind).1, hne⟩

/-- **What a failure leaves**: the hive with another base block, whose sequence numbers
agree if and only if the failure can be repaired; and the clean blocks on the primary
file as they were. -/
theorem hvSyncHive_fail (hs : Syncable h) (hsig : h.signature = 0xbee0bee0)
    (hseq : InStep h.baseBlock)
    (hvol : h.hiveFlags % 2 ≠ 1) (hdirty : h.dirtyVector.rtlFindSetBits 1 0 ≠ RtlBitmap.maxIndex)
    (hfail : hvSyncHive cb low high ⟨h, io⟩ = .ok (false, w)) :
    (∃ b, w.hive = { h with baseBlock := b } ∧ Syncable { h with baseBlock := b } ∧
      (InStep b ↔ Repairable cb h io)) ∧
    ∀ i, i ∉ dirtyBlocks h → ∀ o < 4096, (w.io.disk .primary).bytes ((i + 1) * 4096 + o) =
      (io.disk .primary).bytes ((i + 1) * 4096 + o) := by
  have hstamp := (sequence_setTimeStamp low high).2 hseq
  have hs1 := hs.setTimeStamp low high
  by_cases hno : h.log = true ∧ cb.allocate = false
  · rw [hvSyncHive_refused hs hsig hvol hdirty (.inr hno)] at hfail
    obtain rfl := (Prod.mk.inj (Except.ok.inj hfail)).2
    exact ⟨⟨_, rfl, hs1, iff_of_true hstamp (.inl hno)⟩, fun _ _ _ _ => rfl⟩
  · have halloc : h.log = true → cb.allocate = true := fun hlog => by
      simpa [hlog] using hno
    rw [hvSyncHive_eq hs hsig hseq hvol hdirty halloc] at hfail
    have hrun := Except.ok.inj hfail
    constructor
    · obtain ⟨k, hlt, hk⟩ := exists_failsAt fun hnone =>
        absurd (runWriters_of_none (h := { h with
          baseBlock := setTimeStamp h.baseBlock low high }) (l := writers h) hnone)
          (by rw [hrun]; exact Bool.false_ne_true)
      obtain ⟨-, b, hb, hsb, hiff⟩ := runWriters_fail hs1 hstamp hlt hk.1 hk.2
      rw [hrun] at hb
      refine ⟨b, hb, hsb, hiff.trans ⟨fun hlate => .inr ⟨k, hk, hlate⟩, ?_⟩⟩
      rintro (hlog | ⟨k', hk', hlate⟩)
      · exact absurd hlog hno
      · rwa [hk.unique hk']
    · obtain ⟨hbase, ws, hws, htouch⟩ := runWriters_touches cb.outcome (writers h)
        { h with baseBlock := setTimeStamp h.baseBlock low high } io
      rw [hrun] at hbase hws
      exact fun i hi o ho => disk_of_notMem_dirtyBlocks hbase hws htouch hi ho

/-- With the sequence numbers apart, no call writes the hive again. -/
theorem not_retryPromise {b : Mem} (hs : Syncable { h with baseBlock := b })
    (hsig : h.signature = 0xbee0bee0) (hvol : h.hiveFlags % 2 ≠ 1)
    (hdirty : h.dirtyVector.rtlFindSetBits 1 0 ≠ RtlBitmap.maxIndex)
    (hseq : sequence1 b ≠ sequence2 b) : ¬RetryPromise h ⟨{ h with baseBlock := b }, io⟩ := by
  rintro ⟨-, hretry⟩
  obtain ⟨w', hok, -⟩ := hretry ⟨true, fun _ => none⟩ 0 0 ⟨rfl, fun _ => rfl⟩
  rw [hvSyncHive_refused hs hsig hvol hdirty (.inl hseq)] at hok
  cases hok

/-- With the sequence numbers together, and the clean blocks on the primary file, the
next call does what is expected. -/
theorem retryPromise_of_sequence {b : Mem} (hs : Syncable { h with baseBlock := b })
    (hsig : h.signature = 0xbee0bee0) (hvol : h.hiveFlags % 2 ≠ 1)
    (hdirty : h.dirtyVector.rtlFindSetBits 1 0 ≠ RtlBitmap.maxIndex) (hseq : InStep b)
    (hclean : ∀ i < (h.storage .stable).length, i ∉ dirtyBlocks h → OnPrimary h io i) :
    RetryPromise h ⟨{ h with baseBlock := b }, io⟩ := by
  refine ⟨fun _ hi => hi, fun cb low high hcb => ?_⟩
  have hrun := hvSyncHive_eq hs hsig hseq hvol hdirty (fun _ => hcb.1) low high io
  have htrue : (runWriters cb.outcome (writers h)
      { h with baseBlock := setTimeStamp b low high } io).1 = true :=
    runWriters_of_none fun k _ => hcb.2 (io.calls + k)
  rcases hres : runWriters cb.outcome (writers h)
    { h with baseBlock := setTimeStamp b low high } io with ⟨ok, w'⟩
  rw [hres] at htrue
  obtain rfl : ok = true := htrue
  have hok := hrun.trans (congrArg Except.ok hres)
  obtain ⟨hwritten, hkept, hclosed⟩ := hvSyncHive_effect hs hsig hvol hdirty hok
  refine ⟨w', hok, fun i hi => ?_, hclosed⟩
  by_cases hmem : i ∈ dirtyBlocks h
  · exact hwritten i hmem
  · exact fun o ho => (hkept i hmem o ho).trans (hclean i hi hmem o ho)

/-- **A failed synchronisation can be tried again** if and only if there was no memory
for the header of the log, or the callback that failed is one of the last two of its
writer: the write of the closing header, or the flush after it. -/
theorem retryPromise_iff (hs : Syncable h) (hsig : h.signature = 0xbee0bee0)
    (hseq : BaseBlock.sequence1 h.baseBlock = BaseBlock.sequence2 h.baseBlock)
    (hclean : ∀ i < (h.storage .stable).length, h.dirtyVector.rtlTestBit i = false →
      OnPrimary h io i) (hfail : hvSyncHive cb low high ⟨h, io⟩ = .ok (false, w)) :
    RetryPromise h w ↔ Repairable cb h io := by
  have hvol : h.hiveFlags % 2 ≠ 1 := by
    intro hvol
    simp only [hvSyncHive, assert_of hs.readOnly, assert_of hsig, if_pos hvol] at hfail
    cases hfail
  have hdirty : h.dirtyVector.rtlFindSetBits 1 0 ≠ RtlBitmap.maxIndex := by
    intro hnone
    simp only [hvSyncHive, assert_of hs.readOnly, assert_of hsig, if_neg hvol, if_pos hnone] at hfail
    cases hfail
  obtain ⟨⟨b, hb, hsb, hiff⟩, hkept⟩ := hvSyncHive_fail hs hsig hseq hvol hdirty hfail
  obtain ⟨h', io'⟩ := w
  obtain rfl : h' = { h with baseBlock := b } := hb
  rw [← hiff]
  constructor
  · intro hretry
    by_contra hne
    exact not_retryPromise hsb hsig hvol hdirty hne hretry
  · refine fun heq => retryPromise_of_sequence hsb hsig hvol hdirty heq fun i hi hmem o ho => ?_
    have hclear : h.dirtyVector.rtlTestBit i = false := by
      rw [mem_dirtyBlocks] at hmem
      simpa [hi] using hmem
    exact (hkept i hmem o ho).trans (hclean i hi hclear o ho)

end Retry

/-! ### A hive of one dirty block -/

/-- The base block of a hive of a given length. -/
def headerOf (length : ℕ) : Mem :=
  ((((Mem.writeU32 (fun _ => 0) 0 0x66676572).writeU32 20 1).writeU32 32 1).writeU32 36 32).writeU32
    40 length

/-- A hive of one block, which is dirty. It has neither a log nor an alternate file. -/
def oneBlockHive : HHive where
  signature := 0xbee0bee0
  baseBlock := headerOf 4096
  dirtyVector := ⟨32, [1]⟩
  dirtyCount := 1
  flat := false
  readOnly := false
  log := false
  alternate := false
  hiveFlags := 0
  storage
    | .stable => ⟨[⟨some 0, some 0⟩], fun _ => hcellNil, fun _ => 0⟩
    | .volatile => ⟨[], fun _ => hcellNil, fun _ => 0⟩

theorem syncable_oneBlockHive : Syncable oneBlockHive where
  readOnly := rfl
  length := by with_unfolding_all decide
  small := by decide
  signature := by with_unfolding_all decide
  format := by with_unfolding_all decide
  major := by with_unfolding_all decide
  rootCell := by with_unfolding_all decide
  blocks i hi := by
    obtain rfl : i = 0 := Nat.lt_one_iff.1 hi
    exact ⟨0, rfl⟩
  cover := by decide
  max := by decide
  stray j hj hj' hbit := .inr rfl

/-- Files that hold nothing, with no callback made. -/
def noFiles : Io HFileType := ⟨fun _ => ⟨fun _ => 0, 0⟩, [], 0⟩

/-- Callbacks of which number `k` fails. -/
def failing (k : ℕ) : Callbacks := ⟨true, fun n => if n = k then some 0 else none⟩

theorem failsAt_failing (k : ℕ) : FailsAt (failing k).outcome noFiles k := by
  refine ⟨fun j hj => ?_, ?_⟩
  · simp [failing, noFiles, hj.ne]
  · simp [failing, noFiles]

theorem sequence_oneBlockHive : InStep oneBlockHive.baseBlock := by
  with_unfolding_all decide

theorem dirty_oneBlockHive : oneBlockHive.dirtyVector.rtlFindSetBits 1 0 ≠ RtlBitmap.maxIndex := by
  with_unfolding_all decide

/-- The hive has a single writer of five callbacks, any of which makes it fail. -/
theorem hvSyncHive_failing {k : ℕ} (hk : k < 5) :
    ∃ w, hvSyncHive (failing k) 0 0 ⟨oneBlockHive, noFiles⟩ = .ok (false, w) := by
  have hrun : hvSyncHive (failing k) 0 0 ⟨oneBlockHive, noFiles⟩ = .ok _ :=
    hvSyncHive_eq syncable_oneBlockHive rfl sequence_oneBlockHive (by decide) dirty_oneBlockHive
      (fun _ => rfl) 0 0 noFiles
  have hfail := failsAt_failing k
  obtain ⟨hno, -⟩ := runWriters_fail (l := writers oneBlockHive)
    (syncable_oneBlockHive.setTimeStamp 0 0)
    ((sequence_setTimeStamp 0 0).2 sequence_oneBlockHive) hk hfail.1 hfail.2
  rcases hres : runWriters (failing k).outcome (writers oneBlockHive)
    { oneBlockHive with baseBlock := setTimeStamp oneBlockHive.baseBlock 0 0 } noFiles with
    ⟨ok, w⟩
  rw [hres] at hno
  obtain rfl : ok = false := hno
  exact ⟨w, hrun.trans (congrArg Except.ok hres)⟩

/-- The last flush fails: trying again is enough. -/
theorem retryPromise_lastFlush :
    ∃ w, hvSyncHive (failing 4) 0 0 ⟨oneBlockHive, noFiles⟩ = .ok (false, w) ∧
      RetryPromise oneBlockHive w := by
  obtain ⟨w, hw⟩ := hvSyncHive_failing (show 4 < 5 by decide)
  refine ⟨w, hw, (retryPromise_iff syncable_oneBlockHive rfl sequence_oneBlockHive
    (fun i hi hclear => ?_) hw).2 (.inr ⟨4, failsAt_failing 4, by decide⟩)⟩
  obtain rfl : i = 0 := Nat.lt_one_iff.1 hi
  exact absurd hclear (by decide)

/-- **A hive that is never written again.** The first write to the primary file fails,
once; from then on every synchronisation is refused. -/
theorem firstWrite_not_retried :
    Syncable oneBlockHive ∧
      BaseBlock.sequence1 oneBlockHive.baseBlock = BaseBlock.sequence2 oneBlockHive.baseBlock ∧
      ∃ w, hvSyncHive (failing 0) 0 0 ⟨oneBlockHive, noFiles⟩ = .ok (false, w) ∧
        ∀ (cb : Callbacks) (low high : ℕ), ∃ w', hvSyncHive cb low high w = .ok (false, w') := by
  obtain ⟨w, hw⟩ := hvSyncHive_failing (show 0 < 5 by decide)
  refine ⟨syncable_oneBlockHive, sequence_oneBlockHive, w, hw, fun cb low high => ?_⟩
  obtain ⟨⟨b, hb, hsb, hiff⟩, -⟩ := hvSyncHive_fail syncable_oneBlockHive rfl sequence_oneBlockHive
    (by decide) dirty_oneBlockHive hw
  have hne : ¬InStep b := by
    rw [hiff]
    rintro (⟨hlog, -⟩ | ⟨k, hk, hlate⟩)
    · cases hlog
    · rw [← (failsAt_failing 0).unique hk] at hlate
      exact absurd hlate (by decide)
  obtain ⟨h', io'⟩ := w
  obtain rfl : h' = { oneBlockHive with baseBlock := b } := hb
  exact ⟨_, hvSyncHive_refused hsb rfl (show 0 % 2 ≠ 1 by decide) dirty_oneBlockHive (.inl hne)
    low high io'⟩

end Windivs

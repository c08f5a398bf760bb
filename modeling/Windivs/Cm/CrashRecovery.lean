import Windivs.Cm.LogFormat

/-!
# A synchronisation that stops

The log is there for a synchronisation of a hive that does not come to its end, because a write
fails or the system stops. A callback that fails has written any part of its bytes, so a run that
fails leaves on disk what a crash at that point does. Wherever it is, nothing is lost
(`Windivs.nothingLost_of_hvSyncHive`): the primary file is as it was, or `HvpRecoverDataFromLog`
brings the new data of every dirty block and leaves the other blocks alone.

The header, which `HvpRecoverHeaderFromLog` brings back, is not looked at here.
-/

namespace Windivs

open List BaseBlock

variable {cb : Callbacks} {h : HHive} {io io' : Io HFileType} {low high : ℕ} {w : World}

/-! ### What the writers leave alone -/

section Files

variable {outcome : ℕ → Option ℕ} {l : List HFileType} {t : HFileType} {ws : List (Write HFileType)}

/-- Whatever fails, a writer writes its own file. -/
theorem file_of_twoPhase (hws : (twoPhase outcome t h io).2.io.writes = io.writes ++ ws) :
    ∀ v ∈ ws, v.file = t := by
  rw [(twoPhase_fst outcome t h io).2] at hws
  obtain ⟨-, ws', hws', hmem⟩ := @Io.runOps_writes _ outcome (writerOps t h) io
  obtain rfl := append_cancel_left (hws.symm.trans hws')
  intro v hv
  obtain ⟨u, hu, rfl | ⟨k, rfl⟩⟩ := hmem v hv
  · exact file_of_mem_writerOps hu
  · exact (file_of_mem_writerOps hu : u.file = t)

theorem file_of_runWriters (hws : (runWriters outcome l h io).2.io.writes = io.writes ++ ws) :
    ∀ v ∈ ws, v.file ∈ l := by
  induction l generalizing h io ws with
  | nil =>
    obtain rfl := append_cancel_left ((append_nil io.writes).trans hws)
    simp
  | cons t l ih =>
    cases hfirst : (twoPhase outcome t h io).1 with
    | false =>
      rw [runWriters_cons_of_false hfirst] at hws
      exact fun v hv => file_of_twoPhase hws v hv ▸ mem_cons_self
    | true =>
      rw [runWriters_cons_of_true hfirst] at hws
      obtain ⟨-, vs, hvs, -⟩ := runWriters_touches outcome l (closed t h) { io with
        writes := io.writes ++ writerWrites t h
        calls := io.calls + callCount h }
      have hlater := ih hvs
      rw [hvs, append_assoc] at hws
      obtain rfl := append_cancel_left hws
      intro v hv
      rcases mem_append.1 hv with hv | hv
      · exact file_of_mem_writerOps (mem_writesOf.1 hv) ▸ mem_cons_self
      · exact mem_cons_of_mem t (hlater v hv)

end Files

/-! ### The replay -/

/-- **Replaying the log** over a primary file on which any part of the later writes has been
done. -/
theorem replayed_of_log (hs : Syncable h) (hseq : InStep h.baseBlock)
    (hsector : 4 + h.dirtyVector.sizeOfBitMap ≤ 512) (io : Io HFileType)
    {vs : List (Write HFileType)} (hbase : io'.base = io.base)
    (hwrites : io'.writes = io.writes ++ (writerWrites .log h ++ vs))
    (hvs : ∀ v ∈ vs, v.file ≠ .log ∧ Touches h v) {env : LoadEnv} {b : Mem}
    (hnone : ∀ n, env.outcome n = none)
    (hlen : BaseBlock.length b = (h.storage .stable).length * 4096) :
    ∃ r, hvpRecoverDataFromLog env b io' = .ok (.hiveSuccess, r) ∧
      Replayed h (io.disk .primary) (r.disk .primary) := by
  obtain ⟨w, hw⟩ := hvpWriteLog_succeeds hs hseq io
  have hlog : io'.disk .log = w.io.disk .log := by
    rw [disk_of_hvpWriteLog hs hseq hw, Io.disk, hbase, hwrites, applyWrites_append,
      applyWrites_append, applyWrites_of_ne fun v hv => (hvs v hv).1]
    rfl
  have htrip := roundTrip_of_fits hs (by omega) hseq (.inl hsector) (h.mem .stable)
  rw [show h.setMem .stable (h.mem .stable) = h from h.setStorage_self .stable] at htrip
  obtain ⟨r, hrun, hr⟩ := htrip _ _ _ hw env b _ hnone hlen hlog
  refine ⟨r, hrun, hr.dirty, fun i hi hclean o ho => (hr.clean i hi hclean o ho).trans ?_⟩
  -- a block that is not dirty is written neither by the log nor later
  refine disk_of_notMem_dirtyBlocks hbase hwrites (fun v hv => ?_) hclean ho
  rcases mem_append.1 hv with hv | hv
  · exact touches_of_mem (mem_writesOf.1 hv)
  · exact (hvs v hv).2

/-- **What is expected of the log** of a hive: the primary file is as it was before, or a replay
brings the blocks that were dirty as they were in memory, and leaves the others as they were on
the file. -/
def NothingLost (h : HHive) (before after : Io HFileType) : Prop :=
  after.disk .primary = before.disk .primary ∨
    ∀ (env : LoadEnv) (b : Mem), (∀ n, env.outcome n = none) →
      BaseBlock.length b = (h.storage .stable).length * 4096 →
        ∃ r, hvpRecoverDataFromLog env b after = .ok (.hiveSuccess, r) ∧
          Replayed h (before.disk .primary) (r.disk .primary)

/-- Writers of which the first one writes the log. -/
theorem nothingLost_of_runWriters (hs : Syncable h) (hseq : InStep h.baseBlock)
    (hsector : 4 + h.dirtyVector.sizeOfBitMap ≤ 512) {l : List HFileType} (hl : .log ∉ l)
    (outcome : ℕ → Option ℕ) (io : Io HFileType) :
    NothingLost h io (runWriters outcome (.log :: l) h io).2.io := by
  cases hfirst : (twoPhase outcome .log h io).1 with
  | false =>
    -- the log is not complete, and the primary file has not been touched
    refine .inl ?_
    obtain ⟨hbase, ws, hws, -⟩ := twoPhase_touches outcome .log h io
    rw [runWriters_cons_of_false hfirst, Io.disk, hbase, hws, applyWrites_append]
    refine applyWrites_of_ne (fun v hv => ?_) _
    rw [file_of_twoPhase hws v hv]
    decide
  | true =>
    refine .inr fun env b hnone hlen => ?_
    rw [runWriters_cons_of_true hfirst]
    obtain ⟨hbase, vs, hvs, htouch⟩ := runWriters_touches outcome l (closed .log h) { io with
      writes := io.writes ++ writerWrites .log h
      calls := io.calls + callCount h }
    have hfile : ∀ v ∈ vs, v.file ≠ .log := fun v hv heq =>
      hl (heq ▸ file_of_runWriters hvs v hv)
    exact replayed_of_log hs hseq hsector io hbase (hvs.trans (append_assoc _ _ _))
      (fun v hv => ⟨hfile v hv, htouch v hv⟩) hnone hlen

/-- **Nothing is lost**, however a synchronisation ends and whatever is written of its last
write. -/
theorem nothingLost_of_hvSyncHive (hs : Syncable h) (hsig : h.signature = 0xbee0bee0)
    (hvol : h.hiveFlags % 2 ≠ 1) (hdirty : h.dirtyVector.rtlFindSetBits 1 0 ≠ RtlBitmap.maxIndex)
    (hlog : h.log = true) (hsector : 4 + h.dirtyVector.sizeOfBitMap ≤ 512) {ok : Bool}
    (hsync : hvSyncHive cb low high ⟨h, io⟩ = .ok (ok, w)) : NothingLost h io w.io := by
  by_cases hno : sequence1 h.baseBlock ≠ sequence2 h.baseBlock ∨
      h.log = true ∧ cb.allocate = false
  · rw [hvSyncHive_refused hs hsig hvol hdirty hno] at hsync
    cases hsync
    exact .inl rfl
  · simp only [not_or, not_not, not_and, Bool.not_eq_false] at hno
    obtain ⟨l, hwriters, hl⟩ : ∃ l, writers h = .log :: l ∧ .log ∉ l := by
      refine ⟨.primary :: if h.alternate then [.alternate] else [], ?_, by split <;> decide⟩
      rw [writers, hlog]
      rfl
    rw [hvSyncHive_eq hs hsig hno.1 hvol hdirty hno.2, hwriters] at hsync
    obtain rfl := congrArg Prod.snd (Except.ok.inj hsync)
    rcases nothingLost_of_runWriters (hs.setTimeStamp low high)
      ((sequence_setTimeStamp low high).2 hno.1) hsector hl cb.outcome io with hsame | hreplay
    · exact .inl hsame
    · refine .inr fun env b hnone hlen => ?_
      obtain ⟨r, hrun, hr⟩ := hreplay env b hnone hlen
      exact ⟨r, hrun, hr.dirty, hr.clean⟩

/-- The hive of one dirty block, with a log. -/
def loggedHive : HHive := { oneBlockHive with log := true }

/-- A crash in the middle of the block on the primary file. -/
theorem nothingLost_of_hvSyncHive_torn : ∃ ok w,
    hvSyncHive ⟨true, fun n => if n = 6 then some 100 else none⟩ 0 0 ⟨loggedHive, noFiles⟩ =
      .ok (ok, w) ∧ NothingLost loggedHive noFiles w.io := by
  have hs : Syncable loggedHive := { syncable_oneBlockHive with }
  have hsync : hvSyncHive ⟨true, fun n => if n = 6 then some 100 else none⟩ 0 0
      ⟨loggedHive, noFiles⟩ = .ok _ :=
    hvSyncHive_eq hs rfl sequence_oneBlockHive (by decide) dirty_oneBlockHive (fun _ => rfl) 0 0 _
  exact ⟨_, _, hsync,
    nothingLost_of_hvSyncHive hs rfl (by decide) dirty_oneBlockHive rfl (by decide) hsync⟩

end Windivs

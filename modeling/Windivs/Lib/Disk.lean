import Windivs.Lib.Memory

/-!
# Files behind callbacks that may fail

A program that writes files through callbacks does two things to the world: it
issues writes, in order, and it is told after each whether it succeeded. What is
on disk is the effect of the writes issued so far, and a crash leaves the effect
of a prefix of them.

`Windivs.Io` keeps the writes as a list (`Windivs.Io.writes`) next to the disk the
run started from; `Windivs.Io.disk` applies them. The outcome of each call is
given in advance, by a function of its number: `none` for success, `some k` for
a failure that leaves the first `k` bytes written.
-/

namespace Windivs

open List

/-! ### Files and writes -/

/-- A file. Its bytes from the size on mean nothing. -/
structure File where
  bytes : Mem
  size : ℕ

/-- A write of `length` bytes, those of `src` from address `addr` on. -/
structure Write (α : Type*) where
  file : α
  offset : ℕ
  src : Mem
  addr : ℕ
  length : ℕ

variable {α : Type*}

namespace Write

/-- The write covers a byte of a file. -/
def Covers (w : Write α) (f : α) (a : ℕ) : Prop :=
  w.file = f ∧ w.offset ≤ a ∧ a < w.offset + w.length

/-- The part of the write that is done when it fails after `k` bytes. -/
def cut (w : Write α) (k : ℕ) : Write α := { w with length := min k w.length }

variable [DecidableEq α]

/-- The disk after a write. -/
def apply (w : Write α) (d : α → File) : α → File :=
  Function.update d w.file
    { bytes := (d w.file).bytes.copy w.offset w.src w.addr w.length
      size := max (d w.file).size (w.offset + w.length) }

theorem apply_bytes_of_covers {w : Write α} {f : α} {a : ℕ} (h : w.Covers f a) (d : α → File) :
    (w.apply d f).bytes a = w.src (w.addr + (a - w.offset)) := by
  obtain ⟨rfl, hlo, hhi⟩ := h
  rw [apply, Function.update_self]
  exact Mem.copy_of_mem hlo hhi

theorem apply_bytes_of_not_covers {w : Write α} {f : α} {a : ℕ} (h : ¬w.Covers f a)
    (d : α → File) : (w.apply d f).bytes a = (d f).bytes a := by
  by_cases hf : w.file = f
  · subst hf
    rw [apply, Function.update_self]
    exact Mem.copy_of_notMem (by
      by_contra hin
      exact h ⟨rfl, by omega, by omega⟩)
  · rw [apply, Function.update_of_ne (Ne.symm hf)]

end Write

section Apply

variable [DecidableEq α] {ws : List (Write α)}

/-- The disk after a list of writes. -/
def applyWrites (ws : List (Write α)) (d : α → File) : α → File :=
  ws.foldl (fun d w => w.apply d) d

@[simp] theorem applyWrites_nil (d : α → File) : applyWrites [] d = d := rfl

@[simp] theorem applyWrites_cons (w : Write α) (ws : List (Write α)) (d : α → File) :
    applyWrites (w :: ws) d = applyWrites ws (w.apply d) := rfl

@[simp] theorem applyWrites_append (ws vs : List (Write α)) (d : α → File) :
    applyWrites (ws ++ vs) d = applyWrites vs (applyWrites ws d) :=
  foldl_append

/-- A byte that no write covers is as it was. -/
theorem applyWrites_of_not_covers {f : α} {a : ℕ} (h : ∀ w ∈ ws, ¬w.Covers f a) (d : α → File) :
    (applyWrites ws d f).bytes a = (d f).bytes a := by
  induction ws generalizing d with
  | nil => rfl
  | cons w ws ih =>
    rw [applyWrites_cons, ih fun v hv => h v (mem_cons_of_mem _ hv)]
    exact Write.apply_bytes_of_not_covers (h w mem_cons_self) d

/-- A byte that exactly one kind of write covers: whichever comes last, the value
is the one they agree on. -/
theorem applyWrites_of_covers {f : α} {a : ℕ} {v : UInt8}
    (hval : ∀ w ∈ ws, w.Covers f a → w.src (w.addr + (a - w.offset)) = v)
    (hsome : ∃ w ∈ ws, w.Covers f a) (d : α → File) : (applyWrites ws d f).bytes a = v := by
  induction ws generalizing d with
  | nil => simp at hsome
  | cons w ws ih =>
    rw [applyWrites_cons]
    by_cases hrest : ∃ u ∈ ws, u.Covers f a
    · exact ih (fun u hu => hval u (mem_cons_of_mem _ hu)) hrest _
    · -- the first write is the only one
      have hw : w.Covers f a := by
        obtain ⟨u, hu, hc⟩ := hsome
        rcases mem_cons.1 hu with rfl | hu
        · exact hc
        · exact absurd ⟨u, hu, hc⟩ hrest
      rw [applyWrites_of_not_covers fun u hu hc => hrest ⟨u, hu, hc⟩,
        Write.apply_bytes_of_covers hw]
      exact hval w mem_cons_self hw

/-- Writes to other files do not touch a file. -/
theorem applyWrites_of_ne {f : α} (h : ∀ w ∈ ws, w.file ≠ f)
    (d : α → File) : applyWrites ws d f = d f := by
  induction ws generalizing d with
  | nil => rfl
  | cons w ws ih =>
    rw [applyWrites_cons, ih fun v hv => h v (mem_cons_of_mem _ hv), Write.apply,
      Function.update_of_ne (Ne.symm (h w mem_cons_self))]

/-- A file is at least as long as before, and as any write to it reaches. -/
theorem size_le_applyWrites (ws : List (Write α)) (d : α → File) (f : α) :
    (d f).size ≤ (applyWrites ws d f).size := by
  induction ws generalizing d with
  | nil => exact le_rfl
  | cons w ws ih =>
    refine le_trans ?_ (ih (w.apply d))
    by_cases hf : w.file = f
    · subst hf
      rw [Write.apply, Function.update_self]
      exact le_max_left _ _
    · rw [Write.apply, Function.update_of_ne (Ne.symm hf)]

theorem le_size_of_mem {w : Write α} (hw : w ∈ ws) (d : α → File) :
    w.offset + w.length ≤ (applyWrites ws d w.file).size := by
  induction ws generalizing d with
  | nil => cases hw
  | cons v ws ih =>
    rcases mem_cons.1 hw with rfl | hw
    · refine le_trans ?_ (size_le_applyWrites ws (w.apply d) w.file)
      rw [Write.apply, Function.update_self]
      exact le_max_right _ _
    · exact ih hw (v.apply d)

end Apply

/-! ### Callbacks -/

/-- The files of a run: the disk it started from, the writes issued since, and
the number of callbacks made. -/
structure Io (α : Type*) where
  base : α → File
  writes : List (Write α)
  calls : ℕ

namespace Io

/-- What is on disk. -/
def disk [DecidableEq α] (io : Io α) : α → File := applyWrites io.writes io.base

/-- A write callback. -/
def fileWrite (outcome : ℕ → Option ℕ) (io : Io α) (w : Write α) : Bool × Io α :=
  match outcome io.calls with
  | none => (true, { io with writes := io.writes ++ [w], calls := io.calls + 1 })
  | some k => (false, { io with writes := io.writes ++ [w.cut k], calls := io.calls + 1 })

/-- A read callback: the bytes of a file from an offset on. It fails beyond the end. -/
def fileRead [DecidableEq α] (outcome : ℕ → Option ℕ) (io : Io α) (f : α) (offset length : ℕ) :
    Option Mem × Io α :=
  (if outcome io.calls = none ∧ offset + length ≤ (io.disk f).size then
      some fun a => (io.disk f).bytes (offset + a)
    else none, { io with calls := io.calls + 1 })

/-- A flush callback. -/
def fileFlush (outcome : ℕ → Option ℕ) (io : Io α) : Bool × Io α :=
  ((outcome io.calls).isNone, { io with calls := io.calls + 1 })

/-! ### Sequences of callbacks -/

/-- A callback. -/
inductive Op (α : Type*) where
  | write (w : Write α)
  | flush

/-- The writes of a sequence of callbacks. -/
def writesOf (ops : List (Op α)) : List (Write α) :=
  ops.filterMap fun
    | .write w => some w
    | .flush => none

/-- One callback. -/
def step (outcome : ℕ → Option ℕ) (io : Io α) : Op α → Bool × Io α
  | .write w => io.fileWrite outcome w
  | .flush => io.fileFlush outcome

/-- Callbacks one after the other, up to the first that fails. -/
def runOps (outcome : ℕ → Option ℕ) : List (Op α) → Io α → Bool × Io α
  | [], io => (true, io)
  | op :: ops, io =>
    match io.step outcome op with
    | (true, io) => runOps outcome ops io
    | (false, io) => (false, io)

variable {outcome : ℕ → Option ℕ} {ops : List (Op α)} {io : Io α}

theorem runOps_cons_true {op : Op α} {io io' : Io α} (h : io.step outcome op = (true, io')) :
    runOps outcome (op :: ops) io = runOps outcome ops io' := by
  simp only [runOps, h]

theorem runOps_cons_false {op : Op α} {io io' : Io α} (h : io.step outcome op = (false, io')) :
    runOps outcome (op :: ops) io = (false, io') := by
  simp only [runOps, h]

theorem runOps_append (l r : List (Op α)) (io : Io α) :
    runOps outcome (l ++ r) io =
      match runOps outcome l io with
      | (true, io) => runOps outcome r io
      | (false, io) => (false, io) := by
  induction l generalizing io with
  | nil => rfl
  | cons op l ih =>
    rw [cons_append]
    rcases h : io.step outcome op with ⟨_ | _, io'⟩
    · rw [runOps_cons_false h, runOps_cons_false h]
    · rw [runOps_cons_true h, runOps_cons_true h, ih]

/-- A callback that succeeds. -/
theorem step_of_none (h : outcome io.calls = none) (op : Op α) :
    io.step outcome op =
      (true, { io with writes := io.writes ++ writesOf [op], calls := io.calls + 1 }) := by
  cases op with
  | write w => simp [step, fileWrite, h, writesOf]
  | flush => simp [step, fileFlush, h, writesOf]

/-- **All callbacks succeed**: all writes are issued. -/
theorem runOps_of_none (h : ∀ k < ops.length, outcome (io.calls + k) = none) :
    runOps outcome ops io = (true,
      { io with writes := io.writes ++ writesOf ops, calls := io.calls + ops.length }) := by
  induction ops generalizing io with
  | nil => simp [runOps, writesOf]
  | cons op ops ih =>
    rw [runOps_cons_true (step_of_none (by simpa using h 0 (by simp)) op), ih fun k hk => ?_]
    · simp only [append_assoc, length_cons]
      rw [show writesOf [op] ++ writesOf ops = writesOf (op :: ops) by
        rw [writesOf, writesOf, ← filterMap_append]
        rfl, Nat.add_right_comm, Nat.add_assoc]
    · rw [Nat.add_assoc, Nat.add_comm 1]
      exact h (k + 1) (by simpa using hk)

/-- **A callback fails**: the sequence ends there. -/
theorem runOps_of_some {k : ℕ} (hk : k < ops.length)
    (hbefore : ∀ j < k, outcome (io.calls + j) = none) (hfail : outcome (io.calls + k) ≠ none) :
    (runOps outcome ops io).1 = false := by
  induction ops generalizing io k with
  | nil => simp at hk
  | cons op ops ih =>
    cases k with
    | zero =>
      obtain ⟨n, hn⟩ := Option.ne_none_iff_exists'.1 hfail
      rw [Nat.add_zero] at hn
      cases op with
      | write w => simp [runOps, step, fileWrite, hn]
      | flush => simp [runOps, step, fileFlush, hn]
    | succ k =>
      rw [runOps_cons_true (step_of_none (by simpa using hbefore 0 (by simp)) op)]
      refine ih (by simpa using hk) (fun j hj => ?_) ?_
      · have := hbefore (j + 1) (by omega)
        rwa [Nat.add_assoc, Nat.add_comm 1]
      · rwa [Nat.add_assoc, Nat.add_comm 1]

/-- **The sequence succeeds**: no callback failed. -/
theorem outcome_of_runOps (h : (runOps outcome ops io).1 = true) :
    ∀ k < ops.length, outcome (io.calls + k) = none := by
  intro k hk
  induction k using Nat.strong_induction_on with
  | _ k ih =>
    by_contra hfail
    rw [runOps_of_some hk (fun j hj => ih j hj (hj.trans hk)) hfail] at h
    cases h

/-- The writes issued by a sequence of callbacks are its writes, the last one
perhaps in part. -/
theorem runOps_writes (ops : List (Op α)) (io : Io α) :
    (runOps outcome ops io).2.base = io.base ∧
      ∃ ws, (runOps outcome ops io).2.writes = io.writes ++ ws ∧
        ∀ w ∈ ws, ∃ v, .write v ∈ ops ∧ (w = v ∨ ∃ k, w = v.cut k) := by
  induction ops generalizing io with
  | nil => exact ⟨rfl, [], by simp [runOps], by simp⟩
  | cons op ops ih =>
    have hstep : (io.step outcome op).2.base = io.base ∧
        ∃ ws, (io.step outcome op).2.writes = io.writes ++ ws ∧
          ∀ w ∈ ws, ∃ v, op = .write v ∧ (w = v ∨ ∃ k, w = v.cut k) := by
      cases op with
      | write v =>
        rcases h : outcome io.calls with _ | k
        · exact ⟨by simp [step, fileWrite, h], [v], by simp [step, fileWrite, h], by simp⟩
        · refine ⟨by simp [step, fileWrite, h], [v.cut k], by simp [step, fileWrite, h], ?_⟩
          intro w hw
          exact ⟨v, rfl, .inr ⟨k, mem_singleton.1 hw⟩⟩
      | flush => exact ⟨rfl, [], by simp [step, fileFlush], by simp⟩
    obtain ⟨hbase, ws, hws, hmem⟩ := hstep
    rcases h : io.step outcome op with ⟨_ | _, io'⟩
    · rw [runOps_cons_false h]
      rw [h] at hbase hws
      refine ⟨hbase, ws, hws, fun w hw => ?_⟩
      obtain ⟨v, rfl, hv⟩ := hmem w hw
      exact ⟨v, mem_cons_self, hv⟩
    · rw [runOps_cons_true h]
      rw [h] at hbase hws
      obtain ⟨hbase', vs, hvs, hmem'⟩ := ih io'
      refine ⟨hbase'.trans hbase, ws ++ vs, ?_, fun w hw => ?_⟩
      · rw [hvs, hws, append_assoc]
      · rcases mem_append.1 hw with hw | hw
        · obtain ⟨v, rfl, hv⟩ := hmem w hw
          exact ⟨v, mem_cons_self, hv⟩
        · obtain ⟨v, hv, hw'⟩ := hmem' w hw
          exact ⟨v, mem_cons_of_mem _ hv, hw'⟩

end Io

end Windivs

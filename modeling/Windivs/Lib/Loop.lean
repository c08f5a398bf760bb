import Mathlib.Tactic

/-!
# Loops with a budget of turns

A `while` loop of the source is one function, its body, from a loop state to a
`Windivs.Turn`: either another state to go round with, or the result to leave
with. `Windivs.loop body n s` runs at most `n` turns from `s`; `none` says that
the budget is spent, never that the loop has an answer.

A loop *terminates* from `s` when some budget is enough, and a larger budget
then gives the same result (`Windivs.loop_mono`). Three rules are all that is
used about loops elsewhere:

* `Windivs.loop_of_measure` – an invariant with a measure that every turn
  decreases: the loop leaves, from a state where the invariant holds;
* `Windivs.loop_induction` – partial correctness: whatever the loop returns, it
  returns from a state where the invariant holds;
* `Windivs.loop_eq_none` – an invariant under which the body never leaves: no
  budget is enough.

Code that can go wrong in a way C does not report runs in `Windivs.Run`: a value,
or the `Windivs.Fault` that stopped the run – a failed assertion, an access to
memory that is not there, or a loop that does not come back.
-/

namespace Windivs

/-- What one turn of a loop does: go round again, or leave with a result. -/
inductive Turn (σ ρ : Type*) where
  /-- Go round with a new loop state. -/
  | again (s : σ)
  /-- Leave the loop. -/
  | leave (r : ρ)

variable {σ ρ : Type*} {p : Prop}

/-- At most `n` turns of the loop with the given body. -/
def loop (body : σ → Turn σ ρ) : ℕ → σ → Option ρ
  | 0, _ => none
  | n + 1, s =>
    match body s with
    | .again s' => loop body n s'
    | .leave r => some r

section Rules

variable {body : σ → Turn σ ρ} {s : σ} {r : ρ} {n : ℕ}

theorem loop_succ_again {s s' : σ} (n : ℕ) (h : body s = .again s') :
    loop body (n + 1) s = loop body n s' := by
  rw [loop, h]

theorem loop_succ_leave (n : ℕ) (h : body s = .leave r) : loop body (n + 1) s = some r := by
  rw [loop, h]

/-- A larger budget changes nothing once the loop has left. -/
theorem loop_mono {n k : ℕ} (h : loop body n s = some r) (hk : n ≤ k) : loop body k s = some r := by
  induction n generalizing s k with
  | zero => cases h
  | succ n ih =>
    rcases k with - | k
    · omega
    cases hb : body s with
    | again s' =>
      rw [loop_succ_again _ hb] at h ⊢
      exact ih h (by omega)
    | leave r' =>
      rw [loop_succ_leave _ hb] at h ⊢
      exact h

/-- **Total correctness**: an invariant kept by every turn, with a measure that
every turn decreases, makes the loop leave within the measure. -/
theorem loop_of_measure (Inv : σ → Prop) (μ : σ → ℕ)
    (hstep : ∀ s s', Inv s → body s = .again s' → Inv s' ∧ μ s' < μ s) (hs : Inv s) (hn : μ s < n) :
    ∃ r s', Inv s' ∧ body s' = .leave r ∧ loop body n s = some r := by
  induction n generalizing s with
  | zero => omega
  | succ n ih =>
    cases hb : body s with
    | again s' =>
      obtain ⟨hs', hlt⟩ := hstep s s' hs hb
      obtain ⟨r, t, ht, hleave, hloop⟩ := ih hs' (by omega)
      exact ⟨r, t, ht, hleave, by rw [loop_succ_again _ hb, hloop]⟩
    | leave r => exact ⟨r, s, hs, hb, loop_succ_leave _ hb⟩

/-- **Partial correctness**: a loop that leaves does so from a state where the
invariant holds. -/
theorem loop_induction (Inv : σ → Prop) (hstep : ∀ s s', Inv s → body s = .again s' → Inv s')
    (hs : Inv s) (h : loop body n s = some r) : ∃ s', Inv s' ∧ body s' = .leave r := by
  induction n generalizing s with
  | zero => cases h
  | succ n ih =>
    cases hb : body s with
    | again s' =>
      rw [loop_succ_again _ hb] at h
      exact ih (hstep s s' hs hb) h
    | leave r' =>
      rw [loop_succ_leave _ hb, Option.some.injEq] at h
      exact ⟨s, hs, by rw [hb, h]⟩

/-- **Divergence**: a loop whose body goes round again from every state of an
invariant never leaves. -/
theorem loop_eq_none (Inv : σ → Prop) (hstep : ∀ s, Inv s → ∃ s', body s = .again s' ∧ Inv s')
    (hs : Inv s) (n : ℕ) : loop body n s = none := by
  induction n generalizing s with
  | zero => rfl
  | succ n ih =>
    obtain ⟨s', hb, hs'⟩ := hstep s hs
    rw [loop_succ_again _ hb, ih hs']

/-- The loop leaves with a result, with some budget. -/
def Leaves (body : σ → Turn σ ρ) (s : σ) (r : ρ) : Prop := ∃ n, loop body n s = some r

theorem Leaves.of_again {s s' : σ} (h : body s = .again s') (hs : Leaves body s' r) :
    Leaves body s r := by
  obtain ⟨n, hn⟩ := hs
  exact ⟨n + 1, by rw [loop_succ_again _ h, hn]⟩

theorem Leaves.of_leave (h : body s = .leave r) : Leaves body s r :=
  ⟨1, loop_succ_leave 0 h⟩

/-- A measure that every turn decreases is budget enough. -/
theorem Leaves.loop_eq (h : Leaves body s r) (μ : σ → ℕ)
    (hstep : ∀ s s', body s = .again s' → μ s' < μ s) (hn : μ s < n) : loop body n s = some r := by
  obtain ⟨k, hk⟩ := h
  obtain ⟨r', -, -, -, hr'⟩ := loop_of_measure (fun _ => True) μ
    (fun s s' _ hb => ⟨trivial, hstep s s' hb⟩) trivial hn
  rw [← loop_mono hk (le_max_left k n), loop_mono hr' (le_max_right k n), hr']

end Rules

/-! ### Runs that may be stopped -/

/-- Why a run of the code does not return a value. -/
inductive Fault where
  /-- An assertion of the source fails. -/
  | assertion
  /-- A read or a write through a pointer that leads nowhere. -/
  | accessViolation
  /-- A loop has spent its budget. -/
  | noReturn
  deriving DecidableEq, Repr

/-- A run of the code: its result, or what stopped it. -/
abbrev Run (α : Type*) := Except Fault α

/-- `ASSERT(p)`. -/
def assert (p : Prop) [Decidable p] : Run Unit :=
  if p then .ok () else .error .assertion

@[simp] theorem assert_of [Decidable p] (h : p) : assert p = .ok () :=
  if_pos h

theorem assert_bind {α : Type} [Decidable p] (h : p) (f : Unit → Run α) :
    (assert p >>= f) = f () := by
  rw [assert_of h]
  rfl

/-- What comes back after an assertion has passed it. -/
theorem of_assert_bind {α : Type} [Decidable p] {f : Unit → Run α} {r : α}
    (h : (assert p >>= f) = .ok r) : p ∧ f () = .ok r := by
  by_cases hp : p
  · exact ⟨hp, by rwa [assert_bind hp] at h⟩
  · rw [assert, if_neg hp] at h
    cases h

/-- A loop whose result is itself a run. -/
def runLoop {ρ : Type} (body : σ → Turn σ (Run ρ)) (n : ℕ) (s : σ) : Run ρ :=
  (loop body n s).getD (.error .noReturn)

section Runs

variable {ρ : Type} {body : σ → Turn σ (Run ρ)} {s : σ} {r : ρ} {n k : ℕ}

/-- A run that came back comes back the same with a larger budget. -/
theorem runLoop_mono (h : runLoop body n s = .ok r) (hk : n ≤ k) : runLoop body k s = .ok r := by
  rw [runLoop] at h ⊢
  cases hl : loop body n s with
  | none =>
    rw [hl] at h
    cases h
  | some r' =>
    rw [hl, Option.getD_some] at h
    rw [loop_mono hl hk, Option.getD_some, h]

/-- A run that comes back with some budget comes back the same or not at all. -/
theorem runLoop_eq_or (h : runLoop body n s = .ok r) (k : ℕ) :
    runLoop body k s = .ok r ∨ runLoop body k s = .error .noReturn := by
  cases hl : loop body k s with
  | none => exact .inr (by rw [runLoop, hl, Option.getD_none])
  | some r' =>
    have hmax : runLoop body (max n k) s = .ok r := runLoop_mono h (le_max_left n k)
    rw [runLoop, loop_mono hl (le_max_right n k), Option.getD_some] at hmax
    exact .inl (by rw [runLoop, hl, Option.getD_some, hmax])

theorem runLoop_again {s' : σ} (n : ℕ) (h : body s = .again s') :
    runLoop body (n + 1) s = runLoop body n s' := by
  rw [runLoop, loop_succ_again n h, runLoop]

theorem runLoop_leave {r : Run ρ} (n : ℕ) (h : body s = .leave r) : runLoop body (n + 1) s = r := by
  rw [runLoop, loop_succ_leave n h, Option.getD_some]

end Runs

/-- A sequence that comes back has come back from its first part. -/
theorem Run.bind_eq_ok {α β : Type} {x : Run α} {f : α → Run β} {b : β} :
    (x >>= f) = .ok b ↔ ∃ a, x = .ok a ∧ f a = .ok b := by
  cases x with
  | error e =>
    constructor
    · intro h
      cases h
    · rintro ⟨a, ha, -⟩
      cases ha
  | ok a => exact ⟨fun h => ⟨a, rfl, h⟩, fun ⟨a', ha, h⟩ => Except.ok.inj ha ▸ h⟩

end Windivs

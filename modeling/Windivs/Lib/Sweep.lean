import Windivs.Lib.Loop

/-!
# Sweeping an array in place

A loop that goes over an array with an index and, at each element, either writes
a new value and moves on, or takes the element out – closing the gap – and steps
the index back so that the next turn looks at the element that moved up. The index
is a 32-bit word: stepping back from the first element wraps around, and the step
forward of the loop wraps it back.

`Windivs.sweepTurn` is one turn of such a loop and `Windivs.sweepList` what it
amounts to, a single pass from left to right that never looks back.
`Windivs.loop_sweepTurn` says that the loop ends, within one turn for each element
and one to leave, and that its result is that pass.
-/

namespace Windivs

open List

variable {α σ ρ : Type*} {a : α} {i n : ℕ} {s t : σ}

/-! ### Arrays counted by a 32-bit word -/

/-- An array whose length is a 32-bit word. -/
structure Counted (α : Type*) where
  list : List α
  length_lt : list.length < 0x100000000

namespace Counted

theorem length_nil_lt : ([] : List α).length < 0x100000000 := by simp

/-- The number of elements. -/
def count (c : Counted α) : ℕ := c.list.length

/-- Write one element. -/
def set (c : Counted α) (i : ℕ) (a : α) : Counted α where
  list := c.list.set i a
  length_lt := by simpa using c.length_lt

/-- Take one element out and close the gap. -/
def eraseIdx (c : Counted α) (i : ℕ) : Counted α where
  list := c.list.eraseIdx i
  length_lt := lt_of_le_of_lt (length_eraseIdx_le ..) c.length_lt

@[simp] theorem list_set (c : Counted α) (i : ℕ) (a : α) : (c.set i a).list = c.list.set i a := rfl

@[simp] theorem list_eraseIdx (c : Counted α) (i : ℕ) :
    (c.eraseIdx i).list = c.list.eraseIdx i := rfl

theorem ext_list {c c' : Counted α} (h : c.list = c'.list) : c = c' := by
  cases c
  cases c'
  cases h
  rfl

/-- Writing an element over itself. -/
theorem set_self {c : Counted α} (h : c.list[i]? = some a) : c.set i a = c := by
  obtain ⟨hi, rfl⟩ := List.getElem?_eq_some_iff.mp h
  exact ext_list (set_getElem_self hi)

end Counted

/-- `i++` on a 32-bit word. -/
def stepUp (i : ℕ) : ℕ := (i + 1) % 0x100000000

/-- `i--` on a 32-bit word. -/
def stepDown (i : ℕ) : ℕ := (i + 0xFFFFFFFF) % 0x100000000

theorem stepUp_of_lt (h : i + 1 < 0x100000000) : stepUp i = i + 1 :=
  Nat.mod_eq_of_lt h

/-- Back and forth again is nowhere, also from zero. -/
theorem stepUp_stepDown (h : i < 0x100000000) : stepUp (stepDown i) = i := by
  rw [stepUp, stepDown]
  omega

/-! ### One turn, and the pass it amounts to -/

/-- One turn: `visit` says what becomes of the element under the index, `none`
for taking it out. -/
def sweepTurn (visit : σ → α → σ × Option α) (s : ℕ × Counted α × σ) :
    Turn (ℕ × Counted α × σ) (Counted α × σ) :=
  match s.2.1.list[s.1]? with
  | none => .leave s.2
  | some a =>
    match visit s.2.2 a with
    | (t, some b) => .again (stepUp s.1, s.2.1.set s.1 b, t)
    | (t, none) => .again (stepUp (stepDown s.1), s.2.1.eraseIdx s.1, t)

/-- The pass from left to right. -/
def sweepList (visit : σ → α → σ × Option α) : σ → List α → List α × σ
  | s, [] => ([], s)
  | s, a :: l =>
    match visit s a with
    | (t, some b) => (b :: (sweepList visit t l).1, (sweepList visit t l).2)
    | (t, none) => sweepList visit t l

/-- A counter that goes up by one at certain elements counts them. -/
theorem foldl_countP {step : σ → α → σ} {count : σ → ℕ} {q : α → Bool}
    (h : ∀ s a, count (step s a) = count s + if q a then 1 else 0) (s : σ) (l : List α) :
    count (l.foldl step s) = count s + l.countP q := by
  induction l generalizing s with
  | nil => rfl
  | cons a l ih =>
    rw [foldl_cons, ih, h, countP_cons]
    omega

section Sweep

variable {visit : σ → α → σ × Option α}

theorem sweepList_cons_some {a b : α} (l : List α) (h : visit s a = (t, some b)) :
    sweepList visit s (a :: l) = (b :: (sweepList visit t l).1, (sweepList visit t l).2) := by
  rw [sweepList, h]

theorem sweepList_cons_none (l : List α) (h : visit s a = (t, none)) :
    sweepList visit s (a :: l) = sweepList visit t l := by
  rw [sweepList, h]

/-- The state after a pass: every element is visited once, in order. -/
theorem sweepList_snd (s : σ) (l : List α) :
    (sweepList visit s l).2 = l.foldl (fun s a => (visit s a).1) s := by
  induction l generalizing s with
  | nil => rfl
  | cons a l ih =>
    rcases h : visit s a with ⟨t, _ | b⟩
    · rw [sweepList_cons_none l h, ih, foldl_cons, h]
    · rw [sweepList_cons_some l h, ih, foldl_cons, h]

/-- The elements after a pass, where their fate does not depend on the state. -/
theorem sweepList_fst {f : α → Option α} (hf : ∀ s a, (visit s a).2 = f a) (s : σ) (l : List α) :
    (sweepList visit s l).1 = l.filterMap f := by
  induction l generalizing s with
  | nil => rfl
  | cons a l ih =>
    have hfate := hf s a
    rcases h : visit s a with ⟨t, _ | b⟩
    · rw [h] at hfate
      rw [sweepList_cons_none l h, ih, filterMap_cons_none hfate.symm]
    · rw [h] at hfate
      rw [sweepList_cons_some l h, ih, filterMap_cons_some hfate.symm]

/-- A pass makes nothing longer. -/
theorem length_sweepList_le (s : σ) (l : List α) : (sweepList visit s l).1.length ≤ l.length := by
  induction l generalizing s with
  | nil => exact le_refl _
  | cons a l ih =>
    rcases h : visit s a with ⟨t, _ | b⟩
    · rw [sweepList_cons_none l h]
      exact (ih t).trans (Nat.le_succ _)
    · rw [sweepList_cons_some l h]
      exact Nat.succ_le_succ (ih t)

/-- **The loop is the pass**: from an index with `pre` behind it and `rest` ahead,
it leaves with `pre` as it is and the pass over `rest`. -/
theorem loop_sweepTurn_from (pre rest : List α) (s : σ) (hn : rest.length < n)
    (c : Counted α) (hc : c.list = pre ++ rest) :
    ∃ c' : Counted α, c'.list = pre ++ (sweepList visit s rest).1 ∧
      loop (sweepTurn visit) n (pre.length, c, s) = some (c', (sweepList visit s rest).2) := by
  induction rest generalizing pre s n c with
  | nil =>
    rcases n with - | n
    · omega
    refine ⟨c, hc, loop_succ_leave n ?_⟩
    rw [sweepTurn]
    simp only [hc, append_nil, getElem?_eq_none (le_refl _)]
    rfl
  | cons a rest ih =>
    rcases n with - | n
    · omega
    have hlen := c.length_lt
    rw [hc, length_append, length_cons] at hlen
    rw [length_cons] at hn
    have hget : c.list[pre.length]? = some a := by
      rw [hc, getElem?_append_right (le_refl _), Nat.sub_self, getElem?_cons_zero]
    rcases hv : visit s a with ⟨t, _ | b⟩
    · have hturn : sweepTurn visit (pre.length, c, s) =
          .again (pre.length, c.eraseIdx pre.length, t) := by
        rw [sweepTurn]
        simp only [hget, hv]
        rw [stepUp_stepDown (by omega)]
      have hc' : (c.eraseIdx pre.length).list = pre ++ rest := by
        rw [Counted.list_eraseIdx, hc, eraseIdx_append_of_length_le (le_refl _), Nat.sub_self,
          eraseIdx_cons_zero]
      rw [loop_succ_again n hturn, sweepList_cons_none rest hv]
      exact ih pre t (by omega) _ hc'
    · have hturn : sweepTurn visit (pre.length, c, s) =
          .again ((pre ++ [b]).length, c.set pre.length b, t) := by
        rw [sweepTurn]
        simp only [hget, hv]
        rw [stepUp_of_lt (by omega), length_append, length_singleton]
      have hc' : (c.set pre.length b).list = (pre ++ [b]) ++ rest := by
        rw [Counted.list_set, hc, set_append_right _ _ (le_refl _), Nat.sub_self,
          set_cons_zero, append_assoc, singleton_append]
      rw [loop_succ_again n hturn, sweepList_cons_some rest hv]
      obtain ⟨c', hlist, hloop⟩ := ih (pre ++ [b]) t (n := n) (by omega) _ hc'
      exact ⟨c', by rw [hlist, append_assoc, singleton_append], hloop⟩

/-- The array a pass leaves. -/
def Counted.sweep (visit : σ → α → σ × Option α) (s : σ) (c : Counted α) : Counted α where
  list := (sweepList visit s c.list).1
  length_lt := (length_sweepList_le s c.list).trans_lt c.length_lt

/-- **The whole loop.** -/
theorem loop_sweepTurn (c : Counted α) (s : σ) (hn : c.list.length < n) :
    loop (sweepTurn visit) n (0, c, s) =
      some (c.sweep visit s, (sweepList visit s c.list).2) := by
  obtain ⟨c', hlist, hloop⟩ := loop_sweepTurn_from [] c.list s hn c rfl
  obtain rfl : c' = c.sweep visit s := Counted.ext_list (by rw [hlist, nil_append]; rfl)
  exact hloop

end Sweep

/-! ### A loop seen through a change of state -/

/-- The same turn, with states and results renamed. -/
def Turn.map {σ' ρ' : Type*} (f : σ → σ') (g : ρ → ρ') : Turn σ ρ → Turn σ' ρ'
  | .again s => .again (f s)
  | .leave r => .leave (g r)

/-- **A loop that does what another does, on renamed states.** -/
theorem loop_of_map {σ' ρ' : Type*} {body : σ → Turn σ ρ} {body' : σ' → Turn σ' ρ'} (f : σ → σ')
    (g : ρ → ρ') (h : ∀ s, body' (f s) = (body s).map f g) (n : ℕ) (s : σ) :
    loop body' n (f s) = (loop body n s).map g := by
  induction n generalizing s with
  | zero => rfl
  | succ n ih =>
    rw [loop, loop, h]
    cases body s with
    | again s' => exact ih s'
    | leave r => rfl

end Windivs

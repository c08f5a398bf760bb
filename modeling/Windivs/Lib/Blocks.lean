import Windivs.Lib.Loop

/-!
# Consecutive blocks

A line is cut into consecutive blocks of given lengths. `Windivs.blockStart len k` is the place
where block `k` starts, and `Windivs.InBlock len d k r` says that the place `d` lies in block `k`,
at distance `r` from its start.

To find the block of a place, code goes from block to block and takes off the length of each one
that it leaves behind. `Windivs.runLoop_scan` is the rule for such a loop.
-/

namespace Windivs

variable {len : ℕ → ℕ} {d k r : ℕ}

/-- The place where a block starts. -/
def blockStart (len : ℕ → ℕ) (k : ℕ) : ℕ := ∑ i ∈ Finset.range k, len i

@[simp] theorem blockStart_zero (len : ℕ → ℕ) : blockStart len 0 = 0 := rfl

theorem blockStart_succ (len : ℕ → ℕ) (k : ℕ) : blockStart len (k + 1) = blockStart len k + len k :=
  Finset.sum_range_succ len k

theorem blockStart_mono (len : ℕ → ℕ) : Monotone (blockStart len) :=
  monotone_nat_of_le_succ fun k => by
    rw [blockStart_succ]
    exact Nat.le_add_right _ _

/-- Blocks of at least a given length. -/
theorem le_blockStart_add {c : ℕ} (hc : ∀ k, c ≤ len k) (k n : ℕ) :
    blockStart len k + n * c ≤ blockStart len (k + n) := by
  induction n with
  | zero => simp
  | succ n ih =>
    have hlen := hc (k + n)
    rw [← Nat.add_assoc, blockStart_succ, Nat.succ_mul]
    omega

/-- Blocks of at most a given length. -/
theorem blockStart_add_le {c : ℕ} (hc : ∀ k, len k ≤ c) (k n : ℕ) :
    blockStart len (k + n) ≤ blockStart len k + n * c := by
  induction n with
  | zero => simp
  | succ n ih =>
    have hlen := hc (k + n)
    rw [← Nat.add_assoc, blockStart_succ, Nat.succ_mul]
    omega

/-- A place lies in a block, at the given distance from its start. -/
structure InBlock (len : ℕ → ℕ) (d k r : ℕ) : Prop where
  eq : d = blockStart len k + r
  lt : r < len k

/-- Every place before the start of a block lies in one of the blocks before. -/
theorem exists_inBlock {n : ℕ} (h : d < blockStart len n) : ∃ k r, k < n ∧ InBlock len d k r := by
  induction n with
  | zero => simp at h
  | succ n ih =>
    rw [blockStart_succ] at h
    by_cases hd : d < blockStart len n
    · obtain ⟨k, r, hk, hin⟩ := ih hd
      exact ⟨k, r, Nat.lt_succ_of_lt hk, hin⟩
    · exact ⟨n, d - blockStart len n, Nat.lt_succ_self n, ⟨by omega, by omega⟩⟩

/-- A block that starts at or before a place is not behind the block of the place. -/
theorem InBlock.le_of_start_le {j : ℕ} (h : InBlock len d k r) (hj : blockStart len j ≤ d) :
    j ≤ k := by
  by_contra hlt
  have hmono := blockStart_mono len (show k + 1 ≤ j by omega)
  have heq := h.eq
  have hr := h.lt
  rw [blockStart_succ] at hmono
  omega

/-- **The scanning loop** ends at the block of the place it looks for, and at the distance from its
start. -/
theorem runLoop_scan {ρ : Type} {body : ℕ × ℕ → Turn (ℕ × ℕ) (Run ρ)} {x : Run ρ}
    (h : InBlock len d k r)
    (hagain : ∀ j q, j < k → len j ≤ q → body (j, q) = .again (j + 1, q - len j))
    (hleave : body (k, r) = .leave x) {j q n : ℕ} (hd : d = blockStart len j + q)
    (hn : k < j + n) : runLoop body n (j, q) = x := by
  have hj : j ≤ k := h.le_of_start_le (by omega)
  have heq := h.eq
  induction n generalizing j q with
  | zero => omega
  | succ n ih =>
    by_cases hjk : j = k
    · subst hjk
      obtain rfl : q = r := by omega
      exact runLoop_leave n hleave
    · have hmono := blockStart_mono len (show j + 1 ≤ k by omega)
      rw [blockStart_succ] at hmono
      rw [runLoop_again n (hagain j q (by omega) (by omega))]
      exact ih (by rw [blockStart_succ]; omega) (by omega) (by omega)

end Windivs

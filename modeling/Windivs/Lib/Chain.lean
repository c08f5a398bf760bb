import Mathlib.Tactic

/-!
# Singly linked chains

A chain is a list threaded through a store by *next* pointers and ended by a
distinguished value `nil`: `Windivs.Chain nil next head l` says that following
`next` from `head` visits exactly the cells of `l`, in order, and stops. The two
edits an intrusive free list makes are here – push a cell at the head, and
unlink a cell by redirecting the pointer that leads to it – each with the frame
condition it needs: the *next* pointers of the other cells of the chain are kept.
-/

namespace Windivs

variable {α : Type*} {c : α} {post pre : List α}

/-- Following `next` from `head` visits exactly `l` and ends at `nil`. -/
def Chain (nil : α) (next : α → α) : α → List α → Prop
  | head, [] => head = nil
  | head, c :: l => head = c ∧ c ≠ nil ∧ Chain nil next (next c) l

namespace Chain

variable {nil head : α} {next next' : α → α} {l : List α}

/-- A chain reads the next pointers of its own cells only. -/
theorem congr (h : Chain nil next head l) (hn : ∀ c ∈ l, next' c = next c) :
    Chain nil next' head l := by
  induction l generalizing head with
  | nil => exact h
  | cons c l ih =>
    obtain ⟨rfl, hc, hl⟩ := h
    refine ⟨rfl, hc, ?_⟩
    rw [hn head List.mem_cons_self]
    exact ih hl fun x hx => hn x (List.mem_cons_of_mem _ hx)

/-- Push a cell whose next pointer is the old head. -/
theorem push (h : Chain nil next head l) (hc : c ≠ nil) (hhead : next' c = head)
    (hn : ∀ x ∈ l, next' x = next x) : Chain nil next' c (c :: l) :=
  ⟨rfl, hc, hhead ▸ h.congr hn⟩

/-- The cells after `c` are a chain from its next pointer. -/
theorem drop (h : Chain nil next head (pre ++ c :: post)) : Chain nil next (next c) post := by
  induction pre generalizing head with
  | nil => exact h.2.2
  | cons a pre ih => exact ih h.2.2

/-- Unlink the cell after `p`: the next pointer of `p` takes over that of `c`. -/
theorem unlink {p c : α} (h : Chain nil next head (pre ++ p :: c :: post)) (hp : next' p = next c)
    (hn : ∀ x ∈ pre ++ post, next' x = next x) : Chain nil next' head (pre ++ p :: post) := by
  induction pre generalizing head with
  | nil =>
    obtain ⟨rfl, hpn, -, -, hpost⟩ := h
    exact ⟨rfl, hpn, hp ▸ hpost.congr fun x hx => hn x (by simpa using hx)⟩
  | cons a pre ih =>
    obtain ⟨rfl, ha, hrest⟩ := h
    refine ⟨rfl, ha, ?_⟩
    rw [hn head (by simp)]
    exact ih hrest fun x hx => hn x (by
      exact List.mem_cons_of_mem _ hx)

end Chain

/-- Cutting one entry out of a list without repetitions. -/
theorem mem_append_iff_of_nodup {a c : α} (h : (pre ++ a :: post).Nodup) :
    c ∈ pre ++ post ↔ c ∈ pre ++ a :: post ∧ c ≠ a := by
  have hn := (List.nodup_cons.1 (List.nodup_middle.1 h)).1
  rw [List.perm_middle.mem_iff, List.mem_cons]
  constructor
  · exact fun hc => ⟨.inr hc, fun he => hn (he ▸ hc)⟩
  · rintro ⟨rfl | hc, hne⟩
    · exact absurd rfl hne
    · exact hc

end Windivs

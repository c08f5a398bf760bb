import Mathlib.Tactic

/-!
# Tilings of an interval by signed sizes

An interval of addresses is cut into consecutive pieces, each with a size whose
sign is free to carry a flag. `Windivs.piecesFrom o sizes` lists the pieces with
the addresses they start at, `Windivs.span` is the length they cover, and the
lemmas below are the geometry a proof about such a layout needs: pieces stay
inside the interval, two different pieces do not overlap, and a piece cuts the
list of sizes into what lies before it and what lies after it.
-/

namespace Windivs

open List

/-- The length covered by a list of signed sizes. -/
def span (sizes : List ℤ) : ℕ := (sizes.map Int.natAbs).sum

/-- The pieces cut by `sizes` from address `o` on: start and size. -/
def piecesFrom : ℕ → List ℤ → List (ℕ × ℤ)
  | _, [] => []
  | o, s :: sizes => (o, s) :: piecesFrom (o + s.natAbs) sizes

@[simp] theorem span_nil : span [] = 0 := rfl

@[simp] theorem span_cons (s : ℤ) (l : List ℤ) : span (s :: l) = s.natAbs + span l := by
  simp [span]

@[simp] theorem span_append (l r : List ℤ) : span (l ++ r) = span l + span r := by
  simp [span]

/-- Pieces of at least `k` each. -/
theorem length_mul_le_span {k : ℕ} {l : List ℤ} (h : ∀ s ∈ l, k ≤ s.natAbs) :
    l.length * k ≤ span l := by
  have hsum := card_nsmul_le_sum (l.map Int.natAbs) k (by simpa using h)
  rwa [length_map, smul_eq_mul] at hsum

@[simp] theorem piecesFrom_nil (o : ℕ) : piecesFrom o [] = [] := rfl

@[simp] theorem piecesFrom_cons (o : ℕ) (s : ℤ) (l : List ℤ) :
    piecesFrom o (s :: l) = (o, s) :: piecesFrom (o + s.natAbs) l := rfl

@[simp] theorem piecesFrom_append (o : ℕ) (l r : List ℤ) :
    piecesFrom o (l ++ r) = piecesFrom o l ++ piecesFrom (o + span l) r := by
  induction l generalizing o with
  | nil => simp
  | cons s l ih => simp [ih, Nat.add_assoc]

/-- Pieces shifted by an offset. -/
theorem mem_piecesFrom_add {a o : ℕ} {sizes : List ℤ} {p : ℕ × ℤ} (hp : p ∈ piecesFrom o sizes) :
    (a + p.1, p.2) ∈ piecesFrom (a + o) sizes := by
  induction sizes generalizing o with
  | nil => cases hp
  | cons s sizes ih =>
    rw [piecesFrom_cons, mem_cons] at hp ⊢
    rcases hp with rfl | hp
    · exact .inl rfl
    · exact .inr (by simpa only [Nat.add_assoc] using ih hp)

section Geometry

variable {o : ℕ} {sizes : List ℤ} {p q : ℕ × ℤ}

section

variable (hp : p ∈ piecesFrom o sizes)
include hp

/-- Pieces stay inside the interval. -/
theorem piecesFrom_bounds : o ≤ p.1 ∧ p.1 + p.2.natAbs ≤ o + span sizes := by
  induction sizes generalizing o with
  | nil => cases hp
  | cons s l ih =>
    rw [piecesFrom_cons, mem_cons] at hp
    rw [span_cons]
    rcases hp with rfl | hp
    · exact ⟨le_rfl, by simp⟩
    · have := ih hp
      omega

theorem mem_sizes_of_mem_piecesFrom : p.2 ∈ sizes := by
  induction sizes generalizing o with
  | nil => cases hp
  | cons s l ih =>
    rcases mem_cons.1 hp with rfl | hp
    · exact mem_cons_self
    · exact mem_cons_of_mem _ (ih hp)

/-- **Different pieces do not overlap.** -/
theorem piecesFrom_disjoint (hq : q ∈ piecesFrom o sizes) :
    p = q ∨ p.1 + p.2.natAbs ≤ q.1 ∨ q.1 + q.2.natAbs ≤ p.1 := by
  induction sizes generalizing o with
  | nil => cases hp
  | cons s l ih =>
    rcases mem_cons.1 hp with rfl | hp <;> rcases mem_cons.1 hq with rfl | hq
    · exact .inl rfl
    · exact .inr (.inl (piecesFrom_bounds hq).1)
    · exact .inr (.inr (piecesFrom_bounds hp).1)
    · exact ih hp hq

omit hp in
/-- Pieces of sizes divisible by `d` start at addresses divisible by `d`. -/
theorem piecesFrom_dvd {d : ℕ} (ho : d ∣ o) (hs : ∀ s ∈ sizes, d ∣ s.natAbs)
    (hp : p ∈ piecesFrom o sizes) : d ∣ p.1 := by
  induction sizes generalizing o with
  | nil => cases hp
  | cons s l ih =>
    rcases mem_cons.1 hp with rfl | hp
    · exact ho
    · exact ih (Dvd.dvd.add ho (hs s mem_cons_self))
        (fun x hx => hs x (mem_cons_of_mem _ hx)) hp

/-- A piece cuts the sizes in two. -/
theorem exists_split_of_mem_piecesFrom : ∃ l r, sizes = l ++ p.2 :: r ∧ p.1 = o + span l := by
  induction sizes generalizing o with
  | nil => cases hp
  | cons s l ih =>
    rcases mem_cons.1 hp with rfl | hp
    · exact ⟨[], l, rfl, rfl⟩
    · obtain ⟨l1, r, rfl, h⟩ := ih hp
      exact ⟨s :: l1, r, rfl, by rw [h, span_cons]; omega⟩

end

/-- A tiling is determined by the sizes written at the starts of its pieces. -/
theorem eq_of_piecesFrom {f : ℕ → ℤ} {l r : List ℤ} (hl : ∀ p ∈ piecesFrom o l, f p.1 = p.2)
    (hr : ∀ p ∈ piecesFrom o r, f p.1 = p.2) (hlpos : ∀ s ∈ l, s ≠ 0) (hrpos : ∀ s ∈ r, s ≠ 0)
    (hspan : span l = span r) : l = r := by
  induction l generalizing o r with
  | nil =>
    cases r with
    | nil => rfl
    | cons s r =>
      have := hrpos s (by simp)
      simp only [span_nil, span_cons] at hspan
      omega
  | cons s l ih =>
    cases r with
    | nil =>
      have := hlpos s (by simp)
      simp only [span_nil, span_cons] at hspan
      omega
    | cons s' r =>
      obtain rfl : s = s' := (hl (o, s) (by simp)).symm.trans (hr (o, s') (by simp))
      simp only [span_cons, Nat.add_left_cancel_iff] at hspan
      rw [ih (fun p hp => hl p (mem_cons_of_mem _ hp))
        (fun p hp => hr p (mem_cons_of_mem _ hp)) (fun x hx => hlpos x (by simp [hx]))
        (fun x hx => hrpos x (by simp [hx])) hspan]

end Geometry

end Windivs

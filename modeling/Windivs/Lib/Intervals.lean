import Windivs.Lib.SplayTree

/-!
# Lists of intervals

Elements that each cover an interval from `lo` to `hi`, its end not included, in a list from
left to right (`Windivs.Apart`). A comparison by overlap with an interval sorts such a list,
so that a search tree of the elements can be searched with it (`Windivs.Apart.sorts`); two
elements of the list with a common point are the same element.
-/

namespace Windivs

open List

variable {α : Type*} {lo hi : α → ℤ}

/-- The elements are not empty, and each ends where the next one starts or before. -/
structure Apart (lo hi : α → ℤ) (l : List α) : Prop where
  lt : ∀ x ∈ l, lo x < hi x
  le : l.Pairwise fun x y => hi x ≤ lo y

namespace Apart

variable {l a b : List α} {x y z : α}

theorem nil : Apart lo hi [] := ⟨by simp, .nil⟩

theorem append_iff : Apart lo hi (a ++ b) ↔
    Apart lo hi a ∧ Apart lo hi b ∧ ∀ x ∈ a, ∀ y ∈ b, hi x ≤ lo y := by
  constructor
  · rintro ⟨hlt, hle⟩
    obtain ⟨ha, hb, hab⟩ := pairwise_append.1 hle
    exact ⟨⟨fun x hx => hlt x (by simp [hx]), ha⟩, ⟨fun x hx => hlt x (by simp [hx]), hb⟩, hab⟩
  · rintro ⟨⟨ha, ha'⟩, ⟨hb, hb'⟩, hab⟩
    refine ⟨fun x hx => ?_, pairwise_append.2 ⟨ha', hb', hab⟩⟩
    rcases mem_append.1 hx with hx | hx
    · exact ha x hx
    · exact hb x hx

theorem cons_iff : Apart lo hi (x :: l) ↔
    lo x < hi x ∧ (∀ y ∈ l, hi x ≤ lo y) ∧ Apart lo hi l := by
  constructor
  · rintro ⟨hlt, hle⟩
    obtain ⟨hx, hl⟩ := pairwise_cons.1 hle
    exact ⟨hlt x (by simp), hx, fun y hy => hlt y (by simp [hy]), hl⟩
  · rintro ⟨hx, hle, hlt, hl⟩
    exact ⟨forall_mem_cons.2 ⟨hx, hlt⟩, pairwise_cons.2 ⟨hle, hl⟩⟩

/-- The parts of a list on the two sides of one of its elements. -/
theorem split (h : Apart lo hi (a ++ x :: b)) :
    Apart lo hi a ∧ Apart lo hi b ∧ lo x < hi x ∧ (∀ y ∈ a, hi y ≤ lo x) ∧
      (∀ y ∈ b, hi x ≤ lo y) ∧ ∀ y ∈ a, ∀ z ∈ b, hi y ≤ lo z := by
  obtain ⟨ha, hxb, hab⟩ := append_iff.1 h
  obtain ⟨hx, hle, hb⟩ := cons_iff.1 hxb
  exact ⟨ha, hb, hx, fun y hy => hab y hy x (by simp), hle, fun y hy z hz => hab y hy z (by simp [hz])⟩

/-- An element between those to its left and those to its right. -/
theorem insert (h : Apart lo hi (a ++ b)) (hx : lo x < hi x) (ha : ∀ y ∈ a, hi y ≤ lo x)
    (hb : ∀ y ∈ b, hi x ≤ lo y) : Apart lo hi (a ++ x :: b) := by
  obtain ⟨ha', hb', hab⟩ := append_iff.1 h
  refine append_iff.2 ⟨ha', cons_iff.2 ⟨hx, hb, hb'⟩, fun y hy => ?_⟩
  exact forall_mem_cons.2 ⟨ha y hy, hab y hy⟩

theorem erase (h : Apart lo hi (a ++ x :: b)) : Apart lo hi (a ++ b) := by
  obtain ⟨ha, hb, -, -, -, hab⟩ := h.split
  exact append_iff.2 ⟨ha, hb, hab⟩

/-- An element made smaller. -/
theorem shrink (h : Apart lo hi (a ++ x :: b)) (hlo : lo x ≤ lo z) (hhi : hi z ≤ hi x)
    (hz : lo z < hi z) : Apart lo hi (a ++ z :: b) := by
  obtain ⟨-, -, -, hax, hxb, -⟩ := h.split
  exact h.erase.insert hz (fun y hy => (hax y hy).trans hlo) fun y hy => hhi.trans (hxb y hy)

/-- **Two elements with a common point** are the same. -/
theorem eq_of_common (h : Apart lo hi l) (hx : x ∈ l) (hy : y ∈ l) (hxy : lo x < hi y)
    (hyx : lo y < hi x) : x = y := by
  have hsame : ∀ i j : Fin l.length, i < j → lo (l.get j) < hi (l.get i) → False := by
    intro i j hij hlt
    exact absurd (pairwise_iff_get.1 h.le i j hij) (not_le.2 hlt)
  obtain ⟨i, rfl⟩ := mem_iff_get.1 hx
  obtain ⟨j, rfl⟩ := mem_iff_get.1 hy
  rcases lt_trichotomy i j with hlt | rfl | hlt
  · exact (hsame i j hlt hyx).elim
  · rfl
  · exact (hsame j i hlt hxy).elim

theorem nodup (h : Apart lo hi l) : l.Nodup := by
  refine h.le.imp_of_mem fun {x y} hx _ hle heq => ?_
  subst heq
  exact absurd (h.lt x hx) (not_lt.2 hle)

end Apart

/-- A comparison with the interval from `a` to `b` by overlap. -/
structure Separates (c : α → Ordering) (lo hi : α → ℤ) (a b : ℤ) : Prop where
  eq_iff : ∀ x, lo x < hi x → (c x = .eq ↔ a < hi x ∧ lo x < b)
  lt_iff : ∀ x, lo x < hi x → (c x = .lt ↔ b ≤ lo x)
  gt_iff : ∀ x, lo x < hi x → (c x = .gt ↔ hi x ≤ a)

/-- **A comparison by overlap sorts a list of intervals.** -/
theorem Apart.sorts {c : α → Ordering} {l : List α} {a b : ℤ} (h : Apart lo hi l)
    (hc : Separates c lo hi a b) : Sorts c l := by
  refine h.le.imp_of_mem fun {x y} hx hy hle => ⟨fun hlt => ?_, fun hgt => ?_⟩
  · have hbx := (hc.lt_iff x (h.lt x hx)).1 hlt
    exact (hc.lt_iff y (h.lt y hy)).2 (hbx.trans ((h.lt x hx).le.trans hle))
  · have hya := (hc.gt_iff y (h.lt y hy)).1 hgt
    exact (hc.gt_iff x (h.lt x hx)).2 (hle.trans ((h.lt y hy).le.trans hya))

end Windivs

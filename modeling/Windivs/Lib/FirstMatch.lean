import Mathlib.Tactic

/-!
# First-match rule lists

A rule list decides each bit of a word on its own: the first rule whose mask has
the bit says yes or no, and a bit no rule has is left undecided
(`Windivs.verdict`). Nothing in the meaning of a list is about several bits at
once.

Programs do not compute it that way. They carry whole words through one sweep of
the list, and there are two sweeps in use:

* `Windivs.accumulate` keeps the bits granted and the bits denied so far and lets
  neither take what the other has;
* `Windivs.request` keeps the bits still asked for, crosses off what an allow
  rule has, and stops at the first deny rule that has one of them.

`Windivs.getLsbD_accumulate` and `Windivs.request_eq_zero_iff` say that both are
the bit-by-bit meaning.
-/

namespace Windivs

open List

variable {w : ℕ}

/-! ### Words as sets of bits -/

/-- Two words share a bit when their conjunction is not zero. -/
theorem and_ne_zero_iff {x y : BitVec w} :
    x &&& y ≠ 0 ↔ ∃ i, x.getLsbD i = true ∧ y.getLsbD i = true := by
  constructor
  · intro h
    by_contra hno
    refine h (BitVec.eq_of_getLsbD_eq fun i _ => ?_)
    rw [BitVec.getLsbD_and]
    by_contra hi
    rw [show (0 : BitVec w).getLsbD i = false from BitVec.getLsbD_zero, Bool.not_eq_false,
      Bool.and_eq_true] at hi
    exact hno ⟨i, hi⟩
  · rintro ⟨i, hx, hy⟩ h
    have hi : (x &&& y).getLsbD i = true := by rw [BitVec.getLsbD_and, hx, hy, Bool.and_self]
    rw [h, show (0 : BitVec w).getLsbD i = false from BitVec.getLsbD_zero] at hi
    exact absurd hi (by decide)

/-- A word is zero when no bit is set in it. -/
theorem eq_zero_iff {x : BitVec w} : x = 0 ↔ ∀ i, x.getLsbD i = false := by
  constructor
  · rintro rfl i
    exact BitVec.getLsbD_zero
  · intro h
    refine BitVec.eq_of_getLsbD_eq fun i _ => ?_
    rw [h i]
    exact BitVec.getLsbD_zero.symm

/-- A word that is not zero has a bit. -/
theorem exists_getLsbD_of_ne_zero {x : BitVec w} (h : x ≠ 0) : ∃ i, x.getLsbD i = true := by
  by_contra hno
  refine h (eq_zero_iff.mpr fun i => ?_)
  by_contra hi
  exact hno ⟨i, by simpa using hi⟩

/-- A word with a bit is not zero. -/
theorem ne_zero_of_getLsbD {x : BitVec w} {i : ℕ} (h : x.getLsbD i = true) : x ≠ 0 := by
  intro h0
  rw [eq_zero_iff.mp h0 i] at h
  exact absurd h (by decide)

/-- Taking bits away: the bits of `x` that `y` does not have. -/
theorem getLsbD_and_not {x y : BitVec w} {i : ℕ} :
    (x &&& ~~~y).getLsbD i = (x.getLsbD i && !y.getLsbD i) := by
  rw [BitVec.getLsbD_and, BitVec.getLsbD_not]
  by_cases hi : i < w
  · simp [hi]
  · simp [BitVec.getLsbD_of_ge x i (by omega)]

/-! ### Rules -/

/-- What a rule says about the bits of its mask. -/
inductive Effect where
  | allow
  | deny
  deriving DecidableEq, Repr

/-- A rule: an effect, for the bits of a mask. -/
structure Rule (w : ℕ) where
  effect : Effect
  mask : BitVec w
  deriving DecidableEq

/-- **The meaning of a rule list**: a bit is decided by the first rule that has
it. -/
def verdict (l : List (Rule w)) (i : ℕ) : Option Effect :=
  (l.find? fun r => r.mask.getLsbD i).map Rule.effect

@[simp] theorem verdict_nil (i : ℕ) : verdict ([] : List (Rule w)) i = none := rfl

theorem verdict_cons_pos {r : Rule w} (l : List (Rule w)) {i : ℕ} (h : r.mask.getLsbD i = true) :
    verdict (r :: l) i = some r.effect := by
  simp [verdict, h]

theorem verdict_cons_neg {r : Rule w} (l : List (Rule w)) {i : ℕ} (h : r.mask.getLsbD i = false) :
    verdict (r :: l) i = verdict l i := by
  simp [verdict, h]

/-- A bit that no rule has is left open. -/
theorem verdict_eq_none {l : List (Rule w)} {i : ℕ} (h : ∀ r ∈ l, r.mask.getLsbD i = false) :
    verdict l i = none := by
  rw [verdict, find?_eq_none.mpr fun r hr => by rw [h r hr]; decide, Option.map_none]

/-- Of two lists one after the other, the second decides what the first leaves
open. -/
theorem verdict_append (l l' : List (Rule w)) (i : ℕ) :
    verdict (l ++ l') i = (verdict l i).or (verdict l' i) := by
  induction l with
  | nil => rfl
  | cons r l ih =>
    cases h : r.mask.getLsbD i with
    | true => rw [cons_append, verdict_cons_pos _ h, verdict_cons_pos _ h, Option.some_or]
    | false => rw [cons_append, verdict_cons_neg _ h, verdict_cons_neg _ h, ih]

/-! ### The accumulating sweep -/

/-- One rule of the accumulating sweep, on the bits granted and denied so far. -/
def accumulateRule (s : BitVec w × BitVec w) (r : Rule w) : BitVec w × BitVec w :=
  match r.effect with
  | .allow => (s.1 ||| (r.mask &&& ~~~s.2), s.2)
  | .deny => (s.1, s.2 ||| (r.mask &&& ~~~s.1))

/-- The bits granted and denied after a rule list. -/
def accumulate (s : BitVec w × BitVec w) (l : List (Rule w)) : BitVec w × BitVec w :=
  l.foldl accumulateRule s

/-- One rule, seen at one bit: it decides an undecided bit and no other. -/
theorem getLsbD_accumulateRule (s : BitVec w × BitVec w) (r : Rule w) (i : ℕ) :
    (accumulateRule s r).1.getLsbD i =
        (s.1.getLsbD i || (!s.2.getLsbD i && r.mask.getLsbD i && r.effect == .allow)) ∧
      (accumulateRule s r).2.getLsbD i =
        (s.2.getLsbD i || (!s.1.getLsbD i && r.mask.getLsbD i && r.effect == .deny)) := by
  rcases r with ⟨_ | _, m⟩ <;>
    simp only [accumulateRule, BitVec.getLsbD_or, getLsbD_and_not] <;>
    cases s.1.getLsbD i <;> cases s.2.getLsbD i <;> cases m.getLsbD i <;> exact ⟨rfl, rfl⟩

/-- **The accumulating sweep is the meaning of the list**, on the bits that were
not decided before it. -/
theorem getLsbD_accumulate (s : BitVec w × BitVec w) (l : List (Rule w)) (i : ℕ) :
    (accumulate s l).1.getLsbD i =
        (s.1.getLsbD i || (!s.2.getLsbD i && verdict l i == some .allow)) ∧
      (accumulate s l).2.getLsbD i =
        (s.2.getLsbD i || (!s.1.getLsbD i && verdict l i == some .deny)) := by
  induction l generalizing s with
  | nil => simp [accumulate]
  | cons r l ih =>
    obtain ⟨hg, hd⟩ := getLsbD_accumulateRule s r i
    obtain ⟨ihg, ihd⟩ := ih (accumulateRule s r)
    rw [accumulate, foldl_cons, ← accumulate, ihg, ihd, hg, hd]
    cases h : r.mask.getLsbD i with
    | false => simp [verdict_cons_neg l h]
    | true =>
      rw [verdict_cons_pos l h]
      -- the bit is decided now at the latest, so the rest of the list is not asked
      rcases r with ⟨_ | _, m⟩ <;> cases s.1.getLsbD i <;> cases s.2.getLsbD i <;> simp

/-- From nothing decided, the bits granted are those with verdict allow. -/
theorem getLsbD_accumulate_zero (l : List (Rule w)) (i : ℕ) :
    (accumulate (0, 0) l).1.getLsbD i = (verdict l i == some .allow) := by
  rw [(getLsbD_accumulate (0, 0) l i).1]
  simp

/-! ### The requesting sweep -/

/-- The bits still asked for after a rule list: allow rules cross bits off, and
the first deny rule that has one of them ends the sweep. -/
def request (rem : BitVec w) : List (Rule w) → BitVec w
  | [] => rem
  | r :: l =>
    match r.effect with
    | .allow => request (rem &&& ~~~r.mask) l
    | .deny => if rem &&& r.mask ≠ 0 then rem else request rem l

/-- **The requesting sweep is the meaning of the list**: nothing is left of a
request exactly if every bit of it has verdict allow. -/
theorem request_eq_zero_iff (rem : BitVec w) (l : List (Rule w)) :
    request rem l = 0 ↔ ∀ i, rem.getLsbD i = true → verdict l i = some .allow := by
  induction l generalizing rem with
  | nil =>
    rw [request, eq_zero_iff]
    exact forall_congr' fun i => by simp
  | cons r l ih =>
    rcases r with ⟨_ | _, m⟩
    · rw [request, ih]
      refine forall_congr' fun i => ?_
      rw [getLsbD_and_not]
      cases h : m.getLsbD i with
      | true => simp [verdict_cons_pos (r := ⟨.allow, m⟩) l h]
      | false => simp [verdict_cons_neg (r := ⟨.allow, m⟩) l h]
    · rw [request]
      by_cases hm : rem &&& m ≠ 0
      · rw [if_pos hm]
        obtain ⟨i, hi, hmi⟩ := and_ne_zero_iff.mp hm
        refine iff_of_false (fun h0 => ?_) fun h => ?_
        · rw [eq_zero_iff.mp h0 i] at hi
          exact absurd hi (by decide)
        · have hv := h i hi
          rw [verdict_cons_pos (r := ⟨.deny, m⟩) l hmi] at hv
          exact absurd hv (by simp)
      · rw [if_neg hm, ih]
        refine forall₂_congr fun i hi => ?_
        rw [verdict_cons_neg]
        by_contra hmi
        exact hm (and_ne_zero_iff.mpr ⟨i, hi, by simpa using hmi⟩)

/-! ### Several readings of one list -/

section Readings

variable {α : Type*}

/-- What an element says about a bit when it is read as a rule, if it is. -/
def reading (k : α → Option (Rule w)) (i : ℕ) (a : α) : Option Effect :=
  (k a).bind fun r => if r.mask.getLsbD i then some r.effect else none

/-- The verdict of a list read as rules is the first thing an element says. -/
theorem verdict_filterMap (k : α → Option (Rule w)) (l : List α) (i : ℕ) :
    verdict (l.filterMap k) i = l.findSome? (reading k i) := by
  induction l with
  | nil => rfl
  | cons a l ih =>
    rw [findSome?_cons, reading]
    rcases hk : k a with _ | r
    · rw [filterMap_cons_none hk, ih]
      rfl
    · rw [filterMap_cons_some hk, Option.bind_some]
      cases hm : r.mask.getLsbD i with
      | true => exact verdict_cons_pos _ hm
      | false => rw [verdict_cons_neg _ hm, ih]; rfl

variable {f g h : α → Option Effect} {l : List α}

/-- **What is allowed** is allowed by an element with none before it that denies. -/
theorem findSome?_allow_iff : l.findSome? f = some .allow ↔ ∃ before a after,
    l = before ++ a :: after ∧ f a = some .allow ∧ ∀ d ∈ before, f d ≠ some .deny := by
  constructor
  · intro h
    obtain ⟨before, a, after, heq, ha, hbefore⟩ := findSome?_eq_some_iff.1 h
    exact ⟨before, a, after, heq, ha, fun d hd => by rw [hbefore d hd]; nofun⟩
  · rintro ⟨before, a, after, rfl, ha, hbefore⟩
    rw [findSome?_append]
    -- the elements before say nothing, or allow as well
    cases hfirst : before.findSome? f with
    | none => rw [Option.none_or, findSome?_cons, ha]
    | some e =>
      obtain ⟨d, hd, hread⟩ := exists_of_findSome?_eq_some hfirst
      cases e with
      | allow => rfl
      | deny => exact absurd hread (hbefore d hd)

/-- **A more suspicious reading allows less.** If every denial of the first reading is
one of the second, and everything the second allows the first does, then what the
second reading allows in the end, the first does. -/
theorem findSome?_allow_mono (hdeny : ∀ a ∈ l, f a = some .deny → g a = some .deny)
    (hallow : ∀ a ∈ l, g a = some .allow → f a = some .allow)
    (hg : l.findSome? g = some .allow) : l.findSome? f = some .allow := by
  obtain ⟨before, a, after, rfl, ha, hbefore⟩ := findSome?_allow_iff.1 hg
  exact findSome?_allow_iff.2 ⟨before, a, after, rfl, hallow a (by simp) ha, fun d hd hfd =>
    hbefore d hd (hdeny d (mem_append_left _ hd) hfd)⟩

/-- **Two readings that allow together.** `f` is compared with `g` and `h` at once:
of an element `g` allows and one `h` allows, `f` allows at least one; and whatever
`f` denies is denied by `g` or by `h`, by `h` if there is something that `g` allows
and `f` does not, and by `g` if there is something that `h` allows and `f` does not.
Then what both readings allow in the end, `f` allows. -/
theorem findSome?_allow_of_both (hallow : ∀ a ∈ l, ∀ b ∈ l, g a = some .allow → h b = some .allow →
      f a = some .allow ∨ f b = some .allow)
    (hdeny : ∀ a ∈ l, ∀ b ∈ l, ∀ d ∈ l, g a = some .allow → h b = some .allow →
      f d = some .deny → (g d = some .deny ∨ h d = some .deny) ∧
        (f a = some .allow ∨ h d = some .deny) ∧ (f b = some .allow ∨ g d = some .deny))
    (hg : l.findSome? g = some .allow) (hh : l.findSome? h = some .allow) :
    l.findSome? f = some .allow := by
  obtain ⟨s, a, s', hs, ha, hga⟩ := findSome?_allow_iff.1 hg
  obtain ⟨t, b, t', ht, hb, hhb⟩ := findSome?_allow_iff.1 hh
  have hal : a ∈ l := by simp [hs]
  have hbl : b ∈ l := by simp [ht]
  have hsl : ∀ d ∈ s, d ∈ l := fun d hd => hs ▸ mem_append_left _ hd
  have htl : ∀ d ∈ t, d ∈ l := fun d hd => ht ▸ mem_append_left _ hd
  have hor := hallow a hal b hbl ha hb
  have hden := fun d hd => hdeny a hal b hbl d hd ha hb
  rw [findSome?_allow_iff]
  -- in the shorter of the two parts neither reading denies
  rcases prefix_or_prefix_of_prefix ⟨_, hs.symm⟩ ⟨_, ht.symm⟩ with hst | hts
  · by_cases hfa : f a = some .allow
    · exact ⟨s, a, s', hs, hfa, fun d hd hfd =>
        (hden d (hsl d hd) hfd).1.elim (hga d hd) (hhb d (hst.subset hd))⟩
    · exact ⟨t, b, t', ht, hor.resolve_left hfa, fun d hd hfd =>
        hhb d hd ((hden d (htl d hd) hfd).2.1.resolve_left hfa)⟩
  · by_cases hfb : f b = some .allow
    · exact ⟨t, b, t', ht, hfb, fun d hd hfd =>
        (hden d (htl d hd) hfd).1.elim (hga d (hts.subset hd)) (hhb d hd)⟩
    · exact ⟨s, a, s', hs, hor.resolve_right hfb, fun d hd hfd =>
        hga d hd ((hden d (hsl d hd) hfd).2.2.resolve_left hfb)⟩

end Readings

end Windivs

import Mathlib.Tactic

/-!
# Range lists

The range lists of `sdk/lib/rtl/rangelist.c`: ranges of 64-bit numbers, both ends included, in a
list. Three functions are compared with what they are for: `RtlInvertRangeList` with the complement
(`Windivs.RangeList.invertExact_iff`), `RtlFindRange` with the search for an aligned free range
(`Windivs.RangeList.findsRange_iff`), and `RtlIsRangeAvailable` with the absence of conflicts
(`Windivs.RangeList.availableExact_iff`).

The allocation of an entry always succeeds. A callback is a function of the range.
-/

namespace Windivs

open List
open UInt64 (le_iff_toNat_le lt_iff_toNat_lt toNat_sub toNat_sub_of_le toNat_one)

variable {callback : Option (RtlRange → Bool)} {current previous : RtlRange}
  {hi lo start x : UInt64} {inverted list : RtlRangeList} {k : ℕ} {ranges rest : List RtlRange}

namespace RangeList

/-! ### The lists -/

/-- The status codes of the functions. -/
inductive Status where
  | success
  | invalidParameter
  | rangeNotFound
  deriving DecidableEq, Repr

/-- `RTL_RANGE`. `RtlAddRange` makes no range that ends before it starts. -/
structure RtlRange where
  rangeStart : UInt64
  rangeEnd : UInt64
  userData : ℕ
  owner : ℕ
  attributes : UInt8
  flags : UInt8
  le : rangeStart ≤ rangeEnd
  deriving DecidableEq

/-- `RTL_RANGE_LIST`, with the ranges from `ListHead.Flink` on. -/
structure RtlRangeList where
  ranges : List RtlRange
  count : UInt32
  stamp : UInt32

/-- `RtlInitializeRangeList`. -/
def rtlInitializeRangeList : RtlRangeList := ⟨[], 0, 0⟩

/-- The new entry before the first one that starts above its end. -/
def insertEntry (entry : RtlRange) : List RtlRange → List RtlRange
  | [] => [entry]
  | current :: rest =>
    if entry.rangeEnd < current.rangeStart then entry :: current :: rest
    else current :: insertEntry entry rest

/-- `RtlAddRange`. -/
def rtlAddRange (list : RtlRangeList) (start rangeEnd : UInt64) (attributes : UInt8)
    (flags : UInt32) (userData owner : ℕ) : Status × RtlRangeList :=
  if h : start ≤ rangeEnd then
    let entry : RtlRange := ⟨start, rangeEnd, userData, owner, attributes,
      if flags &&& 2 ≠ 0 then 1 else 0, h⟩
    (.success,
      { ranges := if list.count = 0 then list.ranges ++ [entry] else insertEntry entry list.ranges
        count := list.count + 1
        stamp := list.stamp + 1 })
  else (.invalidParameter, list)

/-- A number in one of the ranges. -/
def Covers (ranges : List RtlRange) (x : UInt64) : Prop :=
  ∃ r ∈ ranges, r.rangeStart ≤ x ∧ x ≤ r.rangeEnd

/-- Ranges in order, without a common number. -/
def Sorted (ranges : List RtlRange) : Prop :=
  ranges.Pairwise fun r r' => r.rangeEnd < r'.rangeStart

/-! ### Inversion -/

/-- One turn of the loop of `RtlInvertRangeList`. Its variables are `Previous`, the status and the
inverted list; it returns at the first status that is not a success. -/
def invertTurn (st : Option RtlRange × Status × RtlRangeList) (current : RtlRange) :
    Option RtlRange × Status × RtlRangeList :=
  match st with
  | (previous, .success, inverted) =>
    (some current,
      match previous with
      | none =>
        if current.rangeStart ≠ 0 then
          rtlAddRange inverted 0 (current.rangeStart - 1) 0 0 0 0
        else (.success, inverted)
      | some previous =>
        if previous.rangeEnd + 1 ≠ current.rangeStart then
          rtlAddRange inverted (previous.rangeEnd + 1) (current.rangeStart - 1) 0 0 0 0
        else (.success, inverted))
  | failed => failed

/-- `RtlInvertRangeList`. -/
def rtlInvertRangeList (inverted list : RtlRangeList) : Status × RtlRangeList :=
  match list.ranges.foldl invertTurn (none, .success, inverted) with
  | (some previous, .success, inverted) =>
    if previous.rangeEnd + 1 ≠ 0xFFFFFFFFFFFFFFFF then
      rtlAddRange inverted (previous.rangeEnd + 1) 0xFFFFFFFFFFFFFFFF 0 0 0 0
    else (.success, inverted)
  | (_, result) => result

/-- **The inversion is exact**: it succeeds, and the new list is in order and covers what the old
one does not. -/
def InvertExact (list : RtlRangeList) : Prop :=
  ∃ inverted, rtlInvertRangeList rtlInitializeRangeList list = (.success, inverted) ∧
    Sorted inverted.ranges ∧ ∀ x, Covers inverted.ranges x ↔ ¬ Covers list.ranges x

/-- What the loop has made when it has come to the range `previous`: the complement up to there. -/
structure InvertedTo (ranges : List RtlRange) (previous : RtlRange)
    (inverted : RtlRangeList) : Prop where
  sorted : Sorted inverted.ranges
  below : ∀ r ∈ inverted.ranges, r.rangeEnd < previous.rangeStart
  top : ∀ x, Covers ranges x → x ≤ previous.rangeEnd
  exact : ∀ x, Covers inverted.ranges x ↔ x ≤ previous.rangeEnd ∧ ¬ Covers ranges x

theorem insertEntry_of_lt {entry : RtlRange} (h : ∀ r ∈ ranges, r.rangeStart ≤ entry.rangeEnd) :
    insertEntry entry ranges = ranges ++ [entry] := by
  induction ranges with
  | nil => rfl
  | cons r ranges ih =>
    obtain ⟨hr, hranges⟩ := forall_mem_cons.1 h
    rw [insertEntry, if_neg (UInt64.not_lt.2 hr), ih hranges, cons_append]

variable {r : RtlRange}

/-- A gap above all the ranges is added at the end. -/
theorem rtlAddRange_of_lt (hle : lo ≤ hi) (h : ∀ r ∈ inverted.ranges, r.rangeEnd < lo) :
    ∃ list, rtlAddRange inverted lo hi 0 0 0 0 = (.success, list) ∧
      list.ranges = inverted.ranges ++ [⟨lo, hi, 0, 0, 0, 0, hle⟩] := by
  refine ⟨_, dif_pos hle, ?_⟩
  split
  · rfl
  · exact insertEntry_of_lt fun r hr =>
      UInt64.le_trans (UInt64.le_trans r.le (UInt64.le_of_lt (h r hr))) hle

theorem not_covers_nil : ¬ Covers [] x := by
  rintro ⟨r, hr, -⟩
  exact not_mem_nil hr

theorem covers_append {a b : List RtlRange} : Covers (a ++ b) x ↔ Covers a x ∨ Covers b x := by
  simp only [Covers, mem_append, or_and_right, exists_or]

theorem covers_singleton : Covers [r] x ↔ r.rangeStart ≤ x ∧ x ≤ r.rangeEnd := by
  simp only [Covers, mem_singleton, exists_eq_left]

/-- The loop goes on over a gap and the range above it. -/
theorem InvertedTo.step {ranges gap : List RtlRange} {inverted inverted' : RtlRangeList}
    (h : InvertedTo ranges previous inverted) (hlt : previous.rangeEnd < current.rangeStart)
    (hranges : inverted'.ranges = inverted.ranges ++ gap) (hsorted : Sorted gap)
    (hgap : ∀ r ∈ gap, previous.rangeEnd < r.rangeStart ∧ r.rangeEnd < current.rangeStart)
    (hcovers : ∀ x, Covers gap x ↔ previous.rangeEnd < x ∧ x < current.rangeStart) :
    InvertedTo (ranges ++ [current]) current inverted' := by
  have hle := previous.le
  have hle' := current.le
  refine ⟨?_, fun r hr => ?_, fun x hx => ?_, fun x => ?_⟩
  · rw [hranges]
    refine pairwise_append.2 ⟨h.sorted, hsorted, fun r hr r' hr' => ?_⟩
    have hbelow := h.below r hr
    grind
  · rw [hranges] at hr
    rcases mem_append.1 hr with hr | hr
    · have hbelow := h.below r hr
      grind
    · exact (hgap r hr).2
  · rcases covers_append.1 hx with hx | hx
    · have htop := h.top x hx
      grind
    · exact (covers_singleton.1 hx).2
  · have htop := h.top x
    rw [hranges, covers_append, covers_append, covers_singleton, h.exact]
    grind

/-- The gap below a range, if there is one. -/
theorem exists_gap {lo : UInt64} {current : RtlRange}
    (hle : lo ≤ current.rangeStart) (h : ∀ r ∈ inverted.ranges, r.rangeEnd < lo) :
    ∃ gap inverted', (if lo ≠ current.rangeStart then
        rtlAddRange inverted lo (current.rangeStart - 1) 0 0 0 0 else (.success, inverted)) =
        (.success, inverted') ∧ inverted'.ranges = inverted.ranges ++ gap ∧ Sorted gap ∧
      (∀ r ∈ gap, lo ≤ r.rangeStart ∧ r.rangeEnd < current.rangeStart) ∧
      ∀ x, Covers gap x ↔ lo ≤ x ∧ x < current.rangeStart := by
  by_cases hne : lo ≠ current.rangeStart
  · have hlast : current.rangeStart - 1 < current.rangeStart := by grind
    obtain ⟨list, hadd, hlist⟩ :=
      rtlAddRange_of_lt (show lo ≤ current.rangeStart - 1 by grind) h
    rw [if_pos hne]
    refine ⟨_, list, hadd, hlist, pairwise_singleton _ _, fun r hr => ?_, fun x => ?_⟩
    · obtain rfl := mem_singleton.1 hr
      exact ⟨UInt64.le_refl lo, hlast⟩
    · rw [covers_singleton]
      grind
  · rw [if_neg hne]
    refine ⟨[], inverted, rfl, (append_nil _).symm, .nil, by simp, fun x => ?_⟩
    refine iff_of_false not_covers_nil ?_
    grind

/-- The first turn: the gap below the first range. -/
theorem exists_invertedTo (first : RtlRange) :
    ∃ inverted, invertTurn (none, .success, rtlInitializeRangeList) first =
        (some first, .success, inverted) ∧ InvertedTo [first] first inverted := by
  obtain ⟨gap, inverted, hturn, hranges, hsorted, hgap, hcovers⟩ :=
    @exists_gap rtlInitializeRangeList 0 first UInt64.zero_le
      fun r hr => (not_mem_nil hr).elim
  rw [rtlInitializeRangeList, nil_append] at hranges
  simp only [ne_comm] at hturn
  have hle := first.le
  refine ⟨inverted, congrArg (Prod.mk _) hturn, hranges ▸ hsorted, fun r hr => ?_,
    fun x hx => (covers_singleton.1 hx).2, fun x => ?_⟩
  · exact (hgap r (hranges ▸ hr)).2
  · rw [covers_singleton]
    grind

/-- **The loop**, by induction over the ranges that are left. -/
theorem foldl_invertTurn
    (h : InvertedTo ranges previous inverted) (hrest : Sorted (previous :: rest)) :
    ∃ inverted', rest.foldl invertTurn (some previous, .success, inverted) =
        (some ((previous :: rest).getLast (cons_ne_nil _ _)), .success, inverted') ∧
      InvertedTo (ranges ++ rest) ((previous :: rest).getLast (cons_ne_nil _ _))
        inverted' := by
  induction rest generalizing ranges previous inverted with
  | nil => exact ⟨inverted, rfl, by rwa [append_nil]⟩
  | cons current rest ih =>
    obtain ⟨hprevious, hsorted⟩ := pairwise_cons.1 hrest
    have hlt := hprevious current mem_cons_self
    have hlift : ∀ x, previous.rangeEnd + 1 ≤ x ↔ previous.rangeEnd < x := by grind
    have hbelow : ∀ r ∈ inverted.ranges, r.rangeEnd < previous.rangeEnd + 1 := fun r hr => by
      have hr := h.below r hr
      have hle := previous.le
      grind
    obtain ⟨gap, inverted', hturn, hranges, hgap, hinside, hcovers⟩ :=
      exists_gap ((hlift _).2 hlt) hbelow
    simp only [hlift] at hinside hcovers
    obtain ⟨list, hfold, hlist⟩ := ih (h.step hlt hranges hgap hinside hcovers) hsorted
    rw [append_assoc] at hlist
    refine ⟨list, ?_, hlist⟩
    rw [foldl_cons, invertTurn, hturn]
    exact hfold

theorem mem_insertEntry (entry : RtlRange) (ranges : List RtlRange) :
    entry ∈ insertEntry entry ranges := by
  induction ranges with
  | nil => exact mem_singleton_self entry
  | cons r ranges ih =>
    rw [insertEntry]
    split
    · exact mem_cons_self
    · exact mem_cons_of_mem r ih

/-- An added range is covered. -/
theorem covers_rtlAddRange (h : rtlAddRange inverted lo hi 0 0 0 0 = (.success, list))
    (hlo : lo ≤ x) (hhi : x ≤ hi) : Covers list.ranges x := by
  have hle := UInt64.le_trans hlo hhi
  rw [rtlAddRange, dif_pos hle] at h
  obtain ⟨-, rfl⟩ := Prod.mk.inj h
  refine ⟨⟨lo, hi, 0, 0, 0, 0, hle⟩, ?_, hlo, hhi⟩
  split
  · exact mem_append_right _ (mem_singleton_self _)
  · exact mem_insertEntry _ _

/-- The whole function: after the loop the range above the last one, unless that one would start
with the greatest number. -/
theorem rtlInvertRangeList_cons {first : RtlRange}
    (hlist : list.ranges = first :: rest) (hsorted : Sorted list.ranges) :
    ∃ last inverted, list.ranges.getLast? = some last ∧ InvertedTo list.ranges last inverted ∧
      rtlInvertRangeList rtlInitializeRangeList list =
        if last.rangeEnd + 1 ≠ 0xFFFFFFFFFFFFFFFF then
          rtlAddRange inverted (last.rangeEnd + 1) 0xFFFFFFFFFFFFFFFF 0 0 0 0
        else (.success, inverted) := by
  obtain ⟨inverted, hturn, hfirst⟩ := exists_invertedTo first
  rw [hlist] at hsorted ⊢
  obtain ⟨inverted', hfold, hall⟩ := foldl_invertTurn hfirst hsorted
  refine ⟨_, inverted', getLast?_eq_some_getLast (cons_ne_nil _ _), hall, ?_⟩
  rw [rtlInvertRangeList, hlist, foldl_cons, hturn, hfold]

/-- With two numbers above the last range, the range above it completes the complement. -/
theorem InvertedTo.invertExact {last : RtlRange}
    (h : InvertedTo ranges last inverted) (hlast : last.rangeEnd < 0xFFFFFFFFFFFFFFFE) :
    ∃ list, rtlAddRange inverted (last.rangeEnd + 1) 0xFFFFFFFFFFFFFFFF 0 0 0 0 =
        (.success, list) ∧ Sorted list.ranges ∧
      ∀ x, Covers list.ranges x ↔ ¬ Covers ranges x := by
  have hbelow : ∀ r ∈ inverted.ranges, r.rangeEnd < last.rangeEnd + 1 := fun r hr => by
    have hr := h.below r hr
    have hle := last.le
    grind
  have hle : last.rangeEnd + 1 ≤ 0xFFFFFFFFFFFFFFFF := by grind
  obtain ⟨list, hadd, hlist⟩ := rtlAddRange_of_lt hle hbelow
  refine ⟨list, hadd, ?_, fun x => ?_⟩
  · rw [hlist]
    refine pairwise_append.2 ⟨h.sorted, pairwise_singleton _ _, fun r hr r' hr' => ?_⟩
    obtain rfl := mem_singleton.1 hr'
    exact hbelow r hr
  · have htop := h.top x
    rw [hlist, covers_append, covers_singleton, h.exact]
    grind

/-- **The inversion of a list in order is exact if and only if** the list has a last range and that
one ends more than one number below the greatest. Of an empty list nothing is inverted; above a
range that ends one below the greatest number, that number is left out; and above one that ends with
the greatest number the next one is 0, so that everything is added. -/
theorem invertExact_iff (list : RtlRangeList) (hsorted : Sorted list.ranges) :
    InvertExact list ↔
      ∃ last, list.ranges.getLast? = some last ∧ last.rangeEnd < 0xFFFFFFFFFFFFFFFE := by
  cases hlist : list.ranges with
  | nil =>
    refine iff_of_false ?_ fun ⟨_, hlast, _⟩ => nomatch hlast
    rintro ⟨inverted, hresult, -, hexact⟩
    obtain ⟨-, rfl⟩ := Prod.mk.inj hresult
    have hzero := (hexact 0).2
    rw [hlist] at hzero
    exact not_covers_nil (hzero not_covers_nil)
  | cons first rest =>
    obtain ⟨last, inverted, hlast, h, hresult⟩ := rtlInvertRangeList_cons hlist hsorted
    rw [← hlist, hlast]
    constructor
    · rintro ⟨inverted', hinverted, -, hexact⟩
      refine ⟨last, rfl, UInt64.not_le.1 fun hge => ?_⟩
      rw [hresult] at hinverted
      have hends : last.rangeEnd = 0xFFFFFFFFFFFFFFFE ∨ last.rangeEnd = 0xFFFFFFFFFFFFFFFF := by
        grind
      rcases hends with hend | hend
      · -- the greatest number is in neither of the two lists
        rw [hend] at hinverted
        obtain ⟨-, rfl⟩ := Prod.mk.inj hinverted
        have hnot : ¬ (0xFFFFFFFFFFFFFFFF : UInt64) ≤ last.rangeEnd := by grind
        have hnew := (hexact 0xFFFFFFFFFFFFFFFF).2 fun hx => hnot (h.top _ hx)
        exact hnot ((h.exact _).1 hnew).1
      · -- the end of the last range is in both
        rw [hend] at hinverted
        have hnew := covers_rtlAddRange hinverted (x := last.rangeEnd) UInt64.zero_le
          (by grind)
        exact (hexact _).1 hnew ⟨last, mem_of_getLast? hlast, last.le, UInt64.le_refl _⟩
    · rintro ⟨_, hsome, hroom⟩
      obtain rfl := Option.some.inj hsome
      obtain ⟨list', hadd, hsorted', hexact⟩ := h.invertExact hroom
      have hne : last.rangeEnd + 1 ≠ 0xFFFFFFFFFFFFFFFF := by grind
      exact ⟨list', by rw [hresult, if_pos hne, hadd], hsorted', hexact⟩

/-- A list with two ranges whose inversion is exact. -/
theorem invertExact_two : InvertExact
    ⟨[⟨0x10, 0x1F, 0, 0, 0, 0, by decide⟩, ⟨0x40, 0x4F, 0, 0, 0, 0, by decide⟩], 2, 2⟩ :=
  (invertExact_iff _ (by simp [Sorted])).2 ⟨_, rfl, by decide⟩

/-- A range up to the greatest number: the inverted list covers all numbers, the range too. -/
theorem not_invertExact_top :
    ¬ InvertExact ⟨[⟨0x1000, 0xFFFFFFFFFFFFFFFF, 0, 0, 0, 0, by decide⟩], 1, 1⟩ := by
  rintro ⟨inverted, hresult, -, hexact⟩
  obtain ⟨-, rfl⟩ := Prod.mk.inj hresult
  refine (hexact 0x1000).1 ⟨⟨0, 0xFFFFFFFFFFFFFFFF, 0, 0, 0, 0, by decide⟩, ?_, ?_, ?_⟩
    ⟨_, mem_singleton_self _, ?_, ?_⟩ <;> decide

/-! ### Availability -/

/-- The test of `RtlIsRangeAvailable` on a range of the list: not wholly above, not wholly below. -/
def meets (start rangeEnd : UInt64) (flags : UInt32) (r : RtlRange) : Bool :=
  !((decide (rangeEnd ≤ r.rangeStart) && decide (rangeEnd < r.rangeEnd)) ||
    (decide (r.rangeStart ≤ start) && decide (r.rangeEnd < start) &&
      (flags &&& 1 == 0 || r.flags &&& 1 == 0)))

/-- What `*Available` is set to at a range that meets the test. -/
def answer (callback : Option (RtlRange → Bool)) (r : RtlRange) : Bool :=
  match callback with
  | some callback => callback r
  | none => false

/-- `RtlIsRangeAvailable`, which does not read the mask of attributes. -/
def rtlIsRangeAvailable (list : RtlRangeList) (start rangeEnd : UInt64) (flags : UInt32)
    (callback : Option (RtlRange → Bool)) : Bool :=
  list.ranges.foldl (fun available r =>
    if meets start rangeEnd flags r then answer callback r else available) true

/-- A range with a number between `start` and `rangeEnd`. -/
def Overlaps (start rangeEnd : UInt64) (r : RtlRange) : Prop :=
  ∃ x, (start ≤ x ∧ x ≤ rangeEnd) ∧ r.rangeStart ≤ x ∧ x ≤ r.rangeEnd

/-- A conflict: without a callback any range, with one a range for which it returns false. -/
def Conflict (callback : Option (RtlRange → Bool)) (r : RtlRange) : Prop :=
  ∀ f, callback = some f → f r = false

/-- **The answer is exact**: true if and only if no overlapping range is a conflict. -/
def AvailableExact (list : RtlRangeList) (start rangeEnd : UInt64)
    (callback : Option (RtlRange → Bool)) : Prop :=
  rtlIsRangeAvailable list start rangeEnd 0 callback = true ↔
    ∀ r ∈ list.ranges, Overlaps start rangeEnd r → ¬ Conflict callback r

/-- A range that starts with the last number asked for and goes on above it. -/
def StartsAtEnd (rangeEnd : UInt64) (r : RtlRange) : Prop :=
  r.rangeStart = rangeEnd ∧ rangeEnd < r.rangeEnd

variable {rangeEnd : UInt64}

theorem overlaps_iff (hle : start ≤ rangeEnd) :
    Overlaps start rangeEnd r ↔ r.rangeStart ≤ rangeEnd ∧ start ≤ r.rangeEnd := by
  constructor
  · rintro ⟨x, ⟨hstart, hend⟩, hrstart, hrend⟩
    exact ⟨UInt64.le_trans hrstart hend, UInt64.le_trans hstart hrend⟩
  · rintro ⟨habove, hbelow⟩
    -- the higher one of the two starts is in both
    rcases UInt64.le_total start r.rangeStart with h | h
    · exact ⟨r.rangeStart, ⟨h, habove⟩, UInt64.le_refl _, r.le⟩
    · exact ⟨start, ⟨UInt64.le_refl _, hle⟩, h, hbelow⟩

/-- The test misses the ranges that start with the last number and go on. -/
theorem meets_iff (hle : start ≤ rangeEnd) :
    meets start rangeEnd 0 r = true ↔ Overlaps start rangeEnd r ∧ ¬ StartsAtEnd rangeEnd r := by
  have hrle := r.le
  rw [overlaps_iff hle, StartsAtEnd]
  simp only [meets, UInt32.zero_and, beq_self_eq_true, Bool.true_or, Bool.and_true]
  grind

theorem answer_eq_true {callback : Option (RtlRange → Bool)} :
    answer callback r = true ↔ ¬ Conflict callback r := by
  cases callback with
  | none => simp [answer, Conflict]
  | some f => simp [answer, Conflict]

/-- The loop: the last range that meets the test has set the answer. -/
theorem rtlIsRangeAvailable_eq (list : RtlRangeList) (start rangeEnd : UInt64) (flags : UInt32)
    (callback : Option (RtlRange → Bool)) :
    rtlIsRangeAvailable list start rangeEnd flags callback =
      ((list.ranges.filter (meets start rangeEnd flags)).getLast?.map (answer callback)).getD
        true := by
  unfold rtlIsRangeAvailable
  induction list.ranges using reverseRecOn with
  | nil => rfl
  | append_singleton ranges r ih =>
    rw [foldl_append, foldl_cons, filter_append, ih]
    by_cases h : meets start rangeEnd flags r = true
    · rw [filter_singleton, h]
      simp
    · rw [filter_singleton, Bool.eq_false_iff.2 h]
      simp

theorem getLast?_filter_eq_some {α : Type*} {p : α → Bool} {l : List α} {a : α} :
    (l.filter p).getLast? = some a ↔
      ∃ below above, l = below ++ a :: above ∧ p a = true ∧ ∀ b ∈ above, ¬ p b = true := by
  rw [getLast?_eq_some_iff]
  constructor
  · rintro ⟨others, h⟩
    obtain ⟨below, rest, rfl, -, hrest⟩ := filter_eq_append_iff.1 h
    obtain ⟨skipped, above, rfl, -, ha, habove⟩ := filter_eq_cons_iff.1 hrest
    exact ⟨below ++ skipped, above, (append_assoc ..).symm, ha,
      filter_eq_nil_iff.1 habove⟩
  · rintro ⟨below, above, rfl, ha, habove⟩
    refine ⟨below.filter p, ?_⟩
    rw [filter_append, filter_cons_of_pos ha, filter_eq_nil_iff.2 habove]

/-- The answer is false when the last range that the test finds is a conflict. -/
theorem rtlIsRangeAvailable_eq_false {list : RtlRangeList} {callback : Option (RtlRange → Bool)} :
    rtlIsRangeAvailable list start rangeEnd 0 callback = false ↔
      ∃ last, (list.ranges.filter (meets start rangeEnd 0)).getLast? = some last ∧
        Conflict callback last := by
  rw [rtlIsRangeAvailable_eq]
  cases (list.ranges.filter (meets start rangeEnd 0)).getLast? with
  | none => simp
  | some last =>
    have h := not_congr (@answer_eq_true last callback)
    rw [Bool.not_eq_true] at h
    simp [h]

/-- **The answer is exact if and only if**, when an overlapping range is a conflict, so is the last
one of the overlapping ranges that do not start with the last number asked for and go on. Those are
missed, and each of the others overwrites the answer for the ones before it. -/
theorem availableExact_iff (list : RtlRangeList) {start rangeEnd : UInt64}
    (callback : Option (RtlRange → Bool)) (hle : start ≤ rangeEnd) :
    AvailableExact list start rangeEnd callback ↔
      ((∃ r ∈ list.ranges, Overlaps start rangeEnd r ∧ Conflict callback r) →
        ∃ below last above, list.ranges = below ++ last :: above ∧
          (Overlaps start rangeEnd last ∧ ¬ StartsAtEnd rangeEnd last) ∧
          (∀ r ∈ above, Overlaps start rangeEnd r → StartsAtEnd rangeEnd r) ∧
          Conflict callback last) := by
  have hfalse : rtlIsRangeAvailable list start rangeEnd 0 callback = false ↔
      ∃ below last above, list.ranges = below ++ last :: above ∧
        (Overlaps start rangeEnd last ∧ ¬ StartsAtEnd rangeEnd last) ∧
        (∀ r ∈ above, Overlaps start rangeEnd r → StartsAtEnd rangeEnd r) ∧
        Conflict callback last := by
    rw [rtlIsRangeAvailable_eq_false]
    simp only [getLast?_filter_eq_some, meets_iff hle, not_and, not_not]
    constructor
    · rintro ⟨last, ⟨below, above, hranges, hlast, habove⟩, hconflict⟩
      exact ⟨below, last, above, hranges, hlast, habove, hconflict⟩
    · rintro ⟨below, last, above, hranges, hlast, habove, hconflict⟩
      exact ⟨last, ⟨below, above, hranges, hlast, habove⟩, hconflict⟩
  rw [← hfalse]
  constructor
  · rintro hexact ⟨r, hr, hoverlaps, hconflict⟩
    by_contra htrue
    exact hexact.1 (Bool.not_eq_false _ ▸ htrue) r hr hoverlaps hconflict
  · intro h
    constructor
    · intro htrue r hr hoverlaps hconflict
      rw [h ⟨r, hr, hoverlaps, hconflict⟩] at htrue
      exact Bool.false_ne_true htrue
    · intro hnone
      by_contra hnot
      obtain ⟨below, last, above, hranges, hlast, -, hconflict⟩ :=
        hfalse.1 (Bool.eq_false_iff.2 hnot)
      have hmem : last ∈ list.ranges := hranges ▸ mem_append_right _ mem_cons_self
      exact hnone last hmem hlast.1 hconflict

/-- With no callback and two ranges around the numbers asked for, the answer is exact. -/
theorem availableExact_between : AvailableExact
    ⟨[⟨0x10, 0x1F, 0, 0, 0, 0, by decide⟩, ⟨0x40, 0x4F, 0, 0, 0, 0, by decide⟩], 2, 2⟩
    0x20 0x3F none := by
  refine (availableExact_iff _ none (by decide)).2 ?_
  rintro ⟨r, hr, hoverlaps, -⟩
  have hnone : ∀ r ∈ ([⟨0x10, 0x1F, 0, 0, 0, 0, by decide⟩, ⟨0x40, 0x4F, 0, 0, 0, 0, by decide⟩] :
      List RtlRange), ¬ (r.rangeStart ≤ 0x3F ∧ 0x20 ≤ r.rangeEnd) := by decide
  exact (hnone r hr ((overlaps_iff (by decide)).1 hoverlaps)).elim

/-- The range 10..1F is not seen from 0..10, though the number 10 is in both. -/
theorem not_availableExact_end :
    ¬ AvailableExact ⟨[⟨0x10, 0x1F, 0, 0, 0, 0, by decide⟩], 1, 1⟩ 0 0x10 none := by
  intro h
  refine h.1 (by decide) _ (mem_singleton_self _) ⟨0x10, ?_, ?_⟩ fun f hf => nomatch hf
  · decide
  · decide

/-! ### The search -/

/-- `ROUND_DOWN`: its mask is a number of 32 bits. -/
def roundDown (n : UInt64) (align : UInt32) : UInt64 := n &&& (~~~(align - 1)).toUInt64

/-- The arguments of `RtlFindRange`, which reads neither the flags nor the callback. -/
structure Search where
  list : RtlRangeList
  minimum : UInt64
  maximum : UInt64
  length : UInt32
  alignment : UInt32

/-- `RangeMin` at a gap that ends with `rangeMax`. -/
def Search.rangeMin (q : Search) (rangeMax : UInt64) : UInt64 :=
  roundDown (rangeMax - (q.length - 1).toUInt64) q.alignment

/-- The two tests of `RtlFindRange` at a gap that ends with `rangeMax`. -/
def Search.tryGap (q : Search) (rangeMax : UInt64) : Except Status UInt64 :=
  if rangeMax + (q.length - 1).toUInt64 < q.minimum then .error .rangeNotFound
  else if q.rangeMin rangeMax < q.minimum ∨
      rangeMax - q.rangeMin rangeMax < (q.length - 1).toUInt64 then .error .rangeNotFound
  else .ok (q.rangeMin rangeMax)

/-- The loop of `RtlFindRange`, over the ranges from `ListHead.Blink` on, and what follows it. -/
def Search.findLoop (q : Search) : Option RtlRange → List RtlRange → Except Status UInt64
  | next, [] => q.tryGap (next.elim q.maximum (·.rangeStart - 1))
  | next, current :: rest =>
    match q.tryGap (next.elim q.maximum (·.rangeStart - 1)) with
    | .error status => .error status
    | .ok start => if current.rangeEnd < start then .ok start else q.findLoop (some current) rest

/-- `RtlFindRange`: `*Start`, or the status of a failure. -/
def rtlFindRange (q : Search) : Except Status UInt64 :=
  if q.alignment = 0 ∨ q.length = 0 then .error .invalidParameter
  else if q.list.ranges = [] then .ok (q.rangeMin q.maximum)
  else q.findLoop none q.list.ranges.reverse

/-- An aligned start of a free range of this length between the bounds. -/
structure Search.FreeAt (q : Search) (start : UInt64) : Prop where
  aligned : q.alignment.toNat ∣ start.toNat
  minimum_le : q.minimum ≤ start
  le_maximum : start.toNat + (q.length.toNat - 1) ≤ q.maximum.toNat
  free : ∀ r ∈ q.list.ranges,
    r.rangeEnd < start ∨ start.toNat + (q.length.toNat - 1) < r.rangeStart.toNat

/-- A result is right: the start of a free range, or a failure where there is none. -/
def Search.Right (q : Search) : Except Status UInt64 → Prop
  | .ok start => q.FreeAt start
  | .error _ => ∀ start, ¬ q.FreeAt start

/-- The mask keeps the low 32 bits and rounds them down to the alignment. -/
theorem toNat_roundDown {n : UInt64} {align : UInt32} (halign : align.toNat = 2 ^ k) :
    (roundDown n align).toNat = n.toNat % 2 ^ 32 / 2 ^ k * 2 ^ k := by
  have hk : 2 ^ k < 2 ^ 32 := halign ▸ align.toNat_lt
  have hk' : k < 32 := (Nat.pow_lt_pow_iff_right (by decide)).1 hk
  have hpos := Nat.two_pow_pos k
  have hone : (1 : UInt32) ≤ align := UInt32.le_iff_toNat_le.2 (halign ▸ hpos)
  have hmask : (~~~(align - 1)).toUInt64.toNat = (2 ^ (32 - k) - 1) * 2 ^ k := by
    rw [UInt32.toNat_toUInt64, UInt32.toNat_not, UInt32.toNat_sub_of_le _ _ hone, halign,
      Nat.sub_mul, ← pow_add, Nat.sub_add_cancel hk'.le, UInt32.toNat_one, UInt32.size]
    generalize 2 ^ k = a at hpos hk ⊢
    omega
  rw [roundDown, UInt64.toNat_and, hmask]
  refine Nat.eq_of_testBit_eq fun i => ?_
  rw [Nat.testBit_and, Nat.testBit_mul_two_pow, Nat.testBit_mul_two_pow,
    Nat.testBit_two_pow_sub_one, Nat.testBit_div_two_pow, Nat.testBit_mod_two_pow]
  by_cases hi : k ≤ i
  · have hiff : i - k < 32 - k ↔ i < 32 := by omega
    simp [hi, hiff, Bool.and_comm]
  · simp [hi]

namespace Search

/-- The searches whose highest start fits in the mask, with a length that fits below the maximum
and an alignment that is a power of two. -/
structure Narrow (q : Search) (k : ℕ) : Prop where
  alignment_eq : q.alignment.toNat = 2 ^ k
  length_pos : 0 < q.length.toNat
  length_le : q.length.toNat - 1 ≤ q.maximum.toNat
  maximum_lt : q.maximum.toNat < 2 ^ 32 + (q.length.toNat - 1)

/-- The search goes on below a range: there is no free start above it, but there would be an
aligned one not below the minimum if only the ranges above it counted. -/
structure Reached (q : Search) (r : RtlRange) : Prop where
  mem : r ∈ q.list.ranges
  none_above : ∀ start, q.FreeAt start →
    start.toNat + (q.length.toNat - 1) < r.rangeStart.toNat
  room_above : ∃ n, q.alignment.toNat ∣ n ∧ q.minimum.toNat ≤ n ∧
    n + (q.length.toNat - 1) ≤ q.maximum.toNat ∧ ∀ r' ∈ q.list.ranges, r.rangeEnd < r'.rangeStart →
      n + (q.length.toNat - 1) < r'.rangeStart.toNat

/-- The start that is computed below a range without room for the length below it: the difference
wraps, and is cut to 32 bits. -/
def wrapped (q : Search) (r : RtlRange) : ℕ :=
  (2 ^ 32 + r.rangeStart.toNat - q.length.toNat) / q.alignment.toNat * q.alignment.toNat

/-- The wrapped start is refused: it is below the minimum or below the range, or the end of the gap
is too far below the minimum. -/
def Refuses (q : Search) (r : RtlRange) : Prop :=
  q.wrapped r < q.minimum.toNat ∨ q.wrapped r < r.rangeStart.toNat ∨
    1 < q.length.toNat ∧ r.rangeStart.toNat + q.length.toNat < q.minimum.toNat + 2

/-- The state of the loop at a gap that ends with `rangeMax`: the ranges `above` have been passed,
and `rest` are those below. -/
structure At (q : Search) (above rest : List RtlRange) (rangeMax : UInt64) : Prop where
  ranges_eq : q.list.ranges.reverse = above ++ rest
  descending : (above ++ rest).Pairwise fun r r' => r'.rangeEnd < r.rangeStart
  le_maximum : rangeMax ≤ q.maximum
  lt_above : ∀ r ∈ above, rangeMax < r.rangeStart
  highest : ∀ n, n ≤ q.maximum.toNat → (∀ r ∈ above, n < r.rangeStart.toNat) → n ≤ rangeMax.toNat
  long : q.length.toNat - 1 ≤ rangeMax.toNat
  all : ∀ start, q.FreeAt start → start.toNat + (q.length.toNat - 1) ≤ rangeMax.toNat

section Loop

variable {q : Search} {rangeMax : UInt64} {above : List RtlRange} (hq : q.Narrow k)
include hq

theorem Narrow.toNat_length : (q.length - 1).toUInt64.toNat = q.length.toNat - 1 := by
  have hle : (1 : UInt32) ≤ q.length := UInt32.le_iff_toNat_le.2 hq.length_pos
  rw [UInt32.toNat_toUInt64, UInt32.toNat_sub_of_le _ _ hle, UInt32.toNat_one]

section

variable (h : q.At above rest rangeMax)
include h

/-- At a gap of at least this length `RangeMin` is the highest aligned start in it. -/
theorem At.toNat_rangeMin :
    (q.rangeMin rangeMax).toNat = (rangeMax.toNat - (q.length.toNat - 1)) / 2 ^ k * 2 ^ k := by
  have hlong := h.long
  have hmax := le_iff_toNat_le.1 h.le_maximum
  have hlt := hq.maximum_lt
  have hone := hq.toNat_length
  have hsub : (rangeMax - (q.length - 1).toUInt64).toNat =
      rangeMax.toNat - (q.length.toNat - 1) := by
    rw [toNat_sub_of_le _ _ (le_iff_toNat_le.2 (hone ▸ hlong)), hone]
  rw [rangeMin, toNat_roundDown hq.alignment_eq, hsub, Nat.mod_eq_of_lt (by omega)]

theorem At.rangeMin_le :
    (q.rangeMin rangeMax).toNat + (q.length.toNat - 1) ≤ rangeMax.toNat := by
  have hle := Nat.div_mul_le_self (rangeMax.toNat - (q.length.toNat - 1)) (2 ^ k)
  rw [← h.toNat_rangeMin hq] at hle
  have hlong := h.long
  omega

theorem At.aligned : q.alignment.toNat ∣ (q.rangeMin rangeMax).toNat := by
  rw [hq.alignment_eq, h.toNat_rangeMin hq]
  exact Nat.dvd_mul_left _ _

/-- Of the two tests only the comparison with the minimum is left. -/
theorem At.tryGap_eq :
    q.tryGap rangeMax = if q.rangeMin rangeMax < q.minimum then .error .rangeNotFound
      else .ok (q.rangeMin rangeMax) := by
  have hle := h.rangeMin_le hq
  have hmax := le_iff_toNat_le.1 h.le_maximum
  have hlt := hq.maximum_lt
  have hone := hq.toNat_length
  have hlength := q.length.toNat_lt
  have hadd : (rangeMax + (q.length - 1).toUInt64).toNat =
      rangeMax.toNat + (q.length.toNat - 1) := by
    rw [UInt64.toNat_add, hone]
    exact Nat.mod_eq_of_lt (by omega)
  have hgap : (rangeMax - q.rangeMin rangeMax).toNat =
      rangeMax.toNat - (q.rangeMin rangeMax).toNat :=
    toNat_sub_of_le _ _ (le_iff_toNat_le.2 (by omega))
  unfold tryGap
  simp only [lt_iff_toNat_lt]
  split
  · rw [if_pos (by omega)]
  · refine if_congr ?_ rfl rfl
    omega

/-- No aligned start in the gap is above the highest one. -/
theorem At.le_rangeMin {n : ℕ} (hn : q.alignment.toNat ∣ n)
    (hle : n + (q.length.toNat - 1) ≤ rangeMax.toNat) : n ≤ (q.rangeMin rangeMax).toNat := by
  obtain ⟨i, rfl⟩ := hn
  rw [h.toNat_rangeMin hq, hq.alignment_eq, Nat.mul_comm]
  refine Nat.mul_le_mul_right _ ((Nat.le_div_iff_mul_le (Nat.two_pow_pos k)).2 ?_)
  rw [Nat.mul_comm, ← hq.alignment_eq]
  omega

theorem At.not_freeAt (hlt : q.rangeMin rangeMax < q.minimum) (start : UInt64) :
    ¬ q.FreeAt start := fun hstart => by
  have hle := h.le_rangeMin hq hstart.aligned (h.all start hstart)
  have hmin := le_iff_toNat_le.1 hstart.minimum_le
  rw [lt_iff_toNat_lt] at hlt
  omega

/-- The highest start of the gap is free if it lies above the ranges below. -/
theorem At.freeAt (hmin : ¬ q.rangeMin rangeMax < q.minimum)
    (hrest : ∀ r ∈ rest, r.rangeEnd < q.rangeMin rangeMax) : q.FreeAt (q.rangeMin rangeMax) := by
  have hle := h.rangeMin_le hq
  have hmax := le_iff_toNat_le.1 h.le_maximum
  refine ⟨h.aligned hq, UInt64.not_lt.1 hmin, by omega, fun r hr => ?_⟩
  rw [← mem_reverse, h.ranges_eq, mem_append] at hr
  rcases hr with hr | hr
  · have hlt := lt_iff_toNat_lt.1 (h.lt_above r hr)
    exact .inr (by omega)
  · exact .inl (hrest r hr)

/-- Where the search ends at the minimum, it goes on below no range. -/
theorem At.not_reached_of_lt (hlt : q.rangeMin rangeMax < q.minimum) :
    ∀ r ∈ rest, ¬ q.Reached r := by
  intro r hr hreached
  obtain ⟨n, hn, hmin, hmax, habove⟩ := hreached.room_above
  have hle := h.highest (n + (q.length.toNat - 1)) hmax fun r' hr' => habove r'
    (mem_reverse.1 (h.ranges_eq ▸ mem_append_left _ hr'))
    ((pairwise_append.1 h.descending).2.2 r' hr' r hr)
  have hle' := h.le_rangeMin hq hn hle
  rw [lt_iff_toNat_lt] at hlt
  omega

end

omit hq in
/-- Nor below one that lies below a free start. -/
theorem not_reached_of_freeAt {start : UInt64} (hstart : q.FreeAt start) {r : RtlRange}
    (hlt : r.rangeEnd < start) : ¬ q.Reached r := fun hreached => by
  have habove := hreached.none_above start hstart
  have hle := le_iff_toNat_le.1 r.le
  rw [lt_iff_toNat_lt] at hlt
  omega

section

variable (h : q.At above (current :: rest) rangeMax)
include h

/-- The search goes on below a range that the highest start of the gap does not clear. -/
theorem At.reached (hmin : ¬ q.rangeMin rangeMax < q.minimum)
    (hnot : ¬ current.rangeEnd < q.rangeMin rangeMax) : q.Reached current := by
  have hmem : current ∈ q.list.ranges :=
    mem_reverse.1 (h.ranges_eq ▸ mem_append_right _ mem_cons_self)
  rw [lt_iff_toNat_lt] at hmin hnot
  refine ⟨hmem, fun start hstart => ?_, (q.rangeMin rangeMax).toNat, h.aligned hq, by omega, ?_,
    fun r hr hlt => ?_⟩
  · refine (hstart.free current hmem).resolve_left fun hlt => ?_
    have hle := h.le_rangeMin hq hstart.aligned (h.all start hstart)
    rw [lt_iff_toNat_lt] at hlt
    omega
  · exact (h.rangeMin_le hq).trans (le_iff_toNat_le.1 h.le_maximum)
  · -- a range that starts above this one has been passed
    have hle := h.rangeMin_le hq
    have hle' := le_iff_toNat_le.1 current.le
    rw [lt_iff_toNat_lt] at hlt
    rw [← mem_reverse, h.ranges_eq, mem_append, mem_cons] at hr
    rcases hr with hr | rfl | hr
    · have := lt_iff_toNat_lt.1 (h.lt_above r hr)
      omega
    · omega
    · have hend := lt_iff_toNat_lt.1
        ((pairwise_cons.1 (pairwise_append.1 h.descending).2.1).1 r hr)
      have := le_iff_toNat_le.1 r.le
      omega

/-- The gap below it. -/
theorem At.step (hreached : q.Reached current)
    (hstart : current.rangeStart.toNat ≤ q.maximum.toNat + 1)
    (hlong : q.length.toNat ≤ current.rangeStart.toNat) :
    q.At (above ++ [current]) rest (current.rangeStart - 1) := by
  have hpos := hq.length_pos
  have hpred : (current.rangeStart - 1).toNat = current.rangeStart.toNat - 1 :=
    toNat_sub_of_le _ _ (le_iff_toNat_le.2 (hpos.trans_le hlong))
  have hsplit : above ++ current :: rest = above ++ [current] ++ rest := by simp
  refine ⟨h.ranges_eq.trans hsplit, hsplit ▸ h.descending, le_iff_toNat_le.2 (by omega),
    fun r hr => ?_, fun n _ hn => ?_, by omega, fun start hfree => ?_⟩
  · rw [lt_iff_toNat_lt]
    rcases mem_append.1 hr with hr | hr
    · have hend := lt_iff_toNat_lt.1
        ((pairwise_append.1 h.descending).2.2 r hr current mem_cons_self)
      have hle := le_iff_toNat_le.1 current.le
      omega
    · rw [mem_singleton.1 hr]
      omega
  · have hlt := hn current (mem_append_right _ (mem_singleton_self _))
    omega
  · have hlt := hreached.none_above start hfree
    omega

end

/-- Below a range without room for the length the start that is computed has wrapped. -/
theorem toNat_rangeMin_wrapped (hshort : current.rangeStart.toNat < q.length.toNat) :
    (q.rangeMin (current.rangeStart - 1)).toNat = q.wrapped current := by
  have hone := hq.toNat_length
  have hlength := q.length.toNat_lt
  have hsub : (current.rangeStart - 1 - (q.length - 1).toUInt64).toNat % 2 ^ 32 =
      2 ^ 32 + current.rangeStart.toNat - q.length.toNat := by
    rw [toNat_sub, toNat_sub, hone, toNat_one]
    omega
  rw [rangeMin, toNat_roundDown hq.alignment_eq, hsub, wrapped, hq.alignment_eq]

/-- **The two tests there**: the start is refused, or it is above the gap. -/
theorem tryGap_wrapped (hshort : current.rangeStart.toNat < q.length.toNat) :
    (q.Refuses current → q.tryGap (current.rangeStart - 1) = .error .rangeNotFound) ∧
      (¬ q.Refuses current → ∃ start, q.tryGap (current.rangeStart - 1) = .ok start ∧
        current.rangeStart ≤ start) := by
  have hone := hq.toNat_length
  have hlength := q.length.toNat_lt
  have hwrapped := toNat_rangeMin_wrapped hq hshort
  have hle : q.wrapped current ≤ 2 ^ 32 + current.rangeStart.toNat - q.length.toNat :=
    Nat.div_mul_le_self _ _
  have hmin := q.minimum.toNat_lt
  have hend : (current.rangeStart - 1 + (q.length - 1).toUInt64).toNat < q.minimum.toNat ↔
      1 < q.length.toNat ∧
        current.rangeStart.toNat + q.length.toNat < q.minimum.toNat + 2 := by
    rw [UInt64.toNat_add, toNat_sub, hone, toNat_one]
    omega
  have hgap : (current.rangeStart - 1 - q.rangeMin (current.rangeStart - 1)).toNat <
      q.length.toNat - 1 ↔ q.wrapped current < current.rangeStart.toNat := by
    rw [toNat_sub, toNat_sub, hwrapped, toNat_one]
    omega
  rw [tryGap, Refuses]
  simp only [lt_iff_toNat_lt, le_iff_toNat_le, hone, hend, hgap, hwrapped]
  constructor
  · intro hrefuses
    split
    · rfl
    · rename_i hnot
      rw [if_pos (by tauto)]
  · intro hnot
    rw [if_neg (by tauto), if_neg (by tauto)]
    exact ⟨_, rfl, by rw [hwrapped]; omega⟩

/-- So the search is right there if it refuses. -/
theorem right_wrapped_iff (hnone : ∀ start, ¬ q.FreeAt start)
    (hrest : ∀ r ∈ rest, r.rangeEnd < current.rangeStart)
    (hshort : current.rangeStart.toNat < q.length.toNat) :
    q.Right (q.findLoop (some current) rest) ↔ q.Refuses current := by
  obtain ⟨hrefuses, hokay⟩ := tryGap_wrapped hq hshort
  by_cases h : q.Refuses current
  · refine iff_of_true ?_ h
    cases rest with
    | nil => rw [findLoop, Option.elim_some, hrefuses h]; exact hnone
    | cons r rest => rw [findLoop, Option.elim_some, hrefuses h]; exact hnone
  · refine iff_of_false ?_ h
    obtain ⟨start, hstart, hle⟩ := hokay h
    cases rest with
    | nil =>
      rw [findLoop, Option.elim_some, hstart]
      exact hnone start
    | cons r rest =>
      rw [findLoop, Option.elim_some, hstart]
      dsimp only
      rw [if_pos (UInt64.lt_of_lt_of_le (hrest r mem_cons_self) hle)]
      exact hnone start

/-- **The loop**, by induction over the ranges below. -/
theorem At.right_iff (h : q.At above rest rangeMax) {next : Option RtlRange}
    (hnext : next.elim q.maximum (·.rangeStart - 1) = rangeMax)
    (hstarts : ∀ r, q.Reached r → r.rangeStart.toNat ≤ q.maximum.toNat + 1) :
    q.Right (q.findLoop next rest) ↔
      ∀ r ∈ rest, q.Reached r → r.rangeStart.toNat < q.length.toNat → q.Refuses r := by
  induction rest generalizing above rangeMax next with
  | nil =>
    rw [findLoop, hnext, h.tryGap_eq hq]
    refine iff_of_true ?_ fun r hr => (not_mem_nil hr).elim
    by_cases hlt : q.rangeMin rangeMax < q.minimum
    · rw [if_pos hlt]
      exact h.not_freeAt hq hlt
    · rw [if_neg hlt]
      exact h.freeAt hq hlt fun r hr => (not_mem_nil hr).elim
  | cons current rest ih =>
    have hbelow := (pairwise_cons.1 (pairwise_append.1 h.descending).2.1).1
    rw [findLoop, hnext, h.tryGap_eq hq]
    by_cases hlt : q.rangeMin rangeMax < q.minimum
    · rw [if_pos hlt]
      exact iff_of_true (h.not_freeAt hq hlt) fun r hr hreached =>
        absurd hreached (h.not_reached_of_lt hq hlt r hr)
    rw [if_neg hlt]
    dsimp only
    by_cases hclear : current.rangeEnd < q.rangeMin rangeMax
    · rw [if_pos hclear]
      have hends : ∀ r ∈ current :: rest, r.rangeEnd < q.rangeMin rangeMax := by
        intro r hr
        rcases mem_cons.1 hr with rfl | hr
        · exact hclear
        · exact UInt64.lt_trans (hbelow r hr) (UInt64.lt_of_le_of_lt current.le hclear)
      have hfree := h.freeAt hq hlt hends
      exact iff_of_true hfree fun r hr hreached =>
        absurd hreached (not_reached_of_freeAt hfree (hends r hr))
    · rw [if_neg hclear]
      have hreached := h.reached hq hlt hclear
      by_cases hshort : current.rangeStart.toNat < q.length.toNat
      · -- nothing fits below, so that no start is free and no other range is reached
        have hnone : ∀ start, ¬ q.FreeAt start := fun start hstart => by
          have := hreached.none_above start hstart
          omega
        rw [right_wrapped_iff hq hnone hbelow hshort]
        refine ⟨fun hrefuses r hr hr' _ => ?_,
          fun hall => hall current mem_cons_self hreached hshort⟩
        rcases mem_cons.1 hr with rfl | hr
        · exact hrefuses
        · obtain ⟨n, -, -, -, habove⟩ := hr'.room_above
          have := habove current hreached.mem (hbelow r hr)
          omega
      · rw [ih (h.step hq hreached (hstarts current hreached) (not_lt.1 hshort)) rfl,
          forall_mem_cons]
        exact (and_iff_right fun _ hlt => absurd hlt hshort).symm

end Loop

end Search

/-- **When the search is right.** The highest start fits in the mask of 32 bits, the length fits
below the maximum, and no range below which the search goes on starts above the maximum. Then the
answer is right if and only if an empty list is asked for something that it has, as it is not
looked at, and each range below which the search goes on has room for the length below it or the
start that is computed there, which has wrapped, is refused. -/
theorem findsRange_iff (q : Search) {k : ℕ} (hq : q.Narrow k) (hsorted : Sorted q.list.ranges)
    (hstarts : ∀ r, q.Reached r → r.rangeStart.toNat ≤ q.maximum.toNat + 1) :
    q.Right (rtlFindRange q) ↔ (q.list.ranges = [] → ∃ start, q.FreeAt start) ∧
      ∀ r, q.Reached r → r.rangeStart.toNat < q.length.toNat → q.Refuses r := by
  have h : q.At [] q.list.ranges.reverse q.maximum :=
    { ranges_eq := rfl
      descending := pairwise_reverse.2 hsorted
      le_maximum := UInt64.le_refl _
      lt_above := fun r hr => (not_mem_nil hr).elim
      highest := fun n hn _ => hn
      long := hq.length_le
      all := fun start hstart => hstart.le_maximum }
  have hvalid : ¬ (q.alignment = 0 ∨ q.length = 0) := by
    rintro (hzero | hzero)
    · have halign := hq.alignment_eq
      rw [hzero] at halign
      exact (Nat.two_pow_pos k).ne halign
    · exact absurd hq.length_pos (by simp [hzero])
  rw [rtlFindRange, if_neg hvalid]
  by_cases hempty : q.list.ranges = []
  · -- the highest start is given without a test
    have hnone : ∀ r, ¬ q.Reached r := fun r hr => not_mem_nil (hempty ▸ hr.mem)
    rw [if_pos hempty, and_iff_left fun r hr => absurd hr (hnone r), imp_iff_right hempty]
    refine ⟨fun hfree => ⟨_, hfree⟩, fun ⟨start, hstart⟩ => ?_⟩
    refine h.freeAt hq (fun hlt => h.not_freeAt hq hlt start hstart) fun r hr => ?_
    rw [hempty] at hr
    exact (not_mem_nil hr).elim
  · rw [if_neg hempty, and_iff_right fun hnil => absurd hnil hempty, h.right_iff hq rfl hstarts]
    exact ⟨fun hall r hr => hall r (mem_reverse.2 hr.mem) hr, fun hall r _ => hall r⟩

/-- The list 0..FFF, 1800..4FFF has no free range of length and alignment 1000 from 1000 to 4FFF,
and none is found: the search ends above the range that has no room below. -/
theorem findsRange_between : Search.Right
      ⟨⟨[⟨0, 0xFFF, 0, 0, 0, 0, by decide⟩, ⟨0x1800, 0x4FFF, 0, 0, 0, 0, by decide⟩], 2, 2⟩,
        0x1000, 0x4FFF, 0x1000, 0x1000⟩
      (rtlFindRange
        ⟨⟨[⟨0, 0xFFF, 0, 0, 0, 0, by decide⟩, ⟨0x1800, 0x4FFF, 0, 0, 0, 0, by decide⟩], 2, 2⟩,
          0x1000, 0x4FFF, 0x1000, 0x1000⟩) := by
  refine (@findsRange_iff _ 12 ⟨rfl, by decide, by decide, by decide⟩ ?_ ?_).2 ⟨nofun, ?_⟩
  · exact pairwise_pair.2 (by decide)
  · intro r hr
    rcases mem_cons.1 hr.mem with rfl | hr
    · decide
    · rw [mem_singleton.1 hr]
      decide
  · intro r hr hshort
    -- the only range without room is the lower one, and nothing of the length fits above it
    obtain ⟨n, -, hmin, -, habove⟩ := hr.room_above
    rcases mem_cons.1 hr.mem with rfl | hr
    · have hlt := habove _ (mem_cons_of_mem _ (mem_singleton_self _)) (by decide)
      have hmin' : 0x1000 ≤ n := hmin
      have hlt' : n + 0xFFF < 0x1800 := hlt
      omega
    · rw [mem_singleton.1 hr] at hshort
      exact absurd hshort (by decide)

/-- Above 2^32 the free range is not found: its start is cut to 32 bits. -/
theorem not_findsRange_high : ¬ Search.Right
      ⟨⟨[⟨0, 0xFFF, 0, 0, 0, 0, by decide⟩], 1, 1⟩, 0x100000000, 0x1FFFFFFFF, 0x1000, 0x1000⟩
      (rtlFindRange ⟨⟨[⟨0, 0xFFF, 0, 0, 0, 0, by decide⟩], 1, 1⟩, 0x100000000, 0x1FFFFFFFF,
        0x1000, 0x1000⟩) := by
  intro h
  refine h 0x100000000 ⟨?_, ?_, ?_, ?_⟩ <;> decide

end RangeList

end Windivs

import Windivs.Rtl.GenericTable

/-!
# The elements of a generic table by number

`RtlGetElementGenericTable(Table, I)` is meant to give the element that was inserted as number
`I`. It goes to it from the front of the list, from its end, or from the place where the last
call has stopped, whichever looks shortest. From the cursor it always goes *back*: the branch
for an element that lies ahead follows `Blink` as well.

A call is therefore right when it starts from one of the ends, and otherwise only if the way
back from the cursor happens to lead to the element, `Windivs.RtlGenericTable.CountsTo`. This
is a condition on the cursor alone, and the cursor is wherever the earlier calls have left it.
-/

namespace Windivs

namespace RtlGenericTable

variable {α : Type} {t : RtlGenericTable α}

/-- The tables that insertions, deletions and calls of `RtlGetElementGenericTable` build from
an empty one with a compare routine. -/
inductive Built [DecidableEq α] (compare : α → α → Ordering) : RtlGenericTable α → Prop
  | init : Built compare .init
  | insert {t : RtlGenericTable α} (buffer : α) (allocate : Bool) (h : Built compare t) :
      Built compare (t.rtlInsertElementGenericTable (compare buffer) buffer allocate).2
  | delete {t : RtlGenericTable α} (buffer : α) (h : Built compare t) :
      Built compare (t.rtlDeleteElementGenericTable (compare buffer)).2
  | get {t : RtlGenericTable α} (i : ℕ) (h : Built compare t) :
      Built compare (t.rtlGetElementGenericTable i).2

/-- The cursor of a table that was built by calls is a place in its list. -/
theorem Built.cursor_le [DecidableEq α] {compare : α → α → Ordering} (h : Built compare t) :
    t.orderedPointer ≤ t.insertOrder.length := by
  induction h with
  | init => exact le_rfl
  | insert buffer allocate _ ih =>
    rw [rtlInsertElementGenericTable]
    split
    · exact ih
    · split
      · simpa using Nat.le_succ_of_le ih
      · exact ih
  | delete buffer _ ih =>
    rw [rtlDeleteElementGenericTable]
    split
    · exact Nat.zero_le _
    · exact ih
  | get i _ ih => exact (moved_getElement i _).cursor ih

/-- Going back `d` places from the cursor leads to a place, on this side of the head or past
it. -/
def LeadsBack (t : RtlGenericTable α) (d place : ℕ) : Prop :=
  t.orderedPointer = place + d ∨ t.orderedPointer + t.insertOrder.length + 1 = place + d

/-- The element with a number is counted from the front of the list, from its end, or the way
back from the cursor leads to it. -/
def CountsTo (t : RtlGenericTable α) (i : ℕ) : Prop :=
  t.insertOrder.length ≤ i ∨
    i ≠ 0xFFFFFFFF ∧
      (i + 1 ≤ t.whichOrderedElement / 2 ∨
        t.whichOrderedElement < i + 1 ∧
          t.insertOrder.length - i < i + 1 - t.whichOrderedElement ∨
        t.LeadsBack (i + 1 - t.whichOrderedElement + (t.whichOrderedElement - (i + 1))) (i + 1))

instance (t : RtlGenericTable α) (d place : ℕ) : Decidable (t.LeadsBack d place) :=
  inferInstanceAs (Decidable (_ ∨ _))

instance (t : RtlGenericTable α) (i : ℕ) : Decidable (t.CountsTo i) :=
  inferInstanceAs (Decidable (_ ∨ _))

/-- What is asked of `RtlGetElementGenericTable(Table, I)`: the place of the element inserted
after `I` others, or nothing. -/
def GetsElement (t : RtlGenericTable α) (i : ℕ) : Prop :=
  (t.rtlGetElementGenericTable i).1 = if i < t.insertOrder.length then some (i + 1) else none

theorem iterate_blink_eq_iff (hcursor : t.orderedPointer ≤ t.insertOrder.length) {d place : ℕ}
    (hd : d ≤ t.insertOrder.length) (hplace : 0 < place) (hle : place ≤ t.insertOrder.length) :
    (blink t.insertOrder.length)^[d] t.orderedPointer = place ↔ t.LeadsBack d place := by
  rw [LeadsBack]
  rcases Nat.lt_or_ge t.orderedPointer d with hlt | hge
  · rw [iterate_blink_of_lt hlt (by omega)]
    omega
  · rw [iterate_blink_of_le hge]
    omega

theorem iterate_flink_zero {n j : ℕ} (h : j ≤ n) : (flink n)^[j] 0 = j := by
  induction j with
  | zero => rfl
  | succ j ih => rw [Function.iterate_succ_apply', ih (by omega), flink, if_neg (by omega)]

instance (t : RtlGenericTable α) (i : ℕ) : Decidable (t.GetsElement i) :=
  inferInstanceAs (Decidable (_ = _))

/-- **A call gives the element with the number** exactly if it counts from an end of the list,
or is led to the element from its cursor by going back. -/
theorem getsElement_iff [DecidableEq α] {compare : α → α → Ordering} (h : Built compare t)
    (i : ℕ) : t.GetsElement i ↔ t.CountsTo i := by
  have hcursor := h.cursor_le
  rw [GetsElement, CountsTo, rtlGetElementGenericTable]
  dsimp only
  rcases Nat.lt_or_ge i t.insertOrder.length with hi | hi
  · rw [if_pos hi]
    by_cases hmax : i = 0xFFFFFFFF
    · simp [hmax, show ¬ t.insertOrder.length ≤ 0xFFFFFFFF by omega]
    rw [if_neg (by omega)]
    simp only [not_le.2 hi, hmax, ne_eq, not_false_eq_true, true_and, false_or]
    rcases lt_trichotomy (i + 1) t.whichOrderedElement with hlt | heq | hgt
    · -- behind the cursor: counted from the front, or back from the cursor
      rw [if_neg (by omega), if_pos hlt]
      split
      · next hhalf =>
        rw [Option.some_inj, iterate_blink_eq_iff hcursor (by omega) (by omega) hi,
          show i + 1 - t.whichOrderedElement = 0 by omega, zero_add]
        simp [not_le.2 hhalf, not_lt.2 hlt.le]
      · next hhalf => simp [iterate_flink_zero hi, not_lt.1 hhalf]
    · rw [if_pos heq, Option.some_inj, LeadsBack, ← heq]
      omega
    · -- ahead of the cursor: counted from the end, or back from the cursor all the same
      rw [if_neg (by omega), if_neg (by omega)]
      split
      · next hup =>
        rw [Option.some_inj, iterate_blink_eq_iff hcursor (by omega) (by omega) hi,
          show t.whichOrderedElement - (i + 1) = 0 by omega, add_zero]
        simp [show ¬ i + 1 ≤ t.whichOrderedElement / 2 by omega,
          show ¬ t.insertOrder.length - i < i + 1 - t.whichOrderedElement by omega]
      · next hup =>
        rw [iterate_blink_of_lt (by omega) (by omega)]
        simp [hgt, show t.insertOrder.length - i < i + 1 - t.whichOrderedElement by omega]
        omega
  · rw [if_pos (.inr (by omega)), if_neg (by omega)]
    simp [hi]

/-- The table of two numbers, inserted in this order. -/
def insertTwo (a b : ℕ) : RtlGenericTable ℕ :=
  let t := ((init : RtlGenericTable ℕ).rtlInsertElementGenericTable (compare a) a true).2
  (t.rtlInsertElementGenericTable (compare b) b true).2

theorem built_insertTwo (a b : ℕ) : Built compare (insertTwo a b) :=
  .insert b true (.insert a true .init)

/-- The second of two elements is counted from the end of the list. -/
theorem getsElement_second : Built compare (insertTwo 1 2) ∧ (insertTwo 1 2).GetsElement 1 :=
  ⟨built_insertTwo 1 2, (getsElement_iff (built_insertTwo 1 2) 1).2 (by decide)⟩

/-- **The first of two elements is not found by its number**: from the head of the list, the
call goes back to the second one. -/
theorem getsElement_first_fails :
    Built compare (insertTwo 1 2) ∧
      ((insertTwo 1 2).rtlGetElementGenericTable 0).1 = some 2 ∧
      ¬ (insertTwo 1 2).GetsElement 0 :=
  ⟨built_insertTwo 1 2, by decide, by decide⟩

end RtlGenericTable

end Windivs

import Windivs.Lib.SplayTree

/-!
# Generic tables

`RTL_GENERIC_TABLE`: a splay tree of elements, and a list of the same elements in the order
in which they were inserted. The tree is searched with the compare routine of the table, which
the caller may exchange between two calls; every element that is found, inserted or enumerated
is splayed to the root.

`RtlGetElementGenericTable` numbers the elements along the list and keeps a cursor between two
calls. The list is circular, through its head in the table: a place in it is a number, `0` for
the head and `k + 1` for the element inserted `k`-th. Insertion adds at the end, so that it
moves no place, and deletion resets the cursor.
-/

namespace Windivs

/-- `RTL_GENERIC_TABLE`. -/
structure RtlGenericTable (α : Type) where
  /-- `TableRoot`. -/
  root : BinaryTree α
  /-- `InsertOrderList`; its length is `NumberGenericTableElements`. -/
  insertOrder : List α
  /-- `OrderedPointer`, a place in the list. -/
  orderedPointer : ℕ
  whichOrderedElement : ℕ

namespace RtlGenericTable

variable {α : Type} {a b : List α} {j n q : ℕ} {t t' : RtlGenericTable α}

/-- `RtlInitializeGenericTable`. -/
def init : RtlGenericTable α := ⟨.nil, [], 0, 0⟩

/-- The elements of a table in the order of its tree. -/
def elements (t : RtlGenericTable α) : List α := inorder t.root

@[simp] theorem elements_init : (init : RtlGenericTable α).elements = [] := rfl

/-- `RtlLookupElementGenericTable`. -/
def rtlLookupElementGenericTable (c : α → Ordering) (t : RtlGenericTable α) :
    Option α × RtlGenericTable α :=
  match search c t.root [] with
  | .node x l r p => (some x, { t with root := splay x l r p })
  | .vacant _ => (none, t)

/-- `RtlInsertElementGenericTable`: the element found or inserted, and `NewElement`. -/
def rtlInsertElementGenericTable (c : α → Ordering) (buffer : α) (allocate : Bool)
    (t : RtlGenericTable α) : Option (α × Bool) × RtlGenericTable α :=
  match search c t.root [] with
  | .node x l r p => (some (x, false), { t with root := splay x l r p })
  | .vacant p =>
    if allocate then
      (some (buffer, true),
        { t with root := splay buffer .nil .nil p, insertOrder := t.insertOrder ++ [buffer] })
    else (none, t)

/-- `RtlDeleteElementGenericTable`. -/
def rtlDeleteElementGenericTable [DecidableEq α] (c : α → Ordering) (t : RtlGenericTable α) :
    Bool × RtlGenericTable α :=
  match search c t.root [] with
  | .node x l r p => (true, ⟨delete l r p, t.insertOrder.erase x, 0, 0⟩)
  | .vacant _ => (false, t)

/-- `RtlEnumerateGenericTable`. The root is where the last call has stopped. -/
def rtlEnumerateGenericTable (restart : Bool) (t : RtlGenericTable α) :
    Option α × RtlGenericTable α :=
  match t.root with
  | .nil => (none, t)
  | .node x l r =>
    if restart then
      let (m, mr, p) := leftmost x l r []
      (some m, { t with root := splay m .nil mr p })
    else
      match r with
      | .nil => (none, t)
      | .node y a b =>
        let (m, mr, p) := leftmost y a b [.right x l]
        (some m, { t with root := splay m .nil mr p })

/-- The user data of the node at the root is changed in place. -/
def setRoot [DecidableEq α] (t : RtlGenericTable α) (x : α) : RtlGenericTable α :=
  match t.root with
  | .nil => t
  | .node y l r =>
    { t with root := .node x l r
             insertOrder := t.insertOrder.map fun z => if z = y then x else z }

/-! ### The numbering of the elements -/

/-- `Blink` of a place in a list of `n` elements. -/
def blink (n p : ℕ) : ℕ := if p = 0 then n else p - 1

/-- `Flink` of a place in a list of `n` elements. -/
def flink (n p : ℕ) : ℕ := if p = n then 0 else p + 1

/-- `RtlGetElementGenericTable`: the place it stops at. The count down to the front of the
list is made on `NextI` itself, and leaves zero in `WhichOrderedElement`. -/
def rtlGetElementGenericTable (i : ℕ) (t : RtlGenericTable α) : Option ℕ × RtlGenericTable α :=
  let n := t.insertOrder.length
  let next := i + 1
  let stop (p which : ℕ) : Option ℕ × RtlGenericTable α :=
    (some p, { t with orderedPointer := p, whichOrderedElement := which })
  if i = 0xFFFFFFFF ∨ n < next then (none, t)
  else if next = t.whichOrderedElement then (some t.orderedPointer, t)
  else if next < t.whichOrderedElement then
    if t.whichOrderedElement / 2 < next then
      stop ((blink n)^[t.whichOrderedElement - next] t.orderedPointer) next
    else stop ((flink n)^[next] 0) 0
  else
    let deltaUp := next - t.whichOrderedElement
    let deltaDown := n - next + 1
    if deltaUp ≤ deltaDown then stop ((blink n)^[deltaUp] t.orderedPointer) next
    else stop ((blink n)^[deltaDown] 0) next

/-! ### What the operations do to the elements -/

variable {c : α → Ordering} {x : α} {p : ℕ}

/-- The root of a table and what lies on its two sides. -/
def At (t : RtlGenericTable α) (a : List α) (x : α) (b : List α) : Prop :=
  ∃ l r, t.root = .node x l r ∧ inorder l = a ∧ inorder r = b

theorem At.elements_eq (h : t.At a x b) : t.elements = a ++ x :: b := by
  obtain ⟨l, r, hroot, rfl, rfl⟩ := h
  rw [elements, hroot, inorder_node]

theorem at_splay (t : RtlGenericTable α) (x : α) (l r : BinaryTree α) (p : List (Frame α)) :
    At { t with root := splay x l r p } (before p ++ inorder l) x (inorder r ++ after p) := by
  obtain ⟨l', r', heq, hl, hr⟩ := splay_eq x l r p
  exact ⟨l', r', heq, hl, hr⟩

/-- **A lookup that finds an element** brings it to the root. -/
theorem lookup_some (h : rtlLookupElementGenericTable c t = (some x, t')) :
    c x = .eq ∧ ∃ a b, t.elements = a ++ x :: b ∧ t'.At a x b ∧
      t'.insertOrder = t.insertOrder := by
  rw [rtlLookupElementGenericTable] at h
  split at h
  · next y l r p hsearch =>
    obtain ⟨rfl, rfl⟩ := Prod.mk.inj h |>.imp Option.some.inj id
    obtain ⟨hx, a, b, heq, hbefore, hafter⟩ := search_node hsearch
    refine ⟨hx, a ++ inorder l, inorder r ++ b, by simp [elements, heq], ?_, rfl⟩
    have hat := at_splay t y l r p
    simpa [hbefore, hafter] using hat
  · cases h

section

variable (hs : Sorts c t.elements)
include hs

/-- **A lookup that finds nothing** says that there is nothing, and leaves the table. -/
theorem lookup_none (h : rtlLookupElementGenericTable c t = (none, t')) :
    t' = t ∧ ∀ x ∈ t.elements, c x ≠ .eq := by
  rw [rtlLookupElementGenericTable] at h
  split at h
  · cases h
  · next p hsearch =>
    obtain ⟨a, b, heq, -, -, ha, hb⟩ := search_vacant hs hsearch
    refine ⟨(Prod.mk.inj h).2.symm, fun x hx => ?_⟩
    rw [elements, heq] at hx
    rcases List.mem_append.1 hx with hx | hx
    · rw [ha x hx]
      decide
    · rw [hb x hx]
      decide

/-- **What a lookup finds**: the highest element of the tree that the comparison is equal to. -/
theorem lookup_fst_iff : (rtlLookupElementGenericTable c t).1 = some x ↔
    Highest (c · = .eq) t.root x := by
  rw [rtlLookupElementGenericTable]
  constructor
  · intro h
    split at h
    · next hsearch =>
      cases h
      exact highest_of_search hsearch
    · cases h
  · intro h
    obtain ⟨l, r, q, hsearch⟩ := h.search hs []
    rw [hsearch]

/-- **An insertion** between the elements that are smaller and those that are greater. -/
theorem insert_new (hne : ∀ y ∈ t.elements, c y ≠ .eq) :
    ∃ t' a b, rtlInsertElementGenericTable c x true t = (some (x, true), t') ∧
      t.elements = a ++ b ∧ t'.At a x b ∧ t'.insertOrder = t.insertOrder ++ [x] ∧
      t'.orderedPointer = t.orderedPointer ∧
      t'.whichOrderedElement = t.whichOrderedElement ∧
      (∀ y ∈ a, c y = .gt) ∧ ∀ y ∈ b, c y = .lt := by
  rw [rtlInsertElementGenericTable]
  split
  · next y l r p hsearch =>
    obtain ⟨hy, a, b, heq, -⟩ := search_node hsearch
    exact absurd hy (hne y (by simp [elements, heq]))
  · next p hsearch =>
    obtain ⟨a, b, heq, hbefore, hafter, ha, hb⟩ := search_vacant hs hsearch
    refine ⟨_, a, b, rfl, heq, ?_, rfl, rfl, rfl, ha, hb⟩
    have hat := at_splay { t with insertOrder := t.insertOrder ++ [x] } x .nil .nil p
    simpa [hbefore, hafter] using hat

/-- **A deletion** removes one element equal to what it is given. -/
theorem delete_found [DecidableEq α] (hx : x ∈ t.elements) (hc : c x = .eq) :
    ∃ y a b t', rtlDeleteElementGenericTable c t = (true, t') ∧ c y = .eq ∧
      t.elements = a ++ y :: b ∧ t'.elements = a ++ b ∧
      t'.insertOrder = t.insertOrder.erase y ∧ t'.orderedPointer = 0 ∧
      t'.whichOrderedElement = 0 := by
  rw [rtlDeleteElementGenericTable]
  split
  · next y l r p hsearch =>
    obtain ⟨hy, a, b, heq, hbefore, hafter⟩ := search_node hsearch
    refine ⟨y, a ++ inorder l, inorder r ++ b, _, rfl, hy, by simp [elements, heq], ?_, rfl, rfl,
      rfl⟩
    simp [elements, inorder_delete, hbefore, hafter]
  · next p hsearch =>
    obtain ⟨a, b, heq, -, -, ha, hb⟩ := search_vacant hs hsearch
    rw [elements, heq] at hx
    rcases List.mem_append.1 hx with hx | hx
    · rw [ha x hx] at hc
      cases hc
    · rw [hb x hx] at hc
      cases hc

end

/-! ### Going through the elements by number -/

theorem blink_le (h : p ≤ n) : blink n p ≤ n := by
  rw [blink]
  split <;> omega

theorem flink_le (h : p ≤ n) : flink n p ≤ n := by
  rw [flink]
  split <;> omega

theorem iterate_le {f : ℕ → ℕ} (hf : ∀ q ≤ n, f q ≤ n) (h : p ≤ n) (j : ℕ) : f^[j] p ≤ n := by
  induction j with
  | zero => exact h
  | succ j ih =>
    rw [Function.iterate_succ_apply']
    exact hf _ ih

theorem iterate_blink_of_le (h : j ≤ q) : (blink n)^[j] q = q - j := by
  induction j with
  | zero => rfl
  | succ j ih =>
    rw [Function.iterate_succ_apply', ih (by omega), blink, if_neg (by omega)]
    omega

/-- Past the head, the places come from the end of the list. -/
theorem iterate_blink_of_lt (h : q < j) (hj : j ≤ q + 1 + n) : (blink n)^[j] q = q + 1 + n - j := by
  obtain ⟨i, rfl⟩ : ∃ i, j = i + (1 + q) := ⟨j - (1 + q), by omega⟩
  rw [Function.iterate_add_apply, Function.iterate_add_apply, iterate_blink_of_le le_rfl,
    Function.iterate_one, Nat.sub_self, blink, if_pos rfl, iterate_blink_of_le (by omega)]
  omega

/-- The cursor of a table in another position. -/
structure Moved (t t' : RtlGenericTable α) : Prop where
  root : t'.root = t.root
  insertOrder : t'.insertOrder = t.insertOrder
  /-- The cursor stays in the list. -/
  cursor : t.orderedPointer ≤ t.insertOrder.length → t'.orderedPointer ≤ t'.insertOrder.length

theorem Moved.refl (t : RtlGenericTable α) : t.Moved t := ⟨rfl, rfl, id⟩

/-- A call of `RtlGetElementGenericTable` moves the cursor and nothing else. -/
theorem moved_getElement (i : ℕ) (t : RtlGenericTable α) :
    t.Moved (t.rtlGetElementGenericTable i).2 := by
  rw [rtlGetElementGenericTable]
  dsimp only
  repeat' split
  · exact .refl t
  · exact .refl t
  · exact ⟨rfl, rfl, fun h => iterate_le (fun _ => blink_le) h _⟩
  · exact ⟨rfl, rfl, fun _ => iterate_le (fun _ => flink_le) (Nat.zero_le _) _⟩
  · exact ⟨rfl, rfl, fun h => iterate_le (fun _ => blink_le) h _⟩
  · exact ⟨rfl, rfl, fun _ => iterate_le (fun _ => blink_le) (Nat.zero_le _) _⟩

/-! ### Enumeration -/

theorem enumerate_empty (h : t.elements = []) (restart : Bool) :
    rtlEnumerateGenericTable restart t = (none, t) := by
  rw [rtlEnumerateGenericTable, inorder_eq_nil.1 h]

/-- The enumeration starts at the first element. -/
theorem enumerate_first (h : t.elements = x :: b) :
    ∃ t', rtlEnumerateGenericTable true t = (some x, t') ∧ t'.At [] x b ∧
      t'.insertOrder = t.insertOrder := by
  rw [elements] at h
  rcases hroot : t.root with - | ⟨y, l, r⟩
  · rw [hroot] at h
    cases h
  · obtain ⟨m, mr, p, hleft, hbefore, hafter⟩ := leftmost_spec y l r []
    rw [hroot, ← List.append_nil (inorder _), ← after_nil, ← hafter] at h
    obtain ⟨rfl, rfl⟩ := List.cons.inj h
    refine ⟨{ t with root := splay m .nil mr p }, ?_, ?_, rfl⟩
    · simp [rtlEnumerateGenericTable, hroot, hleft]
    · simpa [hbefore] using at_splay t m .nil mr p

/-- It goes on to the element after the root. -/
theorem enumerate_next {y : α} (h : t.At a x (y :: b)) :
    ∃ t', rtlEnumerateGenericTable false t = (some y, t') ∧ t'.At (a ++ [x]) y b ∧
      t'.insertOrder = t.insertOrder := by
  obtain ⟨l, r, hroot, rfl, hr⟩ := h
  rcases r with - | ⟨z, c, d⟩
  · cases hr
  · obtain ⟨m, mr, p, hleft, hbefore, hafter⟩ := leftmost_spec z c d [.right x l]
    rw [← List.append_nil (inorder _), ← after_nil, ← after_right x l, ← hafter] at hr
    obtain ⟨rfl, rfl⟩ := List.cons.inj hr
    refine ⟨{ t with root := splay m .nil mr p }, ?_, ?_, rfl⟩
    · simp [rtlEnumerateGenericTable, hroot, hleft]
    · simpa [hbefore] using at_splay t m .nil mr p

/-- It ends at the last element. -/
theorem enumerate_end (h : t.At a x []) : rtlEnumerateGenericTable false t = (none, t) := by
  obtain ⟨l, r, hroot, -, hr⟩ := h
  obtain rfl := inorder_eq_nil.1 hr
  simp [rtlEnumerateGenericTable, hroot]

/-- A change of the user data at the root. -/
theorem At.setRoot [DecidableEq α] (h : t.At a x b) (y : α) : (t.setRoot y).At a y b := by
  obtain ⟨l, r, hroot, ha, hb⟩ := h
  exact ⟨l, r, by simp [RtlGenericTable.setRoot, hroot], ha, hb⟩

end RtlGenericTable

end Windivs

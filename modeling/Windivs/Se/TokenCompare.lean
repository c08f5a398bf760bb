import Windivs.Se.Token

/-!
# Comparing tokens

`SepCompareTokens` of `token.c` decides whether two tokens are equal, by its
comment if every identifier and privilege of either is in the other. What its
loops do is look the entries of the *first* token up in the second, after a
comparison of the counts. With repeated entries that is not the same, and the
answer depends on the order of the arguments
(`Windivs.sepCompareTokens_symm_iff`).
-/

namespace Windivs

open List

variable {α β : Type*} {A B : Token}

/-! ### The comparison -/

/-- The loops over two arrays: the counts agree, and each element of the first
array has a match in the second. -/
def compareArrays (same : α → α → Bool) (first second : Counted α) : Bool :=
  if first.count != second.count then false
  else first.list.all fun a => second.list.any fun b => same a b

/-- `SepCompareSidAndAttributesFromTokens`. -/
def sepCompareSidAndAttributesFromTokens : Counted SidAndAttributes → Counted SidAndAttributes →
    Bool :=
  compareArrays fun a b => rtlEqualSid a.sid b.sid && a.attributes == b.attributes

/-- `SepComparePrivilegeAndAttributesFromTokens`. -/
def sepComparePrivilegeAndAttributesFromTokens : Counted LuidAndAttributes →
    Counted LuidAndAttributes → Bool :=
  compareArrays fun a b => a.luid == b.luid && a.attributes == b.attributes

/-- `SepCompareTokens`: the status, and what is stored in `*Equal`. -/
def sepCompareTokens (first second : Token) : NtStatus × Bool :=
  if !sepCompareSidAndAttributesFromTokens first.userAndGroups second.userAndGroups then
    (.success, false)
  else if seTokenIsRestricted first != seTokenIsRestricted second then (.success, false)
  else if seTokenIsRestricted first &&
      !sepCompareSidAndAttributesFromTokens first.restrictedSids second.restrictedSids then
    (.success, false)
  else if !sepComparePrivilegeAndAttributesFromTokens first.privileges second.privileges then
    (.success, false)
  else (.success, true)

/-! ### What is compared -/

/-- The identifiers of an array as values, with their attributes. -/
def sidValues (c : Counted SidAndAttributes) : List (List UInt8 × Ulong) :=
  c.list.map fun e => (sidValue e.sid, e.attributes)

/-- The entries of a token that are compared: the user and groups, the restricted
identifiers if the token is restricted, and the privileges. -/
def Token.entries (t : Token) : List ((Bool × List UInt8 × Ulong) ⊕ LuidAndAttributes) :=
  (sidValues t.userAndGroups).map (fun v => .inl (false, v)) ++
    (if seTokenIsRestricted t then (sidValues t.restrictedSids).map fun v => .inl (true, v)
      else []) ++ t.privileges.list.map .inr

/-- The tokens are both restricted or both not, and the counts compared agree. -/
def SameShape (A B : Token) : Prop :=
  seTokenIsRestricted A = seTokenIsRestricted B ∧
    A.userAndGroups.count = B.userAndGroups.count ∧
    (seTokenIsRestricted A = true → A.restrictedSids.count = B.restrictedSids.count) ∧
    A.privileges.count = B.privileges.count

theorem SameShape.symm (h : SameShape A B) : SameShape B A :=
  ⟨h.1.symm, h.2.1.symm, fun hr => (h.2.2.1 (h.1.trans hr)).symm, h.2.2.2.symm⟩

theorem compareArrays_iff (value : α → β) {same : α → α → Bool}
    (hsame : ∀ a b, same a b = true ↔ value a = value b) {first second : Counted α} :
    compareArrays same first second = true ↔ first.count = second.count ∧
      first.list.map value ⊆ second.list.map value := by
  have hsame' : ∀ a b, same a b = true ↔ value b = value a := fun a b => (hsame a b).trans eq_comm
  simp [compareArrays, hsame', subset_def]

theorem compareSids_iff {first second : Counted SidAndAttributes} :
    sepCompareSidAndAttributesFromTokens first second = true ↔
      first.count = second.count ∧ sidValues first ⊆ sidValues second :=
  compareArrays_iff _ fun a b => by simp [rtlEqualSid_iff]

theorem comparePrivileges_iff {first second : Counted LuidAndAttributes} :
    sepComparePrivilegeAndAttributesFromTokens first second = true ↔
      first.count = second.count ∧ first.list ⊆ second.list := by
  rw [sepComparePrivilegeAndAttributesFromTokens, compareArrays_iff id, map_id, map_id]
  rintro ⟨a, x⟩ ⟨b, y⟩
  simp

theorem sepCompareTokens_success : (sepCompareTokens A B).1 = .success := by
  rw [sepCompareTokens]
  split_ifs <;> rfl

/-- **What the comparison decides**: containment one way. -/
theorem sepCompareTokens_iff :
    (sepCompareTokens A B).2 = true ↔ SameShape A B ∧ A.entries ⊆ B.entries := by
  have hdef : (sepCompareTokens A B).2 = true ↔
      sepCompareSidAndAttributesFromTokens A.userAndGroups B.userAndGroups = true ∧
      seTokenIsRestricted A = seTokenIsRestricted B ∧ (seTokenIsRestricted A = true →
        sepCompareSidAndAttributesFromTokens A.restrictedSids B.restrictedSids = true) ∧
      sepComparePrivilegeAndAttributesFromTokens A.privileges B.privileges = true := by
    rw [sepCompareTokens]
    split_ifs <;> simp_all
  rw [hdef, compareSids_iff, compareSids_iff, comparePrivileges_iff, SameShape]
  by_cases hr : seTokenIsRestricted A = seTokenIsRestricted B
  · -- the entries of one array are looked up among those of the same array
    rw [Token.entries, Token.entries, ← hr]
    simp only [subset_def, Sum.forall, Prod.forall, Bool.forall_bool]
    cases seTokenIsRestricted A <;> simp <;> tauto
  · tauto

/-! ### Symmetry -/

/-- Where all entries of one of two tokens of one shape are entries of the other,
the two have equally many different entries. -/
def RepeatAlike (A B : Token) : Prop :=
  SameShape A B → A.entries ⊆ B.entries ∨ B.entries ⊆ A.entries →
    A.entries.toFinset.card = B.entries.toFinset.card

theorem card_toFinset_eq_iff [DecidableEq α] {l m : List α} (h : l ⊆ m) :
    l.toFinset.card = m.toFinset.card ↔ m ⊆ l := by
  constructor
  · intro hcard x hx
    have hsub : l.toFinset ⊆ m.toFinset := Multiset.toFinset_subset.2 h
    rwa [← mem_toFinset, Finset.eq_of_subset_of_card_le hsub hcard.ge, mem_toFinset]
  · intro hm
    rw [toFinset.ext fun x => ⟨@h x, @hm x⟩]

/-- **The order of the tokens does not matter exactly if repeated entries do not
make up the count.** -/
theorem sepCompareTokens_symm_iff (A B : Token) :
    ((sepCompareTokens A B).1 = .success ∧ (sepCompareTokens B A).1 = .success ∧
      (sepCompareTokens A B).2 = (sepCompareTokens B A).2) ↔ RepeatAlike A B := by
  rw [Bool.eq_iff_iff, sepCompareTokens_iff, sepCompareTokens_iff]
  constructor
  · rintro ⟨-, -, hiff⟩ hshape (h | h)
    · exact (card_toFinset_eq_iff h).2 (hiff.1 ⟨hshape, h⟩).2
    · exact ((card_toFinset_eq_iff h).2 (hiff.2 ⟨hshape.symm, h⟩).2).symm
  · refine fun halike => ⟨sepCompareTokens_success, sepCompareTokens_success, ?_, ?_⟩
    · rintro ⟨hshape, h⟩
      exact ⟨hshape.symm, (card_toFinset_eq_iff h).1 (halike hshape (.inl h))⟩
    · rintro ⟨hshape, h⟩
      exact ⟨hshape.symm, (card_toFinset_eq_iff h).1 (halike hshape.symm (.inr h)).symm⟩

/-- A token whose user is World, with these privileges. -/
def privilegeToken (p q : Luid) : Token :=
  ⟨⟨[⟨0x1100, seWorldSid, 0x7⟩], by simp⟩, ⟨[], Counted.length_nil_lt⟩,
    ⟨[⟨p, 0⟩, ⟨q, 0⟩], by simp⟩, 0, seWorldSid, 0⟩

/-- A privilege held twice is in a token that has it and another one, and not the
other way round. -/
theorem sepCompareTokens_repeated : let a := privilegeToken ⟨8, 0⟩ ⟨8, 0⟩
    let b := privilegeToken ⟨8, 0⟩ ⟨9, 0⟩
    sepCompareTokens a b = (.success, true) ∧ sepCompareTokens b a = (.success, false) := by
  decide

end Windivs

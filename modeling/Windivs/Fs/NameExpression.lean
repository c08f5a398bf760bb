import Windivs.Lib.Loop

/-!
# Names and expressions with wildcards

`FsRtlIsNameInExpressionPrivate` decides whether a file name matches an expression. Besides `*`
and `?` there are three wildcards for the rules of DOS: `DOS_STAR`, `DOS_QM` and `DOS_DOT`.

The code reads the name once and keeps the list of places in the expression where a match could
be. A place is stored as twice its offset in bytes, so `4 * i` for the character `i`; the odd
number `4 * i + 3` stands for the character `i + 1` too, when it is reached because the star at
`i` has eaten a character. There are two lists, one for the characters read so far
(`OldBackTracking`) and one for the next character (`BackTracking`). They are in two arrays
on the stack, which are once replaced by larger ones. The lists are kept sorted, and places
that an earlier one has covered are skipped.

`Windivs.Matches` is what a match is: the definition by recursion on the expression.
-/

namespace Windivs

open List

/-- `WCHAR`. -/
abbrev WChar := UInt16

/-- `L'*'`. -/
def star : WChar := 0x2A
/-- `L'?'`. -/
def questionMark : WChar := 0x3F
/-- `L'.'`. -/
def dot : WChar := 0x2E
/-- `L'\\'`. -/
def backslash : WChar := 0x5C
/-- `L'<'`. -/
def dosStar : WChar := 0x3C
/-- `L'>'`. -/
def dosQm : WChar := 0x3E
/-- `L'"'`. -/
def dosDot : WChar := 0x22

/-- `FsRtlIsUnicodeCharacterWild`: the characters below `0x40` that have the flag
`FSRTL_WILD_CHARACTER` in `FsRtlLegalAnsiCharacterArray`. -/
def fsRtlIsUnicodeCharacterWild (c : WChar) : Bool :=
  c = dosDot || c = star || c = dosStar || c = dosQm || c = questionMark

/-- `FsRtlDoesNameContainWildCards`: it looks at the last component only. -/
def fsRtlDoesNameContainWildCards (name : List WChar) : Bool :=
  (name.reverse.takeWhile (· ≠ backslash)).any fsRtlIsUnicodeCharacterWild

/-! ### The lists of places -/

/-- A number stored in a `USHORT`. -/
def ushort (x : ℕ) : ℕ := x % 0x10000

/-- The list that is written, and the size of the arrays. -/
structure BackTracking where
  /-- The first `BackTrackingPosition` numbers. -/
  entries : List ℕ
  /-- `BackTrackingBufferSize`. -/
  bufferSize : ℕ
  /-- `AllocatedBuffer` is not null. -/
  allocated : Bool

/-- `BackTracking[BackTrackingPosition++] = x`. -/
def BackTracking.push (b : BackTracking) (x : ℕ) : Run BackTracking :=
  if b.entries.length < b.bufferSize then .ok { b with entries := b.entries ++ [ushort x] }
  else .error .accessViolation

/-- If there may be no room for the next three numbers, larger arrays are allocated. The 16
numbers of both arrays are copied there. -/
def BackTracking.makeRoom (b : BackTracking) (expression : List WChar) : Run BackTracking := do
  if b.bufferSize - 3 < b.entries.length then
    assert (b.allocated = false)
    let size := expression.length * 2 + 1
    if 16 ≤ size then return { b with bufferSize := size, allocated := true }
    else .error .accessViolation
  else return b

/-- What is fixed while one character of the name is looked at. -/
structure NameContext where
  expression : List WChar
  /-- The upcase table, or nothing to do. -/
  upcase : WChar → WChar
  /-- The name from `NamePosition` on. It is empty at `EndOfName`. -/
  name : List WChar

namespace NameContext

/-- `Name->Buffer[NamePosition] == L'.'`. -/
def atDot (k : NameContext) : Prop := k.name.head? = some dot

instance (k : NameContext) : Decidable k.atDot := inferInstanceAs (Decidable (_ = _))

/-- The character of the expression is the one of the name. -/
def sameChar (k : NameContext) (x : WChar) : Prop := k.name.head?.map k.upcase = some x

instance (k : NameContext) (x : WChar) : Decidable (k.sameChar x) :=
  inferInstanceAs (Decidable (_ = _))

/-- The expression parsing loop, from the character `i` on. It goes on to the next character
after a star, and after a wildcard that may stand for nothing here. -/
def expressionLoop (k : NameContext) : ℕ → List WChar → BackTracking → Run BackTracking
  | _, [], b => b.push (2 * k.expression.length * 2)
  | i, x :: rest, b => do
    let b ← b.makeRoom k.expression
    if k.sameChar x ∧ k.name ≠ [] then b.push ((2 * i + 2) * 2)
    else if x = questionMark ∧ k.name ≠ [] then b.push ((2 * i + 2) * 2)
    else if x = star then
      let b ← b.push (2 * i * 2)
      let b ← b.push (2 * i * 2 + 3)
      k.expressionLoop (i + 1) rest b
    else if x = dosStar then
      -- the last dot of the name is not skipped
      let dontSkipDot := ¬(k.atDot ∧ dot ∈ k.name.tail)
      let b ← if k.name = [] ∨ ¬k.atDot ∨ ¬dontSkipDot then b.push (2 * i * 2) else pure b
      let b ← b.push (2 * i * 2 + 3)
      k.expressionLoop (i + 1) rest b
    else if x = dosDot then
      if k.name = [] then k.expressionLoop (i + 1) rest b
      else if k.atDot then b.push ((2 * i + 2) * 2)
      else return b
    else if x = dosQm then
      if k.name = [] ∨ k.atDot then k.expressionLoop (i + 1) rest b
      else b.push ((2 * i + 2) * 2)
    else return b

/-- The expression is parsed from a place in the old list. A place at the end is left alone. -/
def parseFrom (k : NameContext) (place : ℕ) (b : BackTracking) : Run BackTracking :=
  let expressionPosition := (place + 1) / 2
  if expressionPosition < 2 * k.expression.length then
    k.expressionLoop (expressionPosition / 2) (k.expression.drop (expressionPosition / 2)) b
  else .ok b

/-- The places of the old list that are smaller than one of the new list are skipped. -/
def skipOld (new old : List ℕ) : List ℕ :=
  new.foldl (fun old v => old.dropWhile fun o => o < v) old

/-- One turn of the loop over the old list. -/
def placeTurn (k : NameContext) (s : List ℕ × BackTracking) :
    Turn (List ℕ × BackTracking) (Run BackTracking) :=
  match s.1 with
  | [] => .leave (.ok s.2)
  | place :: old =>
    match k.parseFrom place s.2 with
    | .error e => .leave (.error e)
    | .ok b => .again (skipOld b.entries old, b)

/-- The loop over the old list. -/
def placeLoop (k : NameContext) (old : List ℕ) (b : BackTracking) : Run BackTracking :=
  runLoop k.placeTurn (old.length + 1) (old, { b with entries := [] })

end NameContext

/-- The last place is the end of the expression. -/
def atEnd (expression : List WChar) (places : List ℕ) : Bool :=
  places.getLast? = some (2 * expression.length * 2)

/-- The name parsing loop. At the end of the name there is one more turn, unless a match is known
before. -/
def nameLoop (expression : List WChar) (upcase : WChar → WChar) :
    List WChar → BackTracking → Run Bool
  | [], b => do
    if atEnd expression b.entries then return true
    else
      let b ← NameContext.placeLoop ⟨expression, upcase, []⟩ b.entries b
      return atEnd expression b.entries
  | c :: name, b => do
    let b ← NameContext.placeLoop ⟨expression, upcase, c :: name⟩ b.entries b
    nameLoop expression upcase name b

/-- The comparison of the end of the name with an expression without wildcards, character by
character. -/
def compareUpcased (upcase : WChar → WChar) : List WChar → List WChar → Run Bool
  | [], _ => return true
  | _ :: _, [] => .error .accessViolation
  | x :: expression, c :: name => do
    assert (x = upcase x)
    if upcase c ≠ x then return false
    else compareUpcased upcase expression name

/-- How the characters of the name are upcased. -/
def nameUpcase (ignoreCase : Bool) (upcaseTable : Option (WChar → WChar)) : WChar → WChar :=
  if ignoreCase then upcaseTable.getD id else id

/-- `FsRtlIsNameInExpressionPrivate`. The pool allocation succeeds. -/
def fsRtlIsNameInExpressionPrivate (expression name : List WChar) (ignoreCase : Bool)
    (upcaseTable : Option (WChar → WChar)) : Run Bool := do
  if name = [] ∨ expression = [] then return decide (name = [] ∧ expression = [])
  else if expression = [star] then return true
  else
    assert (ignoreCase = false ∨ upcaseTable.isSome)
    let upcase := nameUpcase ignoreCase upcaseTable
    if expression.head? = some star ∧ ¬fsRtlDoesNameContainWildCards expression.tail then
      let rest := expression.tail
      if name.length < rest.length then return false
      else
        let tail := name.drop (name.length - rest.length)
        if ignoreCase then compareUpcased upcase rest tail else return decide (rest = tail)
    else nameLoop expression upcase name ⟨[0], 16, false⟩

/-! ### What a match is -/

/-- A sequence that `DOS_STAR` may stand for, before the rest of the name: if it has the last
dot of the name, it ends with that. -/
def EndsAtLastDot (t rest : List WChar) : Prop :=
  ∀ t₁ t₂, t = t₁ ++ dot :: t₂ → dot ∉ t₂ ++ rest → t₂ = []

/-- **The name matches the expression.** -/
def Matches (upcase : WChar → WChar) : List WChar → List WChar → Prop
  | [], name => name = []
  | x :: expression, name =>
    ((∀ y ∈ x :: expression, y = dosQm) ∧ name = [dot]) ∨
    if x = star then ∃ t rest, name = t ++ rest ∧ Matches upcase expression rest
    else if x = questionMark then ∃ c rest, name = c :: rest ∧ Matches upcase expression rest
    else if x = dosStar then
      ∃ t rest, name = t ++ rest ∧ EndsAtLastDot t rest ∧ Matches upcase expression rest
    else if x = dosDot then
      (∃ rest, name = dot :: rest ∧ Matches upcase expression rest) ∨
        (name = [] ∧ Matches upcase expression name)
    else if x = dosQm then
      (∃ c rest, name = c :: rest ∧ c ≠ dot ∧ Matches upcase expression rest) ∨
        ((name.head? = some dot ∨ name = []) ∧ Matches upcase expression name)
    else ∃ c rest, name = c :: rest ∧ upcase c = x ∧ Matches upcase expression rest

/-! ### Matches, one character at a time -/

section Reference

variable {upcase : WChar → WChar} {e s : List WChar} {c x : WChar}

theorem matches_star_cons : Matches upcase (star :: e) (c :: s) ↔
    Matches upcase e (c :: s) ∨ Matches upcase (star :: e) s := by
  have hqm : ∀ s, Matches upcase (star :: e) s ↔
      ∃ t rest, s = t ++ rest ∧ Matches upcase e rest := by
    intro s
    rw [Matches, if_pos rfl, or_iff_right]
    rintro ⟨h, -⟩
    exact absurd (h star (by simp)) (by decide)
  rw [hqm, hqm]
  constructor
  · rintro ⟨- | ⟨d, t⟩, rest, heq, h⟩
    · exact .inl (heq ▸ h)
    · obtain ⟨rfl, rfl⟩ := cons.inj heq
      exact .inr ⟨t, rest, rfl, h⟩
  · rintro (h | ⟨t, rest, rfl, h⟩)
    · exact ⟨[], c :: s, rfl, h⟩
    · exact ⟨c :: t, rest, rfl, h⟩

theorem matches_star_of_matches (h : Matches upcase e s) : Matches upcase (star :: e) s := by
  exact .inr ⟨[], s, rfl, h⟩

theorem matches_star_nil : Matches upcase (star :: e) [] ↔ Matches upcase e [] := by
  refine ⟨fun h => ?_, matches_star_of_matches⟩
  rcases h with ⟨-, h⟩ | ⟨t, rest, heq, h⟩
  · cases h
  · obtain ⟨-, rfl⟩ := append_eq_nil_iff.1 heq.symm
    exact h

theorem matches_dosStar : Matches upcase (dosStar :: e) s ↔
    ∃ t rest, s = t ++ rest ∧ EndsAtLastDot t rest ∧ Matches upcase e rest := by
  rw [Matches, if_neg (by decide), if_neg (by decide), if_pos rfl, or_iff_right]
  rintro ⟨h, -⟩
  exact absurd (h dosStar (by simp)) (by decide)

theorem endsAtLastDot_nil (rest : List WChar) : EndsAtLastDot [] rest := by
  intro t1 t2 h
  simp at h

/-- The sequence ends where it starts, if it starts with the last dot. -/
theorem endsAtLastDot_cons {t rest : List WChar} : EndsAtLastDot (c :: t) rest ↔
    if c = dot ∧ dot ∉ t ++ rest then t = [] else EndsAtLastDot t rest := by
  split
  · next hlast =>
    refine ⟨fun h => h [] t (by rw [hlast.1]; rfl) hlast.2, ?_⟩
    rintro rfl t1 t2 heq -
    rcases t1 with - | ⟨d, t1⟩
    · exact (cons.inj heq).2.symm
    · simp at heq
  · next hlast =>
    constructor
    · intro h t1 t2 heq hnot
      exact h (c :: t1) t2 (by rw [heq]; rfl) hnot
    · intro h t1 t2 heq hnot
      rcases t1 with - | ⟨d, t1⟩
      · obtain ⟨rfl, rfl⟩ := cons.inj heq
        exact absurd ⟨rfl, hnot⟩ hlast
      · obtain ⟨-, rfl⟩ := cons.inj heq
        exact h t1 t2 rfl hnot

theorem matches_dosStar_of_matches (h : Matches upcase e s) : Matches upcase (dosStar :: e) s :=
  matches_dosStar.2 ⟨[], s, rfl, endsAtLastDot_nil s, h⟩

theorem matches_dosStar_cons : Matches upcase (dosStar :: e) (c :: s) ↔
    Matches upcase e (c :: s) ∨
      if c = dot ∧ dot ∉ s then Matches upcase e s else Matches upcase (dosStar :: e) s := by
  rw [matches_dosStar]
  constructor
  · rintro ⟨- | ⟨d, t⟩, rest, heq, hdot, h⟩
    · exact .inl (heq ▸ h)
    · rw [cons_append] at heq
      obtain ⟨rfl, rfl⟩ := cons.inj heq
      rw [endsAtLastDot_cons] at hdot
      right
      split
      · next hlast =>
        rw [if_pos hlast] at hdot
        rw [hdot]
        exact h
      · next hlast =>
        rw [if_neg hlast] at hdot
        exact matches_dosStar.2 ⟨t, rest, rfl, hdot, h⟩
  · rintro (h | h)
    · exact ⟨[], c :: s, rfl, endsAtLastDot_nil _, h⟩
    · split at h
      · next hlast =>
        refine ⟨[c], s, rfl, endsAtLastDot_cons.2 ?_, h⟩
        rw [nil_append, if_pos hlast]
      · next hlast =>
        obtain ⟨t, rest, rfl, hdot, h⟩ := matches_dosStar.1 h
        exact ⟨c :: t, rest, rfl, endsAtLastDot_cons.2 (by rw [if_neg hlast]; exact hdot), h⟩

theorem matches_dosStar_nil : Matches upcase (dosStar :: e) [] ↔ Matches upcase e [] := by
  refine ⟨fun h => ?_, matches_dosStar_of_matches⟩
  obtain ⟨t, rest, heq, -, h⟩ := matches_dosStar.1 h
  obtain ⟨-, rfl⟩ := append_eq_nil_iff.1 heq.symm
  exact h

theorem matches_questionMark_cons : Matches upcase (questionMark :: e) (c :: s) ↔
    Matches upcase e s := by
  constructor
  · rintro (⟨h, -⟩ | ⟨d, rest, heq, h⟩)
    · exact absurd (h questionMark (by simp)) (by decide)
    · obtain ⟨-, rfl⟩ := cons.inj heq
      exact h
  · exact fun h => .inr ⟨c, s, rfl, h⟩

theorem not_matches_questionMark_nil : ¬Matches upcase (questionMark :: e) [] := by
  rintro (⟨-, h⟩ | ⟨d, rest, h, -⟩) <;> cases h

theorem matches_dosDot_cons : Matches upcase (dosDot :: e) (c :: s) ↔
    c = dot ∧ Matches upcase e s := by
  constructor
  · rintro (⟨h, -⟩ | ⟨rest, heq, h⟩ | ⟨h, -⟩)
    · exact absurd (h dosDot (by simp)) (by decide)
    · obtain ⟨rfl, rfl⟩ := cons.inj heq
      exact ⟨rfl, h⟩
    · cases h
  · rintro ⟨rfl, h⟩
    exact .inr (.inl ⟨s, rfl, h⟩)

theorem matches_dosDot_nil : Matches upcase (dosDot :: e) [] ↔ Matches upcase e [] := by
  constructor
  · rintro (⟨-, h⟩ | ⟨rest, heq, -⟩ | ⟨-, h⟩)
    · cases h
    · cases heq
    · exact h
  · exact fun h => .inr (.inr ⟨rfl, h⟩)

theorem matches_dosQm_cons : Matches upcase (dosQm :: e) (c :: s) ↔
    if c = dot then Matches upcase e (c :: s) ∨ e = [] ∧ s = [] else Matches upcase e s := by
  split
  · next hdot =>
    constructor
    · rintro (⟨hall, hname⟩ | ⟨d, rest, heq, hne, -⟩ | ⟨-, h⟩)
      · -- the rest is empty, or it is a remainder of the same kind
        obtain ⟨-, rfl⟩ := cons.inj hname
        rcases e with - | ⟨y, e⟩
        · exact .inr ⟨rfl, rfl⟩
        · refine .inl ?_
          exact .inl ⟨fun z hz => hall z (mem_cons_of_mem _ hz), by rw [hdot]⟩
      · exact absurd ((cons.inj heq).1 ▸ hdot) hne
      · exact .inl h
    · rintro (h | ⟨rfl, rfl⟩)
      · exact .inr (.inr ⟨.inl (by rw [hdot]; rfl), h⟩)
      · exact .inl ⟨by simp, by rw [hdot]⟩
  · next hdot =>
    constructor
    · rintro (⟨-, hname⟩ | ⟨d, rest, heq, -, h⟩ | ⟨h | h, -⟩)
      · exact absurd (cons.inj hname).1 hdot
      · obtain ⟨-, rfl⟩ := cons.inj heq
        exact h
      · exact absurd (Option.some.inj h) hdot
      · cases h
    · exact fun h => .inr (.inl ⟨c, s, rfl, hdot, h⟩)

theorem matches_dosQm_nil : Matches upcase (dosQm :: e) [] ↔ Matches upcase e [] := by
  constructor
  · rintro (⟨-, h⟩ | ⟨d, rest, heq, -⟩ | ⟨-, h⟩)
    · cases h
    · cases heq
    · exact h
  · exact fun h => .inr (.inr ⟨.inr rfl, h⟩)

theorem wild_iff : fsRtlIsUnicodeCharacterWild x = true ↔
    x = dosDot ∨ x = star ∨ x = dosStar ∨ x = dosQm ∨ x = questionMark := by
  simp [fsRtlIsUnicodeCharacterWild, or_assoc]

theorem matches_literal (hx : ¬fsRtlIsUnicodeCharacterWild x) : Matches upcase (x :: e) s ↔
    ∃ c rest, s = c :: rest ∧ upcase c = x ∧ Matches upcase e rest := by
  rw [wild_iff] at hx
  push Not at hx
  obtain ⟨h₁, h₂, h3, h4, h5⟩ := hx
  rw [Matches, if_neg h₂, if_neg h5, if_neg h3, if_neg h₁, if_neg h4, or_iff_right]
  rintro ⟨h, -⟩
  exact h4 (h x (by simp))

end Reference

end Windivs

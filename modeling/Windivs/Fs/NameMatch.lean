import Windivs.Fs.NameChain

/-!
# The name matcher decides what a match is

The name matches from a place in the expression if and only if the rest of the name matches from
a place on its chain (`Windivs.NameContext.leads_chain`), and nothing is left of the name to
match if and only if the end of the expression is on the chain
(`Windivs.NameContext.end_mem_chain_iff`). With this, the loop over the name is an induction on
the name, and `FsRtlIsNameInExpressionPrivate` decides `Windivs.Matches`
(`Windivs.nameInExpression_iff`). A remainder of `DOS_QM` that meets a single dot is where the
code matches more than its wildcards say one by one: it steps over them to the end of the
expression, and the end is noted as if the dot had been read.
-/

namespace Windivs

namespace NameContext

variable {k : NameContext} {i : ℕ} {x : WChar} {rest : List WChar}

/-! ### Chains and matches -/

/-- A name matches from one of the places. -/
def Leads (k : NameContext) (places : List ℕ) (name : List WChar) : Prop :=
  ∃ v ∈ places, Matches k.upcase (k.expression.drop ((v + 1) / 4)) name

section Leads

variable {s : List WChar}

theorem leads_take (heff : k.effect x = .take) (hdrop : k.expression.drop (i + 1) = rest) :
    k.Leads (k.chain i (x :: rest)) s ↔ Matches k.upcase rest s := by
  simp only [Leads, chain, heff, List.mem_singleton, exists_eq_left]
  rw [show (4 * i + 4 + 1) / 4 = i + 1 by omega, hdrop]

theorem leads_skip (heff : k.effect x = .skip) :
    k.Leads (k.chain i (x :: rest)) s ↔ k.Leads (k.chain (i + 1) rest) s := by
  simp only [chain, heff]

theorem not_leads_fail (heff : k.effect x = .fail) : ¬k.Leads (k.chain i (x :: rest)) s := by
  simp [Leads, chain, heff]

theorem leads_eat {stay : Bool} (heff : k.effect x = .eat stay)
    (hrest : k.expression.drop i = x :: rest) (hdrop : k.expression.drop (i + 1) = rest) :
    k.Leads (k.chain i (x :: rest)) s ↔ stay = true ∧ Matches k.upcase (x :: rest) s ∨
      Matches k.upcase rest s ∨ k.Leads (k.chain (i + 1) rest) s := by
  have hstay : k.expression.drop ((4 * i + 1) / 4) = x :: rest := by
    rw [show (4 * i + 1) / 4 = i by omega, hrest]
  have hgo : k.expression.drop ((4 * i + 3 + 1) / 4) = rest := by
    rw [show (4 * i + 3 + 1) / 4 = i + 1 by omega, hdrop]
  constructor
  · rintro ⟨v, hv, h⟩
    rcases mem_chain_cons.1 hv with ⟨heff', -⟩ | ⟨heff', -⟩ | ⟨stay', heff', hv⟩
    · cases heff.symm.trans heff'
    · cases heff.symm.trans heff'
    · obtain rfl : stay = stay' := by injection heff.symm.trans heff'
      rcases hv with ⟨rfl, rfl⟩ | rfl | hv
      · exact .inl ⟨rfl, hstay ▸ h⟩
      · exact .inr (.inl (hgo ▸ h))
      · exact .inr (.inr ⟨v, hv, h⟩)
  · rintro (⟨rfl, h⟩ | h | ⟨v, hv, h⟩)
    · exact ⟨4 * i, mem_chain_cons.2 (.inr (.inr ⟨true, heff, .inl ⟨rfl, rfl⟩⟩)), by rwa [hstay]⟩
    · exact ⟨4 * i + 3, mem_chain_cons.2 (.inr (.inr ⟨stay, heff, .inr (.inl rfl)⟩)),
        by rwa [hgo]⟩
    · exact ⟨v, mem_chain_cons.2 (.inr (.inr ⟨stay, heff, .inr (.inr hv)⟩)), h⟩

end Leads

/-- **A character is read**: the name matches from a character of the expression if and only if
the rest of the name matches from a place on the chain. -/
theorem leads_chain {c : WChar} {s : List WChar} (hname : k.name = c :: s) (hk : k.Plain)
    (hrest : k.expression.drop i = rest) :
    k.Leads (k.chain i rest) s ↔ Matches k.upcase rest (c :: s) ∨ rest = [] ∧ s = [] := by
  induction rest generalizing i with
  | nil =>
    have hend : k.expression.drop ((4 * i + 1) / 4) = [] := by
      rw [show (4 * i + 1) / 4 = i by omega]
      exact hrest
    simp [Leads, chain, hend, Matches]
  | cons x rest ih =>
    have hdrop : k.expression.drop (i + 1) = rest := by
      rw [← List.tail_drop, hrest, List.tail_cons]
    have ih := ih hdrop
    have hdot : k.atDot ↔ c = dot := by
      rw [atDot, hname, List.head?_cons, Option.some.injEq]
    have hne : k.name ≠ [] := by
      rw [hname]
      exact List.cons_ne_nil c s
    -- where the expression ends, the rest of the name has to
    have hend : rest = [] ∧ s = [] → Matches k.upcase rest s := by
      rintro ⟨rfl, rfl⟩
      exact rfl
    rw [or_iff_left (by simp : ¬(x :: rest = [] ∧ s = []))]
    by_cases hwild : fsRtlIsUnicodeCharacterWild x
    · rcases wild_iff.1 hwild with rfl | rfl | rfl | rfl | rfl
      · have heff := hk.effect_dosDot
        rw [if_neg hne] at heff
        rw [matches_dosDot_cons]
        by_cases hc : c = dot
        · rw [leads_take (heff.trans (if_pos (hdot.2 hc))) hdrop, and_iff_right hc]
        · exact iff_of_false (not_leads_fail (heff.trans (if_neg fun h => hc (hdot.1 h))))
            fun h => hc h.1
      · rw [leads_eat hk.effect_star hrest hdrop, ih, matches_star_cons]
        constructor
        · rintro (⟨-, h⟩ | h | h | h)
          · exact .inr h
          · exact .inr (matches_star_of_matches h)
          · exact .inl h
          · exact .inr (matches_star_of_matches (hend h))
        · rintro (h | h)
          · exact .inr (.inr (.inl h))
          · exact .inl ⟨rfl, h⟩
      · rw [leads_eat hk.effect_dosStar hrest hdrop, ih, matches_dosStar_cons, decide_eq_true_iff]
        have hstay : (k.name = [] ∨ ¬k.atDot ∨ dot ∈ k.name.tail) ↔ ¬(c = dot ∧ dot ∉ s) := by
          rw [hdot, hname, List.tail_cons]
          simp only [reduceCtorEq, false_or]
          tauto
        rw [hstay]
        by_cases hlast : c = dot ∧ dot ∉ s
        · rw [if_pos hlast]
          constructor
          · rintro (⟨hnot, -⟩ | h | h | h)
            · exact absurd hlast hnot
            · exact .inr h
            · exact .inl h
            · exact .inr (hend h)
          · rintro (h | h)
            · exact .inr (.inr (.inl h))
            · exact .inr (.inl h)
        · rw [if_neg hlast]
          constructor
          · rintro (⟨-, h⟩ | h | h | h)
            · exact .inr h
            · exact .inr (matches_dosStar_of_matches h)
            · exact .inl h
            · exact .inr (matches_dosStar_of_matches (hend h))
          · rintro (h | h)
            · exact .inr (.inr (.inl h))
            · exact .inl ⟨hlast, h⟩
      · rw [matches_dosQm_cons]
        by_cases hc : c = dot
        · rw [leads_skip (hk.effect_dosQm.trans (if_pos (.inr (hdot.2 hc)))), ih, if_pos hc]
        · have heff : k.effect dosQm = .take :=
            hk.effect_dosQm.trans (if_neg fun h => hc (hdot.1 (h.resolve_left hne)))
          rw [leads_take heff hdrop, if_neg hc]
      · rw [leads_take (hk.effect_questionMark.trans (if_neg hne)) hdrop, matches_questionMark_cons]
    · have hsame : k.sameChar x ↔ k.upcase c = x := by
        rw [sameChar, hname, List.head?_cons, Option.map_some, Option.some.injEq]
      rw [matches_literal hwild]
      by_cases heq : k.upcase c = x
      · rw [leads_take ((effect_literal hwild).trans (if_pos ⟨hsame.2 heq, hne⟩)) hdrop]
        constructor
        · exact fun h => ⟨c, s, rfl, heq, h⟩
        · rintro ⟨d, rest', hcons, -, h⟩
          obtain ⟨-, rfl⟩ := List.cons.inj hcons
          exact h
      · refine iff_of_false
          (not_leads_fail ((effect_literal hwild).trans (if_neg fun h => heq (hsame.1 h.1)))) ?_
        rintro ⟨d, rest', hcons, hd, -⟩
        obtain ⟨rfl, -⟩ := List.cons.inj hcons
        exact heq hd

/-- **The end of the name**: nothing matches from a character of the expression if and only if
the end is on the chain. -/
theorem end_mem_chain_iff (hname : k.name = []) (hk : k.Plain)
    (hi : i + rest.length = k.expression.length) :
    4 * k.expression.length ∈ k.chain i rest ↔ Matches k.upcase rest [] := by
  induction rest generalizing i with
  | nil =>
    rw [List.length_nil, add_zero] at hi
    simp [chain, hi, Matches]
  | cons x rest ih =>
    rw [List.length_cons] at hi
    have ih := ih (i := i + 1) (by omega)
    have hskip : k.effect x = .skip → (4 * k.expression.length ∈ k.chain i (x :: rest) ↔
        Matches k.upcase rest []) := by
      intro heff
      simp only [chain, heff]
      exact ih
    have hfail : k.effect x = .fail → 4 * k.expression.length ∉ k.chain i (x :: rest) := by
      intro heff
      simp [chain, heff]
    have heat : ∀ stay, k.effect x = .eat stay →
        (4 * k.expression.length ∈ k.chain i (x :: rest) ↔ Matches k.upcase rest []) := by
      intro stay heff
      rw [← ih, mem_chain_cons]
      constructor
      · rintro (⟨heff', -⟩ | ⟨heff', -⟩ | ⟨stay', -, ⟨-, hv⟩ | hv | hv⟩)
        · cases heff.symm.trans heff'
        · cases heff.symm.trans heff'
        · omega
        · omega
        · exact hv
      · exact fun hv => .inr (.inr ⟨stay, heff, .inr (.inr hv)⟩)
    by_cases hwild : fsRtlIsUnicodeCharacterWild x
    · rcases wild_iff.1 hwild with rfl | rfl | rfl | rfl | rfl
      · rw [hskip (hk.effect_dosDot.trans (if_pos hname)), matches_dosDot_nil]
      · rw [heat true hk.effect_star, matches_star_nil]
      · rw [heat _ hk.effect_dosStar, matches_dosStar_nil]
      · rw [hskip (hk.effect_dosQm.trans (if_pos (.inl hname))), matches_dosQm_nil]
      · exact iff_of_false (hfail (hk.effect_questionMark.trans (if_pos hname)))
          not_matches_questionMark_nil
    · refine iff_of_false
        (hfail ((effect_literal hwild).trans (if_neg fun h => h.2 hname))) ?_
      rw [matches_literal hwild]
      rintro ⟨c, rest', h, -⟩
      cases h

end NameContext

/-! ### The whole name -/

section Whole

open NameContext List

variable {expression name : List WChar} {upcase : WChar → WChar} {b : BackTracking}

/-- The end is the last place if it is one at all. -/
theorem atEnd_iff {places : List ℕ} (h : Places expression places) :
    atEnd expression places = true ↔ 4 * expression.length ∈ places := by
  have htwice : 2 * expression.length * 2 = 4 * expression.length := by ring
  rw [atEnd, htwice, decide_eq_true_iff]
  constructor
  · exact mem_of_getLast?
  · intro hmem
    obtain ⟨init, last, rfl⟩ : ∃ init last, places = init ++ [last] := by
      rcases eq_nil_or_concat places with rfl | ⟨init, last, rfl⟩
      · cases hmem
      · exact ⟨init, last, by simp⟩
    have hle := (h.isPlace last (by simp)).le
    rw [getLast?_concat]
    rcases mem_append.1 hmem with hinit | hlast
    · have hle' := (pairwise_append.1 h.sorted).2.2 _ hinit last (by simp)
      exact congrArg some (by omega)
    · exact congrArg some (mem_singleton.1 hlast).symm

/-- **The name parsing loop** decides whether the name matches from one of the places. -/
theorem nameLoop_spec (hn : expression.length < 0x4000)
    (hplain : ∀ c ∈ name, ¬fsRtlIsUnicodeCharacterWild (upcase c)) (hb : Sized expression b)
    (hplaces : Places expression b.entries) :
    ∃ result, nameLoop expression upcase name b = .ok result ∧
      (result = true ↔ ∃ v ∈ b.entries, Matches upcase (expression.drop ((v + 1) / 4)) name) := by
  induction name generalizing b with
  | nil =>
    rw [nameLoop]
    by_cases hend : atEnd expression b.entries = true
    · rw [if_pos hend]
      refine ⟨true, rfl, iff_of_true rfl ⟨_, (atEnd_iff hplaces).1 hend, ?_⟩⟩
      rw [show (4 * expression.length + 1) / 4 = expression.length by omega, drop_length]
      rfl
    · rw [if_neg hend]
      obtain ⟨b', hrun, -, hplaces', hchains⟩ :=
        placeLoop_spec (k := ⟨expression, upcase, []⟩) hn hplain hb hplaces
      refine ⟨atEnd expression b'.entries, by rw [hrun]; rfl, ?_⟩
      rw [atEnd_iff hplaces', hchains]
      -- no place is at the end, as the end would then have been seen
      have hlt : ∀ o ∈ b.entries, (o + 1) / 4 < expression.length := by
        intro o ho
        have hle := (hplaces.isPlace o ho).le
        by_contra hge
        exact hend ((atEnd_iff hplaces).2 (hplaces.atEnd o ho (by omega)))
      constructor
      · rintro ⟨o, ho, hmem⟩
        exact ⟨o, ho, (end_mem_chain_iff (k := ⟨expression, upcase, []⟩) rfl hplain
          (length_drop_add (hlt o ho).le)).1 (mem_chainFrom.1 hmem).2⟩
      · rintro ⟨o, ho, h⟩
        exact ⟨o, ho, mem_chainFrom.2 ⟨hlt o ho, (end_mem_chain_iff
          (k := ⟨expression, upcase, []⟩) rfl hplain (length_drop_add (hlt o ho).le)).2 h⟩⟩
  | cons c name ih =>
    obtain ⟨b', hrun, hb', hplaces', hchains⟩ :=
      placeLoop_spec (k := ⟨expression, upcase, c :: name⟩) hn hplain hb hplaces
    obtain ⟨result, hnext, hresult⟩ :=
      ih (fun d hd => hplain d (mem_cons_of_mem c hd)) hb' hplaces'
    refine ⟨result, by rw [nameLoop, hrun]; exact hnext, ?_⟩
    have hlead : ∀ o, (∃ v ∈ chainFrom ⟨expression, upcase, c :: name⟩ o,
        Matches upcase (expression.drop ((v + 1) / 4)) name) ↔
        Matches upcase (expression.drop ((o + 1) / 4)) (c :: name) := by
      intro o
      by_cases hlt : (o + 1) / 4 < expression.length
      · have hchain := leads_chain (k := ⟨expression, upcase, c :: name⟩) (i := (o + 1) / 4) rfl
          hplain rfl
        rw [or_iff_left] at hchain
        · rw [← hchain, chainFrom, if_pos hlt]
          rfl
        · rintro ⟨hnil, -⟩
          have hge := drop_eq_nil_iff.1 hnil
          simp only at hge
          omega
      · rw [chainFrom, if_neg hlt, drop_eq_nil_of_le (not_lt.1 hlt)]
        simp [Matches]
    rw [hresult]
    constructor
    · rintro ⟨v, hv, h⟩
      obtain ⟨o, ho, hv⟩ := (hchains v).1 hv
      exact ⟨o, ho, (hlead o).1 ⟨v, hv, h⟩⟩
    · rintro ⟨o, ho, h⟩
      obtain ⟨v, hv, h⟩ := (hlead o).2 h
      exact ⟨v, (hchains v).2 ⟨o, ho, hv⟩, h⟩

/-! ### Expressions without further wildcards -/

/-- Without wildcards the name is the expression. -/
theorem matches_plain (h : ∀ x ∈ expression, ¬fsRtlIsUnicodeCharacterWild x) :
    Matches upcase expression name ↔ name.map upcase = expression := by
  induction expression generalizing name with
  | nil => simp [Matches]
  | cons x expression ih =>
    obtain ⟨hx, h⟩ := forall_mem_cons.1 h
    rw [matches_literal hx, map_eq_cons_iff]
    constructor
    · rintro ⟨c, rest, rfl, hc, hrest⟩
      exact ⟨c, rest, rfl, hc, (ih h).1 hrest⟩
    · rintro ⟨c, rest, rfl, hc, hrest⟩
      exact ⟨c, rest, rfl, hc, (ih h).2 hrest⟩

/-- After a star it is the end of the name. -/
theorem matches_star_plain (upcase : WChar → WChar) (name : List WChar)
    (h : ∀ x ∈ expression, ¬fsRtlIsUnicodeCharacterWild x) :
    Matches upcase (star :: expression) name ↔ expression.length ≤ name.length ∧
      (name.drop (name.length - expression.length)).map upcase = expression := by
  rw [Matches, or_iff_right]
  · constructor
    · rintro ⟨t, rest, rfl, hrest⟩
      rw [matches_plain h] at hrest
      have hlength : rest.length = expression.length := by
        rw [← hrest, length_map]
      rw [length_append]
      refine ⟨by omega, ?_⟩
      rw [show t.length + rest.length - expression.length = t.length by omega, drop_left]
      exact hrest
    · rintro ⟨-, htail⟩
      exact ⟨_, _, (take_append_drop (name.length - expression.length) name).symm,
        (matches_plain h).2 htail⟩
  · rintro ⟨hall, -⟩
    exact absurd (hall star (by simp)) (by decide)

theorem compareUpcased_spec (hexp : ∀ x ∈ expression, upcase x = x)
    (hlength : name.length = expression.length) :
    compareUpcased upcase expression name = .ok (decide (name.map upcase = expression)) := by
  induction expression generalizing name with
  | nil =>
    obtain rfl := length_eq_zero_iff.1 hlength
    rfl
  | cons x expression ih =>
    rcases name with - | ⟨c, name⟩
    · cases hlength
    · obtain ⟨hx, hexp⟩ := forall_mem_cons.1 hexp
      rw [compareUpcased, assert_of hx.symm]
      show (if upcase c ≠ x then _ else _) = _
      by_cases hc : upcase c = x
      · rw [ih hexp (by simpa using hlength)]
        simp [hc]
      · rw [if_pos hc]
        simp only [map_cons, cons.injEq, hc]
        rfl

theorem not_wildcards_iff (h : backslash ∉ expression) :
    ¬fsRtlDoesNameContainWildCards expression ↔
      ∀ x ∈ expression, ¬fsRtlIsUnicodeCharacterWild x := by
  have hall : expression.reverse.takeWhile (· ≠ backslash) = expression.reverse := by
    refine takeWhile_eq_self_iff.2 fun x hx => ?_
    have hne : x ≠ backslash := fun heq => h (heq ▸ mem_reverse.1 hx)
    simpa using hne
  rw [fsRtlDoesNameContainWildCards, hall]
  simp

/-! ### The result -/

/-- What is asked of an upcase table: no other character becomes a wildcard. -/
def KeepsPlain (upcase : WChar → WChar) : Prop :=
  ∀ c, ¬fsRtlIsUnicodeCharacterWild c → ¬fsRtlIsUnicodeCharacterWild (upcase c)

/-- The first place is the start of the expression. -/
theorem places_start (hne : expression ≠ []) : Places expression [0] := by
  have hpos := length_pos_iff.2 hne
  refine ⟨pairwise_singleton .., fun o ho => ?_, fun o ho hend => ?_⟩
  · obtain rfl := mem_singleton.1 ho
    exact ⟨by omega, .inl rfl, fun h => absurd h (by decide)⟩
  · obtain rfl := mem_singleton.1 ho
    omega

/-- **The matcher is right**: `FsRtlIsNameInExpressionPrivate` returns, without a failed
assertion or an access outside its arrays, and returns `TRUE` if and only if the name matches
the expression. -/
theorem nameInExpression_iff (expression name : List WChar) (ignoreCase : Bool)
    (upcaseTable : Option (WChar → WChar)) (hexpression : expression ≠ []) (hname : name ≠ [])
    (hback : backslash ∉ expression) (hlength : expression.length < 0x4000)
    (hplain : ∀ c ∈ name, ¬fsRtlIsUnicodeCharacterWild c)
    (htable : ignoreCase = true → ∃ upcase, upcaseTable = some upcase ∧ KeepsPlain upcase ∧
      ∀ x ∈ expression, upcase x = x) :
    ∃ result, fsRtlIsNameInExpressionPrivate expression name ignoreCase upcaseTable = .ok result ∧
      (result = true ↔ Matches (nameUpcase ignoreCase upcaseTable) expression name) := by
  set upcase := nameUpcase ignoreCase upcaseTable with hupcase
  -- the characters of the name stay plain when they are upcased, those of the expression the same
  have hname' : ∀ c ∈ name, ¬fsRtlIsUnicodeCharacterWild (upcase c) := by
    intro c hc
    cases ignoreCase with
    | false => exact hplain c hc
    | true =>
      obtain ⟨table, rfl, hkeeps, -⟩ := htable rfl
      exact hkeeps c (hplain c hc)
  have hassert : ignoreCase = false ∨ upcaseTable.isSome := by
    cases ignoreCase with
    | false => exact .inl rfl
    | true =>
      obtain ⟨table, rfl, -⟩ := htable rfl
      exact .inr rfl
  rw [fsRtlIsNameInExpressionPrivate, if_neg (by simp [hname, hexpression])]
  by_cases hone : expression = [star]
  · rw [hone]
    refine ⟨true, rfl, iff_of_true rfl ?_⟩
    exact .inr ⟨name, [], by simp, rfl⟩
  rw [if_neg hone, assert_of hassert]
  by_cases hshort : expression.head? = some star ∧ ¬fsRtlDoesNameContainWildCards expression.tail
  · rw [if_pos hshort]
    obtain ⟨rest, rfl⟩ : ∃ rest, expression = star :: rest :=
      head?_eq_some_iff.1 hshort.1
    rw [tail_cons] at hshort ⊢
    have hrest := (not_wildcards_iff fun h => hback (mem_cons_of_mem star h)).1 hshort.2
    have hmatch := matches_star_plain upcase name hrest
    by_cases hlt : name.length < rest.length
    · simp only [if_pos hlt]
      exact ⟨false, rfl, by simp [hmatch, hlt]⟩
    · simp only [if_neg hlt]
      rw [hmatch, and_iff_right (not_lt.1 hlt)]
      have hlen : (name.drop (name.length - rest.length)).length = rest.length := by
        rw [length_drop]
        omega
      cases ignoreCase with
      | false =>
        refine ⟨_, rfl, ?_⟩
        rw [hupcase, decide_eq_true_iff, eq_comm]
        simp [nameUpcase]
      | true =>
        obtain ⟨table, rfl, -, hexp⟩ := htable rfl
        have hexp' : ∀ x ∈ rest, upcase x = x :=
          fun x hx => hexp x (mem_cons_of_mem star hx)
        exact ⟨_, compareUpcased_spec hexp' hlen, decide_eq_true_iff⟩
  · rw [if_neg hshort]
    obtain ⟨result, hrun, hresult⟩ := nameLoop_spec (b := ⟨[0], 16, false⟩) hlength hname' rfl
      (places_start hexpression)
    refine ⟨result, hrun, ?_⟩
    rw [hresult]
    simp

theorem nameInExpression_dosQm :
    ∃ result, fsRtlIsNameInExpressionPrivate [0x41, dosQm] [0x61, dot] true
        (some fun c => if c = 0x61 then 0x41 else c) = .ok result ∧
      (result = true ↔
        Matches (nameUpcase true (some fun c => if c = 0x61 then 0x41 else c)) [0x41, dosQm]
          [0x61, dot]) := by
  refine nameInExpression_iff _ _ _ _ (by decide) (by decide) (by decide) (by decide) ?_
    fun _ => ⟨_, rfl, fun c hc => ?_, ?_⟩
  · simp only [forall_mem_cons]
    exact ⟨by decide, by decide, forall_mem_nil _⟩
  · dsimp only
    split
    · decide
    · exact hc
  · simp only [forall_mem_cons]
    exact ⟨by decide, by decide, forall_mem_nil _⟩

end Whole

end Windivs

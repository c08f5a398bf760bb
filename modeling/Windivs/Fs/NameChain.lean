import Mathlib.Data.List.TakeWhile
import Windivs.Fs.NameExpression

/-!
# The places that the name matcher notes

From a place in the expression the code goes along a chain of characters and notes the places
for the next character of the name. For one character of the name there are four things that a
character of the expression can do (`Windivs.CharEffect`), and the chain
(`Windivs.NameContext.chain`) is read from them. Two facts about chains are needed for the lists:

* a chain goes up, and each character of the expression adds at most two places, so that the
  arrays are large enough and are replaced at most once;
* a place that is smaller than one on a chain that started before it lies on that chain, so that
  nothing is lost when it is skipped (`Windivs.NameContext.chain_subset`).

So for each character of the name the new list has the chains from all places of the old one
(`Windivs.NameContext.placeLoop_spec`).
-/

namespace Windivs

open List

/-! ### Chains -/

/-- What a character of the expression does about a character of the name. -/
inductive CharEffect where
  /-- It is matched. -/
  | take
  /-- It is not. -/
  | fail
  /-- The character of the expression stands for nothing. -/
  | skip
  /-- It is a star, which may stay or not. -/
  | eat (stay : Bool)

namespace NameContext

variable {k : NameContext} {i j v o : ℕ} {x : WChar} {rest : List WChar} {b : BackTracking}

/-- What the character does. -/
def effect (k : NameContext) (x : WChar) : CharEffect :=
  if k.sameChar x ∧ k.name ≠ [] then .take
  else if x = questionMark ∧ k.name ≠ [] then .take
  else if x = star then .eat true
  else if x = dosStar then .eat (decide (k.name = [] ∨ ¬k.atDot ∨ dot ∈ k.name.tail))
  else if x = dosDot then if k.name = [] then .skip else if k.atDot then .take else .fail
  else if x = dosQm then if k.name = [] ∨ k.atDot then .skip else .take
  else .fail

/-- **The places that are noted** from the character `i` on. -/
def chain (k : NameContext) : ℕ → List WChar → List ℕ
  | i, [] => [4 * i]
  | i, x :: rest =>
    match k.effect x with
    | .take => [4 * i + 4]
    | .fail => []
    | .skip => k.chain (i + 1) rest
    | .eat stay => (if stay then [4 * i] else []) ++ (4 * i + 3) :: k.chain (i + 1) rest

/-- A chain noted by the loop. -/
theorem expressionLoop_cons (k : NameContext) (i : ℕ) (x : WChar) (rest : List WChar)
    (b : BackTracking) :
    k.expressionLoop i (x :: rest) b = b.makeRoom k.expression >>= fun b =>
      match k.effect x with
      | .take => b.push (4 * i + 4)
      | .fail => pure b
      | .skip => k.expressionLoop (i + 1) rest b
      | .eat stay => (if stay then b.push (4 * i) else pure b) >>= fun b =>
          b.push (4 * i + 3) >>= fun b => k.expressionLoop (i + 1) rest b := by
  have h₁ : (2 * i + 2) * 2 = 4 * i + 4 := by ring
  have h₂ : 2 * i * 2 = 4 * i := by ring
  rw [expressionLoop, effect, h₁, h₂]
  congr 1
  funext b
  by_cases htake : k.sameChar x ∧ k.name ≠ []
  · rw [if_pos htake, if_pos htake]
  rw [if_neg htake, if_neg htake]
  by_cases hqm : x = questionMark ∧ k.name ≠ []
  · rw [if_pos hqm, if_pos hqm]
  rw [if_neg hqm, if_neg hqm]
  by_cases hstar : x = star
  · rw [if_pos hstar, if_pos hstar]
    rfl
  rw [if_neg hstar, if_neg hstar]
  by_cases hdosStar : x = dosStar
  · rw [if_pos hdosStar, if_pos hdosStar]
    by_cases hstay : k.name = [] ∨ ¬k.atDot ∨ dot ∈ k.name.tail
    · rw [if_pos (by tauto), decide_eq_true hstay]
      rfl
    · rw [if_neg (by tauto), decide_eq_false hstay]
      rfl
  rw [if_neg hdosStar, if_neg hdosStar]
  split_ifs <;> rfl

/-! ### What is on a chain -/

theorem mem_chain_cons : v ∈ k.chain i (x :: rest) ↔
    (k.effect x = .take ∧ v = 4 * i + 4) ∨ (k.effect x = .skip ∧ v ∈ k.chain (i + 1) rest) ∨
      ∃ stay, k.effect x = .eat stay ∧
        (stay = true ∧ v = 4 * i ∨ v = 4 * i + 3 ∨ v ∈ k.chain (i + 1) rest) := by
  rw [chain]
  rcases k.effect x with - | - | - | stay
  · simp
  · simp
  · simp
  · cases stay <;> simp

theorem le_of_mem_chain (h : v ∈ k.chain i rest) : 4 * i ≤ v := by
  induction rest generalizing i with
  | nil => exact (mem_singleton.1 h).ge
  | cons x rest ih =>
    rcases mem_chain_cons.1 h with ⟨-, rfl⟩ | ⟨-, h⟩ | ⟨stay, -, ⟨-, rfl⟩ | rfl | h⟩
    · omega
    · have hle := ih h
      omega
    · omega
    · omega
    · have hle := ih h
      omega

/-- A chain goes up. -/
theorem pairwise_chain (k : NameContext) (i : ℕ) (rest : List WChar) :
    (k.chain i rest).Pairwise (· ≤ ·) := by
  induction rest generalizing i with
  | nil => exact pairwise_singleton ..
  | cons x rest ih =>
    have hnext : ((4 * i + 3) :: k.chain (i + 1) rest).Pairwise (· ≤ ·) := by
      refine pairwise_cons.2 ⟨fun v hv => ?_, ih (i + 1)⟩
      have hle := le_of_mem_chain hv
      omega
    rw [chain]
    rcases k.effect x with - | - | - | stay
    · exact pairwise_singleton ..
    · exact .nil
    · exact ih (i + 1)
    · refine pairwise_append.2 ⟨by split <;> simp, hnext, fun u hu v hv => ?_⟩
      have hu' : u = 4 * i := by
        split at hu <;> simp_all
      rcases mem_cons.1 hv with rfl | hv
      · omega
      · have hle := le_of_mem_chain hv
        omega

/-- The end of the expression, if it is on a chain, is there as its own place. -/
theorem end_mem_chain (h : v ∈ k.chain i rest) (hv : (v + 1) / 4 = i + rest.length) :
    4 * (i + rest.length) ∈ k.chain i rest := by
  induction rest generalizing i with
  | nil => simp [chain]
  | cons x rest ih =>
    have hadd : i + (x :: rest).length = i + 1 + rest.length := by
      rw [length_cons]
      omega
    rw [hadd] at hv ⊢
    rcases mem_chain_cons.1 h with ⟨htake, rfl⟩ | ⟨hskip, h⟩ | ⟨stay, heat, ⟨-, rfl⟩ | rfl | h⟩
    · exact mem_chain_cons.2 (.inl ⟨htake, by omega⟩)
    · exact mem_chain_cons.2 (.inr (.inl ⟨hskip, ih h hv⟩))
    · omega
    · -- the last character is a star, and the chain goes on to the end
      obtain rfl : rest = [] := length_eq_zero_iff.1 (by omega)
      exact mem_chain_cons.2 (.inr (.inr ⟨stay, heat, .inr (.inr (by simp [chain]))⟩))
    · exact mem_chain_cons.2 (.inr (.inr ⟨stay, heat, .inr (.inr (ih h hv))⟩))

/-- No character of the name is upcased to a wildcard. -/
def Plain (k : NameContext) : Prop := ∀ c ∈ k.name, ¬fsRtlIsUnicodeCharacterWild (k.upcase c)

theorem Plain.not_sameChar (hk : k.Plain) (hx : fsRtlIsUnicodeCharacterWild x) : ¬k.sameChar x := by
  intro h
  obtain ⟨c, hc, rfl⟩ := Option.map_eq_some_iff.1 h
  exact hk c (mem_of_mem_head? hc) hx

/-- A star eats. -/
theorem Plain.effect_star (hk : k.Plain) : k.effect star = .eat true := by
  rw [effect, if_neg fun h => hk.not_sameChar (by decide) h.1,
    if_neg fun h => absurd h.1 (by decide), if_pos rfl]

theorem Plain.effect_dosStar (hk : k.Plain) :
    k.effect dosStar = .eat (decide (k.name = [] ∨ ¬k.atDot ∨ dot ∈ k.name.tail)) := by
  rw [effect, if_neg fun h => hk.not_sameChar (by decide) h.1,
    if_neg fun h => absurd h.1 (by decide), if_neg (by decide), if_pos rfl]

theorem Plain.effect_dosDot (hk : k.Plain) :
    k.effect dosDot = if k.name = [] then .skip else if k.atDot then .take else .fail := by
  rw [effect, if_neg fun h => hk.not_sameChar (by decide) h.1,
    if_neg fun h => absurd h.1 (by decide), if_neg (by decide), if_neg (by decide), if_pos rfl]

theorem Plain.effect_dosQm (hk : k.Plain) :
    k.effect dosQm = if k.name = [] ∨ k.atDot then .skip else .take := by
  rw [effect, if_neg fun h => hk.not_sameChar (by decide) h.1,
    if_neg fun h => absurd h.1 (by decide), if_neg (by decide), if_neg (by decide),
    if_neg (by decide), if_pos rfl]

theorem Plain.effect_questionMark (hk : k.Plain) :
    k.effect questionMark = if k.name = [] then .fail else .take := by
  rw [effect, if_neg fun h => hk.not_sameChar (by decide) h.1]
  by_cases hname : k.name = []
  · rw [if_neg fun h => h.2 hname, if_neg (by decide), if_neg (by decide), if_neg (by decide),
      if_neg (by decide), if_pos hname]
  · rw [if_pos ⟨rfl, hname⟩, if_neg hname]

theorem effect_literal (hx : ¬fsRtlIsUnicodeCharacterWild x) :
    k.effect x = if k.sameChar x ∧ k.name ≠ [] then .take else .fail := by
  rw [wild_iff] at hx
  push Not at hx
  obtain ⟨h₁, h₂, h3, h4, h5⟩ := hx
  rw [effect, if_neg h₂, if_neg h3, if_neg h₁, if_neg h4,
    if_neg (fun h => h5 h.1 : ¬(x = questionMark ∧ k.name ≠ []))]

/-- Only a star does. -/
theorem star_of_eat {stay : Bool} (h : k.effect x = .eat stay) : x = star ∨ x = dosStar := by
  rw [effect] at h
  split_ifs at h with h₁ h₂ h3 h4
  · exact .inl h3
  · exact .inr h4

/-- **The numbers that stand for a place**: not behind the end, and odd only after a star. -/
structure IsPlace (expression : List WChar) (o : ℕ) : Prop where
  le : o ≤ 4 * expression.length
  mod : o % 4 = 0 ∨ o % 4 = 3
  star : o % 4 = 3 → ∃ x, expression[o / 4]? = some x ∧ (x = star ∨ x = dosStar)

theorem isPlace_of_mem_chain (hrest : k.expression.drop i = rest)
    (hi : i + rest.length = k.expression.length) (h : v ∈ k.chain i rest) :
    IsPlace k.expression v := by
  induction rest generalizing i with
  | nil =>
    obtain rfl := mem_singleton.1 h
    exact ⟨by omega, by omega, by omega⟩
  | cons x rest ih =>
    have hdrop : k.expression.drop (i + 1) = rest := by
      rw [← tail_drop, hrest, tail_cons]
    rw [length_cons] at hi
    rcases mem_chain_cons.1 h with ⟨-, rfl⟩ | ⟨-, h⟩ | ⟨stay, heat, ⟨-, rfl⟩ | rfl | h⟩
    · exact ⟨by omega, by omega, by omega⟩
    · exact ih hdrop (by omega) h
    · exact ⟨by omega, by omega, by omega⟩
    · refine ⟨by omega, by omega, fun _ => ⟨x, ?_, star_of_eat heat⟩⟩
      rw [show (4 * i + 3) / 4 = i by omega, ← head?_drop, hrest]
      rfl
    · exact ih hdrop (by omega) h

/-- **What may be skipped**: a place behind the start of a chain, and smaller than a place on it,
has its own chain there. -/
theorem chain_subset (hk : k.Plain) (hrest : k.expression.drop i = rest)
    (hi : i + rest.length = k.expression.length) (ho : IsPlace k.expression o)
    (hij : i ≤ (o + 1) / 4) (hj : (o + 1) / 4 < k.expression.length) (h : v ∈ k.chain i rest)
    (hlt : o < v) : k.chain ((o + 1) / 4) (k.expression.drop ((o + 1) / 4)) ⊆ k.chain i rest := by
  induction rest generalizing i with
  | nil =>
    rw [length_nil] at hi
    omega
  | cons x rest ih =>
    have hdrop : k.expression.drop (i + 1) = rest := by
      rw [← tail_drop, hrest, tail_cons]
    rcases hij.eq_or_lt with heq | hlt'
    · rw [← heq, hrest]
      exact List.Subset.refl _
    · rw [length_cons] at hi
      rcases mem_chain_cons.1 h with ⟨htake, rfl⟩ | ⟨hskip, h⟩ | ⟨stay, heat, ⟨-, rfl⟩ | rfl | h⟩
      · -- the place is there because this character is a star, but a star eats
        exfalso
        obtain ⟨y, hy, hstar⟩ := ho.star (by omega)
        rw [show o / 4 = i by omega, ← head?_drop, hrest] at hy
        obtain rfl := Option.some.inj hy
        rcases hstar with rfl | rfl
        · rw [hk.effect_star] at htake
          cases htake
        · rw [hk.effect_dosStar] at htake
          cases htake
      · intro u hu
        exact mem_chain_cons.2 (.inr (.inl ⟨hskip, ih hdrop (by omega) (by omega) h hu⟩))
      · omega
      · omega
      · intro u hu
        exact mem_chain_cons.2
          (.inr (.inr ⟨stay, heat, .inr (.inr (ih hdrop (by omega) (by omega) h hu))⟩))

/-- A chain that stays before the character `j` has at most two places for a character. -/
theorem length_chain (hi : i + rest.length = k.expression.length)
    (hj : j < k.expression.length) (h : ∀ v ∈ k.chain i rest, v ≤ 4 * j + 2)
    (hne : k.chain i rest ≠ []) : (k.chain i rest).length + 2 * i ≤ 2 * j := by
  induction rest generalizing i with
  | nil =>
    rw [length_nil] at hi
    have hle := h (4 * i) (by simp [chain])
    omega
  | cons x rest ih =>
    rw [length_cons] at hi
    rcases heff : k.effect x with - | - | - | stay <;> simp only [chain, heff] at h hne ⊢
    · have hle := h (4 * i + 4) (by simp)
      rw [length_singleton]
      omega
    · exact absurd rfl hne
    · have hle := ih (by omega) h hne
      omega
    · have hle := h (4 * i + 3) (by simp)
      have hstay : (if stay = true then [4 * i] else []).length ≤ 1 := by
        split <;> simp
      simp only [length_append, length_cons]
      rcases hnext : k.chain (i + 1) rest with - | ⟨u, l⟩
      · simp only [length_nil]
        omega
      · have hle' := ih (i := i + 1) (by omega)
          (fun v hv => h v (mem_append_right _ (mem_cons_of_mem _ hv)))
          (by rw [hnext]; exact cons_ne_nil _ _)
        rw [hnext] at hle'
        omega

/-! ### The arrays -/

/-- The size of the arrays is that of the source, before or after they are replaced. -/
def Sized (expression : List WChar) (b : BackTracking) : Prop :=
  b.bufferSize = if b.allocated then expression.length * 2 + 1 else 16

theorem push_eq (hroom : b.entries.length < b.bufferSize)
    (hv : v < 0x10000) : b.push v = .ok { b with entries := b.entries ++ [v] } := by
  rw [BackTracking.push, if_pos hroom, ushort, Nat.mod_eq_of_lt hv]

/-- There is room for three more numbers, as there are at most two for every character before. -/
theorem makeRoom_spec {expression : List WChar} (hb : Sized expression b)
    (hlen : b.entries.length ≤ 2 * i) (hi : i < expression.length) :
    ∃ b', b.makeRoom expression = .ok b' ∧ b'.entries = b.entries ∧ Sized expression b' ∧
      b.entries.length + 3 ≤ b'.bufferSize := by
  rw [Sized] at hb
  rw [BackTracking.makeRoom]
  by_cases hfull : b.bufferSize - 3 < b.entries.length
  · have hnew : b.allocated = false := by
      by_contra hold
      rw [Bool.not_eq_false] at hold
      rw [hold, if_pos rfl] at hb
      omega
    rw [hnew] at hb
    simp only [Bool.false_eq_true, if_false] at hb
    rw [if_pos hfull, assert_of hnew]
    refine ⟨{ b with bufferSize := expression.length * 2 + 1, allocated := true }, ?_, rfl, rfl,
      by simp only; omega⟩
    rw [if_pos (by omega)]
    rfl
  · rw [if_neg hfull]
    refine ⟨b, rfl, rfl, hb, ?_⟩
    split at hb <;> omega

/-- **The expression parsing loop** notes the chain. -/
theorem expressionLoop_spec (hn : k.expression.length < 0x4000)
    (hi : i + rest.length = k.expression.length) (hb : Sized k.expression b)
    (hlen : b.entries.length ≤ 2 * i) (hroom : rest = [] → b.entries.length < b.bufferSize) :
    ∃ b', k.expressionLoop i rest b = .ok b' ∧ b'.entries = b.entries ++ k.chain i rest ∧
      Sized k.expression b' := by
  induction rest generalizing i b with
  | nil =>
    rw [length_nil, add_zero] at hi
    refine ⟨_, push_eq (hroom rfl) (by omega), ?_, hb⟩
    rw [chain, hi, show 2 * k.expression.length * 2 = 4 * k.expression.length by ring]
  | cons x rest ih =>
    rw [length_cons] at hi
    obtain ⟨b1, hmake, hentries, hb1, hroom1⟩ := makeRoom_spec hb hlen (by omega)
    rw [← hentries] at hlen hroom1 ⊢
    rw [expressionLoop_cons, hmake]
    rcases heff : k.effect x with - | - | - | stay <;> simp only [chain, heff]
    · exact ⟨_, push_eq (by omega) (by omega), rfl, hb1⟩
    · exact ⟨b1, rfl, (append_nil _).symm, hb1⟩
    · exact ih (by omega) hb1 (by omega) fun _ => by omega
    · -- a star notes its own place if it stays, and the next one
      obtain ⟨b2, hstay, hentries2, hb2, hroom2⟩ :
          ∃ b2, (if stay = true then b1.push (4 * i) else pure b1) = .ok b2 ∧
            b2.entries = b1.entries ++ (if stay = true then [4 * i] else []) ∧
            Sized k.expression b2 ∧ b2.bufferSize = b1.bufferSize := by
        cases stay with
        | false => exact ⟨b1, rfl, (append_nil _).symm, hb1, rfl⟩
        | true => exact ⟨_, push_eq (by omega) (by omega), rfl, hb1, rfl⟩
      have hlength : b2.entries.length ≤ b1.entries.length + 1 := by
        rw [hentries2]
        split <;> simp
      have hpush := push_eq (b := b2) (v := 4 * i + 3) (by omega) (by omega)
      obtain ⟨b', hrun, hentries', hb'⟩ := ih (i := i + 1) (by omega)
        (b := { b2 with entries := b2.entries ++ [4 * i + 3] }) hb2
        (by simp only [length_append, length_singleton]; omega)
        fun _ => by simp only [length_append, length_singleton]; omega
      refine ⟨b', ?_, ?_, hb'⟩
      · show ((if stay = true then b1.push (4 * i) else pure b1) >>= _) = _
        rw [hstay]
        show (b2.push (4 * i + 3) >>= _) = _
        rw [hpush]
        exact hrun
      · rw [hentries', hentries2]
        simp only [append_assoc, singleton_append]

/-- The chain from a place. -/
def chainFrom (k : NameContext) (o : ℕ) : List ℕ :=
  if (o + 1) / 4 < k.expression.length then
    k.chain ((o + 1) / 4) (k.expression.drop ((o + 1) / 4))
  else []

theorem length_drop_add (h : i ≤ k.expression.length) :
    i + (k.expression.drop i).length = k.expression.length := by
  rw [length_drop]
  omega

theorem parseFrom_spec (hn : k.expression.length < 0x4000) (hb : Sized k.expression b)
    (hlen : (o + 1) / 4 < k.expression.length → b.entries.length ≤ 2 * ((o + 1) / 4)) :
    ∃ b', k.parseFrom o b = .ok b' ∧ b'.entries = b.entries ++ k.chainFrom o ∧
      Sized k.expression b' := by
  rw [parseFrom, chainFrom]
  have hindex : (o + 1) / 2 / 2 = (o + 1) / 4 := by omega
  by_cases hlt : (o + 1) / 4 < k.expression.length
  · simp only [hindex]
    rw [if_pos (by omega), if_pos hlt]
    refine expressionLoop_spec hn (length_drop_add hlt.le) hb (hlen hlt) fun hnil => ?_
    have hge := drop_eq_nil_iff.1 hnil
    omega
  · rw [if_neg (by omega), if_neg hlt]
    exact ⟨b, rfl, (append_nil _).symm, hb⟩

/-! ### One character of the name -/

/-- What is skipped is smaller than a place of the new list, and what comes next is not. -/
theorem skipOld_spec (new : List ℕ) {old : List ℕ} (hold : old.Pairwise (· ≤ ·)) :
    ∃ skipped, old = skipped ++ skipOld new old ∧ (∀ o ∈ skipped, ∃ v ∈ new, o < v) ∧
      ∀ o ∈ skipOld new old, ∀ v ∈ new, v ≤ o := by
  induction new generalizing old with
  | nil => exact ⟨[], rfl, by simp, by simp⟩
  | cons v new ih =>
    have hsplit := takeWhile_append_dropWhile (p := fun o => decide (o < v)) (l := old)
    have hdrop : (old.dropWhile fun o => o < v).Pairwise (· ≤ ·) := by
      rw [← hsplit] at hold
      exact (pairwise_append.1 hold).2.1
    obtain ⟨skipped, heq, hskipped, hnext⟩ := ih hdrop
    -- the list that is left starts at or after `v`, and goes up
    have hge : ∀ o ∈ old.dropWhile (fun o => o < v), v ≤ o := by
      rcases hd : old.dropWhile (fun o => o < v) with - | ⟨y, l⟩
      · simp
      · have hy : ¬y < v := by
          have hhead := head?_dropWhile_not (p := fun o => decide (o < v)) (l := old)
          rw [hd] at hhead
          simpa using hhead
        rw [hd] at hdrop
        rintro o ho
        rcases mem_cons.1 ho with rfl | ho
        · omega
        · have hle := (pairwise_cons.1 hdrop).1 o ho
          omega
    have hdef : skipOld (v :: new) old = skipOld new (old.dropWhile fun o => o < v) := rfl
    refine ⟨old.takeWhile (fun o => o < v) ++ skipped, ?_, fun o ho => ?_, fun o ho u hu => ?_⟩
    · rw [hdef, append_assoc, ← heq]
      exact hsplit.symm
    · rcases mem_append.1 ho with ho | ho
      · exact ⟨v, by simp, by simpa using mem_takeWhile_imp ho⟩
      · obtain ⟨u, hu, hlt⟩ := hskipped o ho
        exact ⟨u, mem_cons_of_mem v hu, hlt⟩
    · rcases mem_cons.1 hu with rfl | hu
      · exact hge o (heq ▸ mem_append_right skipped ho)
      · exact hnext o ho u hu

/-- **A list of places** as the loops keep it. -/
structure Places (expression : List WChar) (places : List ℕ) : Prop where
  sorted : places.Pairwise (· ≤ ·)
  isPlace : ∀ o ∈ places, IsPlace expression o
  /-- The end is there as its own place. -/
  atEnd : ∀ o ∈ places, (o + 1) / 4 = expression.length → 4 * expression.length ∈ places

theorem mem_chainFrom : v ∈ k.chainFrom o ↔ (o + 1) / 4 < k.expression.length ∧
    v ∈ k.chain ((o + 1) / 4) (k.expression.drop ((o + 1) / 4)) := by
  rw [chainFrom]
  split <;> simp_all

/-- The chain from a place keeps a list of places in order. -/
theorem Places.append_chainFrom {new : List ℕ} (h : Places k.expression new)
    (hplace : IsPlace k.expression o) (ho : ∀ v ∈ new, v ≤ o) : Places k.expression (new ++ k.chainFrom o) := by
  refine ⟨pairwise_append.2 ⟨h.sorted, ?_, fun u hu v hv => ?_⟩, fun u hu => ?_,
    fun u hu hend => ?_⟩
  · rw [chainFrom]
    split
    · exact pairwise_chain ..
    · exact .nil
  · have hle := le_of_mem_chain (mem_chainFrom.1 hv).2
    have hle' := ho u hu
    have hmod := hplace.mod
    omega
  · rcases mem_append.1 hu with hu | hu
    · exact h.isPlace u hu
    · obtain ⟨hlt, hu⟩ := mem_chainFrom.1 hu
      exact isPlace_of_mem_chain rfl (length_drop_add hlt.le) hu
  · rcases mem_append.1 hu with hu | hu
    · exact mem_append_left _ (h.atEnd u hu hend)
    · obtain ⟨hlt, hu⟩ := mem_chainFrom.1 hu
      refine mem_append_right _ (mem_chainFrom.2 ⟨hlt, ?_⟩)
      have hmem := end_mem_chain hu (by rw [length_drop_add hlt.le]; exact hend)
      rwa [length_drop_add hlt.le] at hmem

/-- **The loop over the old list** notes the chains from all its places, although it skips
some. -/
theorem placeLoop_run (hn : k.expression.length < 0x4000) (hk : k.Plain) {old : List ℕ} {fuel : ℕ}
    (hfuel : old.length < fuel) (hold : old.Pairwise (· ≤ ·))
    (hplace : ∀ o ∈ old, IsPlace k.expression o) (hb : Sized k.expression b)
    (hnew : Places k.expression b.entries) (hle : ∀ o ∈ old, ∀ v ∈ b.entries, v ≤ o)
    (hlen : ∀ o ∈ old, (o + 1) / 4 < k.expression.length → b.entries.length ≤ 2 * ((o + 1) / 4)) :
    ∃ b', runLoop k.placeTurn fuel (old, b) = .ok b' ∧ Sized k.expression b' ∧
      Places k.expression b'.entries ∧
      ∀ v, v ∈ b'.entries ↔ v ∈ b.entries ∨ ∃ o ∈ old, v ∈ k.chainFrom o := by
  induction fuel generalizing old b with
  | zero => omega
  | succ fuel ih =>
    rcases old with - | ⟨o, old⟩
    · exact ⟨b, runLoop_leave fuel rfl, hb, hnew, by simp⟩
    · obtain ⟨hfirst, hold'⟩ := pairwise_cons.1 hold
      have ho : ∀ v ∈ b.entries, v ≤ o := hle o (by simp)
      obtain ⟨b1, hparse, hentries, hb1⟩ := parseFrom_spec hn hb (hlen o (by simp))
      have hnew1 : Places k.expression b1.entries :=
        hentries ▸ hnew.append_chainFrom (hplace o (by simp)) ho
      obtain ⟨skipped, heq, hskipped, hnext⟩ := skipOld_spec b1.entries hold'
      set old1 := skipOld b1.entries old
      have hmem : ∀ u ∈ old1, u ∈ old := fun u hu => heq ▸ mem_append_right skipped hu
      have hlen1 : ∀ u ∈ old1, (u + 1) / 4 < k.expression.length →
          b1.entries.length ≤ 2 * ((u + 1) / 4) := by
        intro u hu hlt
        have hou := hfirst u (hmem u hu)
        have hlen0 := hlen o (by simp) (by omega)
        rw [hentries, length_append]
        by_cases hnil : k.chainFrom o = []
        · rw [hnil, length_nil]
          omega
        · have hlt' : (o + 1) / 4 < k.expression.length := by omega
          rw [chainFrom, if_pos hlt'] at hnil ⊢
          have hcount := length_chain (length_drop_add hlt'.le) hlt (fun v hv => ?_) hnil
          · omega
          · have hv' := hnext u hu v
              (hentries ▸ mem_append_right _ (mem_chainFrom.2 ⟨hlt', hv⟩))
            omega
      have hagain : k.placeTurn (o :: old, b) = .again (old1, b1) := by
        simp only [placeTurn, hparse]
        rfl
      have hlength : old1.length ≤ old.length := by
        rw [heq, length_append]
        omega
      obtain ⟨b', hrun, hb', hnew', hchains⟩ := ih (b := b1)
        (by rw [length_cons] at hfuel; omega)
        ((heq ▸ hold' : (skipped ++ old1).Pairwise (· ≤ ·)) |> pairwise_append.1).2.1
        (fun u hu => hplace u (mem_cons_of_mem o (hmem u hu))) hb1 hnew1 hnext hlen1
      refine ⟨b', (runLoop_again fuel hagain).trans hrun, hb', hnew', fun v => ?_⟩
      rw [hchains, hentries, mem_append]
      constructor
      · rintro ((hv | hv) | ⟨u, hu, hv⟩)
        · exact .inl hv
        · exact .inr ⟨o, by simp, hv⟩
        · exact .inr ⟨u, mem_cons_of_mem o (hmem u hu), hv⟩
      · rintro (hv | ⟨u, hu, hv⟩)
        · exact .inl (.inl hv)
        · rcases mem_cons.1 hu with rfl | hu
          · exact .inl (.inr hv)
          · rw [heq] at hu
            rcases mem_append.1 hu with hu | hu
            · -- a place that was skipped has its chain in that of the first place
              refine .inl (.inr ?_)
              obtain ⟨w, hw, hlt⟩ := hskipped u hu
              have huold : u ∈ old := heq ▸ mem_append_left old1 hu
              have hou := hfirst u huold
              rw [hentries] at hw
              rcases mem_append.1 hw with hw | hw
              · have hwo := ho w hw
                omega
              · obtain ⟨ho', hw⟩ := mem_chainFrom.1 hw
                obtain ⟨hu', hv⟩ := mem_chainFrom.1 hv
                exact mem_chainFrom.2 ⟨ho', chain_subset hk rfl (length_drop_add ho'.le)
                  (hplace u (mem_cons_of_mem o huold)) (by omega) hu' hw hlt hv⟩
            · exact .inr ⟨u, hu, hv⟩

theorem placeLoop_spec (hn : k.expression.length < 0x4000) (hk : k.Plain)
    (hb : Sized k.expression b) (hplaces : Places k.expression b.entries) :
    ∃ b', k.placeLoop b.entries b = .ok b' ∧ Sized k.expression b' ∧
      Places k.expression b'.entries ∧
      ∀ v, v ∈ b'.entries ↔ ∃ o ∈ b.entries, v ∈ k.chainFrom o := by
  obtain ⟨b', hrun, hb', hnew, hchains⟩ := placeLoop_run (b := { b with entries := [] }) hn hk
    (Nat.lt_succ_self b.entries.length) hplaces.sorted hplaces.isPlace hb
    ⟨.nil, by simp, by simp⟩ (by simp) (by simp)
  exact ⟨b', hrun, hb', hnew, by simpa using hchains⟩

end NameContext

end Windivs

import Windivs.Lib.FirstMatch
import Windivs.Se.TokenAdjust

/-!
# The effect of adjusting privileges, against what was asked for

`Windivs.AdjustedExactly` says what adjusting is for: the privileges asked to be
removed are gone, the others have their enabled bit as asked for and are otherwise as
they were, the flags still agree with them, and the buffer of the caller holds what
is needed to undo the changes.

`SepAdjustPrivileges` keeps this up to one thing. A privilege may be in the token
although its attributes say `SE_PRIVILEGE_REMOVED`: nothing that creates a token
looks at that bit. It is carried over into the new attributes, so any change of such
a privilege removes it, and asking for its removal alone is not seen as a change.
`Windivs.adjustedExactly_iff` says that nothing else goes wrong.
-/

namespace Windivs

open List

variable {flags x : Ulong} {l : List LuidAndAttributes} {p : LuidAndAttributes}

/-! ### What was asked for -/

/-- The attributes asked for a privilege, if any are. -/
def asks (rq : AdjustRequest) (luid : Luid) : Option Ulong :=
  if rq.disableAllPrivileges then some 0
  else (rq.newState.find? fun x => luid == x.luid).map (·.attributes)

/-- The privilege is asked to be removed. -/
def asksRemoval (rq : AdjustRequest) (p : LuidAndAttributes) : Bool :=
  (asks rq p.luid).any fun x => x &&& sePrivilegeRemoved != 0

/-- The enabled bit of one word, all others of another. -/
def withEnabled (x old : Ulong) : Ulong := x &&& sePrivilegeEnabled ||| old &&& ~~~sePrivilegeEnabled

/-- The privilege with its enabled bit as asked for. -/
def requested (rq : AdjustRequest) (p : LuidAndAttributes) : LuidAndAttributes :=
  match asks rq p.luid with
  | none => p
  | some x => { p with attributes := withEnabled x p.attributes }

/-- What is asked to become of a privilege. -/
def asked (rq : AdjustRequest) (p : LuidAndAttributes) : Option LuidAndAttributes :=
  if asksRemoval rq p then none else some (requested rq p)

/-- The flags of a token agree with its enabled privileges. -/
def FlagsAgree (flags : Ulong) (l : List LuidAndAttributes) : Prop :=
  ∀ luid flag, privilegeFlag luid = some flag → (flags &&& flag ≠ 0 ↔ HasEnabled l luid)

/-- The privileges a caller finds in its buffer. -/
def TokenPrivileges.saved (b : TokenPrivileges) : List LuidAndAttributes :=
  (range b.privilegeCount).map b.privileges

/-- **What adjusting promises**: `r` is the result of applying the changes, `dry` that
of counting them. -/
structure AdjustedExactly (rq : AdjustRequest) (t : Token) (previousState : Option TokenPrivileges)
    (r dry : AdjustResult) : Prop where
  privileges : r.token.privileges.list = t.privileges.list.filterMap (asked rq)
  flags : FlagsAgree r.token.tokenFlags r.token.privileges.list
  status : r.status = .notAllAssigned ↔ rq.disableAllPrivileges = false ∧
    ∃ x ∈ rq.newState, ∀ p ∈ t.privileges.list, p.luid ≠ x.luid
  previous : ∀ b, previousState = some b → ∃ b', r.previousState = some b' ∧
    b'.saved = t.privileges.list.filter fun p => requested rq p != p && !asksRemoval rq p
  counted : ∀ b b', previousState = some b → r.previousState = some b' →
    b'.privilegeCount ≤ dry.changedPrivileges ∧
      ∀ k, dry.changedPrivileges ≤ k → b'.privileges k = b.privileges k
  restored : r.token.privileges.list.map (·.luid) = t.privileges.list.map (·.luid) →
    ∀ b', r.previousState = some b' → ∀ previousState',
      ∃ r', (∀ n > r.token.privileges.count,
        sepAdjustPrivileges n ⟨false, b'.saved⟩ true previousState' r.token = .ok r') ∧
          r'.token.privileges = t.privileges

/-! ### Attributes, bit by bit -/

section Bits

variable {old : Ulong}

theorem getLsbD_sePrivilegeEnabled (i : ℕ) : sePrivilegeEnabled.getLsbD i = decide (1 = i) := by
  rw [show sePrivilegeEnabled = BitVec.twoPow 32 1 by decide]
  simp

theorem getLsbD_sePrivilegeRemoved (i : ℕ) : sePrivilegeRemoved.getLsbD i = decide (2 = i) := by
  rw [show sePrivilegeRemoved = BitVec.twoPow 32 2 by decide]
  simp

theorem and_enabled_ne_zero_iff : x &&& sePrivilegeEnabled ≠ 0 ↔ x.getLsbD 1 = true := by
  rw [and_ne_zero_iff]
  simp only [getLsbD_sePrivilegeEnabled, decide_eq_true_eq, exists_eq_right']

theorem and_removed_ne_zero_iff : x &&& sePrivilegeRemoved ≠ 0 ↔ x.getLsbD 2 = true := by
  rw [and_ne_zero_iff]
  simp only [getLsbD_sePrivilegeRemoved, decide_eq_true_eq, exists_eq_right']

/-- The enabled bits are the same. -/
theorem and_enabled_eq_iff :
    x &&& sePrivilegeEnabled = old &&& sePrivilegeEnabled ↔ x.getLsbD 1 = old.getLsbD 1 := by
  constructor
  · intro h
    have hbit := congrArg (fun w : Ulong => w.getLsbD 1) h
    simpa only [BitVec.getLsbD_and, getLsbD_sePrivilegeEnabled, decide_true, Bool.and_true]
      using hbit
  · intro h
    refine BitVec.eq_of_getLsbD_eq fun i _ => ?_
    rw [BitVec.getLsbD_and, BitVec.getLsbD_and, getLsbD_sePrivilegeEnabled]
    by_cases hi : 1 = i
    · rw [← hi, h]
    · simp [hi]

/-- The attributes the code computes from those asked for and the old ones. -/
def adjustAttributes (x old : Ulong) : Ulong :=
  x &&& (sePrivilegeEnabled ||| sePrivilegeRemoved) ||| old &&& ~~~sePrivilegeEnabled

theorem getLsbD_adjustAttributes (i : ℕ) :
    (adjustAttributes x old).getLsbD i =
      if 1 = i then x.getLsbD i else if 2 = i then x.getLsbD i || old.getLsbD i
      else old.getLsbD i := by
  rw [adjustAttributes, BitVec.getLsbD_or, getLsbD_and_not, BitVec.getLsbD_and, BitVec.getLsbD_or,
    getLsbD_sePrivilegeEnabled, getLsbD_sePrivilegeRemoved]
  by_cases h₁ : 1 = i
  · simp [h₁]
  · by_cases h₂ : 2 = i <;> simp [h₁, h₂]

theorem getLsbD_withEnabled (i : ℕ) :
    (withEnabled x old).getLsbD i = if 1 = i then x.getLsbD i else old.getLsbD i := by
  rw [withEnabled, BitVec.getLsbD_or, getLsbD_and_not, BitVec.getLsbD_and,
    getLsbD_sePrivilegeEnabled]
  by_cases h₁ : 1 = i <;> simp [h₁]

/-- The code sees no change if the enabled bit is as asked for, and removal is not
asked for or the old attributes say so already. -/
theorem adjustAttributes_eq_iff :
    old = adjustAttributes x old ↔
      x.getLsbD 1 = old.getLsbD 1 ∧ (x.getLsbD 2 = true → old.getLsbD 2 = true) := by
  constructor
  · intro h
    have h₁ := congrArg (fun w : Ulong => w.getLsbD 1) h
    have h₂ := congrArg (fun w : Ulong => w.getLsbD 2) h
    simp only [getLsbD_adjustAttributes] at h₁ h₂
    refine ⟨h₁.symm, fun hx => ?_⟩
    simpa [hx] using h₂
  · rintro ⟨h₁, h₂⟩
    refine BitVec.eq_of_getLsbD_eq fun i _ => ?_
    rw [getLsbD_adjustAttributes]
    split
    · rename_i hi
      rw [← hi, h₁]
    split
    · rename_i hi
      subst hi
      cases hx : x.getLsbD 2 with
      | false => rw [Bool.false_or]
      | true => rw [h₂ hx, Bool.true_or]
    · rfl

theorem adjustAttributes_and_removed :
    adjustAttributes x old &&& sePrivilegeRemoved ≠ 0 ↔
      x.getLsbD 2 = true ∨ old.getLsbD 2 = true := by
  rw [and_removed_ne_zero_iff, getLsbD_adjustAttributes]
  simp

theorem withEnabled_eq_self_iff : withEnabled x old = old ↔ x.getLsbD 1 = old.getLsbD 1 := by
  constructor
  · intro h
    have hbit := congrArg (fun w : Ulong => w.getLsbD 1) h
    simpa only [getLsbD_withEnabled, if_true] using hbit
  · intro h
    refine BitVec.eq_of_getLsbD_eq fun i _ => ?_
    rw [getLsbD_withEnabled]
    split
    · rename_i hi
      rw [← hi, h]
    · rfl

/-- Where removal is not asked for, the code computes what was asked for. -/
theorem adjustAttributes_eq_withEnabled (h : x.getLsbD 2 = false) :
    adjustAttributes x old = withEnabled x old := by
  refine BitVec.eq_of_getLsbD_eq fun i _ => ?_
  rw [getLsbD_adjustAttributes, getLsbD_withEnabled]
  split
  · rfl
  split
  · rename_i hi
    rw [← hi, h, Bool.false_or]
  · rfl

/-- Asking for the old attributes undoes what was asked for. -/
theorem adjustAttributes_withEnabled : adjustAttributes old (withEnabled x old) = old := by
  refine BitVec.eq_of_getLsbD_eq fun i _ => ?_
  rw [getLsbD_adjustAttributes, getLsbD_withEnabled]
  split
  · rfl
  split
  · rw [Bool.or_self]
  · rfl

end Bits

/-- `NewAttributes` in terms of what is asked for. -/
theorem newAttributes_eq (rq : AdjustRequest) (p : LuidAndAttributes) :
    newAttributes rq p = (asks rq p.luid).map fun x => adjustAttributes x p.attributes := by
  rw [newAttributes, asks]
  split
  · have hzero : adjustAttributes 0 p.attributes = p.attributes &&& ~~~sePrivilegeEnabled :=
      (congrArg (· ||| _) BitVec.zero_and).trans BitVec.zero_or
    rw [Option.map_some, hzero]
  · rw [Option.map_map]
    rfl

/-! ### One privilege -/

/-- A privilege with the bit `SE_PRIVILEGE_REMOVED` is treated as asked for: nothing is
asked, or removal is asked for exactly if the enabled bit is to change too. -/
def MarkHarmless (rq : AdjustRequest) (p : LuidAndAttributes) : Prop :=
  p.attributes &&& sePrivilegeRemoved ≠ 0 → ∀ x, asks rq p.luid = some x →
    (x &&& sePrivilegeRemoved ≠ 0 ↔ x &&& sePrivilegeEnabled ≠ p.attributes &&& sePrivilegeEnabled)

section One

variable {rq : AdjustRequest} {q : LuidAndAttributes}

theorem adjusted_of_asks (h : asks rq p.luid = some x) :
    adjusted rq p =
      if p.attributes = adjustAttributes x p.attributes then some p
      else if adjustAttributes x p.attributes &&& sePrivilegeRemoved ≠ 0 then none
      else some { p with attributes := adjustAttributes x p.attributes } := by
  rw [adjusted, newAttributes_eq, h, Option.map_some]

theorem adjusted_of_asks_none (h : asks rq p.luid = none) : adjusted rq p = some p := by
  rw [adjusted, newAttributes_eq, h, Option.map_none]

theorem asked_of_asks (h : asks rq p.luid = some x) :
    asked rq p =
      if x.getLsbD 2 then none else some { p with attributes := withEnabled x p.attributes } := by
  have hremoval : asksRemoval rq p = x.getLsbD 2 := by
    rw [asksRemoval, h, Option.any_some, Bool.eq_iff_iff, bne_iff_ne, ← and_removed_ne_zero_iff]
  rw [asked, hremoval, requested, h]

theorem markHarmless_iff (h : asks rq p.luid = some x) :
    MarkHarmless rq p ↔ (p.attributes.getLsbD 2 = true →
      (x.getLsbD 2 = true ↔ ¬x.getLsbD 1 = p.attributes.getLsbD 1)) := by
  rw [MarkHarmless, h, and_removed_ne_zero_iff]
  refine imp_congr_right fun _ => ?_
  simp only [Option.some.injEq, forall_eq', and_removed_ne_zero_iff]
  rw [ne_eq, and_enabled_eq_iff]

/-- **The code does to a privilege what was asked for**, unless it is marked. -/
theorem adjusted_eq_asked_iff : adjusted rq p = asked rq p ↔ MarkHarmless rq p := by
  cases hasks : asks rq p.luid with
  | none =>
    refine iff_of_true ?_ fun _ x hx => ?_
    · rw [adjusted_of_asks_none hasks, asked, asksRemoval, requested, hasks]
      rfl
    · rw [hasks] at hx
      cases hx
  | some x =>
    have hsame : p.attributes = adjustAttributes x p.attributes ↔ _ := adjustAttributes_eq_iff
    have hgone : adjustAttributes x p.attributes &&& sePrivilegeRemoved ≠ 0 ↔ _ :=
      adjustAttributes_and_removed
    rw [adjusted_of_asks hasks, asked_of_asks hasks, markHarmless_iff hasks]
    cases hold : p.attributes.getLsbD 2 with
    | false =>
      refine iff_of_true ?_ nofun
      cases hx : x.getLsbD 2 with
      | true =>
        have hne : ¬p.attributes = adjustAttributes x p.attributes := by
          intro heq
          rw [(hsame.mp heq).2 hx] at hold
          cases hold
        rw [if_neg hne, if_pos (hgone.mpr (.inl hx)), if_pos rfl]
      | false =>
        have hkept : ¬adjustAttributes x p.attributes &&& sePrivilegeRemoved ≠ 0 := by
          rw [hgone, hx, hold]
          decide
        rw [if_neg Bool.false_ne_true, ← adjustAttributes_eq_withEnabled hx]
        split
        · rename_i heq
          rw [← heq]
        · rfl
    | true =>
      -- a marked privilege is removed by every change, and only by a change
      rw [if_pos (hgone.mpr (.inr hold))]
      by_cases henabled : x.getLsbD 1 = p.attributes.getLsbD 1
      · rw [if_pos (hsame.mpr ⟨henabled, fun _ => hold⟩), withEnabled_eq_self_iff.mpr henabled]
        cases x.getLsbD 2 <;> simp only [henabled] <;> simp
      · rw [if_neg fun heq => henabled (hsame.mp heq).1]
        cases x.getLsbD 2 <;> simp only [henabled] <;> simp

/-- The code changes a privilege exactly if it does not keep it as it is. -/
theorem changed_iff : changed rq p = true ↔ adjusted rq p ≠ some p := by
  rw [changed, adjusted]
  cases newAttributes rq p with
  | none => simp
  | some a =>
    rw [Option.any_some, bne_iff_ne]
    dsimp only
    by_cases heq : p.attributes = a
    · simp [heq]
    · rw [if_neg heq]
      refine iff_of_true heq ?_
      split
      · intro h
        cases h
      · intro h
        have hattributes : a = p.attributes :=
          congrArg LuidAndAttributes.attributes (Option.some.inj h)
        exact heq hattributes.symm

/-- What stays in the buffer is what was asked to be changed and not removed. -/
theorem saves_eq (h : MarkHarmless rq p) :
    saves rq p = (requested rq p != p && !asksRemoval rq p) := by
  rw [Bool.eq_iff_iff, saves, Bool.and_eq_true, changed_iff, adjusted_eq_asked_iff.mpr h, asked]
  cases asksRemoval rq p <;> simp

theorem luid_of_adjusted (h : adjusted rq p = some q) : q.luid = p.luid := by
  rw [adjusted] at h
  split at h
  · cases h
    rfl
  split at h
  · cases h
    rfl
  split at h
  · cases h
  · cases h
    rfl

theorem luid_of_asked (h : asked rq p = some q) : q.luid = p.luid := by
  rw [asked] at h
  split at h
  · cases h
  · cases h
    rw [requested]
    split <;> rfl

/-- **One change is undone** by asking for the old attributes. -/
theorem adjusted_undo {rq' : AdjustRequest} (h : adjusted rq p = some q) (hchanged : q ≠ p)
    (hasks : asks rq' p.luid = some p.attributes) : adjusted rq' q = some p := by
  cases hx : asks rq p.luid with
  | none =>
    rw [adjusted_of_asks_none hx, Option.some.injEq] at h
    exact absurd h.symm hchanged
  | some x =>
    rw [adjusted_of_asks hx] at h
    split at h
    · cases h
      exact absurd rfl hchanged
    rename_i hne
    split at h
    · cases h
    rename_i hkept
    cases h
    rw [adjustAttributes_and_removed, not_or, Bool.not_eq_true, Bool.not_eq_true] at hkept
    have hattributes : adjustAttributes p.attributes (adjustAttributes x p.attributes) =
        p.attributes := by
      rw [adjustAttributes_eq_withEnabled hkept.1, adjustAttributes_withEnabled]
    have hmark : ¬p.attributes &&& sePrivilegeRemoved ≠ 0 := by
      rw [and_removed_ne_zero_iff, hkept.2]
      decide
    rw [adjusted, newAttributes_eq]
    rw [hasks, Option.map_some, hattributes]
    dsimp only
    rw [if_neg (Ne.symm hne), if_neg hmark]

end One

/-! ### Flags -/

section Flags

variable {rq : AdjustRequest} {pre rest : List LuidAndAttributes} {p' : LuidAndAttributes}

theorem hasEnabled_append_cons {luid : Luid} :
    HasEnabled (pre ++ p :: rest) luid ↔
      (p.luid = luid ∧ p.attributes &&& sePrivilegeEnabled ≠ 0) ∨ HasEnabled (pre ++ rest) luid := by
  simp only [HasEnabled, mem_append, mem_cons, or_left_comm (b := _ = p), or_and_right,
    exists_or, exists_eq_left]

/-- No other privilege has the same identifier. -/
theorem not_hasEnabled_of_nodup (h : ((pre ++ p :: rest).map (·.luid)).Nodup) :
    ¬HasEnabled (pre ++ rest) p.luid := by
  rintro ⟨q, hq, hluid, -⟩
  have hperm : ((pre ++ p :: rest).map (·.luid)).Perm (p.luid :: (pre ++ rest).map (·.luid)) :=
    perm_middle.map _
  refine (nodup_cons.mp (hperm.nodup_iff.mp h)).1 ?_
  rw [← hluid]
  exact mem_map_of_mem hq

/-- Looking at a privilege after it was changed keeps the flags in agreement. -/
theorem flagsAgree_updateFlags {l l' : List LuidAndAttributes} (h : FlagsAgree flags l)
    (hother : ∀ luid, p'.luid ≠ luid → (HasEnabled l' luid ↔ HasEnabled l luid))
    (hself : HasEnabled l' p'.luid ↔ p'.attributes &&& sePrivilegeEnabled ≠ 0) :
    FlagsAgree (updateFlags flags p') l' := by
  intro luid flag hflag
  rw [updateFlags_and hflag]
  by_cases hluid : p'.luid = luid
  · rw [if_pos hluid, ← hluid, hself]
    obtain ⟨-, -, -, -, hne⟩ := privilegeFlag_and_others hflag
    split
    · rename_i henabled
      exact iff_of_true hne henabled
    · rename_i hdisabled
      exact iff_of_false (fun hc => hc rfl) hdisabled
  · rw [if_neg hluid, hother luid hluid]
    exact h luid flag hflag

theorem flagsAgree_change (hnodup : ((pre ++ p :: rest).map (·.luid)).Nodup)
    (hluid : p'.luid = p.luid) (h : FlagsAgree flags (pre ++ p :: rest)) :
    FlagsAgree (updateFlags flags p') (pre ++ p' :: rest) := by
  have hno := not_hasEnabled_of_nodup hnodup
  refine flagsAgree_updateFlags h (fun luid hne => ?_) ?_
  · rw [hasEnabled_append_cons, hasEnabled_append_cons]
    simp only [hne, hluid ▸ hne, false_and]
  · rw [hasEnabled_append_cons, hluid, or_iff_left hno, and_iff_right rfl]

theorem flagsAgree_remove (hnodup : ((pre ++ p :: rest).map (·.luid)).Nodup)
    (h : FlagsAgree flags (pre ++ p :: rest)) :
    FlagsAgree (updateFlags flags p.disabled) (pre ++ rest) := by
  have hdisabled : ¬p.disabled.attributes &&& sePrivilegeEnabled ≠ 0 := by
    rw [and_enabled_ne_zero_iff, LuidAndAttributes.disabled, getLsbD_and_not,
      getLsbD_sePrivilegeEnabled]
    simp
  have hno : ¬HasEnabled (pre ++ rest) p.disabled.luid :=
    not_hasEnabled_of_nodup (p := p) hnodup
  refine flagsAgree_updateFlags h (fun luid hne => ?_) (iff_of_false hno hdisabled)
  rw [hasEnabled_append_cons]
  exact (or_iff_right fun hc => hne hc.1).symm

/-- **The flags agree throughout the pass**: with what was passed as it is now, and
what lies ahead as it was. -/
theorem foldl_flags (rq : AdjustRequest) (pre l : List LuidAndAttributes) (s : AdjustState)
    (hnodup : ((pre ++ l).map (·.luid)).Nodup) (h : FlagsAgree s.token.tokenFlags (pre ++ l)) :
    FlagsAgree (l.foldl (adjustStep rq true) s).token.tokenFlags
      (pre ++ l.filterMap (adjusted rq)) := by
  induction l generalizing pre s with
  | nil => exact h
  | cons p l ih =>
    rw [foldl_cons]
    rcases adjustStep_cases rq s p with ⟨-, ha, k, hs⟩ | ⟨-, ha, hs⟩ | ⟨p', -, ha, hluid, hs⟩
    · rw [hs, filterMap_cons_some ha, append_cons]
      rw [append_cons] at hnodup h
      exact ih (pre ++ [p]) _ hnodup h
    · rw [hs, filterMap_cons_none ha]
      refine ih pre _ (hnodup.sublist ?_) (flagsAgree_remove hnodup h)
      exact ((sublist_cons_self p l).append_left pre).map _
    · have hnodup' : ((pre ++ p' :: l).map (·.luid)).Nodup := by
        rw [map_append, map_cons] at hnodup ⊢
        rwa [hluid]
      have hagree := flagsAgree_change hnodup hluid h
      rw [hs, filterMap_cons_some ha, append_cons]
      rw [append_cons] at hnodup' hagree
      exact ih (pre ++ [p']) _ hnodup' hagree

end Flags

/-! ### The status -/

section Status

variable {rq : AdjustRequest} {t : Token}

/-- Of two lists without repetitions, one has an element the other does not have if
and only if the common part is shorter. -/
theorem length_filter_mem_lt_iff {α : Type*} [DecidableEq α] {l m : List α} (hl : l.Nodup)
    (hm : m.Nodup) : (l.filter (· ∈ m)).length < m.length ↔ ∃ x ∈ m, x ∉ l := by
  have hcommon : (l.filter (· ∈ m)).Subperm m := by
    refine (hl.filter _).subperm fun x hx => ?_
    simpa using (mem_filter.mp hx).2
  constructor
  · intro hlt
    by_contra hall
    push Not at hall
    have hsub : m.Subperm (l.filter (· ∈ m)) :=
      hm.subperm fun x hx => mem_filter.mpr ⟨hall x hx, by simpa using hx⟩
    exact absurd hsub.length_le (by omega)
  · rintro ⟨x, hx, hxl⟩
    by_contra hge
    have hperm := hcommon.perm_of_length_le (by omega)
    exact hxl (mem_filter.mp (hperm.mem_iff.mpr hx)).1

/-- The code finds the privileges that are in the list. -/
theorem isSome_newAttributes (h : rq.disableAllPrivileges = false) (p : LuidAndAttributes) :
    (newAttributes rq p).isSome = decide (p.luid ∈ rq.newState.map (·.luid)) := by
  rw [Bool.eq_iff_iff, newAttributes, h, if_neg Bool.false_ne_true, Option.isSome_map,
    find?_isSome, decide_eq_true_eq, mem_map]
  refine exists_congr fun x => and_congr_right fun _ => ?_
  rw [beq_iff_eq, eq_comm]

/-- **The status**: counting the privileges that are found says whether some of the
list were not. -/
theorem adjust_status_iff (s : AdjustState)
    (hs : s.privilegeCount = t.privileges.list.countP fun p => (newAttributes rq p).isSome)
    (htoken : (t.privileges.list.map (·.luid)).Nodup)
    (hlist : rq.disableAllPrivileges = true ∨ (rq.newState.map (·.luid)).Nodup) :
    (adjustResult rq s).status = .notAllAssigned ↔ rq.disableAllPrivileges = false ∧
      ∃ x ∈ rq.newState, ∀ p ∈ t.privileges.list, p.luid ≠ x.luid := by
  rw [adjustResult]
  cases hall : rq.disableAllPrivileges with
  | true => simp
  | false =>
    rw [hall, or_iff_right Bool.false_ne_true] at hlist
    have hcount : s.privilegeCount =
        ((t.privileges.list.map (·.luid)).filter (· ∈ rq.newState.map (·.luid))).length := by
      rw [hs, filter_map, length_map, countP_eq_length_filter]
      congr 2
      funext p
      exact isSome_newAttributes hall p
    have hiff := length_filter_mem_lt_iff htoken hlist
    rw [← hcount, length_map] at hiff
    simp only [mem_map, exists_exists_and_eq_and, not_exists, not_and] at hiff
    simp only [Bool.not_false, Bool.true_and, true_and, decide_eq_true_eq, ← ne_eq] at hiff ⊢
    rw [← hiff]
    split <;> simp_all

end Status

/-! ### The whole -/

section Whole

variable {rq : AdjustRequest}

/-- In a list without repeated identifiers an entry is found by its own. -/
theorem find?_luid_eq_some (h : (l.map (·.luid)).Nodup) (hp : p ∈ l) :
    (l.find? fun x => p.luid == x.luid) = some p := by
  cases hfind : l.find? fun x => p.luid == x.luid with
  | none =>
    have hno := find?_eq_none.mp hfind p hp
    simp at hno
  | some q =>
    have hluid : p.luid = q.luid := by simpa using find?_some hfind
    rw [inj_on_of_nodup_map h hp (mem_of_find?_eq_some hfind) hluid]

/-- Two ways to treat each entry, each keeping its identifier, agree on a list if and
only if they do on each entry. -/
theorem filterMap_eq_iff {f g : LuidAndAttributes → Option LuidAndAttributes}
    (h : (l.map (·.luid)).Nodup) (hf : ∀ p q, f p = some q → q.luid = p.luid)
    (hg : ∀ p q, g p = some q → q.luid = p.luid) :
    l.filterMap f = l.filterMap g ↔ ∀ p ∈ l, f p = g p := by
  have hmem : ∀ f : LuidAndAttributes → Option LuidAndAttributes,
      (∀ p q, f p = some q → q.luid = p.luid) → ∀ p ∈ l, ∀ q, q.luid = p.luid →
        (q ∈ l.filterMap f ↔ f p = some q) := by
    intro f hf p hp q hluid
    rw [mem_filterMap]
    constructor
    · rintro ⟨p', hp', hq⟩
      rwa [inj_on_of_nodup_map h hp hp' (hluid.symm.trans (hf p' q hq))]
    · exact fun hq => ⟨p, hp, hq⟩
  constructor
  · intro heq p hp
    refine Option.ext fun q => ⟨fun hq => ?_, fun hq => ?_⟩
    · have hluid := hf p q hq
      rw [← hmem g hg p hp q hluid, ← heq]
      exact (hmem f hf p hp q hluid).mpr hq
    · have hluid := hg p q hq
      rw [← hmem f hf p hp q hluid, heq]
      exact (hmem g hg p hp q hluid).mpr hq
  · exact fun heq => filterMap_congr heq

/-- What the caller finds in the buffer is what was saved. -/
theorem saved_eq {m : ℕ → LuidAndAttributes} {b : TokenPrivileges} (h : Saved rq 0 l m b.privileges)
    (hcount : b.privilegeCount = l.countP (saves rq)) : b.saved = l.filter (saves rq) := by
  rw [TokenPrivileges.saved, hcount, countP_eq_length_filter]
  refine ext_getElem (by simp) fun k hk hk' => ?_
  rw [getElem_map, getElem_range, ← h.entries k _ (getElem?_eq_getElem hk'), Nat.zero_add]

/-- **Undoing**: if nothing was removed, the saved entries bring every privilege back. -/
theorem filterMap_undo (h : (l.map (·.luid)).Nodup)
    (hnone : (l.filterMap (adjusted rq)).map (·.luid) = l.map (·.luid)) :
    (l.filterMap (adjusted rq)).filterMap (adjusted ⟨false, l.filter (saves rq)⟩) = l := by
  have hkept : ∀ p ∈ l, ∃ q, adjusted rq p = some q := by
    intro p hp
    have hluid : p.luid ∈ (l.filterMap (adjusted rq)).map (·.luid) := by
      rw [hnone]
      exact mem_map_of_mem hp
    obtain ⟨q, hq, hqp⟩ := mem_map.mp hluid
    obtain ⟨p', hp', hadjusted⟩ := mem_filterMap.mp hq
    have hsame : p' = p :=
      inj_on_of_nodup_map h hp' hp ((luid_of_adjusted hadjusted).symm.trans hqp)
    exact ⟨q, hsame ▸ hadjusted⟩
  have hback : ∀ p ∈ l, (adjusted rq p).bind (adjusted ⟨false, l.filter (saves rq)⟩) = some p := by
    intro p hp
    obtain ⟨q, hq⟩ := hkept p hp
    rw [hq]
    by_cases hqp : q = p
    · subst hqp
      refine adjusted_of_asks_none ?_
      rw [asks, if_neg Bool.false_ne_true, Option.map_eq_none_iff, find?_eq_none]
      intro x hx hluid
      obtain ⟨hxl, hsaves⟩ := mem_filter.mp hx
      obtain rfl := inj_on_of_nodup_map h hp hxl (by simpa using hluid)
      rw [saves, Bool.and_eq_true, changed_iff] at hsaves
      exact hsaves.1 hq
    · have hsaves : saves rq p = true := by
        rw [saves, Bool.and_eq_true, changed_iff, hq]
        exact ⟨fun hc => hqp (Option.some.inj hc), rfl⟩
      have hnodup : ((l.filter (saves rq)).map (·.luid)).Nodup :=
        h.sublist (filter_sublist.map _)
      refine adjusted_undo hq hqp ?_
      rw [asks, if_neg Bool.false_ne_true,
        find?_luid_eq_some hnodup (mem_filter.mpr ⟨hp, hsaves⟩), Option.map_some]
  rw [filterMap_filterMap, filterMap_congr hback, filterMap_some]

/-- The buffer of the caller after the changes were made. -/
theorem adjustResult_previousState (rq : AdjustRequest) (t : Token)
    (previousState : Option TokenPrivileges) :
    ∃ f : TokenPrivileges → TokenPrivileges,
      (adjustResult rq (adjustPass rq true ⟨t, previousState, 0, 0, false⟩)).previousState =
          previousState.map f ∧
        ∀ b, Saved rq 0 t.privileges.list b.privileges (f b).privileges ∧
          (f b).privilegeCount = t.privileges.list.countP (saves rq) := by
  have hcount : (adjustPass rq true ⟨t, previousState, 0, 0, false⟩).changeCount =
      t.privileges.list.countP (saves rq) :=
    (foldl_changeCount _ _).trans (Nat.zero_add _)
  obtain ⟨f, hf, hsaved⟩ :=
    foldl_previousState rq ⟨t, previousState, 0, 0, false⟩ t.privileges.list
  have hprevious : (adjustPass rq true ⟨t, previousState, 0, 0, false⟩).previousState =
      previousState.map f := hf
  rw [adjustResult, hprevious, hcount, Option.map_map]
  exact ⟨_, rfl, fun b => ⟨hsaved b, rfl⟩⟩

/-- **Adjusting privileges.** Both runs come back, and what the changes amount to is
what was asked for exactly if no privilege that the token has although it is marked as
removed gets in the way. -/
theorem adjustedExactly_iff (rq : AdjustRequest) (t : Token)
    (previousState : Option TokenPrivileges) (htoken : (t.privileges.list.map (·.luid)).Nodup)
    (hlist : rq.disableAllPrivileges = true ∨ (rq.newState.map (·.luid)).Nodup)
    (hflags : FlagsAgree t.tokenFlags t.privileges.list) :
    ∃ r dry,
      (∀ n > t.privileges.count, sepAdjustPrivileges n rq true previousState t = .ok r) ∧
      (∀ n > t.privileges.count, sepAdjustPrivileges n rq false none t = .ok dry) ∧
      (AdjustedExactly rq t previousState r dry ↔
        ∀ p ∈ t.privileges.list, MarkHarmless rq p) := by
  refine ⟨_, _, fun n hn => sepAdjustPrivileges_eq rq true previousState t hn,
    fun n hn => sepAdjustPrivileges_eq rq false none t hn, ?_⟩
  have hprivileges : (adjustPass rq true ⟨t, previousState, 0, 0, false⟩).token.privileges.list =
      t.privileges.list.filterMap (adjusted rq) := adjustPass_list rq _
  have hharmless : (∀ p ∈ t.privileges.list, MarkHarmless rq p) ↔
      t.privileges.list.filterMap (adjusted rq) = t.privileges.list.filterMap (asked rq) := by
    rw [filterMap_eq_iff htoken (fun p q => luid_of_adjusted) fun p q => luid_of_asked]
    exact forall₂_congr fun p _ => adjusted_eq_asked_iff.symm
  have hdry : (adjustResult rq (adjustPass rq false ⟨t, none, 0, 0, false⟩)).changedPrivileges =
      t.privileges.list.countP (changed rq) :=
    (foldl_changeCount_dry _ _).trans (Nat.zero_add _)
  obtain ⟨f, hprevious, hsaved⟩ := adjustResult_previousState rq t previousState
  constructor
  · intro h
    rw [hharmless, ← hprivileges]
    exact h.privileges
  · intro h
    refine ⟨hprivileges.trans (hharmless.mp h), ?_, ?_, ?_, ?_, ?_⟩
    · have hagree := foldl_flags rq [] t.privileges.list
        ⟨t, previousState, 0, 0, false⟩ htoken hflags
      rw [← hprivileges] at hagree
      exact hagree
    · exact adjust_status_iff _ ((foldl_privilegeCount true _ _).trans (Nat.zero_add _)) htoken hlist
    · intro b hb
      refine ⟨f b, by rw [hprevious, hb, Option.map_some], ?_⟩
      rw [saved_eq (hsaved b).1 (hsaved b).2]
      exact filter_congr fun p hp => saves_eq (h p hp)
    · intro b b' hb hb'
      rw [hprevious, hb, Option.map_some, Option.some.injEq] at hb'
      subst hb'
      rw [(hsaved b).2, hdry]
      refine ⟨countP_mono_left fun p _ hp => ?_, fun k hk => (hsaved b).1.beyond k (by omega)⟩
      exact (Bool.and_eq_true _ _ ▸ hp).1
    · intro hnone b' hb' previousState'
      refine ⟨_, fun n hn => sepAdjustPrivileges_eq _ true previousState' _ hn,
        Counted.ext_list ?_⟩
      obtain ⟨b, hb, rfl⟩ := Option.map_eq_some_iff.mp (hprevious.symm.trans hb')
      rw [saved_eq (hsaved b).1 (hsaved b).2]
      refine (adjustPass_list _ _).trans ?_
      have hundo := filterMap_undo htoken ((congrArg _ hprivileges).symm.trans hnone)
      rw [← hprivileges] at hundo
      exact hundo

end Whole

/-! ### With and without the mark -/

/-- A token with the given privileges and flags. -/
def tokenWith (privileges : Counted LuidAndAttributes) (flags : Ulong) : Token where
  userAndGroups := ⟨[], Counted.length_nil_lt⟩
  restrictedSids := ⟨[], Counted.length_nil_lt⟩
  privileges := privileges
  tokenFlags := flags
  primaryGroup := seWorldSid
  defaultOwnerIndex := 0

/-- `SeChangeNotifyPrivilege` is enabled, `SeSecurityPrivilege` is not. -/
def notifyToken : Token :=
  tokenWith ⟨[⟨⟨23, 0⟩, 0x3⟩, ⟨seSecurityPrivilege, 0⟩], by decide⟩ tokenHasTraversePrivilege

/-- Disable the one, enable the other. -/
def swapRequest : AdjustRequest := ⟨false, [⟨seSecurityPrivilege, 0x2⟩, ⟨⟨23, 0⟩, 0⟩]⟩

/-- An empty buffer. -/
def emptyBuffer : TokenPrivileges := ⟨0, fun _ => ⟨⟨0, 0⟩, 0⟩⟩

/-- Flags are compared for the privileges that have one. -/
theorem flagsAgree_of_table
    (h : ∀ x ∈ flagTable, (flags &&& x.2 ≠ 0 ↔ HasEnabled l x.1)) : FlagsAgree flags l :=
  fun _ _ hflag => h _ (mem_flagTable hflag)

/-- Without marked privileges, adjusting keeps its promise. -/
theorem adjustedExactly_swap :
    ∃ r dry, (∀ n > 2, sepAdjustPrivileges n swapRequest true (some emptyBuffer) notifyToken = .ok r) ∧
      (∀ n > 2, sepAdjustPrivileges n swapRequest false none notifyToken = .ok dry) ∧
      AdjustedExactly swapRequest notifyToken (some emptyBuffer) r dry := by
  have hflags : FlagsAgree notifyToken.tokenFlags notifyToken.privileges.list := by
    refine flagsAgree_of_table ?_
    unfold HasEnabled
    decide
  have hmarks : ∀ p ∈ notifyToken.privileges.list, p.attributes &&& sePrivilegeRemoved = 0 := by
    decide
  obtain ⟨r, dry, hr, hdry, hiff⟩ :=
    adjustedExactly_iff swapRequest notifyToken (some emptyBuffer) (by decide) (by decide) hflags
  exact ⟨r, dry, hr, hdry, hiff.mpr fun p hp hmark => absurd (hmarks p hp) hmark⟩

/-- `SeSecurityPrivilege` is enabled, and marked as removed. -/
def markedToken : Token := tokenWith ⟨[⟨seSecurityPrivilege, 0x6⟩], by decide⟩ 0

/-- **A marked privilege is removed** by a request to disable it. -/
theorem disabling_removes_marked : let rq : AdjustRequest := ⟨false, [⟨seSecurityPrivilege, 0⟩]⟩
    (markedToken.privileges.list.map (·.luid)).Nodup ∧ (rq.newState.map (·.luid)).Nodup ∧
      FlagsAgree markedToken.tokenFlags markedToken.privileges.list ∧
      ∃ r, sepAdjustPrivileges 2 rq true none markedToken = .ok r ∧
        r.token.privileges.list = [] ∧ (∀ p ∈ markedToken.privileges.list, asksRemoval rq p = false) ∧
        ∀ dry, ¬AdjustedExactly rq markedToken none r dry := by
  intro rq
  refine ⟨by decide, by decide, flagsAgree_of_table ?_, _,
    sepAdjustPrivileges_eq rq true none markedToken (by decide), by decide, by decide, ?_⟩
  · unfold HasEnabled
    decide
  · intro dry h
    exact absurd h.privileges (by decide)

end Windivs

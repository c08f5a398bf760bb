import Windivs.Se.Token

/-!
# Adjusting the privileges of a token

`SepAdjustPrivileges` of `tokenadj.c`: privileges are enabled, disabled or removed as
a list asks, or all are disabled, and the old values of those that were changed are
handed back. The system call runs it twice, first to count the changes and size the
buffer, then to make them.

The loop takes entries out of the array it goes over and steps its index back, so it
is a sweep in place (`Windivs.Lib.Sweep`), and `Windivs.adjustLoop_eq` reduces it to
one pass from left to right: `Windivs.adjusted` says what becomes of a privilege and
`Windivs.adjustStep` what becomes of the rest. The variable `NewAttributes` of the
source is written in every turn that reads it, so it is local to the turn here.
-/

namespace Windivs

variable {l : List LuidAndAttributes} {m m' : ℕ → LuidAndAttributes} {n : ℕ} {p : LuidAndAttributes}

/-! ### The code -/

/-- `TOKEN_PRIVILEGES` of the caller: a count, and the memory behind it. -/
structure TokenPrivileges where
  privilegeCount : ℕ
  privileges : ℕ → LuidAndAttributes

/-- Write one entry. -/
def TokenPrivileges.put (b : TokenPrivileges) (i : ℕ) (p : LuidAndAttributes) : TokenPrivileges :=
  { b with privileges := Function.update b.privileges i p }

/-- What the caller of `SepAdjustPrivileges` asks for. -/
structure AdjustRequest where
  disableAllPrivileges : Bool
  newState : List LuidAndAttributes

/-- The variables of the loop. -/
structure AdjustState where
  token : Token
  previousState : Option TokenPrivileges
  privilegeCount : ℕ
  changeCount : ℕ
  changesMade : Bool

namespace AdjustState

/-- A privilege was found. -/
def found (s : AdjustState) : AdjustState := { s with privilegeCount := s.privilegeCount + 1 }

/-- `PreviousState->Privileges[ChangeCount] = p`, if the caller wants it. -/
def save (s : AdjustState) (p : LuidAndAttributes) : AdjustState :=
  { s with previousState := s.previousState.map fun b => b.put s.changeCount p }

/-- The token was changed. -/
def write (s : AdjustState) (t : Token) : AdjustState := { s with token := t, changesMade := true }

/-- `ChangeCount++`. -/
def counted (s : AdjustState) : AdjustState := { s with changeCount := s.changeCount + 1 }

end AdjustState

/-- `NewAttributes`, or `none` if the privilege is not in the list. -/
def newAttributes (rq : AdjustRequest) (p : LuidAndAttributes) : Option Ulong :=
  if rq.disableAllPrivileges then some (p.attributes &&& ~~~sePrivilegeEnabled)
  else (rq.newState.find? fun x => p.luid == x.luid).map fun x =>
    x.attributes &&& (sePrivilegeEnabled ||| sePrivilegeRemoved) |||
      p.attributes &&& ~~~sePrivilegeEnabled

/-- One turn of the loop over the privileges of the token. -/
def adjustTurn (rq : AdjustRequest) (applyChanges : Bool) (s : ℕ × AdjustState) :
    Turn (ℕ × AdjustState) (Run AdjustState) :=
  match s.2.token.privileges.list[s.1]? with
  | none => .leave (.ok s.2)
  | some p =>
    match newAttributes rq p with
    | none => .again (stepUp s.1, s.2)
    | some a =>
      if p.attributes = a then .again (stepUp s.1, s.2.found)
      else if !applyChanges then .again (stepUp s.1, (s.2.found.save p).counted)
      else if a &&& sePrivilegeRemoved ≠ 0 then
        -- the old value stays in the buffer, but the next one saved overwrites it
        match disableAndRemove s.2.token s.1 p.attributes with
        | .error fault => .leave (.error fault)
        | .ok t => .again (stepUp (stepDown s.1), (s.2.found.save p).write t)
      else
        match sepUpdateSinglePrivilegeFlagToken (setPrivilegeAttributes s.2.token s.1 a) s.1 with
        | .error fault => .leave (.error fault)
        | .ok t => .again (stepUp s.1, ((s.2.found.save p).write t).counted)

/-- What `SepAdjustPrivileges` returns and writes. -/
structure AdjustResult where
  status : NtStatus
  token : Token
  previousState : Option TokenPrivileges
  changedPrivileges : ℕ
  changesMade : Bool

/-- The end of `SepAdjustPrivileges`. -/
def adjustResult (rq : AdjustRequest) (s : AdjustState) : AdjustResult where
  status :=
    if !rq.disableAllPrivileges && s.privilegeCount < rq.newState.length then .notAllAssigned
    else .success
  token := s.token
  previousState := s.previousState.map fun b => { b with privilegeCount := s.changeCount }
  changedPrivileges := s.changeCount
  changesMade := s.changesMade

/-- `SepAdjustPrivileges`, with a budget of turns. -/
def sepAdjustPrivileges (fuel : ℕ) (rq : AdjustRequest) (applyChanges : Bool)
    (previousState : Option TokenPrivileges) (t : Token) : Run AdjustResult := do
  let s ← runLoop (adjustTurn rq applyChanges) fuel (0, ⟨t, previousState, 0, 0, false⟩)
  .ok (adjustResult rq s)

/-! ### The loop is one pass -/

/-- The token after looking at one privilege. -/
def Token.lookAt (t : Token) (p : LuidAndAttributes) : Token :=
  { t with tokenFlags := updateFlags t.tokenFlags p }

/-- The privilege, disabled. -/
def LuidAndAttributes.disabled (p : LuidAndAttributes) : LuidAndAttributes :=
  { p with attributes := p.attributes &&& ~~~sePrivilegeEnabled }

/-- The privilege needs to be changed. -/
def changed (rq : AdjustRequest) (p : LuidAndAttributes) : Bool :=
  (newAttributes rq p).any fun a => p.attributes != a

/-- What becomes of a privilege when the changes are made. -/
def adjusted (rq : AdjustRequest) (p : LuidAndAttributes) : Option LuidAndAttributes :=
  match newAttributes rq p with
  | none => some p
  | some a =>
    if p.attributes = a then some p
    else if a &&& sePrivilegeRemoved ≠ 0 then none
    else some { p with attributes := a }

/-- What one turn does to the variables of the loop, the array apart. -/
def adjustStep (rq : AdjustRequest) (applyChanges : Bool) (s : AdjustState)
    (p : LuidAndAttributes) : AdjustState :=
  match newAttributes rq p with
  | none => s
  | some a =>
    if p.attributes = a then s.found
    else if !applyChanges then (s.found.save p).counted
    else if a &&& sePrivilegeRemoved ≠ 0 then (s.found.save p).write (s.token.lookAt p.disabled)
    else ((s.found.save p).write (s.token.lookAt { p with attributes := a })).counted

/-- What one turn does to a privilege and the variables. -/
def visitAdjust (rq : AdjustRequest) (applyChanges : Bool) (s : AdjustState)
    (p : LuidAndAttributes) : AdjustState × Option LuidAndAttributes :=
  (adjustStep rq applyChanges s p, if applyChanges then adjusted rq p else some p)

/-- The variables with another array of privileges. -/
def AdjustState.withPrivileges (s : AdjustState) (c : Counted LuidAndAttributes) : AdjustState :=
  { s with token := { s.token with privileges := c } }

section

variable (rq : AdjustRequest) (applyChanges : Bool)

/-- One turn of the loop is one turn of a sweep. -/
theorem adjustTurn_eq (s : ℕ × Counted LuidAndAttributes × AdjustState) :
    adjustTurn rq applyChanges (s.1, s.2.2.withPrivileges s.2.1) =
      (sweepTurn (visitAdjust rq applyChanges) s).map
        (fun s => (s.1, s.2.2.withPrivileges s.2.1)) fun r => .ok (r.2.withPrivileges r.1) := by
  obtain ⟨i, c, s⟩ := s
  rw [adjustTurn, sweepTurn]
  dsimp only [AdjustState.withPrivileges]
  cases hp : c.list[i]? with
  | none => rfl
  | some p =>
    have hself : c.set i p = c := Counted.set_self hp
    have hget : ({ s.token with privileges := c } : Token).privileges.list[i]? = some p := hp
    dsimp only [visitAdjust, adjustStep, adjusted]
    cases ha : newAttributes rq p with
    | none =>
      cases applyChanges <;> simp only [Turn.map, hself, if_true, if_false, Bool.false_eq_true]
    | some a =>
      dsimp only
      by_cases heq : p.attributes = a
      · cases applyChanges <;>
          simp only [if_pos heq, hself, if_true, if_false, Bool.false_eq_true] <;> rfl
      · rw [if_neg heq, if_neg heq]
        cases applyChanges with
        | false =>
          simp only [if_false, Bool.false_eq_true, hself]
          rfl
        | true =>
          simp only [Bool.not_true, Bool.false_eq_true, if_false]
          split
          · rw [disableAndRemove_eq hget]
            rfl
          · rw [sepUpdateSinglePrivilegeFlagToken_set hget]
            rfl

/-- The pass over the privileges of a token. -/
def adjustPass (rq : AdjustRequest) (applyChanges : Bool) (s : AdjustState) : AdjustState :=
  (s.token.privileges.list.foldl (adjustStep rq applyChanges) s).withPrivileges
    (s.token.privileges.sweep (visitAdjust rq applyChanges) s)

/-- **The loop ends, and is one pass.** -/
theorem adjustLoop_eq (s : AdjustState) (hn : s.token.privileges.count < n) :
    runLoop (adjustTurn rq applyChanges) n (0, s) = .ok (adjustPass rq applyChanges s) := by
  have hloop := loop_of_map
    (fun s : ℕ × Counted LuidAndAttributes × AdjustState => (s.1, s.2.2.withPrivileges s.2.1))
    (fun r : Counted LuidAndAttributes × AdjustState =>
      (.ok (r.2.withPrivileges r.1) : Run AdjustState))
    (adjustTurn_eq rq applyChanges) n (0, s.token.privileges, s)
  rw [loop_sweepTurn s.token.privileges s hn, sweepList_snd] at hloop
  have hrun : loop (adjustTurn rq applyChanges) n (0, s) = _ := hloop
  rw [runLoop, hrun]
  rfl

/-- The run, once it has enough turns. -/
theorem sepAdjustPrivileges_eq (previousState : Option TokenPrivileges) (t : Token)
    (hn : t.privileges.count < n) :
    sepAdjustPrivileges n rq applyChanges previousState t =
      .ok (adjustResult rq (adjustPass rq applyChanges ⟨t, previousState, 0, 0, false⟩)) := by
  rw [sepAdjustPrivileges, adjustLoop_eq rq applyChanges _ hn]
  rfl

end

/-! ### What the pass does -/

section Pass

variable {rq : AdjustRequest}

/-- The array after the changes were made. -/
theorem adjustPass_list (rq : AdjustRequest) (s : AdjustState) :
    (adjustPass rq true s).token.privileges.list =
      s.token.privileges.list.filterMap (adjusted rq) := by
  have hfate : ∀ s p, (visitAdjust rq true s p).2 = adjusted rq p := fun _ _ => rfl
  exact sweepList_fst hfate s s.token.privileges.list

/-- **What one turn does when the changes are made**: nothing but count, remove the
privilege, or change it. -/
theorem adjustStep_cases (rq : AdjustRequest) (s : AdjustState) (p : LuidAndAttributes) :
    (changed rq p = false ∧ adjusted rq p = some p ∧
        ∃ k, adjustStep rq true s p = { s with privilegeCount := k }) ∨
      (changed rq p = true ∧ adjusted rq p = none ∧
        adjustStep rq true s p = (s.found.save p).write (s.token.lookAt p.disabled)) ∨
      ∃ p', changed rq p = true ∧ adjusted rq p = some p' ∧ p'.luid = p.luid ∧
        adjustStep rq true s p = ((s.found.save p).write (s.token.lookAt p')).counted := by
  rw [changed, adjusted, adjustStep]
  cases newAttributes rq p with
  | none => exact .inl ⟨rfl, rfl, s.privilegeCount, rfl⟩
  | some a =>
    simp only [Option.any_some]
    by_cases heq : p.attributes = a
    · rw [if_pos heq, if_pos heq]
      exact .inl ⟨by simp [heq], rfl, _, rfl⟩
    · have hchanged : (p.attributes != a) = true := bne_iff_ne.mpr heq
      rw [if_neg heq, if_neg heq]
      by_cases hremoved : a &&& sePrivilegeRemoved ≠ 0
      · rw [if_pos hremoved, if_pos hremoved]
        exact .inr (.inl ⟨hchanged, rfl, rfl⟩)
      · rw [if_neg hremoved, if_neg hremoved]
        exact .inr (.inr ⟨_, hchanged, rfl, rfl, rfl⟩)

/-- The entries that stay in the buffer of the caller. -/
def saves (rq : AdjustRequest) (p : LuidAndAttributes) : Bool :=
  changed rq p && (adjusted rq p).isSome

/-- Every privilege that is found is counted, changed or not. -/
theorem foldl_privilegeCount (applyChanges : Bool) (s : AdjustState) (l : List LuidAndAttributes) :
    (l.foldl (adjustStep rq applyChanges) s).privilegeCount =
      s.privilegeCount + l.countP fun p => (newAttributes rq p).isSome := by
  have hstep : ∀ s p, (adjustStep rq applyChanges s p).privilegeCount =
      s.privilegeCount + if (newAttributes rq p).isSome then 1 else 0 := by
    intro s p
    rw [adjustStep]
    cases newAttributes rq p with
    | none => rfl
    | some a =>
      dsimp only
      split
      · rfl
      split
      · rfl
      split <;> rfl
  exact foldl_countP hstep s l

/-- Counting the changes. -/
theorem foldl_changeCount_dry (s : AdjustState) (l : List LuidAndAttributes) :
    (l.foldl (adjustStep rq false) s).changeCount = s.changeCount + l.countP (changed rq) := by
  have hstep : ∀ s p, (adjustStep rq false s p).changeCount =
      s.changeCount + if changed rq p then 1 else 0 := by
    intro s p
    rw [adjustStep, changed]
    cases newAttributes rq p with
    | none => rfl
    | some a =>
      by_cases heq : p.attributes = a
      · simp [heq, AdjustState.found]
      · simp [heq, AdjustState.found, AdjustState.save, AdjustState.counted]
  exact foldl_countP hstep s l

/-- Making the changes counts those that remove nothing. -/
theorem foldl_changeCount (s : AdjustState) (l : List LuidAndAttributes) :
    (l.foldl (adjustStep rq true) s).changeCount = s.changeCount + l.countP (saves rq) := by
  have hstep : ∀ s p, (adjustStep rq true s p).changeCount =
      s.changeCount + if saves rq p then 1 else 0 := by
    intro s p
    rw [saves]
    rcases adjustStep_cases rq s p with ⟨hc, ha, k, hs⟩ | ⟨hc, ha, hs⟩ | ⟨p', hc, ha, -, hs⟩ <;>
      rw [hc, ha, hs] <;> rfl
  exact foldl_countP hstep s l

/-- **The buffer after a run** that started to write at `n`: below `n` it is as it
was, from `n` on it has the entries that were saved, and beyond one entry for each
change it is as it was. -/
structure Saved (rq : AdjustRequest) (n : ℕ) (l : List LuidAndAttributes)
    (m m' : ℕ → LuidAndAttributes) : Prop where
  below : ∀ k < n, m' k = m k
  entries : ∀ k p, (l.filter (saves rq))[k]? = some p → m' (n + k) = p
  beyond : ∀ k, n + l.countP (changed rq) ≤ k → m' k = m k

theorem Saved.skip (hchanged : changed rq p = false) (h : Saved rq n l m m') :
    Saved rq n (p :: l) m m' := by
  have hsaves : ¬saves rq p = true := by rw [saves, hchanged]; simp
  refine ⟨h.below, ?_, ?_⟩
  · rw [List.filter_cons_of_neg hsaves]
    exact h.entries
  · rw [List.countP_cons_of_neg (by rw [hchanged]; simp)]
    exact h.beyond

theorem Saved.overwrite (hchanged : changed rq p = true) (hadjusted : adjusted rq p = none)
    (h : Saved rq n l (Function.update m n p) m') : Saved rq n (p :: l) m m' := by
  have hsaves : ¬saves rq p = true := by rw [saves, hadjusted]; simp
  refine ⟨fun k hk => ?_, ?_, fun k hk => ?_⟩
  · rw [h.below k hk, Function.update_of_ne (by omega)]
  · rw [List.filter_cons_of_neg hsaves]
    exact h.entries
  · rw [List.countP_cons_of_pos hchanged] at hk
    rw [h.beyond k (by omega), Function.update_of_ne (by omega)]

theorem Saved.keep
    {p p' : LuidAndAttributes} (hchanged : changed rq p = true) (hadjusted : adjusted rq p = some p')
    (h : Saved rq (n + 1) l (Function.update m n p) m') : Saved rq n (p :: l) m m' := by
  have hsaves : saves rq p = true := by rw [saves, hchanged, hadjusted]; rfl
  refine ⟨fun k hk => ?_, fun k q hq => ?_, fun k hk => ?_⟩
  · rw [h.below k (by omega), Function.update_of_ne (by omega)]
  · rw [List.filter_cons_of_pos hsaves] at hq
    cases k with
    | zero =>
      obtain rfl : p = q := by simpa using hq
      rw [Nat.add_zero, h.below n (by omega), Function.update_self]
    | succ k =>
      rw [show n + (k + 1) = n + 1 + k by omega]
      exact h.entries k q (by simpa using hq)
  · rw [List.countP_cons_of_pos hchanged] at hk
    rw [h.beyond k (by omega), Function.update_of_ne (by omega)]

/-- **The buffer after the pass.** -/
theorem foldl_previousState (rq : AdjustRequest) (s : AdjustState) (l : List LuidAndAttributes) :
    ∃ f : TokenPrivileges → TokenPrivileges,
      (l.foldl (adjustStep rq true) s).previousState = s.previousState.map f ∧
        ∀ b, Saved rq s.changeCount l b.privileges (f b).privileges := by
  induction l generalizing s with
  | nil => exact ⟨id, (Option.map_id' ..).symm, fun b => ⟨fun _ _ => rfl, nofun, fun _ _ => rfl⟩⟩
  | cons p l ih =>
    obtain ⟨f, hf, hsaved⟩ := ih (adjustStep rq true s p)
    rw [List.foldl_cons, hf]
    rcases adjustStep_cases rq s p with ⟨hc, ha, k, hs⟩ | ⟨hc, ha, hs⟩ | ⟨p', hc, ha, -, hs⟩
    · rw [hs] at hsaved ⊢
      exact ⟨f, rfl, fun b => (hsaved b).skip hc⟩
    · rw [hs] at hsaved ⊢
      exact ⟨_, Option.map_map .., fun b => (hsaved (b.put s.changeCount p)).overwrite hc ha⟩
    · rw [hs] at hsaved ⊢
      exact ⟨_, Option.map_map .., fun b => (hsaved (b.put s.changeCount p)).keep hc ha⟩

end Pass

end Windivs

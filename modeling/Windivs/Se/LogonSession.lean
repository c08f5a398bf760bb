import Windivs.Se.Token

/-!
# Logon sessions

The database of logon sessions of `srm.c`, a linked list of records. A session
that is deleted is freed and not unlinked, and whatever walks the list afterwards
reads the freed record. As long as nothing is deleted the list is a set
(`Windivs.sessions_of_run`).

Allocations succeed, and there are no device maps.
-/

namespace Windivs

open List Relation

/-- `SYSTEM_LUID`. -/
def seSystemAuthenticationId : Luid := ⟨0x3e7, 0⟩
/-- `ANONYMOUS_LOGON_LUID`. -/
def seAnonymousAuthenticationId : Luid := ⟨0x3e6, 0⟩

/-- `SEP_LOGON_SESSION_REFERENCES`, and whether the record has been freed. -/
structure LogonSession where
  logonId : Luid
  referenceCount : Ulong
  freed : Bool
  deriving DecidableEq

/-- `SepLogonSessions`. -/
abbrev Sessions := List LogonSession

/-- The statuses of the calls. -/
inductive LogonStatus where
  | success
  | exists
  | noSuchSession
  | badState
  deriving DecidableEq

/-- The loop over `SepLogonSessions`, `none` where it reads a freed record. -/
def findSession (luid : Luid) : Sessions → Option (Option LogonSession)
  | [] => some none
  | s :: l =>
    if s.freed then none else if s.logonId = luid then some (some s) else findSession luid l

/-- Change the record the loop finds. -/
def changeSession (luid : Luid) (f : LogonSession → LogonSession) : Sessions → Sessions
  | [] => []
  | s :: l => if s.logonId = luid then f s :: l else s :: changeSession luid f l

/-- `SepRmCreateLogonSession`. -/
def sepRmCreateLogonSession (luid : Luid) (l : Sessions) : Option (LogonStatus × Sessions) := do
  match ← findSession luid l with
  | some _ => return (.exists, l)
  | none => return (.success, ⟨luid, 0, false⟩ :: l)

/-- `SepRmDeleteLogonSession`. -/
def sepRmDeleteLogonSession (luid : Luid) (l : Sessions) : Option (LogonStatus × Sessions) := do
  match ← findSession luid l with
  | none => return (.noSuchSession, l)
  | some s =>
    if luid = seSystemAuthenticationId ∨ luid = seAnonymousAuthenticationId then
      return (.badState, l)
    else if s.referenceCount ≠ 0 then return (.badState, l)
    else return (.success, changeSession luid (fun s => { s with freed := true }) l)

/-- `SepRmReferenceLogonSession`. -/
def sepRmReferenceLogonSession (luid : Luid) (l : Sessions) : Option (LogonStatus × Sessions) := do
  match ← findSession luid l with
  | none => return (.noSuchSession, l)
  | some _ => return (.success,
      changeSession luid (fun s => { s with referenceCount := s.referenceCount + 1 }) l)

/-! ### Runs -/

/-- `SepRmDeleteLogonSession` would find a session it can delete: an unreferenced
one, and none of the two internal ones. -/
def Deletable (luid : Luid) (l : Sessions) : Prop :=
  luid ≠ seSystemAuthenticationId ∧ luid ≠ seAnonymousAuthenticationId ∧
    ∃ s ∈ l, s.logonId = luid ∧ s.referenceCount = 0

/-- One call, with the set of the sessions that were created and not deleted. A
call to delete is for no session that can be deleted. -/
inductive SessionStep : Sessions × Set Luid → Sessions × Set Luid → Prop
  | create {luid l st l' S} (h : sepRmCreateLogonSession luid l = some (st, l')) :
    SessionStep (l, S) (l', if st = .success then insert luid S else S)
  | delete {luid l st l' S} (h : sepRmDeleteLogonSession luid l = some (st, l'))
    (hno : ¬Deletable luid l) :
    SessionStep (l, S) (l', if st = .success then S \ {luid} else S)
  | reference {luid l st l' S} (h : sepRmReferenceLogonSession luid l = some (st, l')) :
    SessionStep (l, S) (l', S)

/-- The list has the sessions of a set once each, and no freed record. -/
structure IsSet (S : Set Luid) (l : Sessions) : Prop where
  live : true ∉ l.map LogonSession.freed
  nodup : (l.map LogonSession.logonId).Nodup
  mem : ∀ luid, luid ∈ l.map LogonSession.logonId ↔ luid ∈ S

variable {S : Set Luid} {l : Sessions}

/-- The search of a list without freed records. -/
theorem IsSet.findSession_cases (h : IsSet S l) (luid : Luid) :
    (luid ∉ S ∧ findSession luid l = some none) ∨
      luid ∈ S ∧ ∃ s ∈ l, s.logonId = luid ∧ findSession luid l = some (some s) := by
  rw [← h.mem]
  replace h := h.live
  induction l with
  | nil => simp [findSession]
  | cons s l ih =>
    rw [map_cons, mem_cons, not_or] at h
    rw [findSession, if_neg (Ne.symm h.1), map_cons, mem_cons]
    by_cases hs : s.logonId = luid
    · exact .inr ⟨.inl hs.symm, s, mem_cons_self, hs, if_pos hs⟩
    · rw [if_neg hs]
      rcases ih h.2 with ⟨hno, heq⟩ | ⟨hyes, x, hx, hid, heq⟩
      · exact .inl ⟨not_or.2 ⟨Ne.symm hs, hno⟩, heq⟩
      · exact .inr ⟨.inr hyes, x, mem_cons_of_mem s hx, hid, heq⟩

theorem map_changeSession {luid : Luid} {α : Type*} {g : LogonSession → α}
    {f : LogonSession → LogonSession} (h : ∀ s, g (f s) = g s) (l : Sessions) :
    (changeSession luid f l).map g = l.map g := by
  induction l with
  | nil => rfl
  | cons s l ih =>
    rw [changeSession]
    split
    · rw [map_cons, map_cons, h]
    · rw [map_cons, map_cons, ih]

/-- `SepRmCreateLogonSession` adds what is not there. -/
theorem IsSet.create (h : IsSet S l) (luid : Luid) :
    ∃ st l', sepRmCreateLogonSession luid l = some (st, l') ∧ (st = .exists ↔ luid ∈ S) ∧
      IsSet (if st = .success then insert luid S else S) l' := by
  rw [sepRmCreateLogonSession]
  rcases h.findSession_cases luid with ⟨hno, heq⟩ | ⟨hyes, s, -, -, heq⟩
  · refine ⟨.success, ⟨luid, 0, false⟩ :: l, by rw [heq]; rfl, by simp [hno], ?_⟩
    rw [if_pos rfl]
    refine ⟨by simpa using h.live, nodup_cons.2 ⟨fun hm => hno ((h.mem _).1 hm), h.nodup⟩, ?_⟩
    intro x
    rw [map_cons, mem_cons, h.mem, Set.mem_insert_iff]
  · exact ⟨.exists, l, by rw [heq]; rfl, by simp [hyes], h⟩

/-- `SepRmReferenceLogonSession` finds what is there. -/
theorem IsSet.reference (h : IsSet S l) (luid : Luid) :
    ∃ st l', sepRmReferenceLogonSession luid l = some (st, l') ∧ (st = .success ↔ luid ∈ S) ∧
      IsSet S l' := by
  rw [sepRmReferenceLogonSession]
  rcases h.findSession_cases luid with ⟨hno, heq⟩ | ⟨hyes, s, -, -, heq⟩
  · exact ⟨.noSuchSession, l, by rw [heq]; rfl, by simp [hno], h⟩
  · refine ⟨.success, _, by rw [heq]; rfl, by simp [hyes], ?_, ?_, ?_⟩ <;>
      rw [map_changeSession (by simp)]
    exacts [h.live, h.nodup, h.mem]

/-- `SepRmDeleteLogonSession` changes nothing if there is nothing to delete. -/
theorem IsSet.delete (h : IsSet S l) (luid : Luid) :
    ∃ st l', sepRmDeleteLogonSession luid l = some (st, l') ∧
      (¬Deletable luid l → st ≠ .success ∧ l' = l) := by
  rw [sepRmDeleteLogonSession]
  rcases h.findSession_cases luid with ⟨hno, heq⟩ | ⟨hyes, s, hs, hid, heq⟩
  · exact ⟨.noSuchSession, l, by rw [heq]; rfl, by simp⟩
  · by_cases hint : luid = seSystemAuthenticationId ∨ luid = seAnonymousAuthenticationId
    · exact ⟨.badState, l, by rw [heq]; exact if_pos hint, by simp⟩
    by_cases hr : s.referenceCount ≠ 0
    · exact ⟨.badState, l, by rw [heq]; exact (if_neg hint).trans (if_pos hr), by simp⟩
    · refine ⟨.success, _, by rw [heq]; exact (if_neg hint).trans (if_neg hr), fun hno => ?_⟩
      obtain ⟨h₁, h₂⟩ := not_or.1 hint
      exact absurd ⟨h₁, h₂, s, hs, hid, not_not.1 hr⟩ hno

/-- A step keeps the list a set. -/
theorem SessionStep.isSet {x y : Sessions × Set Luid} (h : SessionStep x y)
    (hset : IsSet x.2 x.1) : IsSet y.2 y.1 := by
  cases h with
  | create h =>
    obtain ⟨st, l', heq, -, hset'⟩ := hset.create _
    cases h.symm.trans heq
    exact hset'
  | delete h hno =>
    obtain ⟨st, l', heq, hkeep⟩ := hset.delete _
    cases h.symm.trans heq
    obtain ⟨hst, rfl⟩ := hkeep hno
    rwa [if_neg hst]
  | reference h =>
    obtain ⟨st, l', heq, -, hset'⟩ := hset.reference _
    cases h.symm.trans heq
    exact hset'

/-- **Without deletions the database is a set.** In every state that calls lead to
none of which deletes a session, the list stands for the set of those created and
every call returns; creating one fails, and referencing one succeeds, exactly if it
is there. -/
theorem sessions_of_run {x : Sessions × Set Luid} (h : ReflTransGen SessionStep ([], ∅) x)
    (luid : Luid) : IsSet x.2 x.1 ∧
    (∃ st l, sepRmCreateLogonSession luid x.1 = some (st, l) ∧ (st = .exists ↔ luid ∈ x.2)) ∧
    (∃ st l, sepRmReferenceLogonSession luid x.1 = some (st, l) ∧ (st = .success ↔ luid ∈ x.2)) ∧
    ∃ r, sepRmDeleteLogonSession luid x.1 = some r := by
  have hset : IsSet x.2 x.1 := by
    induction h with
    | refl => exact ⟨by simp, by simp, by simp⟩
    | tail _ hstep ih => exact hstep.isSet ih
  obtain ⟨st, l', h₁, h₂, -⟩ := hset.create luid
  obtain ⟨st', l'', h3, h4, -⟩ := hset.reference luid
  obtain ⟨_, _, h5, -⟩ := hset.delete luid
  exact ⟨hset, ⟨st, l', h₁, h₂⟩, ⟨st', l'', h3, h4⟩, _, h5⟩

/-- Two sessions are created, and one of them is referenced and cannot be deleted. -/
theorem sessions_of_create_two : ∃ S, ReflTransGen SessionStep ([], ∅)
      ([⟨⟨2, 0⟩, 0, false⟩, ⟨⟨1, 0⟩, 1, false⟩], S) ∧
    IsSet S [⟨⟨2, 0⟩, 0, false⟩, ⟨⟨1, 0⟩, 1, false⟩] := by
  have hfirst : SessionStep ([], ∅) ([⟨⟨1, 0⟩, 0, false⟩], _) := .create rfl
  have hreference : ∀ S, SessionStep ([⟨⟨1, 0⟩, 0, false⟩], S) ([⟨⟨1, 0⟩, 1, false⟩], S) := fun S =>
    .reference (show sepRmReferenceLogonSession ⟨1, 0⟩ _ = some (.success, _) from rfl)
  have hsecond : ∀ S, SessionStep ([⟨⟨1, 0⟩, 1, false⟩], S)
      ([⟨⟨2, 0⟩, 0, false⟩, ⟨⟨1, 0⟩, 1, false⟩], insert ⟨2, 0⟩ S) := fun S =>
    .create (show sepRmCreateLogonSession ⟨2, 0⟩ _ = some (.success, _) from rfl)
  have hrefused : ∀ S, SessionStep ([⟨⟨2, 0⟩, 0, false⟩, ⟨⟨1, 0⟩, 1, false⟩], S)
      ([⟨⟨2, 0⟩, 0, false⟩, ⟨⟨1, 0⟩, 1, false⟩], S) := fun S =>
    .delete (show sepRmDeleteLogonSession ⟨1, 0⟩ _ = some (.badState, _) from rfl)
      (by simp [Deletable])
  have hrun :=
    (((ReflTransGen.single hfirst).tail (hreference _)).tail (hsecond _)).tail (hrefused _)
  exact ⟨_, hrun, (sessions_of_run hrun ⟨1, 0⟩).1⟩

/-- **A deleted session stays on the list as a freed record**, which the next call
reads. -/
theorem session_deleted :
    sepRmCreateLogonSession ⟨1, 0⟩ [] = some (.success, [⟨⟨1, 0⟩, 0, false⟩]) ∧
    sepRmDeleteLogonSession ⟨1, 0⟩ [⟨⟨1, 0⟩, 0, false⟩] =
      some (.success, [⟨⟨1, 0⟩, 0, true⟩]) ∧
    sepRmCreateLogonSession ⟨1, 0⟩ [⟨⟨1, 0⟩, 0, true⟩] = none := by
  decide

end Windivs

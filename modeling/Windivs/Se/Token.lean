import Windivs.Lib.Sweep
import Windivs.Se.Sid

/-!
# Access tokens

The part of `TOKEN` that access checks, token filtering and token adjustment read
and write, and the small routines of `sid.c`, `priv.c` and `token.c` through which
they do it: whether an identifier is in a token (`SepSidInTokenEx`), whether a
privilege is held (`SepPrivilegeCheck`), and the two edits of the privilege array,
`SepUpdateSinglePrivilegeFlagToken` and `SepRemovePrivilegeToken`.

Locks, identifiers of the token object and the layout of its variable part play no
role in what these routines compute and are left out; a count and the array it
belongs to are one `Windivs.Counted`.
-/

namespace Windivs

open BitVec

/-- The `NTSTATUS` values the security manager routines return. -/
inductive NtStatus where
  | success
  | notAllAssigned
  | accessDenied
  | privilegeNotHeld
  | insufficientResources
  | unknownRevision
  | invalidParameter
  | invalidPrimaryGroup
  | accessViolation
  | notImplemented
  | cantDisableMandatory
  | cantEnableDenyOnly
  deriving DecidableEq, Repr

/-- `NT_SUCCESS`: the two codes that are not errors. -/
def NtStatus.isSuccess : NtStatus → Bool
  | .success | .notAllAssigned => true
  | _ => false

theorem NtStatus.isSuccess_iff {s : NtStatus} (h : s ≠ .notAllAssigned) :
    s.isSuccess = true ↔ s = .success := by
  cases s <;> simp_all [isSuccess]

/-- `KPROCESSOR_MODE`. -/
inductive KProcessorMode where
  | kernelMode
  | userMode
  deriving DecidableEq, Repr

/-! ### Privileges and tokens -/

/-- `LUID`. -/
structure Luid where
  lowPart : Ulong
  highPart : Ulong
  deriving DecidableEq

/-- `LUID_AND_ATTRIBUTES`. -/
structure LuidAndAttributes where
  luid : Luid
  attributes : Ulong
  deriving DecidableEq

/-- `SE_PRIVILEGE_ENABLED`. -/
def sePrivilegeEnabled : Ulong := 0x2
/-- `SE_PRIVILEGE_REMOVED`. -/
def sePrivilegeRemoved : Ulong := 0x4
/-- `SE_PRIVILEGE_USED_FOR_ACCESS`. -/
def sePrivilegeUsedForAccess : Ulong := 0x80000000

/-- `SeSecurityPrivilege`. -/
def seSecurityPrivilege : Luid := ⟨8, 0⟩
/-- `SeTakeOwnershipPrivilege`. -/
def seTakeOwnershipPrivilege : Luid := ⟨9, 0⟩

/-- `SE_BACKUP_PRIVILEGE`. -/
def seBackupPrivilege : Ulong := 17
/-- `SE_RESTORE_PRIVILEGE`. -/
def seRestorePrivilege : Ulong := 18
/-- `SE_CHANGE_NOTIFY_PRIVILEGE`. -/
def seChangeNotifyPrivilege : Ulong := 23
/-- `SE_IMPERSONATE_PRIVILEGE`. -/
def seImpersonatePrivilege : Ulong := 29

/-- `TOKEN_HAS_TRAVERSE_PRIVILEGE`. -/
def tokenHasTraversePrivilege : Ulong := 0x1
/-- `TOKEN_HAS_BACKUP_PRIVILEGE`. -/
def tokenHasBackupPrivilege : Ulong := 0x2
/-- `TOKEN_HAS_RESTORE_PRIVILEGE`. -/
def tokenHasRestorePrivilege : Ulong := 0x4
/-- `TOKEN_HAS_ADMIN_GROUP`. -/
def tokenHasAdminGroup : Ulong := 0x8
/-- `TOKEN_IS_RESTRICTED`. -/
def tokenIsRestricted : Ulong := 0x10
/-- `TOKEN_SESSION_NOT_REFERENCED`. -/
def tokenSessionNotReferenced : Ulong := 0x20
/-- `TOKEN_SANDBOX_INERT`. -/
def tokenSandboxInert : Ulong := 0x40
/-- `TOKEN_HAS_IMPERSONATE_PRIVILEGE`. -/
def tokenHasImpersonatePrivilege : Ulong := 0x80

/-- `TOKEN`. -/
structure Token where
  /-- The user first, then the groups. -/
  userAndGroups : Counted SidAndAttributes
  restrictedSids : Counted SidAndAttributes
  privileges : Counted LuidAndAttributes
  tokenFlags : Ulong
  primaryGroup : View
  defaultOwnerIndex : ℕ

/-- `SeTokenIsAdmin`. -/
def seTokenIsAdmin (t : Token) : Bool := t.tokenFlags &&& tokenHasAdminGroup != 0

/-- `SeTokenIsRestricted`. -/
def seTokenIsRestricted (t : Token) : Bool := t.tokenFlags &&& tokenIsRestricted != 0

/-! ### Identifiers in a token -/

/-- Whether an entry with the right identifier counts: the user unless it is for
deny only, an enabled group, and for deny also a group for deny only. -/
def sidCounts (deny restricted : Bool) (index : ℕ) (attributes : Ulong) : Bool :=
  (!restricted && index == 0 && attributes &&& seGroupUseForDenyOnly == 0) ||
    attributes &&& seGroupEnabled != 0 ||
    (deny && attributes &&& seGroupUseForDenyOnly != 0)

/-- The loop of `SepSidInTokenEx`: the first entry with the identifier decides. -/
def sidLoop (sid : View) (deny restricted : Bool) : ℕ → List SidAndAttributes → Bool
  | _, [] => false
  | index, e :: l =>
    if rtlEqualSid sid e.sid then sidCounts deny restricted index e.attributes
    else sidLoop sid deny restricted (index + 1) l

/-- The identifier `SepSidInTokenEx` looks for: the principal stands in for
`SePrincipalSelfSid`. -/
def sidToFind (principalSelfSid : Option View) (sid : View) : View :=
  match principalSelfSid with
  | some self => if rtlEqualSid sePrincipalSelfSid sid then self else sid
  | none => sid

/-- `SepSidInTokenEx`. -/
def sepSidInTokenEx (t : Token) (principalSelfSid : Option View) (sid : View)
    (deny restricted : Bool) : Bool :=
  sidLoop (sidToFind principalSelfSid sid) deny restricted 0
    (if restricted then t.restrictedSids.list else t.userAndGroups.list)

/-- The first entry with an identifier. -/
def FirstWith (x : View) (l : List SidAndAttributes) (k : ℕ) (e : SidAndAttributes) : Prop :=
  l[k]? = some e ∧ rtlEqualSid x e.sid = true ∧
    ∀ j < k, ∀ e', l[j]? = some e' → rtlEqualSid x e'.sid = false

/-- **The first entry with an identifier decides** whether it counts. -/
theorem sidLoop_iff (x : View) (deny restricted : Bool) (i : ℕ) (l : List SidAndAttributes) :
    sidLoop x deny restricted i l = true ↔
      ∃ k e, FirstWith x l k e ∧ sidCounts deny restricted (i + k) e.attributes = true := by
  induction l generalizing i with
  | nil => simp [sidLoop, FirstWith]
  | cons e l ih =>
    rw [sidLoop]
    by_cases he : rtlEqualSid x e.sid = true
    · rw [if_pos he]
      refine ⟨fun hcounts => ⟨0, e, ⟨rfl, he, nofun⟩, hcounts⟩, ?_⟩
      rintro ⟨_ | k, e', ⟨hk, -, hfirst⟩, hcounts⟩
      · obtain rfl := Option.some.inj hk
        exact hcounts
      · rw [hfirst 0 (Nat.succ_pos k) e rfl] at he
        cases he
    · rw [if_neg he, ih]
      rw [Bool.not_eq_true] at he
      constructor
      · rintro ⟨k, e', ⟨hk, heq, hfirst⟩, hcounts⟩
        refine ⟨k + 1, e', ⟨hk, heq, ?_⟩, by rwa [← Nat.add_assoc, Nat.add_right_comm]⟩
        rintro (_ | j) hj e'' hj'
        · obtain rfl := Option.some.inj hj'
          exact he
        · exact hfirst j (Nat.lt_of_succ_lt_succ hj) e'' hj'
      · rintro ⟨_ | k, e', ⟨hk, heq, hfirst⟩, hcounts⟩
        · obtain rfl := Option.some.inj hk
          rw [he] at heq
          cases heq
        · exact ⟨k, e', ⟨hk, heq, fun j hj => hfirst (j + 1) (Nat.succ_lt_succ hj)⟩,
            by rwa [Nat.add_right_comm, Nat.add_assoc]⟩

/-- Where every entry counts, an identifier only has to be there. -/
theorem sidLoop_iff_exists {x : View} {deny restricted : Bool} {l : List SidAndAttributes}
    (hall : ∀ i, ∀ e ∈ l, sidCounts deny restricted i e.attributes = true) (i : ℕ) :
    sidLoop x deny restricted i l = true ↔ ∃ e ∈ l, rtlEqualSid x e.sid = true := by
  induction l generalizing i with
  | nil => simp [sidLoop]
  | cons e l ih =>
    rw [sidLoop, hall i e List.mem_cons_self]
    by_cases he : rtlEqualSid x e.sid = true
    · simp [he]
    · simp [he, ih fun i e' he' => hall i e' (List.mem_cons_of_mem e he')]

/-- What is looked for counts by its value. -/
theorem sidLoop_congr {x y : View} (h : sidValue x = sidValue y) (deny restricted : Bool) (i : ℕ)
    (l : List SidAndAttributes) : sidLoop x deny restricted i l = sidLoop y deny restricted i l := by
  have heq : ∀ s, rtlEqualSid x s = rtlEqualSid y s := fun s => by
    rw [Bool.eq_iff_iff, rtlEqualSid_iff, rtlEqualSid_iff, h]
  rw [Bool.eq_iff_iff]
  simp only [sidLoop_iff, FirstWith, heq]

/-! ### Held privileges -/

/-- The inner loop of `SepPrivilegeCheck`: the first entry with the identifier
decides whether the privilege is enabled. -/
def privilegeEnabled (l : List LuidAndAttributes) (luid : Luid) : Bool :=
  match l.find? fun p => p.luid == luid with
  | some p => p.attributes &&& sePrivilegeEnabled != 0
  | none => false

/-- A privilege is there and enabled. -/
def HasEnabled (l : List LuidAndAttributes) (luid : Luid) : Prop :=
  ∃ p ∈ l, p.luid = luid ∧ p.attributes &&& sePrivilegeEnabled ≠ 0

/-- The outer loop: count down what is still required. -/
def privilegeLoop (t : Token) : ℕ → List LuidAndAttributes → Bool
  | _, [] => false
  | required, p :: l =>
    if privilegeEnabled t.privileges.list p.luid then
      if required - 1 = 0 then true else privilegeLoop t (required - 1) l
    else privilegeLoop t required l

/-- `SepPrivilegeCheck`; the last flag is `PRIVILEGE_SET_ALL_NECESSARY`. -/
def sepPrivilegeCheck (t : Token) (privileges : List LuidAndAttributes) (allNecessary : Bool)
    (previousMode : KProcessorMode) : Bool :=
  if previousMode = .kernelMode then true
  else privilegeLoop t (if allNecessary then privileges.length else 1) privileges

/-- `SepSinglePrivilegeCheck`. -/
def sepSinglePrivilegeCheck (privilegeValue : Luid) (t : Token) (previousMode : KProcessorMode) :
    Bool :=
  sepPrivilegeCheck t [⟨privilegeValue, sePrivilegeEnabled⟩] true previousMode

/-- A single privilege is held in kernel mode, or if the token has it enabled. -/
theorem sepSinglePrivilegeCheck_iff {luid : Luid} {t : Token} {mode : KProcessorMode} :
    sepSinglePrivilegeCheck luid t mode = true ↔
      mode = .kernelMode ∨ privilegeEnabled t.privileges.list luid = true := by
  rw [sepSinglePrivilegeCheck, sepPrivilegeCheck]
  by_cases hmode : mode = .kernelMode
  · simp [hmode]
  · cases h : privilegeEnabled t.privileges.list luid <;> simp [hmode, privilegeLoop, h]

/-! ### Edits of the privilege array -/

/-- The flag that stands for a privilege in `TokenFlags`. -/
def privilegeFlag (luid : Luid) : Option Ulong :=
  if luid.highPart ≠ 0 then none
  else if luid.lowPart = seChangeNotifyPrivilege then some tokenHasTraversePrivilege
  else if luid.lowPart = seBackupPrivilege then some tokenHasBackupPrivilege
  else if luid.lowPart = seRestorePrivilege then some tokenHasRestorePrivilege
  else if luid.lowPart = seImpersonatePrivilege then some tokenHasImpersonatePrivilege
  else none

/-- The flags after looking at one privilege. -/
def updateFlags (flags : Ulong) (p : LuidAndAttributes) : Ulong :=
  match privilegeFlag p.luid with
  | none => flags
  | some flag =>
    if p.attributes &&& sePrivilegeEnabled ≠ 0 then flags ||| flag else flags &&& ~~~flag

/-- `SepUpdateSinglePrivilegeFlagToken`. -/
def sepUpdateSinglePrivilegeFlagToken (t : Token) (index : ℕ) : Run Token :=
  match t.privileges.list[index]? with
  | none => .error .assertion
  | some p => .ok { t with tokenFlags := updateFlags t.tokenFlags p }

/-- `SepRemovePrivilegeToken`: the privileges behind move up. -/
def sepRemovePrivilegeToken (t : Token) (index : ℕ) : Run Token :=
  match t.privileges.list[index]? with
  | none => .error .assertion
  | some _ => .ok { t with privileges := t.privileges.eraseIdx index }

/-- Write the attributes of one privilege. -/
def setPrivilegeAttributes (t : Token) (index : ℕ) (attributes : Ulong) : Token :=
  match t.privileges.list[index]? with
  | none => t
  | some p => { t with privileges := t.privileges.set index { p with attributes := attributes } }

/-- Take a privilege away: disabled first, so that its flag goes too. -/
def disableAndRemove (t : Token) (index : ℕ) (attributes : Ulong) : Run Token := do
  let t ← sepUpdateSinglePrivilegeFlagToken
    (setPrivilegeAttributes t index (attributes &&& ~~~sePrivilegeEnabled)) index
  sepRemovePrivilegeToken t index

/-! ### The flags of privileges -/

section Flags

variable {luid luid' : Luid} {flag flag' : Ulong}

/-- The privileges that have a flag, and their flags. -/
def flagTable : List (Luid × Ulong) :=
  [(⟨23, 0⟩, 0x1), (⟨17, 0⟩, 0x2), (⟨18, 0⟩, 0x4), (⟨29, 0⟩, 0x80)]

section

variable (h : privilegeFlag luid = some flag)
include h

theorem mem_flagTable : (luid, flag) ∈ flagTable := by
  obtain ⟨low, high⟩ := luid
  rw [privilegeFlag] at h
  by_cases hhigh : high = 0
  · subst hhigh
    rw [if_neg (by simp)] at h
    split at h
    · rename_i hlow
      cases h
      subst hlow
      decide
    split at h
    · rename_i hlow
      cases h
      subst hlow
      decide
    split at h
    · rename_i hlow
      cases h
      subst hlow
      decide
    split at h
    · rename_i hlow
      cases h
      subst hlow
      decide
    · cases h
  · rw [if_pos hhigh] at h
    cases h

/-- Different privileges have different flags, one bit each. -/
theorem flags_disjoint (h' : privilegeFlag luid' = some flag')
    (hne : luid ≠ luid') : flag &&& flag' = 0 := by
  have htable : ∀ x ∈ flagTable, ∀ y ∈ flagTable, x.1 ≠ y.1 → x.2 &&& y.2 = 0 := by decide
  exact htable _ (mem_flagTable h) _ (mem_flagTable h') hne

/-- The other flags of a token are other bits. -/
theorem privilegeFlag_and_others :
    tokenHasAdminGroup &&& flag = 0 ∧ tokenIsRestricted &&& flag = 0 ∧
      tokenSessionNotReferenced &&& flag = 0 ∧ tokenSandboxInert &&& flag = 0 ∧ flag ≠ 0 := by
  have htable : ∀ x ∈ flagTable, tokenHasAdminGroup &&& x.2 = 0 ∧ tokenIsRestricted &&& x.2 = 0 ∧
      tokenSessionNotReferenced &&& x.2 = 0 ∧ tokenSandboxInert &&& x.2 = 0 ∧ x.2 ≠ 0 := by decide
  exact htable _ (mem_flagTable h)

omit h in
/-- Setting or clearing other bits. -/
theorem or_and_of_disjoint {x m y : Ulong} (h : m &&& y = 0) : (x ||| m) &&& y = x &&& y := by
  refine eq_of_getLsbD_eq fun i hi => ?_
  have hbit := congrArg (fun b : Ulong => b.getLsbD i) h
  simp only [getLsbD_and, getLsbD_or] at hbit ⊢
  cases x.getLsbD i <;> cases hm : m.getLsbD i <;> simp_all

omit h in
theorem and_not_and_of_disjoint {x m y : Ulong} (h : m &&& y = 0) :
    (x &&& ~~~m) &&& y = x &&& y := by
  refine eq_of_getLsbD_eq fun i hi => ?_
  have hbit := congrArg (fun b : Ulong => b.getLsbD i) h
  simp only [getLsbD_and] at hbit ⊢
  cases x.getLsbD i <;> cases hm : m.getLsbD i <;> simp_all

/-- **What looking at one privilege does to a flag**: its own flag says whether it is
enabled, and the others stay. -/
theorem updateFlags_and (flags : Ulong) (p : LuidAndAttributes) :
    updateFlags flags p &&& flag =
      if p.luid = luid then (if p.attributes &&& sePrivilegeEnabled ≠ 0 then flag else 0)
      else flags &&& flag := by
  rw [updateFlags]
  by_cases hluid : p.luid = luid
  · rw [if_pos hluid, hluid, h]
    dsimp only
    split
    · refine eq_of_getLsbD_eq fun i hi => ?_
      rw [getLsbD_and, getLsbD_or]
      cases flags.getLsbD i <;> cases flag.getLsbD i <;> rfl
    · rw [BitVec.and_assoc, BitVec.and_comm (~~~flag) flag, BitVec.and_not_self]
      exact and_zero
  · rw [if_neg hluid]
    cases hp : privilegeFlag p.luid with
    | none => rfl
    | some flag' =>
      have hdisjoint := flags_disjoint hp h hluid
      dsimp only
      split
      · exact or_and_of_disjoint hdisjoint
      · exact and_not_and_of_disjoint hdisjoint

end

/-- Flags that stand for no privilege stay. -/
theorem updateFlags_and_other {other : Ulong} (h : ∀ x ∈ flagTable, x.2 &&& other = 0)
    (flags : Ulong) (p : LuidAndAttributes) : updateFlags flags p &&& other = flags &&& other := by
  rw [updateFlags]
  cases hp : privilegeFlag p.luid with
  | none => rfl
  | some flag =>
    have hdisjoint := h _ (mem_flagTable hp)
    dsimp only
    split
    · exact or_and_of_disjoint hdisjoint
    · exact and_not_and_of_disjoint hdisjoint

end Flags

section Edits

variable {t : Token} {index : ℕ} {p : LuidAndAttributes}

theorem sepUpdateSinglePrivilegeFlagToken_set (h : t.privileges.list[index]? = some p)
    (attributes : Ulong) :
    sepUpdateSinglePrivilegeFlagToken (setPrivilegeAttributes t index attributes) index =
      .ok { t with
        privileges := t.privileges.set index { p with attributes := attributes }
        tokenFlags := updateFlags t.tokenFlags { p with attributes := attributes } } := by
  have hlt := (List.getElem?_eq_some_iff.mp h).1
  rw [setPrivilegeAttributes, h, sepUpdateSinglePrivilegeFlagToken]
  simp only [Counted.list_set, List.getElem?_set_self hlt]

/-- Taking a privilege away closes the gap and clears its flag. -/
theorem disableAndRemove_eq (h : t.privileges.list[index]? = some p) :
    disableAndRemove t index p.attributes =
      .ok { t with
        privileges := t.privileges.eraseIdx index
        tokenFlags := updateFlags t.tokenFlags
          { p with attributes := p.attributes &&& ~~~sePrivilegeEnabled } } := by
  have hlt := (List.getElem?_eq_some_iff.mp h).1
  rw [disableAndRemove, sepUpdateSinglePrivilegeFlagToken_set h]
  simp only [bind, Except.bind, sepRemovePrivilegeToken, Counted.list_set,
    List.getElem?_set_self hlt]
  congr 2
  exact Counted.ext_list (by simp [List.eraseIdx_set_eq])

end Edits

end Windivs

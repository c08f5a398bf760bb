import Windivs.Rtl.GenericTable

/-!
# Lock checks

Whether a read or a write meets a lock is checked by two pairs of routines, for an IRP and for
arguments. All four look up one lock that meets the range: of those in the tree the one nearest
the root (`Windivs.FileLock.mem_overlapping_iff`). But each compares its owner by other fields, so
they agree only where the fields left out do not matter (`Windivs.FileLock.checksAgree_iff`).
-/

namespace Windivs

/-- `FILE_LOCK_INFO`, with the fields that the checks read. -/
structure FileLockInfo where
  startingByte : Int64
  endingByte : Int64
  exclusiveLock : Bool
  key : UInt32
  processId : ℕ

/-- `LockCompare`. -/
def lockCompare (a b : FileLockInfo) : Ordering :=
  if a.startingByte < b.endingByte ∧ a.startingByte ≥ b.startingByte ∨
      b.startingByte < a.endingByte ∧ b.startingByte ≥ a.startingByte then .eq
  else if a.startingByte < b.startingByte then .lt
  else if a.startingByte > b.startingByte then .gt
  else .eq

/-- The parameters of a check, which an IRP carries. The length of an IRP has 32 bits. -/
structure LockQuery where
  byteOffset : Int64
  length : UInt32
  key : UInt32
  process : ℕ

/-- `FILE_LOCK`, as the table in its `LockInformation`. -/
structure FileLock where
  rangeTable : Option (RtlGenericTable FileLockInfo)

namespace FileLock

/-- The lock that `RtlLookupElementGenericTable` finds for the range of a query. -/
def overlapping (l : FileLock) (q : LockQuery) : Option FileLockInfo :=
  l.rangeTable.bind fun t => (t.rtlLookupElementGenericTable (lockCompare
    ⟨q.byteOffset, q.byteOffset + .ofNat q.length.toNat, false, 0, 0⟩)).1

/-- `FsRtlCheckLockForReadAccess`. -/
def fsRtlCheckLockForReadAccess (l : FileLock) (irp : LockQuery) : Bool :=
  match l.overlapping irp with
  | none => true
  | some found => !found.exclusiveLock || irp.key == found.key

/-- `FsRtlCheckLockForWriteAccess`. -/
def fsRtlCheckLockForWriteAccess (l : FileLock) (irp : LockQuery) : Bool :=
  match l.overlapping irp with
  | none => true
  | some found => irp.process == found.processId

/-- `FsRtlFastCheckLockForRead`. -/
def fsRtlFastCheckLockForRead (l : FileLock) (q : LockQuery) : Bool :=
  match l.overlapping q with
  | none => true
  | some found =>
    if !found.exclusiveLock then true else found.key == q.key && found.processId == q.process

/-- `FsRtlFastCheckLockForWrite`. -/
def fsRtlFastCheckLockForWrite (l : FileLock) (q : LockQuery) : Bool :=
  match l.overlapping q with
  | none => true
  | some found => found.key == q.key && found.processId == q.process

/-- A lock meets the range of a query: one of them starts inside the other, or they start at the
same byte. -/
def Meets (q : LockQuery) (e : FileLockInfo) : Prop :=
  e.startingByte ≤ q.byteOffset ∧ q.byteOffset < e.endingByte ∨
    q.byteOffset ≤ e.startingByte ∧ e.startingByte < q.byteOffset + .ofNat q.length.toNat ∨
    q.byteOffset = e.startingByte

/-- **The lock that counts** for a query: it meets the range, and no lock above it in the tree
does. -/
def Decides (l : FileLock) (q : LockQuery) (e : FileLockInfo) : Prop :=
  ∃ t ∈ l.rangeTable, Highest (Meets q) t.root e

/-- The locks of the table are in order, and none starts inside another. -/
def InOrder (l : FileLock) : Prop :=
  ∀ t ∈ l.rangeTable, t.elements.Pairwise fun a b =>
    a.startingByte < b.startingByte ∧ a.endingByte ≤ b.startingByte

section Lookup

variable {e : FileLockInfo} {l : FileLock} {q : LockQuery}

/-- What `LockCompare` says of a range and a lock. -/
theorem lockCompare_cases (q : LockQuery) (e : FileLockInfo) :
    let r := lockCompare ⟨q.byteOffset, q.byteOffset + .ofNat q.length.toNat, false, 0, 0⟩ e
    (r = .eq ↔ Meets q e) ∧ (r = .lt ↔ ¬Meets q e ∧ q.byteOffset < e.startingByte) ∧
      (r = .gt ↔ ¬Meets q e ∧ e.startingByte < q.byteOffset) := by
  simp only [lockCompare, Meets]
  grind

/-- A range sorts the locks of a table in order. -/
theorem sorts_of_inOrder (hl : l.InOrder) {t : RtlGenericTable FileLockInfo}
    (ht : t ∈ l.rangeTable) : Sorts (lockCompare
      ⟨q.byteOffset, q.byteOffset + .ofNat q.length.toNat, false, 0, 0⟩) t.elements := by
  refine (hl t ht).imp fun {a b} hab => ?_
  obtain ⟨-, hlt, hgt⟩ := lockCompare_cases q a
  obtain ⟨-, hlt', hgt'⟩ := lockCompare_cases q b
  rw [hlt, hlt', hgt, hgt']
  constructor
  · -- a range that ends before the first lock ends before the second
    rintro ⟨hmeets, hbefore⟩
    simp only [Meets, not_or, not_and, Int64.not_lt] at hmeets ⊢
    grind
  · rintro ⟨hmeets, hafter⟩
    simp only [Meets, not_or, not_and, Int64.not_lt] at hmeets ⊢
    grind

/-- **The lock that the routines look at** is the one that counts. -/
theorem mem_overlapping_iff (hl : l.InOrder) : e ∈ l.overlapping q ↔ l.Decides q e := by
  have hmeets : (fun e => lockCompare ⟨q.byteOffset, q.byteOffset + .ofNat q.length.toNat,
      false, 0, 0⟩ e = .eq) = Meets q := funext fun e => propext (lockCompare_cases q e).1
  rw [overlapping, Option.mem_def, Option.bind_eq_some_iff, Decides]
  refine exists_congr fun t => and_congr_right fun ht => ?_
  rw [RtlGenericTable.lookup_fst_iff (sorts_of_inOrder hl ht), hmeets]

/-- The two checks of a read, by the lock they look at. -/
theorem readAgree_iff : l.fsRtlCheckLockForReadAccess q = l.fsRtlFastCheckLockForRead q ↔
    ∀ e ∈ l.overlapping q, e.exclusiveLock = true → e.key = q.key → e.processId = q.process := by
  rw [fsRtlCheckLockForReadAccess, fsRtlFastCheckLockForRead]
  cases l.overlapping q with
  | none => simp
  | some e =>
    simp only [Option.mem_some_iff, forall_eq']
    grind

/-- The two checks of a write, by the lock they look at. -/
theorem writeAgree_iff : l.fsRtlCheckLockForWriteAccess q = l.fsRtlFastCheckLockForWrite q ↔
    ∀ e ∈ l.overlapping q, e.processId = q.process → e.key = q.key := by
  rw [fsRtlCheckLockForWriteAccess, fsRtlFastCheckLockForWrite]
  cases l.overlapping q with
  | none => simp
  | some e =>
    simp only [Option.mem_some_iff, forall_eq']
    grind

end Lookup

/-- **When the two checks of a read, and the two of a write, agree**: for a read, the lock that
counts is not an exclusive one of the key of the query and another process; for a write, it is not
one of the process of the query and another key. -/
theorem checksAgree_iff (l : FileLock) (hl : l.InOrder) (q : LockQuery) :
    (l.fsRtlCheckLockForReadAccess q = l.fsRtlFastCheckLockForRead q ↔
      ∀ e, l.Decides q e → e.exclusiveLock = true → e.key = q.key → e.processId = q.process) ∧
    (l.fsRtlCheckLockForWriteAccess q = l.fsRtlFastCheckLockForWrite q ↔
      ∀ e, l.Decides q e → e.processId = q.process → e.key = q.key) := by
  constructor
  · rw [readAgree_iff]
    exact forall_congr' fun e => imp_congr_left (mem_overlapping_iff hl)
  · rw [writeAgree_iff]
    exact forall_congr' fun e => imp_congr_left (mem_overlapping_iff hl)

/-- A lock of process 1 at the root and one of process 2 before it. -/
def twoLocks : FileLock :=
  ⟨some ⟨.node ⟨10, 20, true, 7, 1⟩ (.node ⟨0, 10, true, 8, 2⟩ .nil .nil) .nil,
    [⟨10, 20, true, 7, 1⟩, ⟨0, 10, true, 8, 2⟩], 0, 0⟩⟩

/-- A read of process 2 with key 8 that meets both locks: the one that counts is not its own, and
the two checks agree that it is refused. -/
theorem checksAgree_twoLocks : twoLocks.InOrder ∧
    twoLocks.fsRtlCheckLockForReadAccess ⟨5, 10, 8, 2⟩ =
      twoLocks.fsRtlFastCheckLockForRead ⟨5, 10, 8, 2⟩ := by
  have horder : twoLocks.InOrder := by
    intro t ht
    cases ht
    decide
  refine ⟨horder, (checksAgree_iff twoLocks horder ⟨5, 10, 8, 2⟩).1.2 ?_⟩
  rintro e ⟨t, ht, he⟩
  cases ht
  cases he with
  | root _ => exact fun _ hkey => absurd hkey (by decide)
  | left hroot _ => exact absurd (Or.inr (Or.inl (by decide))) hroot
  | right hroot _ => exact absurd (Or.inr (Or.inl (by decide))) hroot

/-- The lock `[0, 10)` of a process with a key. -/
def oneLock (key : UInt32) (process : ℕ) : FileLock :=
  ⟨some ⟨.node ⟨0, 10, true, key, process⟩ .nil .nil, [⟨0, 10, true, key, process⟩], 0, 0⟩⟩

/-- A read of another process with the key, and a write of the process with another key. -/
theorem checks_differ :
    (oneLock 7 1).fsRtlCheckLockForReadAccess ⟨0, 1, 7, 2⟩ = true ∧
    (oneLock 7 1).fsRtlFastCheckLockForRead ⟨0, 1, 7, 2⟩ = false ∧
    (oneLock 7 1).fsRtlCheckLockForWriteAccess ⟨0, 1, 8, 1⟩ = true ∧
    (oneLock 7 1).fsRtlFastCheckLockForWrite ⟨0, 1, 8, 1⟩ = false := by
  decide

end FileLock

end Windivs

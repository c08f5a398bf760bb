import Windivs.Cm.HiveWrite

/-!
# Recovering a hive from its log

The routine of `hiveinit.c` that brings the blocks of a primary file back after a crash
(`Windivs.hvpRecoverDataFromLog`): each dirty block is read from the log and written to
the primary file. It reads one sector for the dirty vector, into an array on the
stack, and looks at a byte of it for each block of the hive: beyond the sector these are
whatever lies behind the array.
-/

namespace Windivs

/-- `RESULT`. -/
inductive RecoverResult where
  | notHive
  | fail
  | noMemory
  | hiveSuccess
  | recoverHeader
  | recoverData
  | selfHeal
  deriving DecidableEq, Repr

/-- What the environment does while a hive is recovered. -/
structure LoadEnv where
  /-- `CmIsSelfHealEnabled(FALSE)`. -/
  selfHeal : Bool
  /-- The outcome of each file callback, by its number. -/
  outcome : ℕ → Option ℕ
  /-- The bytes behind the array `DirtyVector`. -/
  overrun : Mem

/-- One block of the loop of `HvpRecoverDataFromLog`: a dirty block is read from the log and
written to its place. -/
def recoverBlock (env : LoadEnv) (dirtyVector : Mem) (i : ℕ) (s : ℕ × Io HFileType) :
    Run (Bool × ℕ × Io HFileType) :=
  if dirtyVector (i + 4) ≠ 0xFF then .ok (true, s)
  else
    match s.2.fileRead env.outcome .log (1024 + s.1 * 4096) 4096 with
    | (none, io) => .ok (false, s.1, io)
    | (some buffer, io) =>
      match io.fileWrite env.outcome
        { file := .primary, offset := 4096 + i * 4096, src := buffer, addr := 0,
          length := 4096 } with
      | (false, io) => .ok (false, s.1, io)
      | (true, io) => .ok (true, s.1 + 1, io)

/-- The array `DirtyVector`, and what lies behind it. -/
def dirtyArray (env : LoadEnv) (sector : Mem) : Mem := fun k =>
  if k < 512 then sector k else env.overrun (k - 512)

/-- `HvpRecoverDataFromLog`. -/
def hvpRecoverDataFromLog (env : LoadEnv) (b : Mem) (io : Io HFileType) :
    Run (RecoverResult × Io HFileType) := do
  let failed : RecoverResult := if env.selfHeal then .selfHeal else .fail
  match io.fileRead env.outcome .log 512 512 with
  | (none, io) => return (failed, io)
  | (some sector, io) =>
    if sector.readU32 0 ≠ 0x54524944 then return (failed, io)
    else
      let (ok, _, io) ← forBlocks (BaseBlock.length b / 4096) some
        (recoverBlock env (dirtyArray env sector)) (0, io)
      return (if ok then .hiveSuccess else .fail, io)

end Windivs

import Windivs.Lib.Intervals
import Windivs.Lib.Loop
import Windivs.Rtl.GenericTable

/-!
# Mapped control blocks

A mapped control block (MCB) of the file system runtime maps virtual block numbers to logical
ones. It keeps *runs* in a generic table: `LARGE_MCB_MAPPING_ENTRY`, with the first virtual
block, the one after the last, and the logical block of the first. Holes are not stored; they
appear when the runs are read in order, as entries with the logical block `-1`.

The table is searched with one of two compare routines, which the code switches as it goes:
an order of runs, and a test of intersection with a needle.

Logical block numbers are added as 64-bit numbers, `Windivs.wrap`.
-/

namespace Windivs

/-- The 64-bit number that a sum is stored as. -/
def wrap (x : ℤ) : ℤ := x.bmod 0x10000000000000000

theorem wrap_of_bounds {x : ℤ} (hlo : -0x8000000000000000 ≤ x) (hhi : x < 0x8000000000000000) :
    wrap x = x := by
  exact Int.bmod_eq_of_le (by omega) (by omega)

theorem wrap_add_wrap (x y : ℤ) : wrap (wrap x + y) = wrap (x + y) := by
  rw [wrap, wrap, wrap, Int.bmod_add_bmod]

/-- The same sum as an unsigned number. -/
def unsigned (x : ℤ) : ℤ := x % 0x10000000000000000

theorem unsigned_of_bounds {x : ℤ} (hlo : 0 ≤ x) (hhi : x < 0x8000000000000000) : unsigned x = x :=
  Int.emod_eq_of_lt hlo (by omega)

/-- `LARGE_MCB_MAPPING_ENTRY`. -/
structure LargeMcbMappingEntry where
  runStartVbn : ℤ
  /-- The block after the last one. -/
  runEndVbn : ℤ
  /-- The logical block of `runStartVbn`. -/
  startingLbn : ℤ
  deriving DecidableEq, Repr

/-- `BASE_MCB_INTERNAL`. -/
structure BaseMcb where
  /-- `Mapping->Table`. -/
  table : RtlGenericTable LargeMcbMappingEntry
  pairCount : ℕ

/-- `McbMappingCompare`. -/
def mcbMappingCompare (a b : LargeMcbMappingEntry) : Ordering :=
  if a.runStartVbn = b.runStartVbn ∧ a.runEndVbn = b.runEndVbn then .eq
  else if a.runEndVbn ≤ b.runStartVbn then .lt
  else .gt

/-- `McbMappingIntersectCompare`. -/
def mcbMappingIntersectCompare (a b : LargeMcbMappingEntry) : Ordering :=
  if a.runStartVbn ≤ b.runStartVbn ∧ b.runStartVbn < a.runEndVbn then .eq
  else if b.runStartVbn ≤ a.runStartVbn ∧ a.runStartVbn < b.runEndVbn then .eq
  else if a.runStartVbn < b.runStartVbn then .lt
  else if b.runStartVbn < a.runStartVbn then .gt
  else .eq

namespace BaseMcb

/-- `FsRtlInitializeBaseMcb`. -/
def fsRtlInitializeBaseMcb : BaseMcb := ⟨.init, 0⟩

/-- The runs from left to right. -/
def runs (m : BaseMcb) : List LargeMcbMappingEntry := m.table.elements

/-! ### Reading the runs -/

/-- An entry as `FsRtlGetNextBaseMcbEntry` returns it. -/
structure McbEntry where
  vbn : ℤ
  lbn : ℤ
  sectorCount : ℤ
  deriving DecidableEq, Repr

/-- The state of the loop of `FsRtlGetNextBaseMcbEntry`. -/
structure NextState where
  /-- `Run`, and the table as the enumeration has left it. -/
  run : Option LargeMcbMappingEntry
  table : RtlGenericTable LargeMcbMappingEntry
  currentIndex : ℕ
  lastVbn : ℤ
  lastSectorCount : ℤ

/-- One turn of the loop. A run that does not start where the last one has ended comes after a
hole. -/
def nextTurn (runIndex : ℕ) (s : NextState) :
    Turn NextState (Option McbEntry × RtlGenericTable LargeMcbMappingEntry) :=
  match s.run with
  | none => .leave (none, s.table)
  | some run =>
    let hole := unsigned (s.lastVbn + s.lastSectorCount) < unsigned run.runStartVbn
    if hole ∧ runIndex = s.currentIndex then
      let vbn := wrap (s.lastVbn + s.lastSectorCount)
      .leave (some ⟨vbn, -1, wrap (run.runStartVbn - vbn)⟩, s.table)
    else
      let index := if hole then s.currentIndex + 1 else s.currentIndex
      if runIndex = index then
        .leave (some ⟨run.runStartVbn, run.startingLbn, wrap (run.runEndVbn - run.runStartVbn)⟩,
          s.table)
      else
        let (next, table) := s.table.rtlEnumerateGenericTable false
        .again
          { run := next
            table := table
            currentIndex := index + 1
            lastVbn := unsigned run.runStartVbn
            lastSectorCount := unsigned (run.runEndVbn - run.runStartVbn) }

/-- The budget of an enumeration: a turn for every node, and one to see the end. -/
def budget (m : BaseMcb) : ℕ := m.runs.length + 1

/-- `FsRtlGetNextBaseMcbEntry`. -/
def fsRtlGetNextBaseMcbEntry (m : BaseMcb) (runIndex : ℕ) : Run (Option McbEntry × BaseMcb) :=
  let (first, table) := m.table.rtlEnumerateGenericTable true
  match loop (nextTurn runIndex) m.budget ⟨first, table, 0, 0, 0⟩ with
  | none => .error .noReturn
  | some (entry, table) => .ok (entry, { m with table := table })

/-- What `FsRtlLookupBaseMcbEntry` returns. -/
structure McbLookup where
  lbn : ℤ
  sectorCountFromLbn : ℤ
  startingLbn : ℤ
  sectorCountFromStartingLbn : ℤ
  index : ℕ
  deriving DecidableEq, Repr

/-- One turn of the loop of `FsRtlLookupBaseMcbEntry`. -/
def lookupTurn (vbn : ℤ) (s : ℕ × BaseMcb) :
    Turn (ℕ × BaseMcb) (Run (Option McbLookup × BaseMcb)) :=
  match s.2.fsRtlGetNextBaseMcbEntry s.1 with
  | .error e => .leave (.error e)
  | .ok (none, m) => .leave (.ok (none, m))
  | .ok (some last, m) =>
    if vbn < last.vbn + last.sectorCount then
      .leave (.ok (some
        { lbn := if last.lbn = -1 then -1 else wrap (last.lbn + (vbn - last.vbn))
          sectorCountFromLbn := last.vbn + last.sectorCount - vbn
          startingLbn := last.lbn
          sectorCountFromStartingLbn := last.vbn + last.sectorCount - last.vbn
          index := s.1 }, m))
    else .again (s.1 + 1, m)

/-- `FsRtlLookupBaseMcbEntry`. There are at most two entries for a run. -/
def fsRtlLookupBaseMcbEntry (m : BaseMcb) (vbn : ℤ) : Run (Option McbLookup × BaseMcb) :=
  runLoop (lookupTurn vbn) (2 * m.runs.length + 1) (0, m)

/-- **The mapping of an MCB**: the logical block that `FsRtlLookupBaseMcbEntry` gives. Holes
and what lies past the end are not mapped. -/
def mapping (m : BaseMcb) (vbn : ℤ) : Option ℤ :=
  match m.fsRtlLookupBaseMcbEntry vbn with
  | .ok (some e, _) => if e.lbn = -1 then none else some e.lbn
  | _ => none

/-! ### Removing a range -/

/-- Insertion of a run into the table, with its assertion that the run is new. -/
def insertRun (m : BaseMcb) (run : LargeMcbMappingEntry) : Run BaseMcb :=
  match m.table.rtlInsertElementGenericTable (mcbMappingCompare run) run true with
  | (some (_, true), table) => .ok ⟨table, m.pairCount + 1⟩
  | _ => .error .assertion

/-- Deletion of a run from the table. -/
def deleteRun (m : BaseMcb) (run : LargeMcbMappingEntry) : BaseMcb :=
  ⟨(m.table.rtlDeleteElementGenericTable (mcbMappingCompare run)).2, m.pairCount - 1⟩

/-- The run at the root is changed in place. -/
def editRun (m : BaseMcb) (run : LargeMcbMappingEntry) : BaseMcb :=
  { m with table := m.table.setRoot run }

/-- What `FsRtlRemoveBaseMcbEntry` does to a run that intersects the range. -/
def cutRun (needle run : LargeMcbMappingEntry) (m : BaseMcb) : Run BaseMcb := do
  if run.runStartVbn < needle.runStartVbn then
    assert (needle.runStartVbn < run.runEndVbn)
    let m := m.editRun { run with runEndVbn := needle.runStartVbn }
    if needle.runEndVbn < run.runEndVbn then
      -- the range lies inside the run: add the tail back
      m.insertRun
        { runStartVbn := needle.runEndVbn
          runEndVbn := run.runEndVbn
          startingLbn := wrap (run.startingLbn + (needle.runEndVbn - run.runStartVbn)) }
    else return m
  else if needle.runEndVbn < run.runEndVbn then
    assert (run.runStartVbn < needle.runEndVbn)
    let m := m.editRun
      { run with
        runStartVbn := needle.runEndVbn
        startingLbn := wrap (run.startingLbn + (needle.runEndVbn - run.runStartVbn)) }
    if run.runStartVbn < needle.runStartVbn then
      -- add the head back
      m.insertRun { run with runEndVbn := needle.runStartVbn }
    else return m
  else return m.deleteRun run

/-- One turn of the loop of `FsRtlRemoveBaseMcbEntry`. -/
def removeTurn (needle : LargeMcbMappingEntry) (m : BaseMcb) : Turn BaseMcb (Run BaseMcb) :=
  match m.table.rtlLookupElementGenericTable (mcbMappingIntersectCompare needle) with
  | (none, table) => .leave (.ok { m with table := table })
  | (some run, table) =>
    match cutRun needle run { m with table := table } with
    | .error e => .leave (.error e)
    | .ok m => .again m

/-- `FsRtlRemoveBaseMcbEntry`. A turn of its loop ends the intersection with one run. -/
def fsRtlRemoveBaseMcbEntry (m : BaseMcb) (vbn sectorCount : ℤ) : Run (Bool × BaseMcb) := do
  if vbn < 0 ∨ sectorCount ≤ 0 then return (false, m)
  else if wrap (vbn + sectorCount) ≤ vbn then return (false, m)
  else
    let m ← runLoop (removeTurn ⟨vbn, wrap (vbn + sectorCount), -1⟩) m.budget m
    return (true, m)

/-! ### Adding a range -/

/-- `FsRtlAddBaseMcbEntry` merges the new run with the one that ends where it starts, if the
logical blocks go on as well. -/
def mergeLower (m : BaseMcb) (node : LargeMcbMappingEntry) :
    Run (LargeMcbMappingEntry × BaseMcb) := do
  let needle : LargeMcbMappingEntry := ⟨node.runStartVbn - 1, node.runStartVbn, -1⟩
  match m.table.rtlLookupElementGenericTable (mcbMappingIntersectCompare needle) with
  | (none, table) => return (node, { m with table := table })
  | (some lower, table) =>
    let m := { m with table := table }
    if wrap (lower.startingLbn + (lower.runEndVbn - lower.runStartVbn)) = node.startingLbn then
      assert (lower.runEndVbn = node.runStartVbn)
      return ({ node with runStartVbn := lower.runStartVbn, startingLbn := lower.startingLbn },
        m.deleteRun lower)
    else return (node, m)

/-- It merges the new run with the one that starts where it ends, if the logical block of that
one is not smaller than its own. -/
def mergeHigher (m : BaseMcb) (node : LargeMcbMappingEntry) :
    Run (LargeMcbMappingEntry × BaseMcb) := do
  let needle : LargeMcbMappingEntry := ⟨node.runEndVbn, node.runEndVbn + 1, -1⟩
  match m.table.rtlLookupElementGenericTable (mcbMappingIntersectCompare needle) with
  | (none, table) => return (node, { m with table := table })
  | (some higher, table) =>
    let m := { m with table := table }
    if node.startingLbn ≤ higher.startingLbn then
      assert (higher.runStartVbn = node.runEndVbn)
      return ({ node with runEndVbn := higher.runEndVbn }, m.deleteRun higher)
    else return (node, m)

/-- `FsRtlAddBaseMcbEntry`, once the lookup has found nothing against it. -/
def addRun (m : BaseMcb) (vbn lbn sectorCount : ℤ) : Run (Bool × BaseMcb) := do
  let (_, m) ← m.fsRtlRemoveBaseMcbEntry vbn sectorCount
  let (node, m) ← m.mergeLower ⟨vbn, wrap (vbn + sectorCount), lbn⟩
  let (node, m) ← m.mergeHigher node
  let m ← m.insertRun node
  return (true, m)

/-- `FsRtlAddBaseMcbEntry`. -/
def fsRtlAddBaseMcbEntry (m : BaseMcb) (vbn lbn sectorCount : ℤ) : Run (Bool × BaseMcb) := do
  if vbn < 0 then return (false, m)
  else if sectorCount ≤ 0 then return (false, m)
  else
    let (found, m) ← m.fsRtlLookupBaseMcbEntry vbn
    match found with
    | none => m.addRun vbn lbn sectorCount
    | some e =>
      if e.lbn ≠ -1 ∧ e.lbn ≠ lbn then return (false, m)
      else if e.lbn ≠ -1 ∧ sectorCount ≤ e.sectorCountFromLbn then return (true, m)
      else m.addRun vbn lbn sectorCount

/-! ### Splitting -/

/-- One turn of the loop of `FsRtlSplitBaseMcb`. A run that ends after the split point is made
to start there, and is shifted. -/
def splitTurn (vbn amount : ℤ)
    (s : Option LargeMcbMappingEntry × RtlGenericTable LargeMcbMappingEntry) :
    Turn (Option LargeMcbMappingEntry × RtlGenericTable LargeMcbMappingEntry)
      (Run (RtlGenericTable LargeMcbMappingEntry)) :=
  match s.1 with
  | none => .leave (.ok s.2)
  | some run =>
    if run.runEndVbn ≤ vbn then .again (s.2.rtlEnumerateGenericTable false)
    else if run.runEndVbn < wrap (run.runEndVbn + amount) then
      .again ((s.2.setRoot
        { run with runStartVbn := wrap (vbn + amount)
                   runEndVbn := wrap (run.runEndVbn + amount) }).rtlEnumerateGenericTable false)
    else .leave (.error .assertion)

/-- `FsRtlSplitBaseMcb`. `InsertLowerRun` is always null, so that nothing is inserted after the
loop. -/
def fsRtlSplitBaseMcb (m : BaseMcb) (vbn amount : ℤ) : Run (Bool × BaseMcb) := do
  let table ← runLoop (splitTurn vbn amount) m.budget (m.table.rtlEnumerateGenericTable true)
  return (true, { m with table := table })

end BaseMcb

end Windivs

import Windivs.Cm.CellInvariant

/-!
# Validating the bins of a hive

`HvValidateHive` and `HvValidateBin` of `cmcheck.c`: before the registry trusts a hive
it walks over the bins of each storage, and over the cells of each bin, and checks
the sizes it goes by. What the check is for is `Windivs.CheckPromise`: it comes back,
and if it finds nothing wrong, every bin lies inside its storage and is filled by its
cells to the last byte.

The walk over the cells always ends, since every size that passes moves it on
(`Windivs.hvValidateBin_cases`). The walk over the bins does not: an entry of the block
list without a bin is passed over without going on to the next, and so is, in effect,
a bin of less than a block. And three things are not looked at: whether a bin that
starts inside the storage also ends there, whether the last cell of a bin ends where
the bin does, and the bins of the blocks that are stepped over. `Windivs.hiveCheck_iff`
is the exact condition. A storage that the allocator keeps in order meets it
(`Windivs.Sound.of_layout`).

A pointer to a cell is its offset from the bin, and pointers do not wrap around. The
`abs` of the smallest `LONG` is the `ULONG` it is compared and added as.
-/

namespace Windivs

open List

variable {b : BinLayout} {i n o : ℕ}

/-! ### The code -/

/-- `CM_CHECK_REGISTRY_STATUS`, as far as these routines return it. -/
inductive CmCheckStatus where
  | good
  | hiveCorruptSignature
  | binSizeOrOffsetCorrupt
  | binSignatureHeaderCorrupt
  | badFreeCell
  | badAllocCell
  deriving DecidableEq, Repr

/-- `HV_HHIVE_SIGNATURE`. -/
def hvHhiveSignature : ℕ := 0xbee0bee0
/-- `HV_HBIN_SIGNATURE`. -/
def hvHbinSignature : ℕ := 0x6e696268

namespace Dual

variable (d : Dual) (bin : ℕ)

/-- `Bin->Signature`. -/
def binSignature : ℕ := d.mem.readU32 bin

/-- `Bin->FileOffset`. -/
def binFileOffset : ℕ := d.mem.readU32 (bin + 4)

/-- `Bin->Size`. -/
def binSize : ℕ := d.mem.readU32 (bin + 8)

/-- The field `Size` of the cell at an offset from the bin. -/
def cellSize (o : ℕ) : ℤ := d.mem.readI32 (bin + o)

/-- `BlockList[i].BinAddress`, for `i` in range. -/
def binAddress (i : ℕ) : Option ℕ := d.blockList[i]?.bind (·.binAddress)

end Dual

/-- One turn of the loop over the cells of a bin. -/
def cellTurn (d : Dual) (bin : ℕ) (o : ℕ) : Turn ℕ (Run CmCheckStatus) :=
  if o < d.binSize bin then
    if 0 ≤ d.cellSize bin o then
      if d.binSize bin < d.cellSize bin o ∨ d.cellSize bin o = 0 then .leave (.ok .badFreeCell)
      else .again (o + (d.cellSize bin o).natAbs)
    else if d.binSize bin < (d.cellSize bin o).natAbs then .leave (.ok .badAllocCell)
    else .again (o + (d.cellSize bin o).natAbs)
  else .leave (.ok .good)

/-- `HvValidateBin`. Every turn moves on, so one for each byte is enough. -/
def hvValidateBin (d : Dual) (bin : ℕ) : Run CmCheckStatus :=
  if d.binSignature bin ≠ hvHbinSignature then .ok .binSignatureHeaderCorrupt
  else runLoop (cellTurn d bin) (d.binSize bin + 1) 32

/-- The block after a bin: `BlockIndex += Bin->Size / HBLOCK_SIZE`. -/
def nextBlock (d : Dual) (i bin : ℕ) : ℕ := (i + d.binSize bin / 4096) % 0x100000000

/-- One turn of the loop over the blocks of a storage. -/
def checkTurn (d : Dual) (i : ℕ) : Turn ℕ (Run CmCheckStatus) :=
  if i < d.length then
    match d.binAddress i with
    | none =>
      -- `continue`, in a loop whose header does not count
      .again i
    | some bin =>
      if d.length * 4096 % 0x100000000 < d.binSize bin ∨ d.binFileOffset bin / 4096 ≠ i then
        .leave (.ok .binSizeOrOffsetCorrupt)
      else
        match hvValidateBin d bin with
        | .ok .good => .again (nextBlock d i bin)
        | r => .leave r
  else .leave (.ok .good)

/-- The loop over the storages. -/
def validateStorages (fuel : ℕ) (h : HHive) : List HStorageType → Run CmCheckStatus
  | [] => .ok .good
  | t :: storages =>
    match runLoop (checkTurn (h.storage t)) fuel 0 with
    | .ok .good => validateStorages fuel h storages
    | r => r

/-- The storages below `StorageTypeCount`. -/
def storageTypes (storageTypeCount : ℕ) : List HStorageType :=
  [.stable, .volatile].take storageTypeCount

/-- `HvValidateHive`. -/
def hvValidateHive (fuel : ℕ) (h : HHive) (storageTypeCount : ℕ) : Run CmCheckStatus :=
  if h.signature ≠ hvHhiveSignature then .ok .hiveCorruptSignature
  else validateStorages fuel h (storageTypes storageTypeCount)

/-! ### What it is for -/

/-- A bin lies inside its storage. -/
def Inside (d : Dual) (bin : ℕ) : Prop :=
  d.binFileOffset bin / 4096 * 4096 + d.binSize bin ≤ d.length * 4096

/-- The cells of a bin, from its header on, have sizes that are not zero, and end
where the bin ends. -/
def FilledBy (d : Dual) (bin : ℕ) (sizes : List ℤ) : Prop :=
  (∀ s ∈ sizes, s ≠ 0) ∧ (∀ p ∈ piecesFrom 32 sizes, d.cellSize bin p.1 = p.2) ∧
    32 + span sizes = d.binSize bin

/-- Every bin of a storage lies inside it and is filled by its cells. -/
def Tiled (d : Dual) : Prop :=
  ∀ i bin, d.binAddress i = some bin → Inside d bin ∧ ∃ sizes, FilledBy d bin sizes

/-- **What the check is for**: it comes back, and what it finds good is tiled. -/
def CheckPromise (h : HHive) (storageTypeCount : ℕ) : Prop :=
  ∃ fuel status, hvValidateHive fuel h storageTypeCount = .ok status ∧
    (status = .good → ∀ t ∈ storageTypes storageTypeCount, Tiled (h.storage t))

/-! ### The cells of a bin -/

section Cells

variable {d : Dual} {bin : ℕ} {sizes : List ℤ}

/-- The walk from offset `o` on passes over cells of the given sizes. -/
inductive CellWalk (d : Dual) (bin : ℕ) : ℕ → List ℤ → Prop
  | done {o : ℕ} : d.binSize bin ≤ o → CellWalk d bin o []
  | cell {o : ℕ} {sizes : List ℤ} : o < d.binSize bin → d.cellSize bin o ≠ 0 →
      (d.cellSize bin o).natAbs ≤ d.binSize bin →
      CellWalk d bin (o + (d.cellSize bin o).natAbs) sizes →
      CellWalk d bin o (d.cellSize bin o :: sizes)

/-- A cell with a size that is zero or larger than the bin stops the walk. -/
theorem CellWalk.passes (h : CellWalk d bin o sizes) (ho : o < d.binSize bin) :
    d.cellSize bin o ≠ 0 ∧ (d.cellSize bin o).natAbs ≤ d.binSize bin ∧
      ∃ sizes', CellWalk d bin (o + (d.cellSize bin o).natAbs) sizes' := by
  cases h with
  | done hle => omega
  | cell _ hne hle hrest => exact ⟨hne, hle, _, hrest⟩

/-- **The loop over the cells ends**, and finds nothing wrong exactly if the walk
passes over all cells. -/
theorem runLoop_cellTurn (d : Dual) (bin : ℕ) (hn : d.binSize bin - o < n) :
    (runLoop (cellTurn d bin) n o = .ok .good ∧ ∃ sizes, CellWalk d bin o sizes) ∨
      (∃ status : CmCheckStatus, runLoop (cellTurn d bin) n o = .ok status ∧ status ≠ .good) ∧
        ¬∃ sizes, CellWalk d bin o sizes := by
  induction n generalizing o with
  | zero => omega
  | succ n ih =>
    by_cases ho : o < d.binSize bin
    · by_cases hpass : d.cellSize bin o ≠ 0 ∧ (d.cellSize bin o).natAbs ≤ d.binSize bin
      · have hturn : cellTurn d bin o = .again (o + (d.cellSize bin o).natAbs) := by
          rw [cellTurn, if_pos ho]
          by_cases hfree : 0 ≤ d.cellSize bin o
          · rw [if_pos hfree, if_neg (by omega)]
          · rw [if_neg hfree, if_neg (by omega)]
        rw [runLoop_again n hturn]
        rcases ih (o := o + (d.cellSize bin o).natAbs) (by omega) with
          ⟨hgood, sizes, hwalk⟩ | ⟨hstatus, hno⟩
        · exact .inl ⟨hgood, _, .cell ho hpass.1 hpass.2 hwalk⟩
        · refine .inr ⟨hstatus, ?_⟩
          rintro ⟨sizes, hwalk⟩
          exact hno (hwalk.passes ho).2.2
      · have hturn : ∃ status : CmCheckStatus, cellTurn d bin o = .leave (.ok status) ∧
            status ≠ .good := by
          rw [cellTurn, if_pos ho]
          by_cases hfree : 0 ≤ d.cellSize bin o
          · rw [if_pos hfree, if_pos (by omega)]
            exact ⟨_, rfl, by decide⟩
          · rw [if_neg hfree, if_pos (by omega)]
            exact ⟨_, rfl, by decide⟩
        obtain ⟨status, hleave, hne⟩ := hturn
        refine .inr ⟨⟨status, runLoop_leave n hleave, hne⟩, ?_⟩
        rintro ⟨sizes, hwalk⟩
        exact hpass ⟨(hwalk.passes ho).1, (hwalk.passes ho).2.1⟩
    · have hturn : cellTurn d bin o = .leave (.ok .good) := if_neg ho
      exact .inl ⟨runLoop_leave n hturn, [], .done (by omega)⟩

/-- **`HvValidateBin` comes back**, and finds nothing wrong exactly if the signature is
right and the walk passes over all cells. -/
theorem hvValidateBin_cases (d : Dual) (bin : ℕ) :
    (hvValidateBin d bin = .ok .good ∧ d.binSignature bin = hvHbinSignature ∧
        ∃ sizes, CellWalk d bin 32 sizes) ∨
      (∃ status : CmCheckStatus, hvValidateBin d bin = .ok status ∧ status ≠ .good) ∧
        ¬(d.binSignature bin = hvHbinSignature ∧ ∃ sizes, CellWalk d bin 32 sizes) := by
  rw [hvValidateBin]
  by_cases hsig : d.binSignature bin = hvHbinSignature
  · rw [if_neg (not_not_intro hsig)]
    have henough : d.binSize bin - 32 < d.binSize bin + 1 := by omega
    rcases runLoop_cellTurn d bin henough with
      ⟨hgood, hwalk⟩ | ⟨hstatus, hno⟩
    · exact .inl ⟨hgood, hsig, hwalk⟩
    · exact .inr ⟨hstatus, fun hc => hno hc.2⟩
  · rw [if_pos hsig]
    exact .inr ⟨⟨_, rfl, by decide⟩, fun hc => hsig hc.1⟩

/-- The cells the walk passes over are those of the bin. -/
theorem CellWalk.pieces (h : CellWalk d bin o sizes) :
    (∀ s ∈ sizes, s ≠ 0) ∧ ∀ p ∈ piecesFrom o sizes, d.cellSize bin p.1 = p.2 := by
  induction h with
  | done _ => exact ⟨by simp, by simp⟩
  | cell _ hne _ _ ih =>
    refine ⟨forall_mem_cons.mpr ⟨hne, ih.1⟩, ?_⟩
    exact forall_mem_cons.mpr ⟨rfl, ih.2⟩

/-- Cells that end where the bin ends are passed over. -/
theorem cellWalk_of_pieces (hne : ∀ s ∈ sizes, s ≠ 0)
    (hcell : ∀ p ∈ piecesFrom o sizes, d.cellSize bin p.1 = p.2)
    (hend : o + span sizes = d.binSize bin) : CellWalk d bin o sizes := by
  induction sizes generalizing o with
  | nil => exact .done (by simp at hend; omega)
  | cons s sizes ih =>
    rw [piecesFrom_cons, forall_mem_cons] at hcell
    rw [forall_mem_cons] at hne
    rw [span_cons] at hend
    obtain ⟨hs, hrest⟩ := hcell
    have hwalk := ih hne.2 hrest (by omega)
    dsimp only at hs
    subst hs
    exact .cell (by omega) hne.1 (by omega) hwalk

/-- The walk over the cells of a bin goes one way. -/
theorem CellWalk.unique {sizes' : List ℤ} (h : CellWalk d bin o sizes)
    (h' : CellWalk d bin o sizes') : sizes = sizes' := by
  induction h generalizing sizes' with
  | done hle =>
    cases h' with
    | done _ => rfl
    | cell hlt _ _ _ => omega
  | cell hlt _ _ _ ih =>
    cases h' with
    | done hle => omega
    | cell _ _ _ hrest => rw [ih hrest]

/-- The last cell of a bin ends where the bin ends. -/
def EndsExactly (d : Dual) (bin : ℕ) : Prop :=
  ∀ sizes, CellWalk d bin 32 sizes → 32 + span sizes = d.binSize bin

/-- A bin that passes is filled exactly if its last cell ends where it does. -/
theorem filledBy_iff_endsExactly (h : CellWalk d bin 32 sizes) :
    (∃ sizes, FilledBy d bin sizes) ↔ EndsExactly d bin := by
  constructor
  · rintro ⟨sizes', hne, hcell, hend⟩ sizes'' hwalk
    rw [← (cellWalk_of_pieces hne hcell hend).unique hwalk]
    exact hend
  · intro hends
    exact ⟨sizes, h.pieces.1, h.pieces.2, hends sizes h⟩

end Cells

/-! ### The bins of a storage -/

section Bins

variable {d : Dual} {bin : ℕ} {bins : List (ℕ × ℕ)}

/-- What is checked of a bin at a block. -/
structure BinPasses (d : Dual) (i bin : ℕ) : Prop where
  size : d.binSize bin ≤ d.length * 4096 % 0x100000000
  offset : d.binFileOffset bin / 4096 = i
  signature : d.binSignature bin = hvHbinSignature
  cells : ∃ sizes, CellWalk d bin 32 sizes

/-- The walk from block `i` on passes over the given bins, each with the block it is
found at, and reaches the end of the storage: no block that it comes to is without a bin,
and no bin is smaller than a block. -/
inductive BinWalk (d : Dual) : ℕ → List (ℕ × ℕ) → Prop
  | done {i : ℕ} : d.length ≤ i → BinWalk d i []
  | bin {i bin : ℕ} {bins : List (ℕ × ℕ)} : i < d.length → d.binAddress i = some bin →
      BinPasses d i bin → 4096 ≤ d.binSize bin → BinWalk d (nextBlock d i bin) bins →
        BinWalk d i ((i, bin) :: bins)

/-- The walk from block `i` on comes to a bin that does not pass. -/
inductive BinRejected (d : Dual) : ℕ → Prop
  | here {i bin : ℕ} : i < d.length → d.binAddress i = some bin → ¬BinPasses d i bin →
      BinRejected d i
  | later {i bin : ℕ} : i < d.length → d.binAddress i = some bin → BinPasses d i bin →
      BinRejected d (nextBlock d i bin) → BinRejected d i

/-- A bin that is smaller than a block does not move the walk on. -/
theorem BinPasses.nextBlock_eq (h : BinPasses d i bin) (hsmall : d.binSize bin < 4096) :
    nextBlock d i bin = i := by
  have hlt : d.binFileOffset bin < 0x100000000 := Mem.readU32_lt _ _
  have hoffset := h.offset
  rw [nextBlock, Nat.div_eq_of_lt hsmall]
  omega

theorem checkTurn_passes (hi : i < d.length) (hbin : d.binAddress i = some bin)
    (hpass : BinPasses d i bin) : checkTurn d i = .again (nextBlock d i bin) := by
  have hcheck : ¬(d.length * 4096 % 0x100000000 < d.binSize bin ∨
      d.binFileOffset bin / 4096 ≠ i) := by
    rintro (hlt | hne)
    · exact absurd hpass.size (by omega)
    · exact hne hpass.offset
  rcases hvValidateBin_cases d bin with ⟨hgood, -⟩ | ⟨-, hno⟩
  · rw [checkTurn, if_pos hi, hbin]
    dsimp only
    rw [if_neg hcheck, hgood]
  · exact absurd ⟨hpass.signature, hpass.cells⟩ hno

theorem checkTurn_rejects (hi : i < d.length) (hbin : d.binAddress i = some bin)
    (hfail : ¬BinPasses d i bin) :
    ∃ status : CmCheckStatus, checkTurn d i = .leave (.ok status) ∧ status ≠ .good := by
  rw [checkTurn, if_pos hi, hbin]
  dsimp only
  split
  · exact ⟨_, rfl, by decide⟩
  · rename_i hcheck
    rw [not_or, not_lt, not_not] at hcheck
    rcases hvValidateBin_cases d bin with ⟨-, hsig, hcells⟩ | ⟨⟨status, hstatus, hne⟩, -⟩
    · exact absurd ⟨hcheck.1, hcheck.2, hsig, hcells⟩ hfail
    · rw [hstatus]
      refine ⟨status, ?_, hne⟩
      cases status <;> first | rfl | exact absurd rfl hne

/-- A walk that passes makes the loop end with nothing found wrong. -/
theorem BinWalk.run (h : BinWalk d i bins) :
    ∃ n, ∀ fuel ≥ n, runLoop (checkTurn d) fuel i = .ok .good := by
  suffices hsome : ∃ n, runLoop (checkTurn d) n i = .ok .good by
    obtain ⟨n, hn⟩ := hsome
    exact ⟨n, fun fuel hfuel => runLoop_mono hn hfuel⟩
  induction h with
  | done hi => exact ⟨1, runLoop_leave 0 (if_neg (by omega))⟩
  | bin hi hbin hpass _ _ ih =>
    obtain ⟨n, hn⟩ := ih
    exact ⟨n + 1, (runLoop_again n (checkTurn_passes hi hbin hpass)).trans hn⟩

/-- A bin that does not pass makes the loop end with something found wrong. -/
theorem BinRejected.run (h : BinRejected d i) :
    ∃ (n : ℕ) (status : CmCheckStatus), status ≠ .good ∧
      ∀ fuel ≥ n, runLoop (checkTurn d) fuel i = .ok status := by
  suffices hsome : ∃ (n : ℕ) (status : CmCheckStatus), status ≠ .good ∧
      runLoop (checkTurn d) n i = .ok status by
    obtain ⟨n, status, hne, hn⟩ := hsome
    exact ⟨n, status, hne, fun fuel hfuel => runLoop_mono hn hfuel⟩
  induction h with
  | here hi hbin hfail =>
    obtain ⟨status, hturn, hne⟩ := checkTurn_rejects hi hbin hfail
    exact ⟨1, status, hne, runLoop_leave 0 hturn⟩
  | later hi hbin hpass _ ih =>
    obtain ⟨n, status, hne, hn⟩ := ih
    exact ⟨n + 1, status, hne, (runLoop_again n (checkTurn_passes hi hbin hpass)).trans hn⟩

/-- **Otherwise the loop does not come back.** -/
theorem runLoop_checkTurn_diverges (hwalk : ¬∃ bins, BinWalk d i bins) (hno : ¬BinRejected d i)
    (fuel : ℕ) : runLoop (checkTurn d) fuel i = .error .noReturn := by
  have hnone : loop (checkTurn d) fuel i = none := by
    refine loop_eq_none (fun i => (¬∃ bins, BinWalk d i bins) ∧ ¬BinRejected d i) ?_
      ⟨hwalk, hno⟩ fuel
    rintro i ⟨hwalk, hno⟩
    have hi : i < d.length := by
      by_contra hge
      exact hwalk ⟨[], .done (by omega)⟩
    cases hbin : d.binAddress i with
    | none => exact ⟨i, by rw [checkTurn, if_pos hi, hbin], hwalk, hno⟩
    | some bin =>
      have hpass : BinPasses d i bin := by
        by_contra hfail
        exact hno (.here hi hbin hfail)
      refine ⟨_, checkTurn_passes hi hbin hpass, ?_, fun hc => hno (.later hi hbin hpass hc)⟩
      rintro ⟨bins, hrest⟩
      by_cases hsmall : d.binSize bin < 4096
      · rw [hpass.nextBlock_eq hsmall] at hrest
        exact hwalk ⟨bins, hrest⟩
      · exact hwalk ⟨_, .bin hi hbin hpass (not_lt.1 hsmall) hrest⟩
  rw [runLoop, hnone, Option.getD_none]

theorem BinWalk.passes (h : BinWalk d i bins) {p : ℕ × ℕ} (hp : p ∈ bins) :
    d.binAddress p.1 = some p.2 ∧ BinPasses d p.1 p.2 := by
  induction h with
  | done _ => cases hp
  | bin _ hbin hpass _ _ ih =>
    rcases mem_cons.mp hp with rfl | hp
    · exact ⟨hbin, hpass⟩
    · exact ih hp

/-- The walk over the bins of a storage goes one way. -/
theorem BinWalk.unique {bins' : List (ℕ × ℕ)} (h : BinWalk d i bins) (h' : BinWalk d i bins') :
    bins = bins' := by
  induction h generalizing bins' with
  | done hi =>
    cases h' with
    | done _ => rfl
    | bin hlt _ _ _ _ => omega
  | bin hlt hbin _ _ _ ih =>
    cases h' with
    | done hi => omega
    | bin _ hbin' _ _ hrest =>
      rw [hbin, Option.some.injEq] at hbin'
      subst hbin'
      rw [ih hrest]

/-- **What the walk does not look at**: whether a bin ends inside the storage, whether
its last cell ends where it does, and the bins of the blocks that are stepped over. -/
structure Unchecked (d : Dual) (bins : List (ℕ × ℕ)) : Prop where
  inside : ∀ p ∈ bins, p.1 * 4096 + d.binSize p.2 ≤ d.length * 4096
  ends : ∀ p ∈ bins, EndsExactly d p.2
  skipped : ∀ i bin, d.binAddress i = some bin → bin ∉ bins.map Prod.snd →
    Inside d bin ∧ ∃ sizes, FilledBy d bin sizes

/-- A storage whose bins pass is tiled exactly if what is not checked holds. -/
theorem BinWalk.tiled_iff (h : BinWalk d i bins) : Tiled d ↔ Unchecked d bins := by
  have hinside : ∀ p ∈ bins, (Inside d p.2 ↔ p.1 * 4096 + d.binSize p.2 ≤ d.length * 4096) := by
    intro p hp
    rw [Inside, (h.passes hp).2.offset]
  have hfilled : ∀ p ∈ bins, ((∃ sizes, FilledBy d p.2 sizes) ↔ EndsExactly d p.2) := by
    intro p hp
    obtain ⟨sizes, hcells⟩ := (h.passes hp).2.cells
    exact filledBy_iff_endsExactly hcells
  constructor
  · intro htiled
    refine ⟨fun p hp => ?_, fun p hp => ?_, fun i bin hbin _ => htiled i bin hbin⟩
    · exact (hinside p hp).mp (htiled p.1 p.2 (h.passes hp).1).1
    · exact (hfilled p hp).mp (htiled p.1 p.2 (h.passes hp).1).2
  · intro hrest i bin hbin
    by_cases hmem : bin ∈ bins.map Prod.snd
    · obtain ⟨p, hp, rfl⟩ := mem_map.mp hmem
      exact ⟨(hinside p hp).mpr (hrest.inside p hp), (hfilled p hp).mpr (hrest.ends p hp)⟩
    · exact hrest.skipped i bin hbin hmem

end Bins

/-! ### The exact condition -/

/-- The walk over a storage passes over all of it, and what is not checked holds. -/
def Sound (d : Dual) : Prop := ∃ bins, BinWalk d 0 bins ∧ Unchecked d bins

/-- Some bin does not pass, and the walk comes to it. -/
def SomeRejected (h : HHive) : List HStorageType → Prop
  | [] => False
  | t :: storages => BinRejected (h.storage t) 0 ∨
    (∃ bins, BinWalk (h.storage t) 0 bins) ∧ SomeRejected h storages

section Storages

variable {h : HHive} {storages : List HStorageType}

theorem validateStorages_good (hwalk : ∀ t ∈ storages, ∃ bins, BinWalk (h.storage t) 0 bins) :
    ∃ n, ∀ fuel ≥ n, validateStorages fuel h storages = .ok .good := by
  induction storages with
  | nil => exact ⟨0, fun _ _ => rfl⟩
  | cons t storages ih =>
    obtain ⟨⟨bins, ht⟩, hrest⟩ := forall_mem_cons.mp hwalk
    obtain ⟨n, hn⟩ := ht.run
    obtain ⟨n', hn'⟩ := ih hrest
    refine ⟨max n n', fun fuel hfuel => ?_⟩
    rw [validateStorages, hn fuel (by omega)]
    exact hn' fuel (by omega)

theorem validateStorages_rejected (hrejected : SomeRejected h storages) :
    ∃ (fuel : ℕ) (status : CmCheckStatus), status ≠ .good ∧
      ∀ n ≥ fuel, validateStorages n h storages = .ok status := by
  induction storages with
  | nil => exact hrejected.elim
  | cons t storages ih =>
    rcases hrejected with hhere | ⟨⟨bins, hwalk⟩, hlater⟩
    · obtain ⟨n, status, hne, hn⟩ := hhere.run
      refine ⟨n, status, hne, fun fuel hfuel => ?_⟩
      rw [validateStorages, hn fuel hfuel]
      cases status <;> first | rfl | exact absurd rfl hne
    · obtain ⟨n, hn⟩ := hwalk.run
      obtain ⟨n', status, hne, hn'⟩ := ih hlater
      refine ⟨max n n', status, hne, fun fuel hfuel => ?_⟩
      rw [validateStorages, hn fuel (by omega)]
      exact hn' fuel (by omega)

theorem validateStorages_diverges (hrejected : ¬SomeRejected h storages)
    (hwalk : ¬∀ t ∈ storages, ∃ bins, BinWalk (h.storage t) 0 bins) (fuel : ℕ) :
    validateStorages fuel h storages = .error .noReturn := by
  induction storages with
  | nil => exact absurd (fun t ht => absurd ht not_mem_nil) hwalk
  | cons t storages ih =>
    rw [SomeRejected, not_or] at hrejected
    by_cases ht : ∃ bins, BinWalk (h.storage t) 0 bins
    · have hrest := ih (fun hc => hrejected.2 ⟨ht, hc⟩)
        fun hc => hwalk (forall_mem_cons.mpr ⟨ht, hc⟩)
      obtain ⟨bins, hbins⟩ := ht
      obtain ⟨n, hn⟩ := hbins.run
      rw [validateStorages]
      rcases runLoop_eq_or (hn n (le_refl n)) fuel with hok | hspent
      · rw [hok]
        exact hrest
      · rw [hspent]
    · rw [validateStorages, runLoop_checkTurn_diverges ht hrejected.1]

/-- A larger budget changes nothing once the check has come back. -/
theorem validateStorages_mono {n fuel : ℕ} {status : CmCheckStatus}
    (hn : validateStorages n h storages = .ok status) (hle : n ≤ fuel) :
    validateStorages fuel h storages = .ok status := by
  induction storages with
  | nil => exact hn
  | cons t storages ih =>
    rw [validateStorages] at hn ⊢
    cases hrun : runLoop (checkTurn (h.storage t)) n 0 with
    | error fault =>
      rw [hrun] at hn
      cases hn
    | ok status' =>
      rw [hrun] at hn
      rw [runLoop_mono hrun hle]
      cases status' with
      | good => exact ih hn
      | _ => exact hn

/-- What a storage that passes needs besides. -/
theorem sound_iff_of_walk {d : Dual} (hwalk : ∃ bins, BinWalk d 0 bins) : Sound d ↔ Tiled d := by
  obtain ⟨bins, hbins⟩ := hwalk
  rw [hbins.tiled_iff]
  constructor
  · rintro ⟨bins', hbins', hrest⟩
    rwa [hbins.unique hbins']
  · exact fun hrest => ⟨bins, hbins, hrest⟩

end Storages

/-- **When the check keeps its promise**: it sees at once that this is no hive, or it
comes to a bin that does not pass, or every storage is sound. -/
def CheckKept (h : HHive) (storageTypeCount : ℕ) : Prop :=
  h.signature ≠ hvHhiveSignature ∨ SomeRejected h (storageTypes storageTypeCount) ∨
    ∀ t ∈ storageTypes storageTypeCount, Sound (h.storage t)

/-- **Validating a hive** does what it is for exactly under `Windivs.CheckKept`. -/
theorem hiveCheck_iff (h : HHive) (storageTypeCount : ℕ) :
    CheckPromise h storageTypeCount ↔ CheckKept h storageTypeCount := by
  rw [CheckPromise, CheckKept]
  by_cases hsig : h.signature = hvHhiveSignature
  swap
  · refine iff_of_true ⟨0, .hiveCorruptSignature, ?_, nofun⟩ (.inl hsig)
    rw [hvValidateHive, if_pos hsig]
  have hrun : ∀ fuel, hvValidateHive fuel h storageTypeCount =
      validateStorages fuel h (storageTypes storageTypeCount) := by
    intro fuel
    rw [hvValidateHive, if_neg (not_not_intro hsig)]
  simp only [hrun]
  rw [or_iff_right (not_not_intro hsig)]
  by_cases hrejected : SomeRejected h (storageTypes storageTypeCount)
  · obtain ⟨n, status, hne, hn⟩ := validateStorages_rejected hrejected
    exact iff_of_true ⟨n, status, hn n (le_refl n), fun hc => absurd hc hne⟩ (.inl hrejected)
  rw [or_iff_right hrejected]
  by_cases hwalk : ∀ t ∈ storageTypes storageTypeCount, ∃ bins, BinWalk (h.storage t) 0 bins
  · obtain ⟨n, hn⟩ := validateStorages_good hwalk
    have hsound : (∀ t ∈ storageTypes storageTypeCount, Sound (h.storage t)) ↔
        ∀ t ∈ storageTypes storageTypeCount, Tiled (h.storage t) :=
      forall₂_congr fun t ht => sound_iff_of_walk (hwalk t ht)
    rw [hsound]
    constructor
    · rintro ⟨fuel, status, hstatus, htiled⟩
      have hlate := validateStorages_mono hstatus (le_max_right n fuel)
      rw [hn _ (le_max_left n fuel), Except.ok.injEq] at hlate
      exact htiled hlate.symm
    · exact fun htiled => ⟨n, .good, hn n (le_refl n), fun _ => htiled⟩
  · refine iff_of_false ?_ fun hc => hwalk fun t ht => ?_
    · rintro ⟨fuel, status, hstatus, -⟩
      rw [validateStorages_diverges hrejected hwalk] at hstatus
      cases hstatus
    · obtain ⟨bins, hbins, -⟩ := hc t ht
      exact ⟨bins, hbins⟩

/-! ### Storages in order -/

section Layout

variable {d : Dual} {bins : List BinLayout}

/-- A bin that is in memory is filled by its cells. -/
theorem BinLayout.Holds.filledBy (h : b.Holds d.mem) : FilledBy d b.start b.sizes := by
  refine ⟨fun s hs => (h.sizes s hs).1, fun p hp => h.headers _ (mem_piecesFrom_add hp), ?_⟩
  rw [Dual.binSize, h.size, ← h.span_sizes, Nat.add_comm]

/-- A bin of a storage in order passes. -/
theorem Layout.binPasses (h : Layout d bins) (hb : b ∈ bins)
    (hsig : d.binSignature b.start = hvHbinSignature) : BinPasses d (b.start / 4096) b.start := by
  have hholds := h.holds b hb
  obtain ⟨hne, hcell, hend⟩ := hholds.filledBy
  have hfin := (h.contiguous.bounds hb).2
  have hsmall := h.small
  refine ⟨?_, ?_, hsig, b.sizes, cellWalk_of_pieces hne hcell hend⟩
  · rw [Dual.binSize, hholds.size]
    rw [BinLayout.fin] at hfin
    omega
  · rw [Dual.binFileOffset, hholds.fileOffset]

theorem Layout.binAddress (h : Layout d bins) (hb : b ∈ bins)
    (hi : i < b.blocks) : d.binAddress (b.start / 4096 + i) = some b.start := by
  rw [Dual.binAddress, h.blockList b hb i hi, Option.bind_some]

section

variable (h : Layout d bins) (hsig : ∀ b ∈ bins, d.binSignature b.start = hvHbinSignature)
include h hsig

/-- The walk over a storage in order passes over its bins one by one. -/
theorem Layout.binWalk {lo : ℕ} {rest : List BinLayout} (hsub : ∀ b ∈ rest, b ∈ bins)
    (hcont : Contiguous lo rest (d.length * 4096)) :
    BinWalk d (lo / 4096) (rest.map fun b => (b.start / 4096, b.start)) := by
  induction rest generalizing lo with
  | nil =>
    have heq : lo = d.length * 4096 := hcont
    exact .done (by omega)
  | cons b rest ih =>
    obtain ⟨hb, hrest⟩ := forall_mem_cons.mp hsub
    obtain ⟨rfl, hcont⟩ := hcont
    have hholds := h.holds b hb
    have hpos := hholds.blocks_pos
    have hle := hcont.le
    have hsmall := h.small
    have hnext : nextBlock d (b.start / 4096) b.start = b.fin / 4096 := by
      rw [nextBlock, Dual.binSize, hholds.size]
      rw [BinLayout.fin] at hle ⊢
      omega
    refine .bin ?_ ?_ (h.binPasses hb (hsig b hb)) ?_ ?_
    · rw [BinLayout.fin] at hle
      omega
    · exact h.binAddress hb hpos
    · rw [Dual.binSize, hholds.size]
      omega
    · rw [hnext]
      exact ih hrest hcont

/-- **What the allocator keeps in order passes the check**, and the check is right. -/
theorem Sound.of_layout : Sound d := by
  have hwalk : BinWalk d 0 _ := h.binWalk hsig (fun _ hb => hb) h.contiguous
  refine ⟨_, hwalk, hwalk.tiled_iff.mp fun i bin hbin => ?_⟩
  have hi : i < d.length := by
    by_contra hge
    rw [Dual.binAddress, getElem?_eq_none (not_lt.mp hge)] at hbin
    cases hbin
  obtain ⟨b, hb, hlo, hhi⟩ := h.contiguous.exists_mem (a := i * 4096) (Nat.zero_le _) (by omega)
  have haligned := (h.holds b hb).aligned
  have haddress := h.binAddress hb (i := i - b.start / 4096) (by rw [BinLayout.fin] at hhi; omega)
  rw [show b.start / 4096 + (i - b.start / 4096) = i by omega, hbin, Option.some.injEq] at haddress
  subst haddress
  refine ⟨?_, b.sizes, (h.holds b hb).filledBy⟩
  have hfin := (h.contiguous.bounds hb).2
  rw [Inside, Dual.binFileOffset, Dual.binSize, (h.holds b hb).fileOffset, (h.holds b hb).size]
  rw [BinLayout.fin] at hfin
  omega

end

/-- **There are no false alarms**: a hive whose storages are in order is found to be good. -/
theorem hvValidateHive_good {h : HHive} {storageTypeCount : ℕ}
    (hsig : h.signature = hvHhiveSignature)
    (horder : ∀ t ∈ storageTypes storageTypeCount, ∃ bins, Layout (h.storage t) bins ∧
      ∀ b ∈ bins, (h.storage t).binSignature b.start = hvHbinSignature) :
    ∃ n, ∀ fuel ≥ n, hvValidateHive fuel h storageTypeCount = .ok .good := by
  obtain ⟨n, hn⟩ := validateStorages_good fun t ht => by
    obtain ⟨bins, hl, hsigned⟩ := horder t ht
    obtain ⟨walk, hwalk, -⟩ := Sound.of_layout hl hsigned
    exact ⟨walk, hwalk⟩
  refine ⟨n, fun fuel hfuel => ?_⟩
  rw [hvValidateHive, if_neg (not_not_intro hsig), hn fuel hfuel]

theorem signed_sharedDual : ∀ b ∈ sharedBins,
    sharedDual.binSignature b.start = hvHbinSignature := by
  simp only [sharedBins, mem_singleton, forall_eq]
  decide +kernel

/-- A bin with a free cell between two live ones, and nothing in the volatile storage. -/
theorem hvValidateHive_good_shared :
    ∃ n, ∀ fuel ≥ n, hvValidateHive fuel sharedHive 2 = .ok .good := by
  refine hvValidateHive_good rfl fun t _ => ?_
  cases t with
  | stable => exact ⟨sharedBins, layout_sharedDual, signed_sharedDual⟩
  | volatile => exact ⟨[], layout_emptyDual, by simp⟩

end Layout

/-! ### Two hives that are not checked -/

/-- A storage of one block that belongs to no bin. -/
def missingBin : Dual where
  blockList := [⟨none, none⟩]
  freeDisplay := fun _ => hcellNil
  mem := fun _ => 0

/-- A storage of one bin of one block, whose only cell is eight bytes too long. -/
def overlongCell : Dual where
  blockList := [⟨some 0, some 0⟩]
  freeDisplay := fun _ => hcellNil
  mem := ((Mem.writeU32 (fun _ => 0) 0 hvHbinSignature).writeU32 8 4096).writeU32 32 4072

/-- The walk does not get past a block without a bin. -/
theorem not_binWalk_of_none {d : Dual} (hi : i < d.length) (hnone : d.binAddress i = none) :
    (¬∃ bins, BinWalk d i bins) ∧ ¬BinRejected d i := by
  constructor
  · rintro ⟨bins, hwalk⟩
    cases hwalk with
    | done hge => omega
    | bin _ hbin _ _ _ =>
      rw [hnone] at hbin
      cases hbin
  · intro hrejected
    cases hrejected with
    | here _ hbin _ | later _ hbin _ _ =>
      rw [hnone] at hbin
      cases hbin

theorem binSize_overlongCell : overlongCell.binSize 0 = 4096 := by with_unfolding_all decide

theorem cellWalk_overlongCell : CellWalk overlongCell 0 32 [4072] := by
  have hsize : overlongCell.cellSize 0 32 = 4072 := by with_unfolding_all decide
  have hbin := binSize_overlongCell
  have hdone : CellWalk overlongCell 0 (32 + (overlongCell.cellSize 0 32).natAbs) [] :=
    .done (by rw [hsize, hbin]; decide)
  rw [← hsize]
  exact .cell (by rw [hbin]; decide) (by rw [hsize]; decide) (by rw [hsize, hbin]; decide) hdone

theorem binWalk_overlongCell : BinWalk overlongCell 0 [(0, 0)] := by
  have hoffset : overlongCell.binFileOffset 0 = 0 := by with_unfolding_all decide
  have hsignature : overlongCell.binSignature 0 = hvHbinSignature := by with_unfolding_all decide
  have hpass : BinPasses overlongCell 0 0 := by
    refine ⟨?_, by rw [hoffset], hsignature, _, cellWalk_overlongCell⟩
    rw [binSize_overlongCell]
    decide
  have hnext : BinWalk overlongCell (nextBlock overlongCell 0 0) [] :=
    .done (by rw [nextBlock, binSize_overlongCell]; decide)
  exact .bin (by decide) rfl hpass (by rw [binSize_overlongCell]) hnext

/-- **The check does not come back, or lets through what it should not.** An entry of the
block list without a bin keeps it going forever; and a bin whose last cell ends behind
it is good. -/
theorem check_not_kept :
    (∀ fuel, hvValidateHive fuel (hiveOf missingBin emptyDual) 2 = .error .noReturn) ∧
      ∃ fuel, hvValidateHive fuel (hiveOf overlongCell emptyDual) 2 = .ok .good ∧
        ¬Tiled overlongCell := by
  constructor
  · intro fuel
    obtain ⟨hwalk, hno⟩ := not_binWalk_of_none (d := missingBin) (i := 0) (by decide) rfl
    have hrejected : ¬SomeRejected (hiveOf missingBin emptyDual) (storageTypes 2) := by
      rintro (hhere | ⟨hc, -⟩)
      · exact hno hhere
      · exact hwalk hc
    exact validateStorages_diverges hrejected
      (fun hall => hwalk (hall .stable mem_cons_self)) fuel
  · have hwalks : ∀ t ∈ [HStorageType.stable, .volatile],
        ∃ bins, BinWalk ((hiveOf overlongCell emptyDual).storage t) 0 bins := by
      intro t _
      cases t with
      | stable => exact ⟨_, binWalk_overlongCell⟩
      | volatile => exact ⟨[], .done (by decide)⟩
    obtain ⟨n, hn⟩ := validateStorages_good hwalks
    refine ⟨n, hn n (le_refl n), fun htiled => ?_⟩
    have hends := (binWalk_overlongCell.tiled_iff.mp htiled).ends _ (mem_singleton_self _)
    have hlast := hends _ cellWalk_overlongCell
    rw [binSize_overlongCell] at hlast
    exact absurd hlast (by decide)

end Windivs

import Windivs.Cm.CellSteps

/-!
# Allocating a cell

`HvAllocateCell` takes the first free cell that is large enough out of its list,
or adds a bin and takes the one cell of it; what the request does not need is
split off and listed. `Windivs.hvAllocateCell_spec` says all of it: that the call
returns, which cells are live after it, that their bytes are kept, and that the
free lists are again exactly the free cells.

A bin can only be added while the storage stays below `2 ^ 31` bytes
(`Windivs.Fits`): the source does not check this, and the cells beyond that
offset have indices with the type bit of the other storage.
-/

namespace Windivs

open List Hole

variable {a n : ℕ} {alloc : Allocations} {d : Dual}

/-! ### Allocation -/

section Allocate

variable {t : HStorageType} {h : HHive} {bins : List BinLayout} {free : Set (ℕ × ℤ)}
  {z : Hole} {s : ℤ} {size : ℕ}

theorem cellIndex_add (hlt : z.offset + size < 0x80000000) :
    (cellIndex t z.offset + size) % 0x100000000 = cellIndex t (z.offset + size) := by
  cases t <;> rw [cellIndex, cellIndex, HStorageType.toNat] <;> omega

/-- Setting the type bit of an offset. -/
theorem or_typeBit {o : ℕ} (ho : o < 0x80000000) : o ||| t.toNat * 0x80000000 = cellIndex t o := by
  cases t
  · simp [cellIndex, HStorageType.toNat]
  · have h := Nat.two_pow_add_eq_or_of_lt (show o < 2 ^ 31 from ho) 1
    rw [Nat.or_comm] at h
    rw [cellIndex, Nat.add_comm]
    exact h.symm

/-- The stretch of a single cell lies in the storage. -/
theorem Layout.fill_bounds (hl : Layout d (z.fill [s])) :
    (z.offset + 8 ≤ 0x80000000 ∧ z.offset + s.natAbs ≤ 0x80000000) ∧ s ≠ 0 ∧ 8 ∣ s.natAbs ∧ d.mem.readI32 z.offset = s := by
  have hmem : (z.offset, s) ∈ allCells (z.fill [s]) := mem_allCells_fill.2 (.inr (by simp))
  obtain ⟨-, h8, -, hdvd, hlt⟩ := hl.cell_bounds hmem
  have hread := hl.header hmem
  refine ⟨hlt, fun he => ?_, hdvd, hread⟩
  simp [he] at h8

section

variable (hs : AllocState t h (z.fill [s]) (z.freeAround s.natAbs)) (hpos : 0 < s) (h16 : 16 ≤ size)
  (h8 : 8 ∣ size)
include hs hpos h16 h8

/-- **The split of `HvAllocateCell`**: the free cell stays as it is, or is cut in
two, and then what is left of it is listed. -/
theorem splitFreeCell_spec :
    ∃ h' s' rest, splitFreeCell h ⟨t, z.offset⟩ size t (cellIndex t z.offset) = .ok h' ∧
      (s' = s ∧ rest = [] ∨ s' = size ∧ rest = [s - size] ∧ 0 < s - size) ∧
      AllocState t h' (z.fill (s' :: rest))
        (z.freeAround s.natAbs ∪ {p | p ∈ piecesFrom (z.offset + s'.natAbs) rest}) ∧
      Keeps t (z.liveAround s.natAbs) h h' := by
  obtain ⟨hlt, -, hdvd, hread⟩ := hs.layout.fill_bounds
  have hreadU : h.readU32 ⟨t, z.offset⟩ = s.toNat := Mem.readU32_eq_toNat hread hpos
  by_cases hsplit : size + 16 < s.toNat
  · -- the headers of the two parts
    set m := ((h.mem t).writeI32 (z.offset + size) (s - size)).writeI32 z.offset size with hm
    have hspan : span [(size : ℤ), s - size] = span [s] := by
      simp only [span_cons, span_nil]
      omega
    obtain ⟨hs1, hk1⟩ := hs.retile (m := m) hspan
      (by
        intro x hx
        simp only [mem_cons, not_mem_nil, or_false] at hx
        rcases hx with rfl | rfl <;> omega)
      (by
        intro p hp
        simp only [piecesFrom_cons, piecesFrom_nil, mem_cons, not_mem_nil, or_false,
          Int.natAbs_natCast] at hp
        rcases hp with rfl | rfl
        · exact Mem.readI32_writeI32 _ _ (by omega) (by omega)
        · rw [hm, Mem.readI32_writeI32_ne _ _ (by simp only; omega)]
          exact Mem.readI32_writeI32 _ _ (by omega) (by omega))
      (fun a ha => by
        simp only [span_cons, span_nil] at ha
        rw [hm, Mem.writeI32_of_notMem (by omega), Mem.writeI32_of_notMem (by omega)])
      (fun q hq => by simpa using hq.1)
    simp only [span_cons, span_nil, Nat.add_zero] at hk1
    have hrest : (z.offset + size, s - size) ∈ freeCells (z.fill [(size : ℤ), s - size]) :=
      ⟨mem_allCells_fill.2 (.inr (by simp)), by simp only; omega⟩
    have hnew : (z.offset + size, s - size) ∉ z.freeAround s.natAbs := by
      rintro ⟨hmem, -⟩
      have := hs.layout.around_disjoint (p := (z.offset + size, s - size)) (by simpa using hmem)
      simp only [span_cons, span_nil] at this
      omega
    obtain ⟨h₂, heq2, hs2, hk2⟩ := hs1.hvpAddFree_spec hrest hnew
    obtain ⟨h3, heq3, hs3, hk3⟩ := hs2.markIfStable_spec hrest.1 (z.liveAround s.natAbs)
    have hk2' : Keeps t (z.liveAround s.natAbs) (h.setMem t m) h₂ := by
      refine hk2.mono fun p hp => ⟨mem_allCells_fill.2 (.inl ?_), hp.2⟩
      rw [hspan]
      simpa using hp.1
    have hk := (hk1.trans hk2').trans hk3
    refine ⟨h3, (size : ℤ), [s - size], ?_, .inr ⟨rfl, rfl, by omega⟩, ?_, hk⟩
    · simp only [splitFreeCell, hreadU, hsplit, if_true, CellPtr.add, HHive.writeI32_mk,
        HHive.mem_setMem, HHive.setMem_setMem, HHive.readI32_mk]
      rw [cellIndex_add (by omega), show (h.mem t).readI32 z.offset = s from hread, ← hm]
      simp only at heq2
      rw [heq2]
      exact heq3
    · convert hs3 using 1
      ext p
      simp only [piecesFrom_cons, piecesFrom_nil, mem_singleton, Int.natAbs_natCast,
        Set.mem_union, Set.mem_ofPred_eq, Set.mem_insert_iff]
      tauto
  · refine ⟨h, s, [], ?_, .inl ⟨rfl, rfl⟩, ?_, Keeps.refl ..⟩
    · simp only [splitFreeCell, hreadU, hsplit, if_false]
      rfl
    · convert hs using 1
      simp

/-- **`HvAllocateCell`, given a free cell**: the cell, or the first part of it,
is live, its data are zero, and the lists are right again. -/
theorem takeFreeCell_spec (hle : size ≤ s.toNat) :
    ∃ h' s' rest, takeFreeCell h size t (cellIndex t z.offset) = .ok (cellIndex t z.offset, h') ∧
      (s' = s ∧ rest = [] ∨ s' = size ∧ rest = [s - size] ∧ 0 < s - size) ∧
      AllocState t h' (z.fill (-s' :: rest)) (freeCells (z.fill (-s' :: rest))) ∧
      Keeps t (z.liveAround s.natAbs) h h' ∧
      ∀ a, z.offset + 4 ≤ a → a < z.offset + size → h'.mem t a = 0 := by
  obtain ⟨hlt, -, hdvd, -⟩ := hs.layout.fill_bounds
  have hheader : hvpGetCellHeader h (cellIndex t z.offset) = .ok ⟨t, z.offset⟩ := by
    have := hs.getCellHeader (mem_allCells_fill.2 (.inr (mem_singleton.2 rfl)))
    exact this
  obtain ⟨h₁, s', rest, heq1, hcase, hs1, hk1⟩ := splitFreeCell_spec hs hpos h16 h8
  obtain ⟨h₂, heq2, hs2, hk2⟩ := hs1.markIfStable_spec (p := (z.offset, s'))
    (mem_allCells_fill.2 (.inr (by simp))) (z.liveAround s.natAbs)
  -- what the two cases have in common
  have hs' : 0 < s' ∧ (size : ℤ) ≤ s' ∧ 8 ∣ s'.natAbs ∧ s'.natAbs + span rest = s.natAbs ∧
      ∀ x ∈ rest, 0 < x := by
    rcases hcase with ⟨rfl, rfl⟩ | ⟨rfl, rfl, hrest⟩
    · exact ⟨hpos, by omega, hdvd, by simp, by simp⟩
    · refine ⟨by omega, le_rfl, by simpa using h8, ?_, by simpa using hrest⟩
      simp only [span_cons, span_nil]
      omega
  obtain ⟨hs'pos, hsize, hdvd', hspan, hrestpos⟩ := hs'
  -- the first part as a stretch of its own
  set w : Hole := { z with right := rest ++ z.right } with hw
  have hfill : ∀ x, z.fill (x :: rest) = w.fill [x] := by
    intro x
    simp [fill, hw]
  have haround : ∀ p, p ∈ w.around s'.natAbs ↔
      p ∈ z.around s.natAbs ∨ p ∈ piecesFrom (z.offset + s'.natAbs) rest := by
    intro p
    simp only [around, hw, mem_append, piecesFrom_append, offset, ← hspan, Nat.add_assoc]
    tauto
  rw [hfill] at hs2
  have hread : (h₂.mem t).readI32 z.offset = s' := hs2.layout.fill_bounds.2.2.2
  set m := ((h₂.mem t).writeI32 z.offset (-s')).fill (z.offset + 4) (size - 4) 0 with hm
  obtain ⟨hs3, hk3⟩ := hs2.retile (m := m) (show span [-s'] = span [s'] by simp)
    (by
      intro x hx
      rw [mem_singleton.1 hx]
      omega)
    (by
      intro p hp
      rw [mem_singleton.1 hp]
      refine (Mem.readI32_congr (Mem.agreeOn_fill _ _ _ _ (.inl le_rfl))).trans ?_
      exact Mem.readI32_writeI32 _ _ (by omega) (by omega))
    (fun a ha => by
      simp only [span_cons, span_nil, Nat.add_zero] at ha
      change a < z.offset ∨ z.offset + s'.natAbs ≤ a at ha
      rw [hm, Mem.fill, if_neg (by omega), Mem.writeI32_of_notMem (by omega)])
    (fun p hp => by
      rw [span_cons, span_nil, Nat.add_zero, haround]
      exact hp.imp And.left id)
  refine ⟨h₂.setMem t m, s', rest, ?_, hcase, ?_, ?_, fun a h₁ h₂ => ?_⟩
  · rw [takeFreeCell, hheader]
    simp only [Except.bind, bind, heq1, heq2, HHive.writeI32_mk, HHive.mem_setMem,
      HHive.setMem_setMem, HHive.readI32_mk, hread]
    rfl
  · rw [hfill]
    convert hs3 using 1
    rw [freeCells_fill]
    ext p
    simp only [freeAround, Set.mem_union, Set.mem_ofPred_eq, piecesFrom_cons, piecesFrom_nil,
      mem_singleton, span_cons, span_nil, Int.natAbs_neg, Nat.add_zero, haround]
    constructor
    · rintro (⟨hp | hp, hpp⟩ | ⟨rfl, hpp⟩)
      · exact .inl ⟨hp, hpp⟩
      · exact .inr hp
      · simp only at hpp
        omega
    · rintro (⟨hp, hpp⟩ | hp)
      · exact .inl ⟨.inl hp, hpp⟩
      · exact .inl ⟨.inr hp, hrestpos _ (mem_sizes_of_mem_piecesFrom hp)⟩
  · refine (hk1.trans hk2).trans (hk3.mono fun p hp => ⟨?_, hp.2⟩)
    rw [span_cons, span_nil, Nat.add_zero, haround]
    exact .inl hp.1
  · rw [HHive.mem_setMem, hm, Mem.fill, if_pos (by omega)]

end

theorem roundUp_spec (ha : 0 < a) (h : n + a - 1 < 0x100000000) :
    a ∣ roundUp n a ∧ n ≤ roundUp n a ∧ roundUp n a < n + a := by
  rw [roundUp, Nat.mod_eq_of_lt h]
  have h₁ := Nat.div_add_mod' (n + a - 1) a
  have h₂ := Nat.mod_lt (n + a - 1) ha
  exact ⟨Nat.dvd_mul_left .., by omega, by omega⟩

theorem growDirtyVector_eq (h : HHive) {f n : ℕ} (ha : alloc.bitmap = true)
    (hlen : f + n = (h.storage .stable).length) (hlt : f + n + 32 < 0x100000000) :
    ∃ v b, growDirtyVector h f n alloc = .ok { h with dirtyVector := v, baseBlock := b } ∧
      (h.storage .stable).length ≤ v.sizeOfBitMap := by
  obtain ⟨hdvd, hle, -⟩ := roundUp_spec (n := (h.storage .stable).length) (a := 32) (by omega)
    (by omega)
  have hset (v : RtlBitmap 32) (hsize : f + n ≤ v.sizeOfBitMap) :=
    RtlBitmap.callRtlSetBits_of_le hsize
  have hle' (v : RtlBitmap 32) (hsize : f + n ≤ v.sizeOfBitMap) :
      (h.storage .stable).length ≤ (v.rtlSetBits f n).sizeOfBitMap := by
    rw [RtlBitmap.sizeOfBitMap_rtlSetBits]
    exact hlen ▸ hsize
  rw [growDirtyVector]
  split
  next hsmall =>
    have hsize : f + n ≤ (copiedVector h.dirtyVector
        (roundUp (h.storage .stable).length 32 / 8)).sizeOfBitMap := by
      simp only [copiedVector]
      omega
    refine ⟨_, h.baseBlock.writeU32 40 (h.baseBlock.readU32 40 + n * 4096), ?_, hle' _ hsize⟩
    simp only [bind, Except.bind, pure, Except.pure, hset _ hsize]
  next hlarge =>
    have hsize : f + n ≤ h.dirtyVector.sizeOfBitMap := by omega
    refine ⟨_, h.baseBlock.writeU32 40 (h.baseBlock.readU32 40 + n * 4096), ?_, hle' _ hsize⟩
    simp only [bind, Except.bind, pure, Except.pure, hset _ hsize]

/-- The stretch of the single cell of a bin added after the given ones. -/
def newBin (bins : List BinLayout) (start binSize : ℕ) : Hole :=
  ⟨bins, [], start, binSize / 4096, [], []⟩

theorem addedBin_mem_of_lt (d : Dual) (binSize : ℕ) (ha : a < d.length * 4096) :
    (addedBin d binSize).mem a = d.mem a := by
  simp only [addedBin, formatBin]
  rw [Mem.writeI32_of_notMem (by omega), Mem.writeU32_of_notMem (by omega),
    Mem.writeU32_of_notMem (by omega), Mem.writeU32_of_notMem (by omega),
    Mem.fill, if_neg (by omega)]

/-- A freshly formatted bin has a single free cell. -/
theorem formatBin_holds {start binSize : ℕ} (m : Mem) (haligned : start % 4096 = 0)
    (hdvd : 4096 ∣ binSize) (hpos : 0 < binSize) (hstart : start < 0x100000000)
    (hsize : binSize ≤ 0x80000000) :
    BinLayout.Holds ⟨start, binSize / 4096, [((binSize - 32 : ℕ) : ℤ)]⟩
      (formatBin m start binSize) := by
  have hlarge : 4096 ≤ binSize := Nat.le_of_dvd hpos hdvd
  have hblocks : binSize / 4096 * 4096 = binSize := Nat.div_mul_cancel hdvd
  refine ⟨Nat.div_pos hlarge (by omega), haligned, ?_, ?_, ?_, ?_, ?_⟩
  · rw [formatBin, Mem.readU32_writeI32_ne _ _ (by simp only; omega),
      Mem.readU32_writeU32_ne _ _ (by simp only; omega), Mem.readU32_writeU32,
      Nat.mod_eq_of_lt (by omega)]
  · rw [formatBin, Mem.readU32_writeI32_ne _ _ (by simp only; omega), Mem.readU32_writeU32,
      Nat.mod_eq_of_lt (by omega), hblocks]
  · simp only [span_cons, span_nil]
    omega
  · intro x hx
    rw [mem_singleton.1 hx]
    omega
  · intro p hp
    rw [mem_singleton.1 hp]
    exact Mem.readI32_writeI32 _ _ (by omega) (by omega)

theorem length_addedBin (d : Dual) (binSize : ℕ) :
    (addedBin d binSize).length = d.length + binSize / 4096 := by
  simp [addedBin, Dual.length]

/-- A new bin extends the layout by a bin with one free cell. -/
theorem Layout.addBin (hl : Layout d bins) {binSize : ℕ} (hdvd : 4096 ∣ binSize)
    (hpos : 0 < binSize) (hfit : d.length * 4096 + binSize < 0x80000000) :
    Layout (addedBin d binSize)
      ((newBin bins (d.length * 4096) binSize).fill [(binSize - 32 : ℕ)]) := by
  have hstart : d.length * 4096 < 0x100000000 :=
    (Nat.le_add_right _ binSize).trans_lt (hfit.trans (by decide))
  have hsize : binSize ≤ 0x80000000 := by omega
  have hblocks : binSize / 4096 * 4096 = binSize := Nat.div_mul_cancel hdvd
  have hlength := length_addedBin d binSize
  have hold : ∀ b ∈ bins, b.fin ≤ d.length * 4096 := fun b hb => (hl.contiguous.bounds hb).2
  refine ⟨contiguous_fill.2 ⟨hl.contiguous, ?_⟩, fun b hb => ?_, fun b hb i hi => ?_, ?_⟩
  · change d.length * 4096 + binSize / 4096 * 4096 = (addedBin d binSize).length * 4096
    rw [hlength, Nat.add_mul]
  · simp only [fill, newBin, mem_append, mem_singleton] at hb
    rcases hb with hb | rfl
    · have hh := hl.holds b hb
      have hend := hold b hb
      have hblocks := hh.blocks_pos
      rw [BinLayout.fin] at hend
      refine hh.frame (fun a h₁ h₂ => addedBin_mem_of_lt d binSize (by omega)) fun p hp => ?_
      obtain ⟨-, h₂, h3, -⟩ := hh.cell_bounds hp
      rw [BinLayout.fin] at h₂
      rw [← hh.headers p hp]
      exact Mem.readI32_congr fun a h₁ h₂ => addedBin_mem_of_lt d binSize (by omega)
    · exact formatBin_holds d.mem (Nat.mul_mod_left _ _) hdvd hpos hstart hsize
  · simp only [fill, newBin, mem_append, mem_singleton] at hb
    rcases hb with hb | rfl
    · have hlist := hl.blockList b hb i hi
      rw [← hlist]
      exact List.getElem?_append_left (List.getElem?_eq_some_iff.1 hlist).1
    · simp only [addedBin] at hi ⊢
      have hstart : d.length * 4096 / 4096 + i = d.blockList.length + i := by
        rw [Nat.mul_div_cancel _ (by omega), Dual.length]
      rw [hstart, getElem?_append_right (by omega), Nat.add_sub_cancel_left,
        getElem?_map, getElem?_range hi]
      rfl
  · rw [hlength, Nat.add_mul, hblocks]
    exact hfit

/-- `HvpAddBin` with all its allocations: the storage has a new bin, and only the
dirty vector and the base block change otherwise. -/
theorem hvpAddBin_eq (hr : Ready h)
    (ha : alloc.bin = true ∧ alloc.blockList = true) (hbm : alloc.bitmap = true)
    (hlt : (h.storage t).length * 4096 + binSizeFor size < 0x100000000) :
    ∃ v b, hvpAddBin h size t alloc = .ok (some ((h.storage t).length * 4096),
        { h.setStorage t (addedBin (h.storage t) (binSizeFor size)) with
          dirtyVector := v, baseBlock := b }) ∧
      Ready { h.setStorage t (addedBin (h.storage t) (binSizeFor size)) with
        dirtyVector := v, baseBlock := b } := by
  simp only [hvpAddBin, ha.1, ha.2, Bool.not_true, Bool.or_self, Bool.false_eq_true, if_false]
  cases t with
  | stable =>
    have hlen : (h.storage .stable).length * 4096 / 4096 + binSizeFor size / 4096 =
        ((h.setStorage .stable (addedBin (h.storage .stable) (binSizeFor size))).storage
          .stable).length := by
      rw [HHive.setStorage_storage, Nat.mul_div_cancel _ (by omega), length_addedBin]
    obtain ⟨v, b, heq, hcover⟩ := growDirtyVector_eq
      (h.setStorage .stable (addedBin (h.storage .stable) (binSizeFor size))) hbm hlen (by omega)
    refine ⟨v, b, ?_, ⟨hr.readOnly, hr.flat, hcover⟩⟩
    rw [heq]
    rfl
  | volatile => exact ⟨h.dirtyVector, h.baseBlock, rfl, ⟨hr.readOnly, hr.flat, hr.dirty⟩⟩

/-- **`HvpAddBin`**: the storage grows by a bin with one free cell, which is in
no list. -/
theorem hvpAddBin_spec (hs : AllocState t h bins free)
    (ha : alloc.bin = true ∧ alloc.blockList = true) (hbm : alloc.bitmap = true)
    (hdvd : 4096 ∣ binSizeFor size) (hpos : 0 < binSizeFor size)
    (hfit : (h.storage t).length * 4096 + binSizeFor size < 0x80000000) :
    ∃ h', hvpAddBin h size t alloc = .ok (some ((h.storage t).length * 4096), h') ∧
      AllocState t h' ((newBin bins ((h.storage t).length * 4096)
        (binSizeFor size)).fill [(binSizeFor size - 32 : ℕ)]) free ∧
      Keeps t {p | p ∈ allCells bins} h h' := by
  have hlayout := hs.layout.addBin hdvd hpos hfit
  obtain ⟨v, b, heq, hready⟩ := hvpAddBin_eq (t := t) hs.ready ha hbm
    (show (h.storage t).length * 4096 + binSizeFor size < 0x100000000 by omega)
  refine ⟨_, heq, ⟨hready, ?_, ?_, fun q hq => ⟨?_, hs.pos hq⟩⟩, ?_⟩
  · simp only [HHive.setStorage_storage]
    exact hlayout
  · simp only [HHive.setStorage_storage]
    refine hs.lists.frame rfl fun q hq => ?_
    obtain ⟨hle, h8, -, -, hlt⟩ := hs.layout.cell_bounds (hs.mem_cells hq)
    rw [nextFree_cellIndex (by omega), nextFree_cellIndex (by omega)]
    exact Mem.readU32_congr fun a h₁ h₂ => addedBin_mem_of_lt _ _ (by omega)
  · refine mem_allCells_fill.2 (.inl ?_)
    simp only [around, mem_append]
    exact .inl (.inl (hs.mem_cells hq))
  · have hk : Keeps t {p | p ∈ allCells bins} h
        (h.setStorage t (addedBin (h.storage t) (binSizeFor size))) := by
      refine Keeps.setStorage fun p hp a h₁ h₂ => addedBin_mem_of_lt _ _ ?_
      have hle := (hs.layout.cell_bounds hp).1
      omega
    exact ⟨hk.1, hk.2, hk.3, hk.4⟩

/-! ### Adjacent free cells -/

/-- No two adjacent cells of a bin are both free. -/
def NoAdjacentFree (bins : List BinLayout) : Prop :=
  ∀ b ∈ bins, b.sizes.IsChain fun x y => ¬(0 < x ∧ 0 < y)

theorem noAdjacentFree_fill {mid : List ℤ} :
    NoAdjacentFree (z.fill mid) ↔
      (NoAdjacentFree z.before ∧ NoAdjacentFree z.after) ∧
        (z.left ++ mid ++ z.right).IsChain fun x y => ¬(0 < x ∧ 0 < y) := by
  simp only [NoAdjacentFree, fill, mem_append, mem_cons]
  constructor
  · intro hall
    exact ⟨⟨fun b hb => hall b (.inl hb), fun b hb => hall b (.inr (.inr hb))⟩,
      hall _ (.inr (.inl rfl))⟩
  · rintro ⟨⟨hbefore, hafter⟩, hmid⟩ b (hb | rfl | hb)
    · exact hbefore b hb
    · exact hmid
    · exact hafter b hb

/-- Making the first part of a free cell live leaves no adjacent free cells. -/
theorem NoAdjacentFree.take {s' : ℤ} {rest : List ℤ} (hno : NoAdjacentFree (z.fill [s]))
    (hpos : 0 < s) (hs' : 0 < s') (hrest : rest = [] ∨ ∃ x, rest = [x]) :
    NoAdjacentFree (z.fill (-s' :: rest)) := by
  rw [noAdjacentFree_fill] at hno ⊢
  refine ⟨hno.1, ?_⟩
  obtain ⟨hchain, hright, hlast⟩ := isChain_append.1 hno.2
  obtain ⟨hleft, -, -⟩ := isChain_append.1 hchain
  have hneg : ¬(0 < -s') := by omega
  rw [append_assoc]
  refine isChain_append.2 ⟨hleft, ?_, ?_⟩
  · rcases hrest with rfl | ⟨x, rfl⟩
    · refine isChain_cons.2 ⟨fun y hy h => hneg h.1, hright⟩
    · refine isChain_cons.2 ⟨fun y hy h => hneg h.1, ?_⟩
      refine isChain_cons.2 ⟨fun y hy h => ?_, hright⟩
      -- what follows the free cell is not free
      refine hlast s (by simp) y hy ⟨hpos, h.2⟩
  · intro x hx y hy h
    simp only [cons_append, head?_cons, Option.mem_def, Option.some.injEq] at hy
    exact hneg (hy ▸ h.2)

/-! ### The whole call -/

theorem freeListIndex_mono {m n : ℕ} (h : m ≤ n) : freeListIndex m ≤ freeListIndex n := by
  have hstep : ∀ i < 160, freeListIndex (i * 8) ≤ freeListIndex ((i + 1) * 8) := by decide +kernel
  have hdiv : ∀ k, freeListIndex k = freeListIndex (k / 8 * 8) := by
    intro k
    rw [freeListIndex, freeListIndex, Nat.mul_div_cancel _ (by omega)]
  have hlarge : ∀ k, 160 ≤ k → freeListIndex (k * 8) = 23 := by
    intro k hk
    rw [freeListIndex, Nat.mul_div_cancel _ (by omega), if_pos (by omega), if_pos (by omega)]
  have hmono : Monotone fun k => freeListIndex (k * 8) := by
    refine monotone_nat_of_le_succ fun k => ?_
    by_cases hk : k < 160
    · exact hstep k hk
    · rw [hlarge k (by omega), hlarge (k + 1) (by omega)]
  rw [hdiv m, hdiv n]
  exact hmono (Nat.div_le_div_right h)

/-- **A call does not outgrow the cell index**: when no free cell is large enough
for the request and a bin can be allocated, the storage with the bin stays below
`2 ^ 31` bytes. The last block below `2 ^ 31` is not among those that can be used,
since the blocks of its cells cannot be marked. -/
def Fits (h : HHive) (t : HStorageType) (size : ℕ) (alloc : Allocations) : Prop :=
  alloc.bin = true → alloc.blockList = true → ∀ bins, Layout (h.storage t) bins →
    (∀ p ∈ freeCells bins, p.2.toNat < cellSizeFor size) →
      (h.storage t).length * 4096 + binSizeFor (cellSizeFor size) < 0x80000000

-- `HvMarkCellDirty` takes the block after that of the cell to be block 0
example : dirtyBlockCount 0x7ffff020 = 0xfff80001 := by decide

/-- What a successful allocation has done: a new live cell of the size asked for,
with zero data, and nothing else changed. -/
structure Allocated (t : HStorageType) (bins bins' : List BinLayout) (h h' : HHive) (size : ℕ)
    (p : ℕ × ℤ) : Prop where
  state : AllocState t h' bins' (freeCells bins')
  live : liveCells bins' = insert p (liveCells bins)
  fresh : ∀ q ∈ liveCells bins, q.1 ≠ p.1
  neg : p.2 < 0
  room : size + 4 ≤ p.2.natAbs
  zero : ∀ a, p.1 + 4 ≤ a → a < p.1 + 4 + size → h'.mem t a = 0
  keeps : Keeps t (liveCells bins) h h'
  noAdjacent : NoAdjacentFree bins → NoAdjacentFree bins'

theorem cellSizeFor_spec (hsize : size < 0x40000000) :
    16 ∣ cellSizeFor size ∧ size + 4 ≤ cellSizeFor size ∧ cellSizeFor size < size + 20 := by
  rw [cellSizeFor, Nat.mod_eq_of_lt (by omega)]
  exact roundUp_spec (by omega) (by omega)

theorem binSizeFor_spec (hsize : size < 0x40000000) :
    4096 ∣ binSizeFor (cellSizeFor size) ∧ cellSizeFor size + 32 ≤ binSizeFor (cellSizeFor size) := by
  have := cellSizeFor_spec hsize
  rw [binSizeFor, Nat.mod_eq_of_lt (by omega)]
  exact ⟨(roundUp_spec (by omega) (by omega)).1, (roundUp_spec (by omega) (by omega)).2.1⟩

/-- Taking a free cell is an allocation. -/
theorem takeFreeCell_allocated {h₀ : HHive}
    (hs : AllocState t h (z.fill [s]) (z.freeAround s.natAbs)) (hpos : 0 < s)
    (hsize : size < 0x40000000) (hle : cellSizeFor size ≤ s.toNat)
    (hk : Keeps t (liveCells bins) h₀ h) (hlive : liveCells bins = z.liveAround s.natAbs)
    (hno : NoAdjacentFree bins → NoAdjacentFree (z.fill [s])) :
    ∃ p h' bins', p.1 = z.offset ∧ p.2.natAbs ≤ s.natAbs ∧
      takeFreeCell h (cellSizeFor size) t (cellIndex t z.offset) = .ok (cellIndex t p.1, h') ∧
      Allocated t bins bins' h₀ h' size p := by
  obtain ⟨h16, hlo, -⟩ := cellSizeFor_spec hsize
  obtain ⟨h', s', rest, heq, hcase, hs', hk', hzero⟩ := takeFreeCell_spec hs hpos (by omega)
    (by omega) hle
  have hs'' : 0 < s' ∧ (cellSizeFor size : ℤ) ≤ s' ∧ span (-s' :: rest) = s.natAbs ∧
      (∀ x ∈ rest, 0 < x) ∧ (rest = [] ∨ ∃ x, rest = [x]) := by
    rcases hcase with ⟨rfl, rfl⟩ | ⟨rfl, rfl, hrest⟩
    · exact ⟨hpos, by omega, by simp, by simp, .inl rfl⟩
    · refine ⟨by omega, le_rfl, ?_, by simpa using hrest, .inr ⟨_, rfl⟩⟩
      simp only [span_cons, span_nil]
      omega
  obtain ⟨hpos', hsize', hspan, hrest, hshape⟩ := hs''
  refine ⟨(z.offset, -s'), h', _, rfl, ?_, heq, hs', ?_, fun q hq he => ?_, ?_, ?_,
    fun a h₁ h₂ => ?_, ?_, fun hb => (hno hb).take hpos hpos' hshape⟩
  · rw [← hspan]
    exact Nat.le_add_right _ _
  · rw [liveCells_fill, hspan, hlive, Set.union_comm]
    congr 1
    ext q
    simp only [piecesFrom_cons, mem_cons]
    constructor
    · rintro ⟨rfl | hq, hneg⟩
      · rfl
      · exact absurd (hrest _ (mem_sizes_of_mem_piecesFrom hq)) (by omega)
    · rintro rfl
      exact ⟨.inl rfl, by simp only; omega⟩
  · rw [hlive] at hq
    have hdis := hs.layout.around_disjoint (p := q) (by simpa using hq.1)
    have h8 := (hs.layout.cell_bounds (mem_allCells_fill.2 (.inl (by simpa using hq.1)))).2.1
    simp only [span_cons] at hdis
    omega
  · omega
  · omega
  · exact hzero a h₁ (by omega)
  · rw [hlive] at hk ⊢
    exact hk.trans hk'

/-- **`HvAllocateCell` calls `HvpAddBin`**, with the hive as it is and the rounded size:
whatever routine stands in its place, the allocation does what the routine does, and
then takes the cell of the bin. -/
def CallsHvpAddBin (h : HHive) (size : ℕ) (t : HStorageType) : Prop :=
  ∀ addBin alloc, hvAllocateCellWith addBin h size t alloc =
    addBin h (cellSizeFor size) t alloc >>= takeFromBin (cellSizeFor size) t

theorem hvAllocateCellWith_of_find (hr : h.readOnly = false) {off : ℕ} {h₁ : HHive}
    (heq : hvpFindFree h (cellSizeFor size) t = .ok (off, h₁)) (addBin : AddBin) :
    hvAllocateCellWith addBin h size t alloc =
      if off = hcellNil then
        addBin h₁ (cellSizeFor size) t alloc >>= takeFromBin (cellSizeFor size) t
      else takeFreeCell h₁ (cellSizeFor size) t off := by
  rw [hvAllocateCellWith, assert_of hr, heq]
  rfl

/-- Whatever could be allocated and whatever `HvpAddBin` would do, the new cell is the
front of a free cell that is large enough. -/
def Carves (h : HHive) (size : ℕ) (t : HStorageType) (bins : List BinLayout) : Prop :=
  ∃ c ∈ freeCells bins, cellSizeFor size ≤ c.2.toNat ∧
    ∃ p h' bins', p.1 = c.1 ∧ p.2.natAbs ≤ c.2.natAbs ∧
      (∀ addBin alloc, hvAllocateCellWith addBin h size t alloc = .ok (cellIndex t p.1, h')) ∧
      Allocated t bins bins' h h' size p

/-- An allocation that takes a free cell does not call `HvpAddBin`. -/
theorem Carves.not_calls (hcarves : Carves h size t bins) : ¬CallsHvpAddBin h size t := by
  obtain ⟨c, -, -, p, h', bins', -, -, heq, -⟩ := hcarves
  intro hcalls
  -- a routine that faults is not noticed
  have hfault := (heq (fun _ _ _ _ => .error .noReturn) ⟨true, true, true⟩).symm.trans (hcalls _ _)
  cases hfault

/-- **The search decides**: a free cell is large enough, or none is and the nil
index is found. -/
theorem hvAllocateCell_search (hs : AllocState t h bins (freeCells bins))
    (hsize : size < 0x40000000) :
    Carves h size t bins ∨
    (∀ c ∈ freeCells bins, c.2.toNat < cellSizeFor size) ∧
      hvpFindFree h (cellSizeFor size) t = .ok (hcellNil, h) := by
  obtain ⟨h16, hlo, hhi⟩ := cellSizeFor_spec hsize
  rcases hs.hvpFindFree_spec (show 8 ≤ cellSizeFor size by omega) with
    ⟨p, hp, hple, h₁, heq1, hs1, hk1⟩ | ⟨hnone, heq1⟩
  · -- a free cell is large enough
    left
    have hlt := (hs.layout.cell_bounds hp.1).2.2.2.2
    have h8 := (hs.layout.cell_bounds hp.1).2.1
    have hnil : cellIndex t p.1 ≠ hcellNil := cellIndex_ne_nil (by omega)
    refine ⟨p, hp, hple, ?_⟩
    obtain ⟨z, rfl, hoff⟩ := exists_fill hp.1
    have hspan : span [p.2] = p.2.natAbs := by simp
    have hfree : freeCells (z.fill [p.2]) \ {p} = z.freeAround p.2.natAbs := by
      rw [freeCells_fill_pos hp.2, hoff]
      refine Set.insert_sdiff_self_of_notMem fun hq => ?_
      refine hs.layout.offset_notMem_around (by omega) p.2 (by omega) ?_
      rw [hoff]
      exact hq.1
    have hlive : liveCells (z.fill [p.2]) = z.liveAround p.2.natAbs :=
      liveCells_fill_pos hp.2
    rw [hfree] at hs1
    obtain ⟨q, h₂, bins', hq, hqle, heq2, hdone⟩ :=
      takeFreeCell_allocated hs1 hp.2 hsize hple hk1 hlive id
    refine ⟨q, h₂, bins', hq.trans hoff, hqle, fun addBin alloc => ?_, hdone⟩
    rw [hvAllocateCellWith_of_find hs.readOnly heq1, if_neg hnil, ← hoff]
    exact heq2
  · -- no cell of the lists is large enough, so none of the storage is
    refine .inr ⟨fun p hp => ?_, heq1⟩
    by_contra hge
    exact hge (hnone p hp (freeListIndex_mono (not_lt.1 hge)))

/-- **`HvAllocateCell` returns**, with the nil index and the hive as it was when
the bin or its block list could not be allocated, and with a new cell
otherwise. -/
theorem hvAllocateCell_spec (hs : AllocState t h bins (freeCells bins))
    (hsize : size < 0x40000000) (hbm : alloc.bitmap = true) (hfit : Fits h t size alloc) :
    hvAllocateCell h size t alloc = .ok (hcellNil, h) ∨
    ∃ p h' bins', hvAllocateCell h size t alloc = .ok (cellIndex t p.1, h') ∧
      Allocated t bins bins' h h' size p := by
  rcases hvAllocateCell_search hs hsize with
    ⟨-, -, -, p, h', bins', -, -, heq, hdone⟩ | ⟨hsmall, heq1⟩
  · exact .inr ⟨p, h', bins', heq hvpAddBin alloc, hdone⟩
  · have hdef : hvAllocateCell h size t alloc =
        hvpAddBin h (cellSizeFor size) t alloc >>= takeFromBin (cellSizeFor size) t :=
      (hvAllocateCellWith_of_find hs.readOnly heq1 hvpAddBin).trans (if_pos rfl)
    obtain ⟨hdvd, hbin⟩ := binSizeFor_spec hsize
    by_cases ha : alloc.bin = true ∧ alloc.blockList = true
    · right
      have hroom := hfit ha.1 ha.2 bins hs.layout hsmall
      obtain ⟨h₁, heq2, hs1, hk1⟩ := hvpAddBin_spec hs ha hbm hdvd (by omega) hroom
      set z := newBin bins ((h.storage t).length * 4096) (binSizeFor (cellSizeFor size)) with hz
      have hoff : z.offset = (h.storage t).length * 4096 + 32 := by
        simp [offset, hz, newBin]
      have haround : ∀ n q, q ∈ z.around n ↔ q ∈ allCells bins := by
        intro n q
        simp [around, hz, newBin, allCells]
      have hfree : freeCells bins = z.freeAround
          ((binSizeFor (cellSizeFor size) - 32 : ℕ) : ℤ).natAbs := by
        ext q
        simp only [freeAround, haround, freeCells]
      have hlive : liveCells bins = z.liveAround
          ((binSizeFor (cellSizeFor size) - 32 : ℕ) : ℤ).natAbs := by
        ext q
        simp only [liveAround, haround, liveCells]
      rw [hfree] at hs1
      obtain ⟨q, h₂, bins', -, -, heq3, hdone⟩ := takeFreeCell_allocated hs1 (by omega) hsize
        (by omega) (hk1.mono fun q hq => hq.1) hlive (fun hno => noAdjacentFree_fill.2
          ⟨⟨hno, by simp [NoAdjacentFree, hz, newBin]⟩, by simp [hz, newBin]⟩)
      refine ⟨q, h₂, bins', ?_, hdone⟩
      have hoffset : h₁.readU32 ⟨t, (h.storage t).length * 4096 + 4⟩ = (h.storage t).length * 4096 :=
        hs1.layout.bin_of_fill.fileOffset
      have hindex : (h₁.readU32 ⟨t, (h.storage t).length * 4096 + 4⟩ + 32) % 0x100000000 |||
          t.toNat * 0x80000000 = cellIndex t z.offset := by
        rw [hoffset, hoff, Nat.mod_eq_of_lt (by omega)]
        exact or_typeBit (by omega)
      rw [hdef, heq2, ← heq3, ← hindex]
      rfl
    · left
      have hfail : (!alloc.bin || !alloc.blockList) = true := by
        revert ha
        cases alloc.bin <;> cases alloc.blockList <;> simp
      have hnull : hvpAddBin h (cellSizeFor size) t alloc = .ok (none, h) := if_pos hfail
      rw [hdef, hnull]
      rfl

end Allocate

end Windivs

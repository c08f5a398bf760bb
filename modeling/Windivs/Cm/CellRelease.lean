import Windivs.Cm.CellAllocator

/-!
# Freeing and moving cells

`HvFreeCell` negates the header of a live cell, merges the cell with the free
cell after it, walks the bin to find a free cell that ends where it starts, and
merges with that one too. A merge takes the neighbour out of its free list and
writes one header; only the neighbour *before*, when the list of its new size is
the list it is in, stays where it is.

* `Windivs.hvFreeCell_spec` – the cell is not live any more, the other live cells
  are as they were, and the free lists are exactly the free cells;
* `Windivs.hvReallocateCell_spec` – a cell stays or moves to a larger one, with
  its data.

Both merges are the same step on the layout, `Windivs.AllocState.join`.
-/

namespace Windivs

open List Hole

/-! ### The cells around a stretch that grows -/

namespace Hole

variable {z w : Hole} {n m : ℕ} {p q : ℕ × ℤ} {x : ℤ}

theorem mem_around_right {r : List ℤ} (hr : z.right = x :: r) :
    q ∈ z.around n ↔ q ∈ { z with right := r }.around (n + x.natAbs) ∨ q = (z.offset + n, x) := by
  simp only [around, hr, piecesFrom_cons, mem_append, offset]
  grind

theorem mem_around_left {l : List ℤ} (hl : z.left = l ++ [x]) :
    q ∈ z.around n ↔
      q ∈ { z with left := l }.around (x.natAbs + n) ∨ q = (z.start + 32 + span l, x) := by
  simp only [around, hl, piecesFrom_append, piecesFrom_cons, piecesFrom_nil, mem_append, offset,
    span_append, span_cons, span_nil]
  grind

theorem freeAround_sdiff (h : ∀ q, q ∈ z.around n ↔ q ∈ w.around m ∨ q = p)
    (hp : p ∉ w.around m) : z.freeAround n \ {p} = w.freeAround m := by
  ext q
  simp only [freeAround, h]
  constructor
  · rintro ⟨⟨hq | hq, hpos⟩, hne⟩
    · exact ⟨hq, hpos⟩
    · exact absurd hq hne
  · rintro ⟨hq, hpos⟩
    exact ⟨⟨.inl hq, hpos⟩, fun he => hp (he ▸ hq)⟩

theorem liveAround_eq (h : ∀ q, q ∈ z.around n ↔ q ∈ w.around m ∨ q = p) (hpos : 0 < p.2) :
    w.liveAround m = z.liveAround n := by
  ext q
  simp only [liveAround, h]
  constructor
  · rintro ⟨hq, hneg⟩
    exact ⟨.inl hq, hneg⟩
  · rintro ⟨hq | rfl, hneg⟩
    · exact ⟨hq, hneg⟩
    · exact absurd hneg (by omega)

end Hole

/-! ### Joining two cells -/

section Release

variable {t : HStorageType} {h : HHive} {bins : List BinLayout} {free : Set (ℕ × ℤ)} {z : Hole}
  {s a b : ℤ}

/-- **The join of two adjacent free cells**, neither of them listed: one header
is written. -/
theorem AllocState.join (hs : AllocState t h (z.fill [a, b]) free) (ha : 0 < a) (hb : 0 < b)
    (hfree : ∀ q ∈ free, q ∈ z.around (a + b).natAbs) :
    AllocState t (h.writeI32 ⟨t, z.offset⟩ (a + b)) (z.fill [a + b]) free ∧
      Keeps t (z.liveAround (a + b).natAbs) h (h.writeI32 ⟨t, z.offset⟩ (a + b)) := by
  have hspan : span [a, b] = (a + b).natAbs := by
    simp only [span_cons, span_nil]
    omega
  have hamem : (z.offset, a) ∈ allCells (z.fill [a, b]) :=
    mem_allCells_fill.2 (.inr (by simp))
  have hbmem : (z.offset + a.natAbs, b) ∈ allCells (z.fill [a, b]) :=
    mem_allCells_fill.2 (.inr (by simp))
  obtain ⟨-, -, -, ha8, -⟩ := hs.layout.cell_bounds hamem
  obtain ⟨-, -, -, hb8, hlt⟩ := hs.layout.cell_bounds hbmem
  have hoff := z.le_offset
  obtain ⟨hs', hk⟩ := hs.retile (m := (h.mem t).writeI32 z.offset (a + b))
    (show span [a + b] = span [a, b] by simp only [hspan, span_cons, span_nil, Nat.add_zero])
    (by
      intro x hx
      rw [mem_singleton.1 hx]
      omega)
    (by
      intro p hp
      rw [mem_singleton.1 hp]
      exact Mem.readI32_writeI32 _ _ (by omega) (by omega))
    (fun c hc => by
      exact Mem.writeI32_of_notMem (by omega))
    (fun q hq => hspan ▸ hfree q hq)
  rw [hspan] at hk
  exact ⟨hs', hk⟩

/-! ### The cell after -/

/-- The index of a neighbour, computed from its address. -/
theorem neighborIndex_eq {o n : ℕ} (ho : o < 0x80000000) (hn : n < 0x80000000)
    (hstart : z.start ≤ n) (hoffset : h.readU32 ⟨t, z.start + 4⟩ = z.start) :
    neighborIndex h ⟨t, z.start⟩ ⟨t, n⟩ (cellIndex t o) = cellIndex t n := by
  have htype : cellIndex t o / 0x80000000 = t.toNat := by
    cases t <;> rw [cellIndex, HStorageType.toNat] <;> omega
  rw [neighborIndex, htype]
  simp only [CellPtr.add, hoffset]
  rw [Nat.sub_add_cancel hstart, Nat.mod_eq_of_lt (by omega)]
  exact or_typeBit hn

/-- The negated header: the cell is free, and not listed yet. -/
theorem freeHeader_spec (hs : AllocState t h (z.fill [-s]) (freeCells (z.fill [-s])))
    (hpos : 0 < s) :
    AllocState t (h.writeI32 ⟨t, z.offset⟩ s) (z.fill [s]) (z.freeAround s.natAbs) ∧
      Keeps t (z.liveAround s.natAbs) h (h.writeI32 ⟨t, z.offset⟩ s) := by
  obtain ⟨hlt, -, hdvd, -⟩ := hs.layout.fill_bounds
  rw [Int.natAbs_neg] at hlt hdvd
  have hoff := z.le_offset
  have hfree : freeCells (z.fill [-s]) = z.freeAround s.natAbs := by
    rw [freeCells_fill]
    ext q
    simp only [piecesFrom_cons, piecesFrom_nil, mem_singleton, span_cons, span_nil, Nat.add_zero,
      Int.natAbs_neg, Set.mem_union, or_iff_left_iff_imp]
    rintro ⟨rfl, hq⟩
    omega
  rw [hfree] at hs
  have hspan : span [-s] = s.natAbs := by simp
  obtain ⟨hs', hk⟩ := hs.retile (m := (h.mem t).writeI32 z.offset s)
    (show span [s] = span [-s] by simp)
    (by
      intro x hx
      rw [mem_singleton.1 hx]
      omega)
    (by
      intro p hp
      rw [mem_singleton.1 hp]
      exact Mem.readI32_writeI32 _ _ (by omega) (by omega))
    (fun a ha => by
      exact Mem.writeI32_of_notMem (by omega))
    (fun q hq => by
      rw [hspan]
      exact hq.1)
  rw [hspan] at hk
  exact ⟨hs', hk⟩

/-- **`HvFreeCell`, the cell after**: a free cell that follows is taken out of its
list and becomes part of the freed one. -/
theorem mergeNext_spec (hs : AllocState t h (z.fill [s]) (z.freeAround s.natAbs)) (hpos : 0 < s) :
    ∃ h' r' S, mergeNext h ⟨t, z.offset⟩ ⟨t, z.start⟩ (cellIndex t z.offset) = .ok h' ∧ 0 < S ∧
      (r' = z.right ∧ S = s ∧ (∀ y ∈ z.right.head?, ¬0 < y) ∨
        ∃ x, z.right = x :: r' ∧ 0 < x ∧ S = s + x) ∧
      AllocState t h' ({ z with right := r' }.fill [S])
        ({ z with right := r' }.freeAround S.natAbs) ∧
      { z with right := r' }.liveAround S.natAbs = z.liveAround s.natAbs ∧
      Keeps t (z.liveAround s.natAbs) h h' := by
  obtain ⟨hlt, -, hdvd, hread⟩ := hs.layout.fill_bounds
  have hreadU : h.readU32 ⟨t, z.offset⟩ = s.toNat := Mem.readU32_eq_toNat hread hpos
  have hreadI : h.readI32 ⟨t, z.offset⟩ = s := hread
  have hbin := hs.layout.bin_of_fill
  have hsmall := hs.layout.small
  have hend := (hs.layout.contiguous.bounds (b := ⟨z.start, z.blocks, z.left ++ [s] ++ z.right⟩)
    (by simp [fill])).2
  have hcover := hbin.span_sizes
  have hoffset : h.readU32 ((CellPtr.mk t z.start).add 4) = z.start := hbin.fileOffset
  have hsize : h.readU32 ((CellPtr.mk t z.start).add 8) = z.blocks * 4096 := hbin.size
  simp only [span_append, span_cons, span_nil] at hcover
  simp only [BinLayout.fin] at hend
  have hoff : z.offset = z.start + 32 + span z.left := rfl
  have hindex0 : cellIndex t z.offset % 0x80000000 = z.offset := cellIndex_mod_type (by omega)
  have hcond : ((cellIndex t z.offset % 0x80000000 + h.readU32 ⟨t, z.offset⟩) % 0x100000000 <
      (h.readU32 ((CellPtr.mk t z.start).add 4) + h.readU32 ((CellPtr.mk t z.start).add 8)) %
        0x100000000) ↔ 0 < span z.right := by
    rw [hreadU, hoffset, hsize, hindex0]
    omega
  have hneighbor : (CellPtr.mk t z.offset).add (h.readI32 ⟨t, z.offset⟩).toNat =
      ⟨t, z.offset + s.natAbs⟩ := by
    have habs : s.toNat = s.natAbs := by omega
    rw [hreadI, CellPtr.add, habs]
  obtain hright | ⟨x, r, hright⟩ : z.right = [] ∨ ∃ x r, z.right = x :: r := by
    cases z.right <;> simp
  · refine ⟨h, z.right, s, ?_, hpos, .inl ⟨rfl, rfl, by simp [hright]⟩, hs, rfl, Keeps.refl ..⟩
    rw [mergeNext, if_neg (by rw [hcond, hright]; simp)]
    rfl
  · have hxmem : (z.offset + s.natAbs, x) ∈ allCells (z.fill [s]) :=
      mem_allCells_fill.2 (.inl (by simp [around, hright]))
    have hx8 := (hs.layout.cell_bounds hxmem).2.1
    have hxlt := (hs.layout.cell_bounds hxmem).2.2.2.2
    have hxread : h.readI32 ⟨t, z.offset + s.natAbs⟩ = x := hs.header hxmem
    simp only at hx8 hxlt
    have hgo : 0 < span z.right := by
      rw [hright, span_cons]
      omega
    by_cases hxpos : 0 < x
    · -- the following cell is free: it is listed, since only the freed cell is not
      have hxfree : (z.offset + s.natAbs, x) ∈ z.freeAround s.natAbs :=
        ⟨by simp [around, hright], hxpos⟩
      obtain ⟨h₁, heq1, hs1, hk1⟩ := hs.hvpRemoveFree_spec hxfree
      simp only at heq1
      set w : Hole := { z with right := r } with hw
      have hnat : (s + x).natAbs = s.natAbs + x.natAbs := by omega
      have hfill : z.fill [s] = w.fill [s, x] := by simp [w, fill, hright]
      have haround : ∀ q, q ∈ z.around s.natAbs ↔
          q ∈ w.around (s + x).natAbs ∨ q = (z.offset + s.natAbs, x) := fun q => by
        rw [hnat]
        exact mem_around_right hright
      rw [hfill] at hs1
      have hnot : (z.offset + s.natAbs, x) ∉ w.around (s + x).natAbs := by
        intro hq
        have hspan : span [s, x] = (s + x).natAbs := by simp [hnat]
        have hdis := hs1.layout.around_disjoint (p := (z.offset + s.natAbs, x)) (hspan ▸ hq)
        rw [hspan, show w.offset = z.offset from rfl] at hdis
        simp only at hdis
        omega
      rw [freeAround_sdiff haround hnot] at hs1
      have hlive := liveAround_eq haround hxpos
      have hsread : h₁.readI32 ⟨t, z.offset⟩ = s :=
        hs1.header (p := (z.offset, s)) (mem_allCells_fill.2 (.inr (by simp [hw, offset])))
      have hxread' : h₁.readI32 ⟨t, z.offset + s.natAbs⟩ = x :=
        hs1.header (p := (z.offset + s.natAbs, x))
          (mem_allCells_fill.2 (.inr (by simp [hw, offset])))
      obtain ⟨hs2, hk2⟩ := hs1.join hpos hxpos fun q hq => hq.1
      have hk : Keeps t (z.liveAround s.natAbs) h h₁ := hk1.mono fun q hq =>
        ⟨mem_allCells_fill.2 (.inl (by simpa using hq.1)), hq.2⟩
      rw [hlive] at hk2
      refine ⟨h₁.writeI32 ⟨t, z.offset⟩ (s + x), r, s + x, ?_, by omega,
        .inr ⟨x, hright, hxpos, rfl⟩, hs2, hlive, hk.trans hk2⟩
      have hindex : neighborIndex h ⟨t, z.start⟩ ⟨t, z.offset + s.natAbs⟩ (cellIndex t z.offset) =
          cellIndex t (z.offset + s.natAbs) :=
        neighborIndex_eq (by omega) (by omega) (by omega) hoffset
      rw [mergeNext, if_pos (hcond.2 hgo)]
      simp only [hneighbor, hxread, if_pos hxpos, hindex, heq1, bind, Except.bind, hsread, hxread']
      rfl
    · refine ⟨h, z.right, s, ?_, hpos, .inl ⟨rfl, rfl, by simpa [hright] using hxpos⟩, hs, rfl,
        Keeps.refl ..⟩
      rw [mergeNext, if_pos (hcond.2 hgo)]
      simp only [hneighbor, hxread, if_neg hxpos]
      rfl

/-! ### The cell before -/

/-- The walk over the cells before the freed one finds the last of them when it
is free. -/
theorem previousTurn_walk {o : ℕ} {sizes : List ℤ} {n fuel : ℕ}
    (hheaders : ∀ p ∈ piecesFrom n sizes, h.readI32 ⟨t, p.1⟩ = p.2)
    (hsizes : ∀ x ∈ sizes, x ≠ 0) (hn : n + span sizes = o) (hfuel : sizes.length < fuel) :
    runLoop (previousTurn h ⟨t, o⟩) fuel n =
      .ok ((sizes.getLast?.filter (0 < ·)).map fun x => ⟨t, o - x.natAbs⟩) := by
  induction sizes generalizing n fuel with
  | nil =>
    rcases fuel with - | fuel
    · simp at hfuel
    refine runLoop_leave fuel (if_neg ?_)
    simp only [span_nil] at hn
    simp only
    omega
  | cons x rest ih =>
    rcases fuel with - | fuel
    · simp at hfuel
    have hx := hsizes x (by simp)
    rw [span_cons] at hn
    have hread : h.readI32 ⟨t, n⟩ = x := hheaders (n, x) (by simp)
    have hlt : n < o := by omega
    have hrest := ih (fun p hp => hheaders p (mem_cons_of_mem _ hp))
      (fun y hy => hsizes y (mem_cons_of_mem _ hy)) (by omega)
      (show rest.length < fuel by simpa using hfuel)
    have hagain : (¬0 < x ∨ rest ≠ []) → runLoop (previousTurn h ⟨t, o⟩) (fuel + 1) n =
        runLoop (previousTurn h ⟨t, o⟩) fuel (n + x.natAbs) := by
      intro hcase
      refine runLoop_again fuel ?_
      simp only [previousTurn, if_pos hlt, hread]
      by_cases hpos : 0 < x
      · -- the cells that follow take up room, so this one does not end at the freed one
        have hspan : 0 < span rest := by
          obtain ⟨y, ys, rfl⟩ := exists_cons_of_ne_nil (hcase.resolve_left (not_not.2 hpos))
          have := hsizes y (by simp)
          rw [span_cons]
          omega
        rw [if_pos hpos, if_neg (by omega), show x.toNat = x.natAbs by omega]
      · rw [if_neg hpos]
    cases hr : rest with
    | nil =>
      by_cases hpos : 0 < x
      · subst hr
        simp only [span_nil] at hn
        refine (runLoop_leave fuel (r := .ok (some ⟨t, n⟩)) ?_).trans ?_
        · simp only [previousTurn, if_pos hlt, hread, if_pos hpos]
          rw [if_pos (by omega)]
        · simp only [getLast?_singleton, Option.filter_some, hpos, decide_true, if_true,
            Option.map_some]
          rw [show o - x.natAbs = n by omega]
      · subst hr
        rw [hagain (.inl hpos), hrest]
        simpa using hpos
    | cons y ys =>
      rw [hagain (.inr (by simp [hr])), hrest, hr, getLast?_cons_cons]

/-- A listed cell whose size changes within the bounds of its list stays
listed. -/
theorem FreeLists.resize {d : Dual} {p p' : ℕ × ℤ} (hl : FreeLists d t (insert p free))
    (hoff : p'.1 = p.1) (hindex : freeListIndex p'.2.toNat = freeListIndex p.2.toNat) :
    FreeLists d t (insert p' free) := by
  intro i hi
  obtain ⟨l, hchain, hnodup, hmem⟩ := hl i hi
  refine ⟨l, hchain, hnodup, fun c => (hmem c).trans ?_⟩
  simp only [Set.mem_insert_iff, exists_eq_or_imp, hoff, hindex]

section

variable (hs : AllocState t h (z.fill [a, b]) (insert (z.offset, a) (z.freeAround (a + b).natAbs)))
  (ha : 0 < a) (hb : 0 < b)
include hs ha hb

/-- **The join of a listed free cell with the next**, whose new size has the
list it is in: one header is written, and no link. -/
theorem AllocState.joinListed (hindex : freeListIndex a.toNat = freeListIndex (a + b).toNat) :
    AllocState t (h.writeI32 ⟨t, z.offset⟩ (a + b)) (z.fill [a + b])
        (insert (z.offset, a + b) (z.freeAround (a + b).natAbs)) ∧
      Keeps t (z.liveAround (a + b).natAbs) h (h.writeI32 ⟨t, z.offset⟩ (a + b)) := by
  have hspan : span [a, b] = (a + b).natAbs := by
    simp only [span_cons, span_nil]
    omega
  obtain ⟨-, ha8, -, had, -⟩ := hs.layout.cell_bounds (p := (z.offset, a))
    (mem_allCells_fill.2 (.inr (by simp)))
  obtain ⟨-, -, -, hbd, hlt⟩ := hs.layout.cell_bounds (p := (z.offset + a.natAbs, b))
    (mem_allCells_fill.2 (.inr (by simp)))
  simp only at ha8 had hbd hlt
  have hoff := z.le_offset
  have hread : ((h.mem t).writeI32 z.offset (a + b)).readI32 z.offset = a + b :=
    Mem.readI32_writeI32 _ _ (by omega) (by omega)
  have hout : ∀ q ∈ z.around (a + b).natAbs,
      q.1 + q.2.natAbs ≤ z.offset ∨ z.offset + (a + b).natAbs ≤ q.1 := fun q hq => by
    have hdis := hs.layout.around_disjoint (p := q) (hspan ▸ hq)
    rwa [hspan] at hdis
  rw [show h.writeI32 ⟨t, z.offset⟩ (a + b) =
    h.setMem t ((h.mem t).writeI32 z.offset (a + b)) from rfl]
  refine ⟨⟨hs.ready.setMem _ _, ?_, ?_, ?_⟩, Keeps.setStorage ?_⟩
  · rw [HHive.setMem, HHive.setStorage_storage]
    refine hs.layout.retile (by simp only [hspan, span_cons, span_nil, Nat.add_zero]) ?_ ?_ ?_
    · intro x hx
      rw [mem_singleton.1 hx]
      omega
    · intro p hp
      rw [mem_singleton.1 hp]
      exact hread
    · intro c hc
      rw [hspan] at hc
      exact Mem.writeI32_of_notMem (by omega)
  · rw [HHive.setMem, HHive.setStorage_storage]
    refine FreeLists.resize (p := (z.offset, a)) (hs.lists.frame rfl fun q hq => ?_) rfl
      hindex.symm
    obtain ⟨-, hq8, -, -, hqlt⟩ := hs.layout.cell_bounds (hs.mem_cells hq)
    rw [nextFree_cellIndex (by omega), nextFree_cellIndex (by omega)]
    refine Mem.readU32_congr fun c h₁ h₂ => Mem.writeI32_of_notMem ?_
    rcases hq with rfl | hq
    · simp only at h₁
      omega
    · have := hout q hq.1
      omega
  · rw [← freeCells_fill_pos (by omega)]
  · intro p hp c h₁ h₂
    have := hout p hp.1
    exact Mem.writeI32_of_notMem (by omega)

/-- **`HvFreeCell`, the cell before**: the free cell before the freed one takes
it over, in the list of its new size. -/
theorem mergePrevious_spec :
    ∃ h', mergePrevious h ⟨t, z.offset⟩ ⟨t, z.offset + a.natAbs⟩ (cellIndex t z.offset) = .ok h' ∧
      AllocState t h' (z.fill [a + b]) (freeCells (z.fill [a + b])) ∧
      Keeps t (z.liveAround (a + b).natAbs) h h' := by
  have hspan : span [a, b] = (a + b).natAbs := by
    simp only [span_cons, span_nil]
    omega
  have hamem : (z.offset, a) ∈ freeCells (z.fill [a, b]) :=
    ⟨mem_allCells_fill.2 (.inr (by simp)), ha⟩
  have hbmem : (z.offset + a.natAbs, b) ∈ freeCells (z.fill [a, b]) :=
    ⟨mem_allCells_fill.2 (.inr (by simp)), hb⟩
  have ha8 := (hs.layout.cell_bounds hamem.1).2.1
  have hlt := (hs.layout.cell_bounds hbmem.1).2.2.2.2
  simp only at ha8 hlt
  have hareadI : h.readI32 ⟨t, z.offset⟩ = a := hs.header hamem.1
  have hbreadI : h.readI32 ⟨t, z.offset + a.natAbs⟩ = b := hs.header hbmem.1
  have hareadU : h.readU32 ⟨t, z.offset⟩ = a.toNat := hs.readU32_header hamem
  have hbreadU : h.readU32 ⟨t, z.offset + a.natAbs⟩ = b.toNat := hs.readU32_header hbmem
  have hsum : (a.toNat + b.toNat) % 0x100000000 = (a + b).toNat := by omega
  have hnot : ∀ x : ℤ, x ≠ 0 → (z.offset, x) ∉ z.freeAround (a + b).natAbs := fun x hx hq =>
    hs.layout.offset_notMem_around (by omega) x hx (hspan ▸ hq.1)
  rw [freeCells_fill_pos (by omega), mergePrevious, hareadI, hbreadI, hareadU, hbreadU, hsum,
    hvpComputeFreeListIndex_of_le (by omega), hvpComputeFreeListIndex_of_le (by omega)]
  by_cases hij : freeListIndex a.toNat = freeListIndex (a + b).toNat
  · refine ⟨h.writeI32 ⟨t, z.offset⟩ (a + b), ?_, hs.joinListed ha hb hij⟩
    simp only [bind, Except.bind, hij, ne_eq, not_true_eq_false, if_false]
    rfl
  · -- the neighbour changes its list
    obtain ⟨h₁, heq1, hs1, hk1⟩ := hs.hvpRemoveFree_spec (Set.mem_insert _ _)
    rw [Set.insert_sdiff_self_of_notMem (hnot a (by omega))] at hs1
    simp only at heq1
    obtain ⟨hs2, hk2⟩ := hs1.join ha hb fun q hq => hq.1
    have hmem : (z.offset, a + b) ∈ freeCells (z.fill [a + b]) := by
      rw [freeCells_fill_pos (by omega)]
      exact Set.mem_insert _ _
    obtain ⟨h3, heq3, hs3, hk3⟩ := hs2.hvpAddFree_spec hmem (hnot _ (by omega))
    simp only at heq3
    rw [liveCells_fill_pos (by omega)] at hk3
    have hkeep : Keeps t (z.liveAround (a + b).natAbs) h h₁ := hk1.mono fun q hq =>
      ⟨mem_allCells_fill.2 (.inl (hspan ▸ hq.1)), hq.2⟩
    refine ⟨h3, ?_, hs3, (hkeep.trans hk2).trans hk3⟩
    simp only [bind, Except.bind, hij, ne_eq, not_false_eq_true, if_true, heq1]
    exact heq3

end

/-- **`HvFreeCell`, the end**: the freed cell is listed, alone or as part of the
free cell before it. -/
theorem listFreed_spec (hs : AllocState t h (z.fill [s]) (z.freeAround s.natAbs)) (hpos : 0 < s) :
    ∃ h' l' S, listFreed h ⟨t, z.offset⟩ ⟨t, z.start⟩ (cellIndex t z.offset) = .ok h' ∧ 0 < S ∧
      (l' = z.left ∧ (∀ y ∈ z.left.getLast?, ¬0 < y) ∨ ∃ x, z.left = l' ++ [x] ∧ 0 < x) ∧
      AllocState t h' ({ z with left := l' }.fill [S])
        (freeCells ({ z with left := l' }.fill [S])) ∧
      { z with left := l' }.liveAround S.natAbs = z.liveAround s.natAbs ∧
      Keeps t (z.liveAround s.natAbs) h h' := by
  have hbin := hs.layout.bin_of_fill
  have hlt := hs.layout.fill_bounds.1
  have hcover := hbin.span_sizes
  have hend := (hs.layout.contiguous.bounds (b := ⟨z.start, z.blocks, z.left ++ [s] ++ z.right⟩)
    (by simp [fill])).2
  simp only [span_append, span_cons, span_nil] at hcover
  simp only [BinLayout.fin] at hend
  have hoff : z.offset = z.start + 32 + span z.left := rfl
  have htype : hvGetCellType (cellIndex t z.offset) = t := hvGetCellType_cellIndex (by omega)
  -- the cells before the freed one are at least eight bytes each
  have hshort : z.left.length < h.walkBudget := by
    have hlen : z.left.length * 8 ≤ span z.left :=
      length_mul_le_span fun x hx => by
        have := hbin.sizes x (by simp [hx])
        omega
    rw [HHive.walkBudget]
    cases t <;> omega
  have hwalk := previousTurn_walk (h := h) (t := t) (n := z.start + 32)
    (fun p hp => hs.header (mem_allCells_fill.2 (.inl (by simp [around, hp]))))
    (fun x hx => (hbin.sizes x (by simp [hx])).1) hoff.symm hshort
  by_cases hlast : ∀ y ∈ z.left.getLast?, ¬0 < y
  · -- there is no free cell right before
    have hnone : z.left.getLast?.filter (0 < ·) = none := by
      rw [Option.filter_eq_none_iff]
      exact fun y hy => by simpa using hlast y hy
    obtain ⟨h₁, heq1, hs1, hk1⟩ := hs.hvpAddFree_spec (p := (z.offset, s))
      ⟨mem_allCells_fill.2 (.inr (by simp)), hpos⟩ fun hq =>
        hs.layout.offset_notMem_around (by simp; omega) s (by omega) (by simpa using hq.1)
    rw [liveCells_fill_pos hpos] at hk1
    obtain ⟨h₂, heq2, hs2, hk2⟩ := hs1.markIfStable_spec (p := (z.offset, s))
      (mem_allCells_fill.2 (.inr (by simp))) (z.liveAround s.natAbs)
    rw [← freeCells_fill_pos hpos] at hs2
    refine ⟨h₂, z.left, s, ?_, hpos, .inl ⟨rfl, hlast⟩, hs2, rfl, hk1.trans hk2⟩
    rw [listFreed, hwalk, hnone, htype]
    simp only [Option.map_none, bind, Except.bind, heq1]
    exact heq2
  · push Not at hlast
    obtain ⟨x, hx, hxpos⟩ := hlast
    obtain ⟨l, hl⟩ := getLast?_eq_some_iff.1 hx
    have hsome : z.left.getLast?.filter (0 < ·) = some x := by
      rw [Option.filter_eq_some_iff]
      exact ⟨hx, by simpa using hxpos⟩
    set w : Hole := { z with left := l } with hw
    have hwoff : w.offset + x.natAbs = z.offset := by
      simp only [hw, offset, hl, span_append, span_cons, span_nil]
      omega
    have hnat : (x + s).natAbs = x.natAbs + s.natAbs := by omega
    have haround : ∀ q, q ∈ z.around s.natAbs ↔
        q ∈ w.around (x + s).natAbs ∨ q = (w.offset, x) := fun q => by
      rw [hnat]
      exact mem_around_left hl
    have hfree : z.freeAround s.natAbs = insert (w.offset, x) (w.freeAround (x + s).natAbs) := by
      ext q
      simp only [freeAround, haround, Set.mem_ofPred_eq, Set.mem_insert_iff]
      constructor
      · rintro ⟨hq | hq, hqpos⟩
        · exact .inr ⟨hq, hqpos⟩
        · exact .inl hq
      · rintro (rfl | ⟨hq, hqpos⟩)
        · exact ⟨.inr rfl, hxpos⟩
        · exact ⟨.inl hq, hqpos⟩
    have hlive := liveAround_eq haround hxpos
    have hs0 := hs
    rw [hfree, show z.fill [s] = w.fill [x, s] by simp [w, fill, hl]] at hs0
    obtain ⟨h₁, heq1, hs1, hk1⟩ := mergePrevious_spec hs0 hxpos hpos
    rw [hwoff] at heq1
    rw [hlive] at hk1
    obtain ⟨h₂, heq2, hs2, hk2⟩ := hs1.markIfStable_spec (p := (w.offset, x + s))
      (mem_allCells_fill.2 (.inr (by simp))) (z.liveAround s.natAbs)
    refine ⟨h₂, l, x + s, ?_, by omega, .inr ⟨x, hl, hxpos⟩, hs2, hlive, hk1.trans hk2⟩
    have hindex : neighborIndex h ⟨t, z.start⟩ ⟨t, w.offset⟩ (cellIndex t z.offset) =
        cellIndex t w.offset :=
      neighborIndex_eq (by omega) (by omega) (by simp only [hw, offset]; omega)
        hbin.fileOffset
    rw [listFreed, hwalk, hsome, htype]
    simp only [Option.map_some, bind, Except.bind]
    rw [show z.offset - x.natAbs = w.offset by omega, hindex, heq1]
    exact heq2

/-! ### Freeing a cell -/

/-- A cell that is freed with the free cells on either side leaves no adjacent
free cells. -/
theorem NoAdjacentFree.release {l' r' : List ℤ} (hno : NoAdjacentFree (z.fill [s]))
    (hl : l' = z.left ∧ (∀ y ∈ z.left.getLast?, ¬0 < y) ∨ ∃ x, z.left = l' ++ [x] ∧ 0 < x)
    (hr : r' = z.right ∧ (∀ y ∈ z.right.head?, ¬0 < y) ∨ ∃ x, z.right = x :: r' ∧ 0 < x) (S : ℤ) :
    NoAdjacentFree ({ z with left := l', right := r' }.fill [S]) := by
  rw [noAdjacentFree_fill] at hno ⊢
  refine ⟨hno.1, ?_⟩
  obtain ⟨hchain, hright, -⟩ := isChain_append.1 hno.2
  obtain ⟨hleft, -, -⟩ := isChain_append.1 hchain
  have hl' : l'.IsChain (fun x y : ℤ => ¬(0 < x ∧ 0 < y)) ∧ ∀ y ∈ l'.getLast?, ¬0 < y := by
    rcases hl with ⟨rfl, hlast⟩ | ⟨x, hx, hpos⟩
    · exact ⟨hleft, hlast⟩
    · rw [hx] at hleft
      obtain ⟨h₁, -, h₂⟩ := isChain_append.1 hleft
      exact ⟨h₁, fun y hy hy' => h₂ y hy x (by simp) ⟨hy', hpos⟩⟩
  have hr' : r'.IsChain (fun x y : ℤ => ¬(0 < x ∧ 0 < y)) ∧ ∀ y ∈ r'.head?, ¬0 < y := by
    rcases hr with ⟨rfl, hhead⟩ | ⟨x, hx, hpos⟩
    · exact ⟨hright, hhead⟩
    · rw [hx] at hright
      obtain ⟨h₁, h₂⟩ := isChain_cons.1 hright
      exact ⟨h₂, fun y hy hy' => h₁ y hy ⟨hpos, hy'⟩⟩
  simp only [append_assoc]
  refine isChain_append.2 ⟨hl'.1, isChain_cons.2 ⟨fun y hy h => hr'.2 y hy h.2, hr'.1⟩,
    fun y hy _ _ h => hl'.2 y hy h.1⟩

/-- `HvFreeCell` of a live cell is its two parts, one after the other. -/
theorem hvFreeCell_eq {c start : ℕ} {p : CellPtr} {block : Option ℕ} (hro : h.readOnly = false)
    (hget : hvpGetCellHeader h c = .ok p) (hneg : h.readI32 p < 0)
    (hblock : ((h.writeI32 p (-h.readI32 p)).storage (hvGetCellType c)).blockList[
      hvGetCellBlock c]? = some ⟨block, some start⟩) :
    hvFreeCell h c = (mergeNext (h.writeI32 p (-h.readI32 p)) p ⟨hvGetCellType c, start⟩ c).bind
      fun h' => listFreed h' p ⟨hvGetCellType c, start⟩ c := by
  rw [hvFreeCell, assert_of hro, hget]
  simp only [bind, Except.bind, assert_of hneg, hblock, Option.bind_some]

/-- What freeing the cell `p` has done. -/
structure Freed (t : HStorageType) (bins bins' : List BinLayout) (h h' : HHive) (p : ℕ × ℤ) :
    Prop where
  state : AllocState t h' bins' (freeCells bins')
  live : liveCells bins' = liveCells bins \ {p}
  keeps : Keeps t (liveCells bins \ {p}) h h'
  noAdjacent : NoAdjacentFree bins → NoAdjacentFree bins'

section

variable (hs : AllocState t h bins (freeCells bins))
include hs

/-- **`HvFreeCell` returns**, and what was the cell is free. -/
theorem hvFreeCell_spec {p : ℕ × ℤ} (hp : p ∈ liveCells bins) :
    ∃ h' bins', hvFreeCell h (cellIndex t p.1) = .ok h' ∧ Freed t bins bins' h h' p := by
  have hget := hs.getCellHeader hp.1
  have hread : h.readI32 ⟨t, p.1⟩ = p.2 := hs.header hp.1
  have hlt := (hs.layout.cell_bounds hp.1).2.2.2.2
  have hneg := hp.2
  obtain ⟨z, rfl, hoff⟩ := exists_fill hp.1
  obtain ⟨s, hps⟩ : ∃ s, p.2 = -s := ⟨-p.2, by omega⟩
  have hpos : 0 < s := by omega
  have hspan : span [-s] = s.natAbs := by simp
  rw [hps] at hs hread
  obtain ⟨hs1, hk1⟩ := freeHeader_spec hs hpos
  obtain ⟨h₂, r', S, heq2, hSpos, hright, hs2, hlive2, hk2⟩ := mergeNext_spec hs1 hpos
  obtain ⟨h3, l', T, heq3, hTpos, hleft, hs3, hlive3, hk3⟩ := listFreed_spec hs2 hSpos
  have hblock : ((h.writeI32 ⟨t, z.offset⟩ s).storage t).blockList[z.offset / 4096]? =
      some ⟨some (z.offset / 4096 * 4096), some z.start⟩ :=
    hs1.layout.block_of_mem (b := ⟨z.start, z.blocks, z.left ++ [s] ++ z.right⟩)
      (p := (z.offset, s)) (by simp [fill]) (by simp [BinLayout.cells, offset])
  have hlive : liveCells (z.fill [p.2]) \ {p} = z.liveAround s.natAbs := by
    rw [hps, liveCells_fill_neg (by omega), Int.natAbs_neg, hoff, ← hps]
    refine Set.insert_sdiff_self_of_notMem fun hq => ?_
    refine hs.layout.offset_notMem_around (by rw [hspan]; omega) p.2 (by omega) ?_
    rw [hspan, hoff]
    exact hq.1
  rw [hlive2] at hk3 hlive3
  refine ⟨h3, _, ?_, hs3, ?_, ?_, fun hno => hno.release hleft ?_ T⟩
  · rw [← hoff] at hget hread ⊢
    have htype : hvGetCellType (cellIndex t z.offset) = t := hvGetCellType_cellIndex (by omega)
    have hindex : hvGetCellBlock (cellIndex t z.offset) = z.offset / 4096 :=
      hvGetCellBlock_cellIndex (by omega)
    rw [← neg_neg s, ← hread] at hblock heq2
    have hrun := hvFreeCell_eq hs.readOnly hget (by omega) (by rw [htype, hindex]; exact hblock)
    rw [hrun, htype, heq2]
    exact heq3
  · rw [hlive, liveCells_fill_pos hTpos]
    exact hlive3
  · rw [hlive]
    exact (hk1.trans hk2).trans hk3
  · rcases hright with ⟨h₁, -, h₂⟩ | ⟨x, h₁, h₂, -⟩
    · exact .inl ⟨h₁, h₂⟩
    · exact .inr ⟨x, h₁, h₂⟩

/-! ### Moving a cell -/

/-- Writing the data of a live cell changes nothing the allocator looks at. -/
theorem AllocState.writeLive {p : ℕ × ℤ} (hp : p ∈ liveCells bins) {m : Mem}
    (hout : ∀ c, c < p.1 + 4 ∨ p.1 + p.2.natAbs ≤ c → m c = h.mem t c) :
    AllocState t (h.setMem t m) bins (freeCells bins) ∧
      Keeps t (liveCells bins \ {p}) h (h.setMem t m) := by
  obtain ⟨-, h8, -, hdvd, -⟩ := hs.layout.cell_bounds hp.1
  have hneg := hp.2
  have hread := hs.layout.header hp.1
  obtain ⟨z, rfl, hoff⟩ := exists_fill hp.1
  have hspan : span [p.2] = p.2.natAbs := by simp
  have hfree : freeCells (z.fill [p.2]) = z.freeAround p.2.natAbs := freeCells_fill_neg hneg
  have hlive : liveCells (z.fill [p.2]) \ {p} ⊆ z.liveAround p.2.natAbs := by
    rw [liveCells_fill_neg hneg, hoff]
    exact Set.sdiff_singleton_subset_iff.2 subset_rfl
  obtain ⟨hs', hk⟩ := hs.retile (m := m) rfl (fun x hx => by
      rw [mem_singleton.1 hx]
      omega) (fun q hq => by
      rw [mem_singleton.1 hq]
      simp only [hoff]
      rw [← hread]
      exact Mem.readI32_congr fun c h₁ h₂ => hout c (by omega))
    (fun c hc => hout c (by rw [hspan, hoff] at hc; omega))
    (fun q hq => by
      rw [hfree] at hq
      exact hq.1)
  exact ⟨hs', hk.mono hlive⟩

omit hs in
/-- `HvReallocateCell` with a larger cell: the data is copied and the old cell
freed. -/
theorem moveIfLarger_moved {c size new o o' : ℕ} {oldSize : ℤ} {alloc : Allocations} {h₁ h₂ : HHive}
    (hlarge : oldSize < size) (heq : hvAllocateCell h size t alloc = .ok (new, h₁))
    (hne : new ≠ hcellNil) (hget : hvGetCell h₁ new = .ok ⟨t, o'⟩)
    (hfree : hvFreeCell (h₁.setMem t ((h₁.mem t).copy o' (h₁.mem t) (o + 4) oldSize.toNat)) c =
      .ok h₂) : moveIfLarger h c ⟨t, o⟩ oldSize size t alloc = .ok (new, h₂) := by
  rw [moveIfLarger, if_pos hlarge, heq]
  simp only [bind, Except.bind, if_neg hne, hget, hfree]
  rfl

/-- What moving the cell `p` to the cell `q` has done. -/
structure Moved (t : HStorageType) (bins bins' : List BinLayout) (h h' : HHive) (size : ℕ)
    (p q : ℕ × ℤ) : Prop where
  state : AllocState t h' bins' (freeCells bins')
  live : liveCells bins' = insert q (liveCells bins \ {p})
  fresh : ∀ x ∈ liveCells bins, x.1 ≠ q.1
  neg : q.2 < 0
  room : size + 4 ≤ q.2.natAbs
  data : ∀ i, i + 4 < p.2.natAbs → h'.mem t (q.1 + 4 + i) = h.mem t (p.1 + 4 + i)
  zero : ∀ i, p.2.natAbs ≤ i + 4 → i < size → h'.mem t (q.1 + 4 + i) = 0
  keeps : Keeps t (liveCells bins \ {p}) h h'
  noAdjacent : NoAdjacentFree bins → NoAdjacentFree bins'

/-- **`HvReallocateCell` returns**: the cell has room already, or there is no
memory for a larger one, or it is moved. -/
theorem hvReallocateCell_spec {alloc : Allocations}
    {size : ℕ} (hsize : size < 0x40000000) (hbm : alloc.bitmap = true) {p : ℕ × ℤ}
    (hp : p ∈ liveCells bins) (hfit : -p.2 - 4 < size → Fits h t size alloc) :
    hvReallocateCell h (cellIndex t p.1) size alloc = .ok (cellIndex t p.1, h) ∧
        size + 4 ≤ p.2.natAbs ∨
      hvReallocateCell h (cellIndex t p.1) size alloc = .ok (hcellNil, h) ∨
      ∃ q h' bins', hvReallocateCell h (cellIndex t p.1) size alloc = .ok (cellIndex t q.1, h') ∧
        Moved t bins bins' h h' size p q := by
  obtain ⟨-, h8, -, -, hlt⟩ := hs.layout.cell_bounds hp.1
  have hneg := hp.2
  have hread : h.readI32 ⟨t, p.1⟩ = p.2 := hs.header hp.1
  have hold : ∀ k, hvReallocateCell h (cellIndex t p.1) size alloc = k ↔
      moveIfLarger h (cellIndex t p.1) ⟨t, p.1⟩ (-p.2 - 4) size t alloc = k := by
    intro k
    rw [hvReallocateCell, assert_of (cellIndex_ne_nil (by omega)), hs.getCellHeader hp.1,
      hvGetCellType_cellIndex (by omega)]
    simp only [bind, Except.bind, hread, assert_of (show 0 < -p.2 - 4 by omega)]
  simp only [hold]
  by_cases hlarge : -p.2 - 4 < size
  · right
    rcases hvAllocateCell_spec hs hsize hbm (hfit hlarge) with heq | ⟨q, h₁, bins1, heq, hq⟩
    · rw [moveIfLarger, if_pos hlarge, heq]
      exact .inl rfl
    · right
      have hpq := hq.fresh p hp
      have hqlive : q ∈ liveCells bins1 := hq.live ▸ Set.mem_insert _ _
      have hplive : p ∈ liveCells bins1 := hq.live ▸ Set.mem_insert_of_mem _ hp
      have hqlt := (hq.state.layout.cell_bounds hqlive.1).2.2.2.2
      have hroom := hq.room
      have hsub : liveCells bins \ {p} ⊆ liveCells bins1 \ {q} := by
        intro x hx
        refine ⟨hq.live ▸ Set.mem_insert_of_mem _ hx.1, fun he => hq.fresh x hx.1 ?_⟩
        rw [he]
      obtain ⟨hs2, hk2⟩ := hq.state.writeLive hqlive
        (m := (h₁.mem t).copy (q.1 + 4) (h₁.mem t) (p.1 + 4) (-p.2 - 4).toNat)
        fun c hc => Mem.copy_of_notMem (by omega)
      obtain ⟨h3, bins3, heq3, hf⟩ := hvFreeCell_spec hs2 hplive
      have hsub' : liveCells bins \ {p} ⊆ liveCells bins1 \ {p} := fun x hx =>
        ⟨(hsub hx).1, hx.2⟩
      have hqkept : q ∈ liveCells bins1 \ {p} := ⟨hqlive, fun he => hpq (by rw [he])⟩
      -- the bytes of the new cell are those of the copy
      have hbytes : ∀ i, i + 4 < q.2.natAbs → h3.mem t (q.1 + 4 + i) =
          (h₁.mem t).copy (q.1 + 4) (h₁.mem t) (p.1 + 4) (-p.2 - 4).toNat (q.1 + 4 + i) := by
        intro i hi
        rw [hf.keeps.bytes q hqkept (q.1 + 4 + i) (by omega) (by omega), HHive.mem_setMem]
      refine ⟨q, h3, bins3, ?_, hf.state, ?_, hq.fresh, hq.neg, hq.room, fun i hi => ?_,
        fun i hi hi' => ?_, ?_, fun hno => hf.noAdjacent (hq.noAdjacent hno)⟩
      · have hget : hvGetCell h₁ (cellIndex t q.1) = .ok ⟨t, q.1 + 4⟩ := by
          rw [hvGetCell, hq.state.getCellHeader hqlive.1]
          rfl
        exact moveIfLarger_moved hlarge heq (cellIndex_ne_nil (by omega)) hget heq3
      · rw [hf.live, hq.live, Set.insert_sdiff_of_notMem]
        simpa using fun he => hpq (by rw [he])
      · rw [hbytes i (by omega), Mem.copy_of_mem (by omega) (by omega)]
        rw [show p.1 + 4 + (q.1 + 4 + i - (q.1 + 4)) = p.1 + 4 + i by omega]
        exact hq.keeps.bytes p hp _ (by omega) (by omega)
      · rw [hbytes i (by omega), Mem.copy_of_notMem (by omega)]
        exact hq.zero _ (by omega) (by omega)
      · exact ((hq.keeps.mono Set.sdiff_subset).trans (hk2.mono hsub)).trans (hf.keeps.mono hsub')
  · left
    refine ⟨?_, by omega⟩
    rw [moveIfLarger, if_neg hlarge]
    rfl

end

end Release

end Windivs

import Windivs.Cm.CellLayout

/-!
# The steps of the allocator

Every call of the allocator is a sequence of a few steps, and each of them moves
between states described by `Windivs.AllocState`:

* a cell is taken out of its list, by `HvpRemoveFree` or by `HvpFindFree`, which
  changes one link (`Windivs.AllocState.unlink`);
* a cell is pushed on the list of its size, by `HvpAddFree`;
* the headers inside a stretch of a bin are rewritten, so that the stretch is
  tiled by other cells (`Windivs.AllocState.retile`).

The first two keep the layout and change the set of listed cells, the third
changes the layout and keeps the set. None of them touches the bytes of a live
cell outside the stretch it rewrites, which is what `Windivs.Keeps` records.
-/

namespace Windivs

open List HHive

variable {bins : List BinLayout} {o : ℕ} {p : ℕ × ℤ}

variable {Q : ℕ × ℤ → Prop} {l : List ℕ} {s : ℤ}

/-! ### Changing one list -/

section FreeLists

variable {d d' : Dual} {t : HStorageType} {free free' : Set (ℕ × ℤ)}

/-- An edit of the list `i`: the other lists are as they were. -/
theorem FreeLists.update (h : FreeLists d t free) (i : ℕ)
    (hdisplay : ∀ j, j ≠ i → d'.freeDisplay j = d.freeDisplay j)
    (hnext : ∀ p ∈ free, freeListIndex p.2.toNat ≠ i →
      nextFree d'.mem (cellIndex t p.1) = nextFree d.mem (cellIndex t p.1))
    (hfree : ∀ p, freeListIndex p.2.toNat ≠ i → (p ∈ free' ↔ p ∈ free))
    (hnew : ∃ l, Chain hcellNil (nextFree d'.mem) (d'.freeDisplay i) l ∧ l.Nodup ∧
      ∀ c, c ∈ l ↔ ∃ p ∈ free', freeListIndex p.2.toNat = i ∧ c = cellIndex t p.1) :
    FreeLists d' t free' := by
  intro j hj
  by_cases hji : j = i
  · exact hji ▸ hnew
  · obtain ⟨l, hchain, hnodup, hmem⟩ := h j hj
    refine ⟨l, ?_, hnodup, fun c => ?_⟩
    · rw [hdisplay j hji]
      refine hchain.congr fun c hc => ?_
      obtain ⟨p, hp, hpi, rfl⟩ := (hmem c).1 hc
      exact hnext p hp (hpi ▸ hji)
    · rw [hmem c]
      constructor
      · rintro ⟨p, hp, hpi, rfl⟩
        exact ⟨p, (hfree p (hpi ▸ hji)).2 hp, hpi, rfl⟩
      · rintro ⟨p, hp, hpi, rfl⟩
        exact ⟨p, (hfree p (hpi ▸ hji)).1 hp, hpi, rfl⟩

/-- The lists read the links of their cells only. -/
theorem FreeLists.frame (h : FreeLists d t free) (hdisplay : d'.freeDisplay = d.freeDisplay)
    (hnext : ∀ p ∈ free, nextFree d'.mem (cellIndex t p.1) = nextFree d.mem (cellIndex t p.1)) :
    FreeLists d' t free := by
  intro j hj
  obtain ⟨l, hchain, hnodup, hmem⟩ := h j hj
  refine ⟨l, ?_, hnodup, hmem⟩
  rw [hdisplay]
  refine hchain.congr fun c hc => ?_
  obtain ⟨p, hp, -, rfl⟩ := (hmem c).1 hc
  exact hnext p hp

end FreeLists

/-! ### Links -/

section Links

variable {t : HStorageType} {m : Mem} {o' v : ℕ}

theorem nextFree_cellIndex (ho : o < 0x80000000) :
    nextFree m (cellIndex t o) = m.readU32 (o + 4) := by
  rw [nextFree, cellIndex_mod_type ho]

theorem nextFree_writeLink (ho : o < 0x80000000) (hv : v < 0x100000000) :
    nextFree (m.writeU32 (o + 4) v) (cellIndex t o) = v := by
  rw [nextFree_cellIndex ho, Mem.readU32_writeU32, Nat.mod_eq_of_lt hv]

theorem nextFree_writeLink_ne (ho' : o' < 0x80000000) (h8 : 8 ∣ o) (h8' : 8 ∣ o') (hne : o' ≠ o) :
    nextFree (m.writeU32 (o + 4) v) (cellIndex t o') = nextFree m (cellIndex t o') := by
  rw [nextFree_cellIndex ho', nextFree_cellIndex ho', Mem.readU32_writeU32_ne _ _ (by omega)]

/-- The link a walk of the free lists stands at after passing the cells `pre`. -/
def linkAfter (t : HStorageType) : FreeLink → List ℕ → FreeLink
  | link, [] => link
  | _, c :: pre => linkAfter t (.cell ⟨t, c % 0x80000000 + 4⟩) pre

theorem linkAfter_concat (link : FreeLink) (pre : List ℕ) (c : ℕ) :
    linkAfter t link (pre ++ [c]) = .cell ⟨t, c % 0x80000000 + 4⟩ := by
  induction pre generalizing link with
  | nil => rfl
  | cons a pre ih => exact ih _

end Links

namespace AllocState

variable {t : HStorageType} {h : HHive} {free : Set (ℕ × ℤ)} {q : ℕ × ℤ}

theorem mem_cells (hs : AllocState t h bins free) (hp : p ∈ free) : p ∈ allCells bins :=
  (hs.subset hp).1

theorem pos (hs : AllocState t h bins free) (hp : p ∈ free) : 0 < p.2 :=
  (hs.subset hp).2

/-- Writing the link of a free cell touches no live cell. -/
theorem keeps_writeLink (hl : Layout (h.storage t) bins) (hq : q ∈ freeCells bins) (v : ℕ) :
    Keeps t (liveCells bins) h (h.writeU32 ⟨t, q.1 + 4⟩ v) := by
  refine Keeps.setStorage fun p hp => Mem.agreeOn_writeU32 _ _ _ ?_
  have h8 := (hl.cell_bounds hq.1).2.1
  rcases hl.disjoint hp.1 hq.1 with rfl | hlt | hlt
  · exact absurd hp.2 (not_lt.2 hq.2.le)
  · exact .inl (by simp only; omega)
  · exact .inr (by simp only; omega)

/-- **Unlinking a cell** from its list, given the cells before and after it. -/
theorem unlink (hs : AllocState t h bins free) (hp : p ∈ free) {pre post : List ℕ}
    (hchain : Chain hcellNil (nextFree (h.mem t))
      ((h.storage t).freeDisplay (freeListIndex p.2.toNat)) (pre ++ cellIndex t p.1 :: post))
    (hnodup : (pre ++ cellIndex t p.1 :: post).Nodup)
    (hmem : ∀ c, c ∈ pre ++ cellIndex t p.1 :: post ↔
      ∃ q ∈ free, freeListIndex q.2.toNat = freeListIndex p.2.toNat ∧ c = cellIndex t q.1) :
    AllocState t (h.writeLink (linkAfter t (.display t (freeListIndex p.2.toNat)) pre)
      (nextFree (h.mem t) (cellIndex t p.1))) bins (free \ {p}) ∧
    Keeps t (liveCells bins) h (h.writeLink (linkAfter t (.display t (freeListIndex p.2.toNat)) pre)
      (nextFree (h.mem t) (cellIndex t p.1))) := by
  set i := freeListIndex p.2.toNat with hi
  have hmem' : ∀ c, c ∈ pre ++ post ↔
      ∃ q ∈ free \ {p}, freeListIndex q.2.toNat = i ∧ c = cellIndex t q.1 := by
    intro c
    rw [mem_append_iff_of_nodup hnodup, hmem]
    constructor
    · rintro ⟨⟨q, hq, hqi, rfl⟩, hne⟩
      exact ⟨q, ⟨hq, fun he => hne (he ▸ rfl)⟩, hqi, rfl⟩
    · rintro ⟨q, ⟨hq, hqp⟩, hqi, rfl⟩
      exact ⟨⟨q, hq, hqi, rfl⟩, fun he => hqp (hs.layout.cell_ext (hs.mem_cells hq)
        (hs.mem_cells hp) (cellIndex_inj.1 he))⟩
  have hother : ∀ q, freeListIndex q.2.toNat ≠ i → (q ∈ free \ {p} ↔ q ∈ free) := by
    intro q hq
    refine ⟨fun h => h.1, fun h => ⟨h, fun he => hq ?_⟩⟩
    rw [Set.mem_singleton_iff.1 he]
  have hnodup' : (pre ++ post).Nodup := (nodup_cons.1 (nodup_middle.1 hnodup)).2
  have hsubset : free \ {p} ⊆ freeCells bins := Set.sdiff_subset.trans hs.subset
  rcases eq_nil_or_concat pre with rfl | ⟨pre, a, rfl⟩
  · -- the cell is at the head of its list
    refine ⟨⟨hs.ready.setStorage rfl, ?_, ?_, hsubset⟩, Keeps.setStorage fun _ _ _ _ _ => rfl⟩
    · simp only [linkAfter, writeLink, setFreeDisplay, setStorage_storage]
      exact hs.layout.frame rfl (fun _ _ _ _ _ => rfl) fun _ _ _ _ _ => rfl
    · simp only [linkAfter, writeLink, setFreeDisplay, setStorage_storage]
      refine hs.lists.update i (fun j hj => Function.update_of_ne hj ..) (fun _ _ _ => rfl) hother
        ⟨post, ?_, hnodup', hmem'⟩
      simp only [Function.update_self]
      exact hchain.drop
  · -- the link before it is in a free cell of the same list
    rw [concat_eq_append] at hchain hnodup hmem hmem' hnodup' ⊢
    obtain ⟨q, hq, hqi, rfl⟩ := (hmem a).1 (by simp)
    obtain ⟨-, -, hq8, -, hqlt⟩ := hs.layout.cell_bounds (hs.mem_cells hq)
    have hq31 : q.1 < 0x80000000 := by omega
    have hv : nextFree (h.mem t) (cellIndex t p.1) < 0x100000000 := Mem.readU32_lt _ _
    rw [linkAfter_concat, cellIndex_mod_type hq31]
    refine ⟨⟨hs.ready.setMem _ _, ?_, ?_, hsubset⟩, keeps_writeLink hs.layout (hs.subset hq) _⟩
    · simp only [writeLink, writeU32, setMem, setStorage_storage]
      exact hs.layout.writeLink (hs.mem_cells hq) _
    · simp only [writeLink, writeU32, setMem, setStorage_storage]
      have hkeep : ∀ x ∈ free, x.1 ≠ q.1 →
          nextFree ((h.mem t).writeU32 (q.1 + 4) (nextFree (h.mem t) (cellIndex t p.1)))
            (cellIndex t x.1) = nextFree (h.mem t) (cellIndex t x.1) := by
        intro x hx hne
        obtain ⟨-, -, hx8, -, hxlt⟩ := hs.layout.cell_bounds (hs.mem_cells hx)
        exact nextFree_writeLink_ne (by omega) hq8 hx8 hne
      refine hs.lists.update i (fun _ _ => rfl) (fun x hx hxi => hkeep x hx fun he => hxi ?_) hother
        ⟨pre ++ cellIndex t q.1 :: post, ?_, by simpa using hnodup', by simpa using hmem'⟩
      · rw [hs.layout.cell_ext (hs.mem_cells hx) (hs.mem_cells hq) he, hqi]
      · refine Chain.unlink (by simpa using hchain) (nextFree_writeLink hq31 hv) fun c hc => ?_
        obtain ⟨x, hx, hxi, rfl⟩ := (hmem c).1 (by
          simp only [mem_append, mem_cons] at hc ⊢
          tauto)
        refine hkeep x hx fun he => ?_
        -- a second occurrence of the cell before it would contradict uniqueness
        rw [he] at hc
        have hn : (pre ++ cellIndex t q.1 :: post).Nodup := by simpa using hnodup'
        exact (nodup_cons.1 (nodup_middle.1 hn)).1 hc

end AllocState

/-! ### Walking the lists -/

namespace AllocState

variable {t : HStorageType} {h : HHive} {free : Set (ℕ × ℤ)} {q : ℕ × ℤ}

section

variable (hs : AllocState t h bins free)
include hs

theorem header (hp : p ∈ allCells bins) : h.readI32 ⟨t, p.1⟩ = p.2 :=
  hs.layout.header hp

theorem readU32_header (hp : p ∈ freeCells bins) : h.readU32 ⟨t, p.1⟩ = p.2.toNat :=
  Mem.readU32_eq_toNat (hs.header hp.1) hp.2

theorem eight_le (hp : p ∈ freeCells bins) : 8 ≤ p.2.toNat := by
  have h₁ := (hs.layout.cell_bounds hp.1).2.1
  have h₂ := hp.2
  omega

theorem getCellHeader (hp : p ∈ allCells bins) :
    hvpGetCellHeader h (cellIndex t p.1) = .ok ⟨t, p.1⟩ :=
  hvpGetCellHeader_of_mem hs.flat hs.layout hp

/-- The lists are short: their cells start at different multiples of eight in
the storage. -/
theorem length_lt_walkBudget (hnodup : l.Nodup)
    (hmem : ∀ c ∈ l, ∃ p ∈ free, c = cellIndex t p.1) : l.length < h.walkBudget := by
  have hnodup' : (l.map fun c => c % 0x80000000 / 8).Nodup := by
    refine hnodup.map_on fun c hc c' hc' he => ?_
    obtain ⟨p, hp, rfl⟩ := hmem c hc
    obtain ⟨q, hq, rfl⟩ := hmem c' hc'
    obtain ⟨-, -, hp8, -, hplt⟩ := hs.layout.cell_bounds (hs.mem_cells hp)
    obtain ⟨-, -, hq8, -, hqlt⟩ := hs.layout.cell_bounds (hs.mem_cells hq)
    rw [cellIndex_mod_type (by omega), cellIndex_mod_type (by omega)] at he
    rw [cellIndex_inj]
    omega
  have hsub : (l.map fun c => c % 0x80000000 / 8) ⊆ range ((h.storage t).length * 512) := by
    intro x hx
    obtain ⟨c, hc, rfl⟩ := mem_map.1 hx
    obtain ⟨p, hp, rfl⟩ := hmem c hc
    obtain ⟨hple, hp8, -, -, hplt⟩ := hs.layout.cell_bounds (hs.mem_cells hp)
    rw [mem_range, cellIndex_mod_type (by omega)]
    omega
  have hle := (subperm_of_subset hnodup' hsub).length_le
  rw [length_map, length_range] at hle
  rw [walkBudget]
  cases t <;> omega

omit hs in
/-- The walk of `HvpRemoveFree` passes the cells before the one it looks for and
overwrites the link that leads to it. -/
theorem removeFree_walk {c : ℕ} {link : FreeLink} {pre post : List ℕ}
    (hcell : ∀ x ∈ pre ++ c :: post, hvpGetCellHeader h x = .ok ⟨t, x % 0x80000000⟩)
    (hchain : Chain hcellNil (nextFree (h.mem t)) (h.readLink link) (pre ++ c :: post))
    (hc : c ∉ pre) {n : ℕ} (hn : pre.length < n) :
    runLoop (removeFreeTurn h c) n link =
      .ok (h.writeLink (linkAfter t link pre) (nextFree (h.mem t) c)) := by
  induction pre generalizing link n with
  | nil =>
    rcases n with - | n
    · omega
    obtain ⟨hread, hnil, -⟩ := hchain
    have hget : hvGetCell h c = .ok ⟨t, c % 0x80000000 + 4⟩ := by
      rw [hvGetCell, hcell c (by simp)]
      rfl
    refine runLoop_leave n ?_
    simp only [removeFreeTurn, hread, hnil, hget]
    rfl
  | cons a pre ih =>
    rcases n with - | n
    · omega
    obtain ⟨hread, hnil, hrest⟩ := hchain
    have hget : hvGetCell h a = .ok ⟨t, a % 0x80000000 + 4⟩ := by
      rw [hvGetCell, hcell a (by simp)]
      rfl
    have hne : a ≠ c := fun he => hc (he ▸ mem_cons_self)
    have hturn : removeFreeTurn h c link = .again (.cell ⟨t, a % 0x80000000 + 4⟩) := by
      simp only [removeFreeTurn, hread, hnil, if_false, hget, hne]
    have hrest' : Chain hcellNil (nextFree (h.mem t))
        (h.readLink (.cell ⟨t, a % 0x80000000 + 4⟩)) (pre ++ c :: post) := hrest
    rw [runLoop_again n hturn]
    exact ih (fun x hx => hcell x (by simp only [cons_append, mem_cons]; exact .inr hx))
      hrest' (fun hmem => hc (mem_cons_of_mem _ hmem)) (by simpa using hn)

/-- The cells of a list can be looked up. -/
theorem getCellHeader_of_list (hmem : ∀ c ∈ l, ∃ p ∈ free, c = cellIndex t p.1) :
    ∀ c ∈ l, hvpGetCellHeader h c = .ok ⟨t, c % 0x80000000⟩ := by
  intro c hc
  obtain ⟨p, hp, rfl⟩ := hmem c hc
  have hlt := (hs.layout.cell_bounds (hs.mem_cells hp)).2.2.2.2
  rw [hs.getCellHeader (hs.mem_cells hp), cellIndex_mod_type (by omega)]

/-- **`HvpRemoveFree` takes a listed cell out of its list**, and does not reach
its final assertion. -/
theorem hvpRemoveFree_spec (hp : p ∈ free) :
    ∃ h', hvpRemoveFree h ⟨t, p.1⟩ (cellIndex t p.1) = .ok h' ∧
      AllocState t h' bins (free \ {p}) ∧ Keeps t (liveCells bins) h h' := by
  have hlt := (hs.layout.cell_bounds (hs.mem_cells hp)).2.2.2.2
  obtain ⟨l, hchain, hnodup, hmem⟩ := hs.lists _ (freeListIndex_lt p.2.toNat)
  have hmem' : ∀ c ∈ l, ∃ q ∈ free, c = cellIndex t q.1 := by
    intro c hc
    obtain ⟨q, hq, -, rfl⟩ := (hmem c).1 hc
    exact ⟨q, hq, rfl⟩
  obtain ⟨pre, post, rfl⟩ := append_of_mem ((hmem _).2 ⟨p, hp, rfl, rfl⟩)
  have hshort := hs.length_lt_walkBudget hnodup hmem'
  rw [length_append] at hshort
  have hpre : cellIndex t p.1 ∉ pre := by
    have := (nodup_cons.1 (nodup_middle.1 hnodup)).1
    exact fun hc => this (mem_append_left _ hc)
  refine ⟨_, ?_, hs.unlink hp hchain hnodup hmem⟩
  rw [hvpRemoveFree, assert_of hs.readOnly, hs.readU32_header (hs.subset hp),
    hvpComputeFreeListIndex_of_le (hs.eight_le (hs.subset hp)), hvGetCellType_cellIndex (by omega)]
  have hchain' : Chain hcellNil (nextFree (h.mem t))
      (h.readLink (.display t (freeListIndex p.2.toNat))) (pre ++ cellIndex t p.1 :: post) := hchain
  exact removeFree_walk (hs.getCellHeader_of_list hmem') hchain' hpre (by omega)

omit hs in
/-- The inner loop of `HvpFindFree` on a list: it takes the first cell that is
large enough, or finds none. -/
theorem findFree_walk {link : FreeLink} {l : List ℕ}
    (hcell : ∀ x ∈ l, hvpGetCellHeader h x = .ok ⟨t, x % 0x80000000⟩)
    (hchain : Chain hcellNil (nextFree (h.mem t)) (h.readLink link) l)
    {n : ℕ} (hn : l.length < n) (size : ℕ) :
    (∃ pre c post, l = pre ++ c :: post ∧ size ≤ h.readU32 ⟨t, c % 0x80000000⟩ ∧
      runLoop (findFreeTurn h size) n link =
        .ok (some (c, h.writeLink (linkAfter t link pre) (nextFree (h.mem t) c)))) ∨
    ((∀ c ∈ l, h.readU32 ⟨t, c % 0x80000000⟩ < size) ∧
      runLoop (findFreeTurn h size) n link = .ok none) := by
  induction l generalizing link n with
  | nil =>
    rcases n with - | n
    · omega
    refine .inr ⟨by simp, runLoop_leave n ?_⟩
    rw [findFreeTurn, if_pos (show h.readLink link = hcellNil from hchain)]
  | cons a l ih =>
    rcases n with - | n
    · omega
    obtain ⟨hread, hnil, hrest⟩ := hchain
    have hget := hcell a (by simp)
    by_cases hsize : size ≤ h.readU32 ⟨t, a % 0x80000000⟩
    · refine .inl ⟨[], a, l, rfl, hsize, runLoop_leave n ?_⟩
      simp only [findFreeTurn, hread, hnil, hget, hsize]
      rfl
    · have hturn : findFreeTurn h size link = .again (.cell ⟨t, a % 0x80000000 + 4⟩) := by
        simp only [findFreeTurn, hread, hnil, hget, hsize]
        rfl
      have hrest' : Chain hcellNil (nextFree (h.mem t))
          (h.readLink (.cell ⟨t, a % 0x80000000 + 4⟩)) l := hrest
      rw [runLoop_again n hturn]
      rcases ih (fun x hx => hcell x (mem_cons_of_mem _ hx)) hrest' (by simpa using hn) with
        ⟨pre, c, post, rfl, hc, hrun⟩ | ⟨hsmall, hrun⟩
      · exact .inl ⟨a :: pre, c, post, rfl, hc, hrun⟩
      · exact .inr ⟨forall_mem_cons.2 ⟨not_le.1 hsize, hsmall⟩, hrun⟩

/-- The outer loop of `HvpFindFree`: it takes a cell that is large enough out of
one of the lists, or there is none in any of them. -/
theorem findFreeIn_spec (size : ℕ) (is : List ℕ) (his : ∀ i ∈ is, i < 24) :
    (∃ p ∈ free, size ≤ p.2.toNat ∧ ∃ h', findFreeIn h size t is = .ok (cellIndex t p.1, h') ∧
      AllocState t h' bins (free \ {p}) ∧ Keeps t (liveCells bins) h h') ∨
    ((∀ p ∈ free, freeListIndex p.2.toNat ∈ is → p.2.toNat < size) ∧
      findFreeIn h size t is = .ok (hcellNil, h)) := by
  induction is with
  | nil => exact .inr ⟨by simp, rfl⟩
  | cons i is ih =>
    obtain ⟨l, hchain, hnodup, hmem⟩ := hs.lists i (his i mem_cons_self)
    have hmem' : ∀ c ∈ l, ∃ q ∈ free, c = cellIndex t q.1 := by
      intro c hc
      obtain ⟨q, hq, -, rfl⟩ := (hmem c).1 hc
      exact ⟨q, hq, rfl⟩
    have hread : ∀ q ∈ free, h.readU32 ⟨t, cellIndex t q.1 % 0x80000000⟩ = q.2.toNat := by
      intro q hq
      have hlt := (hs.layout.cell_bounds (hs.mem_cells hq)).2.2.2.2
      rw [cellIndex_mod_type (by omega), hs.readU32_header (hs.subset hq)]
    have hchain' : Chain hcellNil (nextFree (h.mem t)) (h.readLink (.display t i)) l := hchain
    have hwalk := findFree_walk (hs.getCellHeader_of_list hmem') hchain'
      (hs.length_lt_walkBudget hnodup hmem') size
    rcases hwalk with ⟨pre, c, post, rfl, hsize, hrun⟩ | ⟨hsmall, hrun⟩
    · obtain ⟨p, hp, rfl, rfl⟩ := (hmem c).1 (by simp)
      rw [hread p hp] at hsize
      refine .inl ⟨p, hp, hsize, _, ?_, hs.unlink hp hchain hnodup hmem⟩
      rw [findFreeIn, hrun]
      rfl
    · have hnext : findFreeIn h size t (i :: is) = findFreeIn h size t is := by
        rw [findFreeIn, hrun]
        rfl
      rw [hnext]
      rcases ih fun j hj => his j (mem_cons_of_mem _ hj) with hfound | ⟨hnone, heq⟩
      · exact .inl hfound
      · refine .inr ⟨fun p hp hpi => ?_, heq⟩
        rcases mem_cons.1 hpi with hpi | hpi
        · have := hsmall _ ((hmem _).2 ⟨p, hp, hpi, rfl⟩)
          rwa [hread p hp] at this
        · exact hnone p hp hpi

/-- **`HvpFindFree`** takes a cell that is large enough out of its list, or
returns the nil index and leaves the hive alone. -/
theorem hvpFindFree_spec {size : ℕ} (hsize : 8 ≤ size) :
    (∃ p ∈ free, size ≤ p.2.toNat ∧ ∃ h', hvpFindFree h size t = .ok (cellIndex t p.1, h') ∧
      AllocState t h' bins (free \ {p}) ∧ Keeps t (liveCells bins) h h') ∨
    ((∀ p ∈ free, freeListIndex size ≤ freeListIndex p.2.toNat → p.2.toNat < size) ∧
      hvpFindFree h size t = .ok (hcellNil, h)) := by
  have hdef : hvpFindFree h size t = findFreeIn h size t
      (range' (freeListIndex size) (24 - freeListIndex size)) := by
    rw [hvpFindFree, hvpComputeFreeListIndex_of_le hsize]
    rfl
  rw [hdef]
  rcases hs.findFreeIn_spec size (range' (freeListIndex size) (24 - freeListIndex size))
    (fun i hi => by
      rw [mem_range'_1] at hi
      omega) with hfound | ⟨hnone, heq⟩
  · exact .inl hfound
  · refine .inr ⟨fun p hp hle => hnone p hp ?_, heq⟩
    have := freeListIndex_lt p.2.toNat
    rw [mem_range'_1]
    omega

/-- **`HvpAddFree`** puts a free cell that is in no list on the list of its
size. -/
theorem hvpAddFree_spec (hp : p ∈ freeCells bins) (hnew : p ∉ free) :
    ∃ h', hvpAddFree h ⟨t, p.1⟩ (cellIndex t p.1) = .ok h' ∧
      AllocState t h' bins (insert p free) ∧ Keeps t (liveCells bins) h h' := by
  obtain ⟨-, -, hp8, -, hplt⟩ := hs.layout.cell_bounds hp.1
  have hp31 : p.1 < 0x80000000 := by omega
  set i := freeListIndex p.2.toNat with hi
  obtain ⟨l, hchain, hnodup, hmem⟩ := hs.lists i (freeListIndex_lt _)
  set m := (h.mem t).writeU32 (p.1 + 4) ((h.storage t).freeDisplay i) with hm
  have hkeep : ∀ x ∈ free, nextFree m (cellIndex t x.1) = nextFree (h.mem t) (cellIndex t x.1) := by
    intro x hx
    obtain ⟨-, -, hx8, -, hxlt⟩ := hs.layout.cell_bounds (hs.mem_cells hx)
    refine nextFree_writeLink_ne (by omega) hp8 hx8 fun he => hnew ?_
    rwa [← hs.layout.cell_ext (hs.mem_cells hx) hp.1 he]
  have hkeeps := keeps_writeLink hs.layout hp ((h.storage t).freeDisplay i)
  refine ⟨(h.writeU32 ⟨t, p.1 + 4⟩ ((h.storage t).freeDisplay i)).setFreeDisplay t i
    (cellIndex t p.1), ?_, ⟨(hs.ready.setMem _ _).setStorage rfl, ?_, ?_, ?_⟩, hkeeps.trans (Keeps.setStorage
      fun _ _ _ _ _ => rfl)⟩
  · rw [hvpAddFree, hs.readU32_header hp, hvpComputeFreeListIndex_of_le (hs.eight_le hp),
      hvGetCellType_cellIndex hp31]
    rfl
  · simp only [setFreeDisplay, writeU32, setMem, setStorage_storage]
    exact (hs.layout.writeLink hp.1 _).frame rfl (fun _ _ _ _ _ => rfl) fun _ _ _ _ _ => rfl
  · simp only [setFreeDisplay, writeU32, setMem, setStorage_storage]
    refine hs.lists.update i (fun j hj => Function.update_of_ne hj ..)
      (fun x hx _ => hkeep x hx) (fun x hx => ?_)
      ⟨cellIndex t p.1 :: l, ?_, nodup_cons.2 ⟨?_, hnodup⟩, fun c => ?_⟩
    · refine ⟨fun hmem => ?_, fun hmem => .inr hmem⟩
      rcases hmem with rfl | hmem
      · exact absurd rfl hx
      · exact hmem
    · simp only [Function.update_self]
      refine hchain.push (cellIndex_ne_nil (by omega)) ?_ fun x hx => ?_
      · refine nextFree_writeLink hp31 ?_
        -- the old head is nil or the index of a cell
        cases l with
        | nil =>
          rw [show (h.storage t).freeDisplay i = hcellNil from hchain, hcellNil]
          omega
        | cons a l =>
          obtain ⟨q, hq, -, rfl⟩ := (hmem a).1 mem_cons_self
          have hqlt := (hs.layout.cell_bounds (hs.mem_cells hq)).2.2.2.2
          rw [hchain.1]
          exact cellIndex_lt (by omega)
      · obtain ⟨q, hq, -, rfl⟩ := (hmem x).1 hx
        exact hkeep q hq
    · intro hc
      obtain ⟨q, hq, -, he⟩ := (hmem _).1 hc
      have := hs.layout.cell_ext hp.1 (hs.mem_cells hq) (cellIndex_inj.1 he)
      exact hnew (this ▸ hq)
    · rw [mem_cons, hmem]
      constructor
      · rintro (rfl | ⟨q, hq, hqi, rfl⟩)
        · exact ⟨p, .inl rfl, rfl, rfl⟩
        · exact ⟨q, .inr hq, hqi, rfl⟩
      · rintro ⟨q, rfl | hq, hqi, rfl⟩
        · exact .inl rfl
        · exact .inr ⟨q, hq, hqi, rfl⟩
  · rintro q (rfl | hq)
    · exact hp
    · exact hs.subset hq

end

end AllocState

/-! ### Rewriting a stretch of a bin -/

/-- A layout with a stretch of one bin cut out: the bins before and after, the
bin itself, and the cells of it to the left and to the right of the stretch. -/
structure Hole where
  before : List BinLayout
  after : List BinLayout
  start : ℕ
  blocks : ℕ
  left : List ℤ
  right : List ℤ

open Hole

namespace Hole

/-- The layout with the stretch tiled by cells of the given sizes. -/
def fill (z : Hole) (mid : List ℤ) : List BinLayout :=
  z.before ++ ⟨z.start, z.blocks, z.left ++ mid ++ z.right⟩ :: z.after

/-- The offset of the stretch. -/
def offset (z : Hole) : ℕ := z.start + 32 + span z.left

theorem le_offset (z : Hole) : 32 ≤ z.offset := by
  rw [offset]
  omega

/-- The cells outside a stretch of length `n`. -/
def around (z : Hole) (n : ℕ) : List (ℕ × ℤ) :=
  allCells z.before ++ piecesFrom (z.start + 32) z.left ++
    (piecesFrom (z.offset + n) z.right ++ allCells z.after)

variable {z : Hole} {mid : List ℤ}

theorem mem_allCells_fill :
    p ∈ allCells (z.fill mid) ↔ p ∈ z.around (span mid) ∨ p ∈ piecesFrom z.offset mid := by
  simp only [fill, allCells, flatMap_append, flatMap_cons, BinLayout.cells,
    piecesFrom_append, around, mem_append, offset, span_append, Nat.add_assoc]
  tauto

/-- Every cell of a layout is a stretch of its own. -/
theorem exists_fill (hp : p ∈ allCells bins) :
    ∃ z : Hole, bins = z.fill [p.2] ∧ z.offset = p.1 := by
  obtain ⟨b, hb, hpb⟩ := mem_allCells.1 hp
  obtain ⟨before, after, rfl⟩ := append_of_mem hb
  obtain ⟨l, r, hsizes, ho⟩ := exists_split_of_mem_piecesFrom hpb
  refine ⟨⟨before, after, b.start, b.blocks, l, r⟩, ?_, ho.symm⟩
  rw [fill, append_assoc, singleton_append, ← hsizes]

/-- The sizes in the stretch play no part in how the bins follow one another. -/
theorem contiguous_fill {lo hi : ℕ} :
    Contiguous lo (z.fill mid) hi ↔
      Contiguous lo z.before z.start ∧ Contiguous (z.start + z.blocks * 4096) z.after hi := by
  rw [fill, contiguous_append]
  constructor
  · rintro ⟨n, hbefore, hstart, hafter⟩
    exact ⟨(show z.start = n from hstart) ▸ hbefore, hafter⟩
  · rintro ⟨hbefore, hafter⟩
    exact ⟨z.start, hbefore, rfl, hafter⟩

end Hole

namespace Layout

variable {d : Dual} {z : Hole} {old new : List ℤ} {m : Mem}

section

variable (h : Layout d (z.fill old))
include h

theorem bin_of_fill : BinLayout.Holds ⟨z.start, z.blocks, z.left ++ old ++ z.right⟩ d.mem :=
  h.holds _ (by simp [fill])

/-- The other bins do not overlap the stretch. -/
theorem other_bin_disjoint {b : BinLayout} (hb : b ∈ z.before ∨ b ∈ z.after) :
    b.Holds d.mem ∧ (b.fin ≤ z.offset ∨ z.offset + span old ≤ b.start) := by
  have hspan := h.bin_of_fill.span_sizes
  simp only [span_append] at hspan
  obtain ⟨hbefore, hafter⟩ := contiguous_fill.1 h.contiguous
  rw [offset]
  rcases hb with hb | hb
  · refine ⟨h.holds b (by simp [fill, hb]), .inl ?_⟩
    have := (hbefore.bounds hb).2
    omega
  · refine ⟨h.holds b (by simp [fill, hb]), .inr ?_⟩
    have := (hafter.bounds hb).1
    omega

/-- The cells around a stretch do not overlap it. -/
theorem around_disjoint (hp : p ∈ z.around (span old)) :
    p.1 + p.2.natAbs ≤ z.offset ∨ z.offset + span old ≤ p.1 := by
  have hother : ∀ b, b ∈ z.before ∨ b ∈ z.after → p ∈ b.cells →
      p.1 + p.2.natAbs ≤ z.offset ∨ z.offset + span old ≤ p.1 := by
    intro b hb hpb
    obtain ⟨hholds, hdis⟩ := h.other_bin_disjoint hb
    obtain ⟨h₁, h₂, -⟩ := hholds.cell_bounds hpb
    omega
  simp only [around, mem_append] at hp
  rcases hp with (hp | hp) | (hp | hp)
  · obtain ⟨b, hb, hpb⟩ := mem_allCells.1 hp
    exact hother b (.inl hb) hpb
  · exact .inl (piecesFrom_bounds hp).2
  · exact .inr (piecesFrom_bounds hp).1
  · obtain ⟨b, hb, hpb⟩ := mem_allCells.1 hp
    exact hother b (.inr hb) hpb

/-- No cell around a stretch starts where the stretch does. -/
theorem offset_notMem_around (hpos : 0 < span old) (x : ℤ) (hx : x ≠ 0) :
    (z.offset, x) ∉ z.around (span old) := by
  intro hp
  have hdis := h.around_disjoint hp
  omega

/-- **Retiling a stretch**: a memory that differs inside the stretch only, where
it has the headers of the new cells, has the new layout. -/
theorem retile (hspan : span new = span old) (hsizes : ∀ s ∈ new, s ≠ 0 ∧ 8 ∣ s.natAbs)
    (hnew : ∀ p ∈ piecesFrom z.offset new, m.readI32 p.1 = p.2)
    (hout : ∀ a, a < z.offset ∨ z.offset + span old ≤ a → m a = d.mem a) :
    Layout { d with mem := m } (z.fill new) := by
  have hbin := h.bin_of_fill
  have hcover := hbin.span_sizes
  simp only [span_append] at hcover
  -- the headers around the stretch are outside it
  have hcell : ∀ p ∈ z.around (span old), m.readI32 p.1 = p.2 := by
    intro p hp
    have hmem : p ∈ allCells (z.fill old) := mem_allCells_fill.2 (.inl hp)
    have h8 := (h.cell_bounds hmem).2.1
    have hdis := h.around_disjoint hp
    rw [← h.header hmem]
    exact Mem.readI32_congr fun a h₁ h₂ => hout a (by omega)
  have hother : ∀ b, b ∈ z.before ∨ b ∈ z.after → b.Holds m := by
    intro b hb
    obtain ⟨hholds, hdis⟩ := h.other_bin_disjoint hb
    have hpos := hholds.blocks_pos
    rw [BinLayout.fin] at hdis
    refine hholds.frame (fun a h₁ h₂ => hout a (by omega)) fun p hp => hcell p ?_
    simp only [around, mem_append]
    rcases hb with hb | hb
    · exact .inl (.inl (mem_allCells.2 ⟨b, hb, hp⟩))
    · exact .inr (.inr (mem_allCells.2 ⟨b, hb, hp⟩))
  have hself : BinLayout.Holds ⟨z.start, z.blocks, z.left ++ new ++ z.right⟩ m := by
    have hz : Mem.AgreeOn m d.mem z.start (z.start + 32) := fun a h₁ h₂ =>
      hout a (.inl (by rw [offset]; omega))
    refine ⟨hbin.blocks_pos, hbin.aligned,
      (Mem.readU32_congr (hz.mono (by simp) (by simp))).trans hbin.fileOffset,
      (Mem.readU32_congr (hz.mono (by simp) (by simp))).trans hbin.size, ?_, ?_, ?_⟩
    · simp only [span_append]
      omega
    · intro s hs
      simp only [mem_append] at hs
      rcases hs with (hs | hs) | hs
      · exact hbin.sizes s (by simp [hs])
      · exact hsizes s hs
      · exact hbin.sizes s (by simp [hs])
    · intro p hp
      have hp' : p ∈ allCells (z.fill new) := mem_allCells.2 ⟨_, by simp [fill], hp⟩
      rcases mem_allCells_fill.1 hp' with hp' | hp'
      · exact hcell p (hspan ▸ hp')
      · exact hnew p hp'
  refine ⟨contiguous_fill.2 (contiguous_fill.1 h.contiguous), fun b hb => ?_,
    fun b hb => ?_, h.small⟩
  · simp only [fill, mem_append, mem_cons] at hb
    rcases hb with hb | rfl | hb
    · exact hother b (.inl hb)
    · exact hself
    · exact hother b (.inr hb)
  · simp only [fill, mem_append, mem_cons] at hb
    rcases hb with hb | rfl | hb
    · exact h.blockList b (by simp [fill, hb])
    · exact h.blockList ⟨z.start, z.blocks, z.left ++ old ++ z.right⟩ (by simp [fill])
    · exact h.blockList b (by simp [fill, hb])

end

end Layout

namespace Hole

/-- The free cells outside a stretch of length `n`. -/
def freeAround (z : Hole) (n : ℕ) : Set (ℕ × ℤ) := {p | p ∈ z.around n ∧ 0 < p.2}

/-- The live cells outside a stretch of length `n`. -/
def liveAround (z : Hole) (n : ℕ) : Set (ℕ × ℤ) := {p | p ∈ z.around n ∧ p.2 < 0}

variable {z : Hole} {mid : List ℤ}

theorem freeCells_fill :
    freeCells (z.fill mid) =
      z.freeAround (span mid) ∪ {p | p ∈ piecesFrom z.offset mid ∧ 0 < p.2} := by
  ext p
  simp only [freeCells, Set.mem_ofPred_eq, mem_allCells_fill, freeAround, Set.mem_union]
  tauto

theorem liveCells_fill :
    liveCells (z.fill mid) =
      z.liveAround (span mid) ∪ {p | p ∈ piecesFrom z.offset mid ∧ p.2 < 0} := by
  ext p
  simp only [liveCells, Set.mem_ofPred_eq, mem_allCells_fill, liveAround, Set.mem_union]
  tauto

theorem pieces_singleton_of (h : Q (o, s)) : {p | p ∈ piecesFrom o [s] ∧ Q p} = {(o, s)} := by
  ext p
  simp only [piecesFrom_cons, piecesFrom_nil, mem_singleton]
  exact and_iff_left_of_imp fun heq => heq ▸ h

theorem pieces_singleton_of_not (h : ¬ Q (o, s)) : {p | p ∈ piecesFrom o [s] ∧ Q p} = ∅ := by
  refine Set.eq_empty_of_forall_notMem fun p hp => h ?_
  rw [← mem_singleton.1 hp.1]
  exact hp.2

/-- A stretch that is one free cell. -/
theorem freeCells_fill_pos (hs : 0 < s) :
    freeCells (z.fill [s]) = insert (z.offset, s) (z.freeAround s.natAbs) := by
  rw [freeCells_fill, pieces_singleton_of hs, Set.union_singleton, span_cons, span_nil,
    Nat.add_zero]

theorem liveCells_fill_pos (hs : 0 < s) : liveCells (z.fill [s]) = z.liveAround s.natAbs := by
  rw [liveCells_fill, pieces_singleton_of_not hs.not_gt, Set.union_empty, span_cons, span_nil,
    Nat.add_zero]

/-- A stretch that is one live cell. -/
theorem freeCells_fill_neg (hs : s < 0) : freeCells (z.fill [s]) = z.freeAround s.natAbs := by
  rw [freeCells_fill, pieces_singleton_of_not hs.not_gt, Set.union_empty, span_cons, span_nil,
    Nat.add_zero]

theorem liveCells_fill_neg (hs : s < 0) :
    liveCells (z.fill [s]) = insert (z.offset, s) (z.liveAround s.natAbs) := by
  rw [liveCells_fill, pieces_singleton_of hs, Set.union_singleton, span_cons, span_nil,
    Nat.add_zero]

end Hole

namespace AllocState

variable {t : HStorageType} {h h' : HHive} {free : Set (ℕ × ℤ)}
  {z : Hole} {old new : List ℤ} {m : Mem}

/-- **Retiling a stretch** that holds none of the listed cells. -/
theorem retile (hs : AllocState t h (z.fill old) free) (hspan : span new = span old)
    (hsizes : ∀ s ∈ new, s ≠ 0 ∧ 8 ∣ s.natAbs)
    (hnew : ∀ p ∈ piecesFrom z.offset new, m.readI32 p.1 = p.2)
    (hout : ∀ a, a < z.offset ∨ z.offset + span old ≤ a → m a = h.mem t a)
    (hfree : ∀ q ∈ free, q ∈ z.around (span old)) :
    AllocState t (h.setMem t m) (z.fill new) free ∧
      Keeps t (z.liveAround (span old)) h (h.setMem t m) := by
  refine ⟨⟨hs.ready.setMem _ _, ?_, ?_, fun q hq => ⟨?_, hs.pos hq⟩⟩, Keeps.setStorage ?_⟩
  · rw [setMem, setStorage_storage]
    exact hs.layout.retile hspan hsizes hnew hout
  · rw [setMem, setStorage_storage]
    refine hs.lists.frame rfl fun q hq => ?_
    obtain ⟨-, h8, -, -, hlt⟩ := hs.layout.cell_bounds (hs.mem_cells hq)
    have hdis := hs.layout.around_disjoint (hfree q hq)
    rw [nextFree_cellIndex (by omega), nextFree_cellIndex (by omega)]
    exact Mem.readU32_congr fun a h₁ h₂ => hout a (by omega)
  · exact mem_allCells_fill.2 (.inl (hspan ▸ hfree q hq))
  · intro p hp a h₁ h₂
    have hdis := hs.layout.around_disjoint hp.1
    exact hout a (by omega)

/-- Marking a cell dirty changes nothing the allocator looks at. -/
theorem markIfStable_spec (hs : AllocState t h bins free) (hp : p ∈ allCells bins)
    (kept : Set (ℕ × ℤ)) :
    ∃ h', markIfStable h t (cellIndex t p.1) = .ok h' ∧ AllocState t h' bins free ∧
      Keeps t kept h h' := by
  cases t with
  | stable =>
    have hsmall := hs.layout.small
    have hdirty := hs.ready.dirty
    obtain ⟨hle, h8, -⟩ := hs.layout.cell_bounds hp
    have heq := hvMarkCellDirty_stable hs.readOnly (o := p.1) (by omega) (by omega)
    refine ⟨_, heq, ⟨⟨hs.readOnly, hs.flat, ?_⟩, hs.layout, hs.lists, hs.subset⟩,
      ⟨rfl, rfl, fun _ _ => rfl, fun _ _ _ _ _ => rfl⟩⟩
    simp only [RtlBitmap.sizeOfBitMap_rtlSetBits]
    exact hdirty
  | volatile => exact ⟨h, rfl, hs, Keeps.refl .volatile kept h⟩

end AllocState

end Windivs

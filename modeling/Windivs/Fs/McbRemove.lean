import Windivs.Fs.McbRead

/-!
# Removing a range from an MCB

`FsRtlRemoveBaseMcbEntry` looks for a run that intersects the range until there is none, and
cuts each: what is left of a run is its head before the range and its tail after it
(`Windivs.leftOver`). One turn replaces a run by what is left of it
(`Windivs.BaseMcb.cutRun_spec`); as that no longer intersects the range, the number of runs
that do is a measure of the loop.

The runs are compared as lists without order, up to `List.Perm`: that they lie apart puts them
in order.
-/

namespace Windivs

open BaseMcb List LargeMcbMappingEntry

variable {m : BaseMcb} {needle r x : LargeMcbMappingEntry}

variable {a b : List LargeMcbMappingEntry} {v : ℤ}

/-! ### The two compare routines -/

section Compare

variable {n : LargeMcbMappingEntry} {l : List LargeMcbMappingEntry}

/-- The runs have no block in common. -/
def Misses (x y : LargeMcbMappingEntry) : Prop :=
  x.runEndVbn ≤ y.runStartVbn ∨ y.runEndVbn ≤ x.runStartVbn

instance (x y : LargeMcbMappingEntry) : Decidable (Misses x y) :=
  inferInstanceAs (Decidable (_ ∨ _))

theorem separates_intersectCompare (hn : n.runStartVbn < n.runEndVbn) :
    Separates (mcbMappingIntersectCompare n) runStartVbn
      runEndVbn n.runStartVbn n.runEndVbn := by
  constructor <;> intro x hx <;> rw [mcbMappingIntersectCompare] <;> split_ifs <;> simp <;> omega

theorem intersectCompare_eq_iff (hn : n.runStartVbn < n.runEndVbn)
    (hx : x.runStartVbn < x.runEndVbn) : mcbMappingIntersectCompare n x = .eq ↔ ¬Misses n x := by
  rw [(separates_intersectCompare hn).eq_iff x hx, Misses]
  omega

/-- The order of runs sorts a list, for a run of the list and for one that is apart from
all. -/
theorem sorts_mcbMappingCompare (hl : RunsApart l) (hx : x.runStartVbn < x.runEndVbn)
    (hdisj : ∀ y ∈ l, y = x ∨ Misses x y) : Sorts (mcbMappingCompare x) l := by
  refine hl.le.imp_of_mem fun {y z} hy hz hle => ?_
  have hy' := hl.lt y hy
  rw [mcbMappingCompare, mcbMappingCompare]
  constructor
  · intro hlt
    have hxy : x.runEndVbn ≤ y.runStartVbn := by
      split_ifs at hlt
      assumption
    rw [if_neg (by omega), if_pos (by omega)]
  · intro hgt
    rcases hdisj y hy with rfl | hyd
    · split_ifs at hgt
    · rcases hdisj z hz with rfl | hzd
      · simp at hgt
      · split_ifs at hgt ⊢ <;> omega

theorem mcbMappingCompare_eq_iff {y : LargeMcbMappingEntry} :
    mcbMappingCompare x y = .eq ↔ x.runStartVbn = y.runStartVbn ∧ x.runEndVbn = y.runEndVbn := by
  rw [mcbMappingCompare]
  split_ifs <;> simp_all

end Compare

namespace BaseMcb

/-! ### The operations on the table -/

/-- **Insertion** of a run apart from all others. -/
theorem insertRun_spec (hl : RunsApart m.runs) (hx : x.runStartVbn < x.runEndVbn)
    (hdisj : ∀ y ∈ m.runs, Misses x y) :
    ∃ m', m.insertRun x = .ok m' ∧ m'.runs.Perm (x :: m.runs) ∧ RunsApart m'.runs ∧
      m'.pairCount = m.pairCount + 1 := by
  have hsorts := sorts_mcbMappingCompare hl hx fun y hy => .inr (hdisj y hy)
  have hne : ∀ y ∈ m.runs, mcbMappingCompare x y ≠ .eq := by
    intro y hy heq
    have hd := hdisj y hy
    obtain ⟨h₁, h₂⟩ := mcbMappingCompare_eq_iff.1 heq
    rw [Misses] at hd
    omega
  obtain ⟨t, a, b, hins, heq, hat, -, -, -, ha, hb⟩ :=
    RtlGenericTable.insert_new (x := x) hsorts hne
  have hruns : (BaseMcb.mk t (m.pairCount + 1)).runs = a ++ x :: b := hat.elements_eq
  have hmem : m.runs = a ++ b := heq
  refine ⟨⟨t, m.pairCount + 1⟩, by simp [insertRun, hins], ?_, ?_, rfl⟩
  · rw [hruns, hmem]
    exact perm_middle
  · rw [hruns]
    rw [hmem] at hl hdisj
    refine hl.insert hx (fun y hy => ?_) fun y hy => ?_
    · have hgt := ha y hy
      have hd := hdisj y (by simp [hy])
      rw [mcbMappingCompare] at hgt
      rw [Misses] at hd
      split_ifs at hgt
      omega
    · have hlt := hb y hy
      rw [mcbMappingCompare] at hlt
      split_ifs at hlt
      assumption

/-- **Deletion** of a run of the table. -/
theorem deleteRun_spec (hl : RunsApart m.runs) (hx : x ∈ m.runs) :
    m.runs.Perm (x :: (m.deleteRun x).runs) ∧ RunsApart (m.deleteRun x).runs ∧
      (m.deleteRun x).pairCount = m.pairCount - 1 := by
  have hlt := hl.lt x hx
  have hsorts : Sorts (mcbMappingCompare x) m.runs := by
    refine sorts_mcbMappingCompare hl hlt fun y hy => ?_
    by_contra! hno
    obtain ⟨hne, hcommon⟩ := hno
    rw [Misses] at hcommon
    exact hne (hl.eq_of_common hy hx (by omega) (by omega))
  obtain ⟨y, a, b, t, hdel, hy, hruns, hruns', -⟩ :=
    RtlGenericTable.delete_found hsorts hx (mcbMappingCompare_eq_iff.2 ⟨rfl, rfl⟩)
  have hmem : m.runs = a ++ y :: b := hruns
  have hyx : y = x := by
    obtain ⟨h₁, h₂⟩ := mcbMappingCompare_eq_iff.1 hy
    exact hl.eq_of_common (by rw [hmem]; simp) hx (by omega) (by omega)
  subst hyx
  have hrest : (m.deleteRun y).runs = a ++ b := by
    rw [deleteRun, hdel]
    exact hruns'
  refine ⟨?_, ?_, rfl⟩
  · rw [hrest, hmem]
    exact perm_middle
  · rw [hrest]
    rw [hmem] at hl
    exact hl.erase

/-! ### Cutting a run -/

end BaseMcb

/-- What is left of a run when a range is taken out of it. -/
def leftOver (needle run : LargeMcbMappingEntry) : List LargeMcbMappingEntry :=
  (if run.runStartVbn < needle.runStartVbn then [{ run with runEndVbn := needle.runStartVbn }]
    else []) ++
  if needle.runEndVbn < run.runEndVbn then
    [{ runStartVbn := needle.runEndVbn
       runEndVbn := run.runEndVbn
       startingLbn := wrap (run.startingLbn + (needle.runEndVbn - run.runStartVbn)) }]
  else []

theorem lbnAt_shift (r : LargeMcbMappingEntry) (s e v : ℤ) :
    lbnAt ⟨s, e, wrap (r.startingLbn + (s - r.runStartVbn))⟩ v = r.lbnAt v := by
  rw [lbnAt, wrap_add_wrap]
  congr 1
  ring

namespace BaseMcb

theorem runs_editRun (hat : m.table.At a x b)
    (y : LargeMcbMappingEntry) : (m.editRun y).runs = a ++ y :: b :=
  (hat.setRoot y).elements_eq

/-- **One cut** replaces the run at the root by what is left of it. -/
theorem cutRun_spec (hat : m.table.At a x b)
    (hl : RunsApart m.runs) (hcount : m.pairCount = m.runs.length)
    (hn : needle.runStartVbn < needle.runEndVbn) (hcommon : ¬Misses needle x) :
    ∃ m', cutRun needle x m = .ok m' ∧ m'.runs.Perm (leftOver needle x ++ (a ++ b)) ∧
      RunsApart m'.runs ∧ m'.pairCount = m'.runs.length := by
  have hruns : m.runs = a ++ x :: b := hat.elements_eq
  rw [hruns] at hl hcount
  obtain ⟨-, -, hx, hax, hxb, -⟩ := hl.split
  rw [Misses] at hcommon
  rw [cutRun, leftOver]
  by_cases hhead : x.runStartVbn < needle.runStartVbn
  · set y : LargeMcbMappingEntry := { x with runEndVbn := needle.runStartVbn } with hy
    have hedit := runs_editRun hat y
    have hapart : RunsApart (m.editRun y).runs := by
      rw [hedit]
      exact hl.shrink (z := y) (le_refl _) (by simp only [hy]; omega) hhead
    have hcount' : (m.editRun y).pairCount = (m.editRun y).runs.length := by
      rw [hedit, show (m.editRun y).pairCount = m.pairCount from rfl, hcount]
      simp
    rw [if_pos hhead, if_pos hhead, assert_of (by omega)]
    by_cases htail : needle.runEndVbn < x.runEndVbn
    · -- the tail goes back between the head and the next run
      set z : LargeMcbMappingEntry := ⟨needle.runEndVbn, x.runEndVbn,
        wrap (x.startingLbn + (needle.runEndVbn - x.runStartVbn))⟩ with hz
      have hmisses : ∀ r ∈ (m.editRun y).runs, Misses z r := by
        intro r hr
        rw [hedit] at hr
        rcases mem_append.1 hr with hr | hr
        · have hle := hax r hr
          exact .inr (by simp only [hz]; omega)
        · rcases mem_cons.1 hr with rfl | hr
          · exact .inr (by simp only [hy, hz]; omega)
          · have hle := hxb r hr
            exact .inl (by simp only [hz]; omega)
      obtain ⟨m', hins, hperm, hapart', hcount''⟩ := insertRun_spec hapart
        (show z.runStartVbn < z.runEndVbn from htail) hmisses
      refine ⟨m', ?_, ?_, hapart', ?_⟩
      · rw [if_pos htail]
        exact hins
      · rw [if_pos htail]
        rw [hedit] at hperm
        exact (hperm.trans (perm_middle.cons z)).trans (List.Perm.swap ..)
      · rw [hcount'', hcount', hperm.length_eq, length_cons]
    · refine ⟨m.editRun y, ?_, ?_, hapart, hcount'⟩
      · rw [if_neg htail]
        rfl
      · rw [if_neg htail, hedit]
        exact perm_middle
  · simp only [if_neg hhead]
    by_cases htail : needle.runEndVbn < x.runEndVbn
    · set y : LargeMcbMappingEntry := ⟨needle.runEndVbn, x.runEndVbn,
        wrap (x.startingLbn + (needle.runEndVbn - x.runStartVbn))⟩ with hy
      have hedit := runs_editRun hat y
      rw [if_pos htail, if_pos htail, assert_of (by omega)]
      refine ⟨m.editRun y, rfl, ?_, ?_, ?_⟩
      · rw [hedit]
        exact perm_middle
      · rw [hedit]
        exact hl.shrink (z := y) (by simp only [hy]; omega) (le_refl _) htail
      · rw [hedit, show (m.editRun y).pairCount = m.pairCount from rfl, hcount]
        simp
    · have hmem : x ∈ m.runs := by rw [hruns]; simp
      obtain ⟨hperm, hapart, hcount'⟩ := deleteRun_spec (hruns ▸ hl) hmem
      rw [if_neg htail, if_neg htail]
      rw [hruns] at hperm
      refine ⟨m.deleteRun x, rfl, ?_, hapart, ?_⟩
      · exact ((perm_cons x).1 (perm_middle.symm.trans hperm)).symm
      · have hlen := hperm.length_eq
        rw [length_cons] at hlen
        omega

end BaseMcb

/-! ### What a removal leaves -/

/-- A run is a part of another: it lies in it, and maps its blocks as that one does. -/
structure PartOf (r' r : LargeMcbMappingEntry) : Prop where
  start_le : r.runStartVbn ≤ r'.runStartVbn
  le_end : r'.runEndVbn ≤ r.runEndVbn
  lbn : r'.runStartVbn = r.runStartVbn ∧ r'.startingLbn = r.startingLbn ∨
    r'.startingLbn = wrap (r.startingLbn + (r'.runStartVbn - r.runStartVbn))

namespace PartOf

variable {r' r'' : LargeMcbMappingEntry}

theorem refl (r : LargeMcbMappingEntry) : PartOf r r :=
  ⟨le_refl _, le_refl _, .inl ⟨rfl, rfl⟩⟩

theorem trans (h : PartOf r' r) (h' : PartOf r'' r') : PartOf r'' r := by
  refine ⟨h.start_le.trans h'.start_le, h'.le_end.trans h.le_end, ?_⟩
  rcases h'.lbn with ⟨hs, hlbn⟩ | hlbn
  · rw [hs, hlbn]
    exact h.lbn
  · right
    rcases h.lbn with ⟨hs, hlbn'⟩ | hlbn'
    · rw [hlbn, hs, hlbn']
    · rw [hlbn, hlbn', wrap_add_wrap]
      congr 1
      ring

theorem contains (h : PartOf r' r) (hv : r'.Contains v) : r.Contains v :=
  ⟨h.start_le.trans hv.1, hv.2.trans_le h.le_end⟩

theorem lbnAt (h : PartOf r' r) (v : ℤ) : r'.lbnAt v = r.lbnAt v := by
  rcases h.lbn with ⟨hs, hlbn⟩ | hlbn
  · rw [LargeMcbMappingEntry.lbnAt, hs, hlbn, LargeMcbMappingEntry.lbnAt]
  · obtain ⟨s, e, lbn⟩ := r'
    obtain rfl : lbn = wrap (r.startingLbn + (s - r.runStartVbn)) := hlbn
    exact lbnAt_shift r s e v

end PartOf

/-- A part that the removal of a range leaves: it is cut at the range only. -/
structure RestOf (needle r' r : LargeMcbMappingEntry) : Prop extends PartOf r' r where
  start_eq : r'.runStartVbn = r.runStartVbn ∨ r'.runStartVbn = needle.runEndVbn
  end_eq : r'.runEndVbn = r.runEndVbn ∨ r'.runEndVbn = needle.runStartVbn

namespace RestOf

variable {r' r'' : LargeMcbMappingEntry}

theorem refl (needle r : LargeMcbMappingEntry) : RestOf needle r r :=
  ⟨PartOf.refl r, .inl rfl, .inl rfl⟩

theorem trans (h : RestOf needle r' r) (h' : RestOf needle r'' r') : RestOf needle r'' r := by
  refine ⟨h.toPartOf.trans h'.toPartOf, ?_, ?_⟩
  · rcases h'.start_eq with heq | heq
    · exact heq ▸ h.start_eq
    · exact .inr heq
  · rcases h'.end_eq with heq | heq
    · exact heq ▸ h.end_eq
    · exact .inr heq

end RestOf

theorem restOf_of_mem_leftOver (hcommon : ¬Misses needle x)
    (hr : r ∈ leftOver needle x) : RestOf needle r x ∧ Misses needle r := by
  rw [Misses] at hcommon
  rcases mem_append.1 hr with hr | hr
  · split_ifs at hr with hhead
    · obtain rfl := mem_singleton.1 hr
      exact ⟨⟨⟨le_refl _, by simp only; omega, .inl ⟨rfl, rfl⟩⟩, .inl rfl, .inr rfl⟩,
        .inr (le_refl _)⟩
    · cases hr
  · split_ifs at hr with htail
    · obtain rfl := mem_singleton.1 hr
      exact ⟨⟨⟨by simp only; omega, le_refl _, .inr rfl⟩, .inr rfl, .inl rfl⟩, .inl (le_refl _)⟩
    · cases hr

theorem exists_mem_leftOver (hv : v < needle.runStartVbn ∨ needle.runEndVbn ≤ v)
    (hx : x.Contains v) : ∃ r ∈ leftOver needle x, r.Contains v := by
  obtain ⟨hlo, hhi⟩ := hx
  rcases hv with hv | hv
  · refine ⟨{ x with runEndVbn := needle.runStartVbn }, ?_, hlo, hv⟩
    rw [leftOver, if_pos (by omega)]
    simp
  · refine ⟨⟨needle.runEndVbn, x.runEndVbn,
      wrap (x.startingLbn + (needle.runEndVbn - x.runStartVbn))⟩, ?_, hv, hhi⟩
    rw [leftOver, if_pos (show needle.runEndVbn < x.runEndVbn by omega)]
    simp

/-- **What a removal leaves of a list of runs**: parts of them, with every block outside the
range. -/
structure Kept (needle : LargeMcbMappingEntry) (l l' : List LargeMcbMappingEntry) : Prop where
  parts : ∀ r' ∈ l', ∃ r ∈ l, RestOf needle r' r
  blocks : ∀ v, (v < needle.runStartVbn ∨ needle.runEndVbn ≤ v) → ∀ r ∈ l, r.Contains v →
    ∃ r' ∈ l', r'.Contains v

namespace Kept

variable {l l' l'' : List LargeMcbMappingEntry}

theorem refl (needle : LargeMcbMappingEntry) (l : List LargeMcbMappingEntry) : Kept needle l l :=
  ⟨fun r hr => ⟨r, hr, RestOf.refl needle r⟩, fun _ _ r hr hv => ⟨r, hr, hv⟩⟩

theorem trans (h : Kept needle l l') (h' : Kept needle l' l'') : Kept needle l l'' := by
  refine ⟨fun r'' hr'' => ?_, fun v hv r hr hin => ?_⟩
  · obtain ⟨r', hr', hpart'⟩ := h'.parts r'' hr''
    obtain ⟨r, hr, hpart⟩ := h.parts r' hr'
    exact ⟨r, hr, hpart.trans hpart'⟩
  · obtain ⟨r', hr', hin'⟩ := h.blocks v hv r hr hin
    exact h'.blocks v hv r' hr' hin'

/-- A run replaced by what is left of it. -/
theorem of_cut (hcommon : ¬Misses needle x) (hl : l = a ++ x :: b)
    (hl' : l'.Perm (leftOver needle x ++ (a ++ b))) : Kept needle l l' := by
  refine ⟨fun r' hr' => ?_, fun v hv r hr hin => ?_⟩
  · rcases mem_append.1 (hl'.mem_iff.1 hr') with hr' | hr'
    · exact ⟨x, by simp [hl], (restOf_of_mem_leftOver hcommon hr').1⟩
    · refine ⟨r', ?_, RestOf.refl needle r'⟩
      rw [hl]
      rcases mem_append.1 hr' with hr' | hr' <;> simp [hr']
  · by_cases hrx : r = x
    · obtain ⟨r', hr', hin'⟩ := exists_mem_leftOver hv (hrx ▸ hin)
      exact ⟨r', hl'.mem_iff.2 (mem_append_left _ hr'), hin'⟩
    · refine ⟨r, hl'.mem_iff.2 (mem_append_right _ ?_), hin⟩
      rw [hl] at hr
      rcases mem_append.1 hr with hr | hr
      · exact mem_append_left _ hr
      · exact mem_append_right _ ((mem_cons.1 hr).resolve_left hrx)

/-- A block outside the range is in what is left of the run it was in. -/
theorem runAt_cases (h : Kept needle l l') (hl : RunsApart l) (hl' : RunsApart l')
    (hv : v < needle.runStartVbn ∨ needle.runEndVbn ≤ v) :
    (runAt l' v = none ∧ runAt l v = none) ∨
      ∃ r r', runAt l' v = some r' ∧ runAt l v = some r ∧ r ∈ l ∧ r' ∈ l' ∧ r'.Contains v ∧
        RestOf needle r' r := by
  rcases hr : runAt l v with - | r
  · refine .inl ⟨runAt_eq_none.2 fun r' hr' hin => ?_, rfl⟩
    obtain ⟨r, hmem, hrest⟩ := h.parts r' hr'
    exact runAt_eq_none.1 hr r hmem (hrest.contains hin)
  · obtain ⟨hmem, hin⟩ := (runAt_eq_some hl).1 hr
    obtain ⟨r', hr', hin'⟩ := h.blocks v hv r hmem hin
    obtain ⟨s, hs', hrest⟩ := h.parts r' hr'
    obtain rfl : s = r := Option.some.inj
      (((runAt_eq_some hl).2 ⟨hs', hrest.contains hin'⟩).symm.trans hr)
    exact .inr ⟨s, r', (runAt_eq_some hl').2 ⟨hr', hin'⟩, rfl, hmem, hr', hin', hrest⟩

/-- The blocks outside the range are mapped as before. -/
theorem runAt_map (h : Kept needle l l') (hl : RunsApart l) (hl' : RunsApart l')
    (hv : v < needle.runStartVbn ∨ needle.runEndVbn ≤ v) :
    (runAt l' v).map (·.lbnAt v) = (runAt l v).map (·.lbnAt v) := by
  rcases h.runAt_cases hl hl' hv with ⟨hr', hr⟩ | ⟨r, r', hr', hr, -, -, -, hrest⟩
  · rw [hr', hr]
  · rw [hr', hr, Option.map_some, Option.map_some, hrest.toPartOf.lbnAt]

theorem bounded (h : Kept needle l l') (hl' : RunsApart l') (hb : Bounded l) : Bounded l' := by
  intro r' hr'
  obtain ⟨r, hr, hpart⟩ := h.parts r' hr'
  have hbr := hb r hr
  have hlt := hl'.lt r' hr'
  have hlo := hpart.start_le
  have hhi := hpart.le_end
  omega

theorem allReported (h : Kept needle l l') (hl' : RunsApart l') (hall : AllReported l) :
    AllReported l' := by
  intro r' hr' v hin
  obtain ⟨r, hr, hpart⟩ := h.parts r' hr'
  have hv := reported_eq_some.1 (hall r hr v (hpart.contains hin))
  have hstart : r'.Contains r'.runStartVbn := ⟨le_refl _, hl'.lt r' hr'⟩
  have hs := reported_eq_some.1 (hall r hr _ (hpart.contains hstart))
  refine reported_eq_some.2 ⟨?_, ?_⟩
  · rcases hpart.lbn with ⟨-, heq⟩ | heq
    · rw [heq]
      exact hv.1
    · rw [heq]
      exact hs.2
  · rw [hpart.toPartOf.lbnAt]
    exact hv.2

end Kept

namespace BaseMcb

/-- **The table of an MCB is in order**: its runs are not empty, lie apart from left to right,
and are counted. -/
structure InOrder (m : BaseMcb) : Prop where
  apart : RunsApart m.runs
  pairCount : m.pairCount = m.runs.length

/-- One turn of the loop: it leaves when no run intersects the range, and else leaves one run
less that does. -/
theorem removeTurn_spec (hm : m.InOrder) (hn : needle.runStartVbn < needle.runEndVbn) :
    (∃ m', removeTurn needle m = .leave (.ok m') ∧ SameRuns m m' ∧
        ∀ r ∈ m.runs, Misses needle r) ∨
      ∃ m', removeTurn needle m = .again m' ∧ m'.InOrder ∧ Kept needle m.runs m'.runs ∧
        m'.runs.countP (fun r => ¬Misses needle r) < m.runs.countP (fun r => ¬Misses needle r) := by
  have hsorts := hm.apart.sorts (separates_intersectCompare hn)
  rcases hlookup : m.table.rtlLookupElementGenericTable (mcbMappingIntersectCompare needle) with
    ⟨_ | x, t⟩
  · obtain ⟨rfl, hnone⟩ := RtlGenericTable.lookup_none hsorts hlookup
    refine .inl ⟨m, by simp [removeTurn, hlookup], ⟨rfl, rfl⟩, fun r hr => ?_⟩
    by_contra hcommon
    exact hnone r hr ((intersectCompare_eq_iff hn (hm.apart.lt r hr)).2 hcommon)
  · obtain ⟨hx, a, b, hruns, hat, -⟩ := RtlGenericTable.lookup_some hlookup
    have hmem : m.runs = a ++ x :: b := hruns
    have hruns' : (BaseMcb.mk t m.pairCount).runs = m.runs := hat.elements_eq.trans hmem.symm
    have hcommon := (intersectCompare_eq_iff hn (hm.apart.lt x (by simp [hmem]))).1 hx
    obtain ⟨m', hcut, hperm, hapart, hcount⟩ := cutRun_spec (m := ⟨t, m.pairCount⟩) hat
      (by rw [hruns']; exact hm.apart) (by rw [hruns']; exact hm.pairCount) hn hcommon
    refine .inr ⟨m', by simp [removeTurn, hlookup, hcut], ⟨hapart, hcount⟩,
      Kept.of_cut hcommon hmem hperm, ?_⟩
    have hleft : (leftOver needle x).countP (fun r => ¬Misses needle r) = 0 := by
      refine countP_eq_zero.2 fun r hr => ?_
      simpa using (restOf_of_mem_leftOver hcommon hr).2
    rw [hperm.countP_eq, hmem, countP_append, countP_append, countP_append,
      countP_cons_of_pos (by simpa using hcommon)]
    omega

/-- The loop leaves within its budget, when no run intersects the range. -/
theorem removeLoop_spec (hn : needle.runStartVbn < needle.runEndVbn) {fuel : ℕ}
    (hm : m.InOrder) (hfuel : m.runs.countP (fun r => ¬Misses needle r) < fuel) :
    ∃ m', runLoop (removeTurn needle) fuel m = .ok m' ∧ m'.InOrder ∧ Kept needle m.runs m'.runs ∧
      ∀ r ∈ m'.runs, Misses needle r := by
  induction fuel generalizing m with
  | zero => omega
  | succ fuel ih =>
    rcases removeTurn_spec hm hn with ⟨m', hleave, hsame, hmiss⟩ | ⟨m', hagain, hm', hkept, hlt⟩
    · refine ⟨m', runLoop_leave fuel hleave, ⟨?_, ?_⟩, ?_, ?_⟩
      · rw [hsame.runs]
        exact hm.apart
      · rw [hsame.runs, hsame.pairCount]
        exact hm.pairCount
      · rw [hsame.runs]
        exact Kept.refl ..
      · rw [hsame.runs]
        exact hmiss
    · obtain ⟨m'', hrun, hm'', hkept', hmiss⟩ := ih hm' (by omega)
      exact ⟨m'', (runLoop_again fuel hagain).trans hrun, hm'', hkept.trans hkept', hmiss⟩

/-- `FsRtlRemoveBaseMcbEntry` leaves parts of the runs, none of which intersects the range. -/
theorem fsRtlRemoveBaseMcbEntry_eq (hm : m.InOrder) {vbn sectorCount : ℤ} (hvbn : 0 ≤ vbn)
    (hcount : 0 < sectorCount) (hend : vbn + sectorCount < 0x8000000000000000) :
    ∃ m', m.fsRtlRemoveBaseMcbEntry vbn sectorCount = .ok (true, m') ∧ m'.InOrder ∧
      Kept ⟨vbn, vbn + sectorCount, -1⟩ m.runs m'.runs ∧
      ∀ r ∈ m'.runs, Misses ⟨vbn, vbn + sectorCount, -1⟩ r := by
  have hwrap : wrap (vbn + sectorCount) = vbn + sectorCount := wrap_of_bounds (by omega) hend
  obtain ⟨m', hrun, hm', hkept, hmiss⟩ := removeLoop_spec
    (show (⟨vbn, vbn + sectorCount, -1⟩ : LargeMcbMappingEntry).runStartVbn < _ by simp only; omega)
    hm (Nat.lt_succ_of_le countP_le_length)
  refine ⟨m', ?_, hm', hkept, hmiss⟩
  rw [fsRtlRemoveBaseMcbEntry, if_neg (by omega), if_neg (by omega), hwrap, budget, hrun]
  rfl

/-- **Removal is exact.** From a table in order `FsRtlRemoveBaseMcbEntry` returns `TRUE`; no
block of the range is mapped, every other one is mapped as before, and the table is in order
again. The runs say how a block is mapped, and so does a lookup unless it takes a logical block
`-1` of a run for a hole. -/
theorem removal_exact (m : BaseMcb) (hm : m.InOrder) (vbn sectorCount : ℤ) (hvbn : 0 ≤ vbn)
    (hcount : 0 < sectorCount) (hend : vbn + sectorCount < 0x8000000000000000) :
    ∃ m', m.fsRtlRemoveBaseMcbEntry vbn sectorCount = .ok (true, m') ∧
      (∀ v, vbn ≤ v → v < vbn + sectorCount → runAt m'.runs v = none) ∧
      (∀ v, v < vbn ∨ vbn + sectorCount ≤ v →
        (runAt m'.runs v).map (·.lbnAt v) = (runAt m.runs v).map (·.lbnAt v)) ∧
      (Bounded m.runs → AllReported m.runs → ∀ v, 0 ≤ v →
        m'.mapping v = if vbn ≤ v ∧ v < vbn + sectorCount then none else m.mapping v) ∧
      m'.InOrder := by
  obtain ⟨m', hrun, hm', hkept, hmiss⟩ := fsRtlRemoveBaseMcbEntry_eq hm hvbn hcount hend
  have hin : ∀ v, vbn ≤ v → v < vbn + sectorCount → runAt m'.runs v = none := by
    intro v hlo hhi
    refine runAt_eq_none.2 fun r hr hin => ?_
    obtain ⟨hin1, hin2⟩ := hin
    have hmisses := hmiss r hr
    rw [Misses] at hmisses
    simp only at hmisses
    omega
  have hout : ∀ v, v < vbn ∨ vbn + sectorCount ≤ v →
      (runAt m'.runs v).map (·.lbnAt v) = (runAt m.runs v).map (·.lbnAt v) :=
    fun v hv => hkept.runAt_map hm.apart hm'.apart hv
  refine ⟨m', hrun, hin, hout, fun hb hall v hv => ?_, hm'⟩
  rw [mapping_eq_of_allReported (hkept.bounded hm'.apart hb) hm'.apart
    (hkept.allReported hm'.apart hall) hv, mapping_eq_of_allReported hb hm.apart hall hv]
  split
  · next hrange =>
    rw [hin v hrange.1 hrange.2]
    rfl
  · exact hout v (by omega)

/-- An MCB with the blocks 2 to 9 mapped to 50 and the following. -/
def eightBlocks : BaseMcb := ⟨⟨.node ⟨2, 10, 50⟩ .nil .nil, [⟨2, 10, 50⟩], 0, 0⟩, 1⟩

theorem inOrder_eightBlocks : eightBlocks.InOrder :=
  ⟨Apart.cons_iff.2 ⟨by decide, by simp, Apart.nil⟩, rfl⟩

theorem removal_exact_eightBlocks :
    eightBlocks.InOrder ∧ ∃ m', eightBlocks.fsRtlRemoveBaseMcbEntry 4 3 = .ok (true, m') ∧
      (∀ v, 4 ≤ v → v < 4 + 3 → runAt m'.runs v = none) ∧
      (∀ v, v < 4 ∨ 4 + 3 ≤ v →
        (runAt m'.runs v).map (·.lbnAt v) = (runAt eightBlocks.runs v).map (·.lbnAt v)) ∧
      (Bounded eightBlocks.runs → AllReported eightBlocks.runs → ∀ v, 0 ≤ v →
        m'.mapping v = if 4 ≤ v ∧ v < 4 + 3 then none else eightBlocks.mapping v) ∧
      m'.InOrder :=
  ⟨inOrder_eightBlocks,
    removal_exact eightBlocks inOrder_eightBlocks 4 3 (by decide) (by decide) (by decide)⟩

end BaseMcb

end Windivs

import Mathlib.Data.List.TakeWhile
import Mathlib.Tactic

/-!
# Pieces laid out in blocks

A sequence of pieces is laid out so that each starts at a multiple of a block size `B`, the gap in
front of it being filled (`Windivs.PaddedLayout.layout`). `Windivs.PaddedLayout.fill` does the same
into a buffer of `n` places, and leaves a gap alone when nothing would fit behind it.
`Windivs.PaddedLayout.fragment` lays out what stands behind the first `o` places, without looking
at the pieces before: it takes every piece for one block, drops as many pieces as there are whole
blocks in `o`, and cuts the next piece.

That is right for all `o` and all buffers that are large enough exactly when the pieces are
`Windivs.PaddedLayout.Regular` (`Windivs.PaddedLayout.fragmentLaw_iff`): none is longer than a
block, and none is empty, except for empty pieces at the end that stand behind a full one.
-/

namespace Windivs

open List

namespace PaddedLayout

/-! ### The layout -/

/-- What is missing from `k` to the next multiple of `B`. -/
def gap (B k : ℕ) : ℕ := if k % B = 0 then 0 else B - k % B

/-- The pieces behind `out`, which itself stands at place `r`. -/
def layout {α : Type*} (B : ℕ) (z : α) (r : ℕ) : List α → List (List α) → List α
  | out, [] => out
  | out, p :: ps => layout B z r (out ++ replicate (gap B (out.length + r)) z ++ p) ps

/-- The layout in a buffer of `n` places. -/
def fill {α : Type*} (B : ℕ) (z : α) (n r : ℕ) : List α → List (List α) → List α
  | out, [] => out
  | out, p :: ps =>
    if gap B (out.length + r) ≠ 0 ∧ n ≤ out.length + gap B (out.length + r) then out
    else
      let out := out ++ replicate (gap B (out.length + r)) z
      if n ≤ out.length then out else fill B z n r (out ++ p.take (n - out.length)) ps

/-- What stands behind the first `o` places, in a buffer of `n` places. -/
def fragment {α : Type*} (B : ℕ) (z : α) (n : ℕ) : ℕ → List (List α) → List α
  | _, [] => []
  | o, p :: ps =>
    if B ≤ o then fragment B z n (o - B) ps
    else if o = 0 then fill B z n 0 [] (p :: ps)
    else fill B z n o (((p.take B).drop o).take n) ps

variable {α : Type*} {B : ℕ} {z : α} {n r : ℕ} {out : List α} {ps : List (List α)} {p : List α}
  {k o : ℕ}

/-! ### Gaps -/

theorem gap_lt (hB : 0 < B) (k : ℕ) : gap B k < B := by
  rw [gap]
  split
  · exact hB
  · omega

theorem gap_zero : gap B 0 = 0 := by rw [gap, Nat.zero_mod, if_pos rfl]

theorem gap_add_block (k : ℕ) : gap B (k + B) = gap B k := by rw [gap, gap, Nat.add_mod_right]

/-- Within the first block the gap goes up to its end. -/
theorem add_gap (hk : 0 < k) (hkB : k ≤ B) : k + gap B k = B := by
  rw [gap]
  rcases Nat.eq_or_lt_of_le hkB with rfl | hlt
  · rw [Nat.mod_self, if_pos rfl, Nat.add_zero]
  · rw [Nat.mod_eq_of_lt hlt, if_neg hk.ne']
    omega

theorem dvd_add_gap (hB : 0 < B) (k : ℕ) : B ∣ k + gap B k := by
  rw [gap]
  split
  case isTrue h => exact Nat.dvd_of_mod_eq_zero h
  case isFalse h =>
    have hmod := Nat.mod_lt k hB
    have hdiv := Nat.div_add_mod k B
    refine ⟨k / B + 1, ?_⟩
    rw [Nat.mul_add]
    omega

theorem gap_of_dvd (h : B ∣ k) : gap B k = 0 := by
  rw [gap, Nat.mod_eq_zero_of_dvd h, if_pos rfl]

/-- Places are rounded up monotonically. -/
theorem add_gap_mono (hB : 0 < B) {k l : ℕ} (h : k ≤ l) : k + gap B k ≤ l + gap B l := by
  have hk : k + gap B k < k + B := Nat.add_lt_add_left (gap_lt hB k) k
  obtain ⟨a, ha⟩ := dvd_add_gap hB k
  obtain ⟨b, hb⟩ := dvd_add_gap hB l
  rw [ha, hb]
  refine Nat.mul_le_mul_left B ?_
  by_contra hlt
  have hstep : B * (b + 1) ≤ B * a := Nat.mul_le_mul_left B (by omega)
  rw [Nat.mul_add] at hstep
  omega

/-! ### Where a layout ends -/

/-- The end of a layout that has come to place `e`, by the lengths of its pieces. -/
def layoutEnd (B : ℕ) : ℕ → List ℕ → ℕ
  | e, [] => e
  | e, l :: ls => layoutEnd B (e + gap B e + l) ls

theorem length_layout : (layout B z r out ps).length + r =
    layoutEnd B (out.length + r) (ps.map length) := by
  induction ps generalizing out with
  | nil => rfl
  | cons p ps ih =>
    rw [layout, ih, map_cons, layoutEnd]
    simp only [length_append, length_replicate]
    congr 1
    omega

theorem layoutEnd_add_block (e : ℕ) (ls : List ℕ) :
    layoutEnd B (e + B) ls = layoutEnd B e ls + B := by
  induction ls generalizing e with
  | nil => rfl
  | cons l ls ih =>
    rw [layoutEnd, layoutEnd, gap_add_block, ← ih]
    congr 1
    omega

theorem layoutEnd_mono (hB : 0 < B) {e e' : ℕ} (h : e ≤ e') (ls : List ℕ) :
    layoutEnd B e ls ≤ layoutEnd B e' ls := by
  induction ls generalizing e e' with
  | nil => exact h
  | cons l ls ih => exact ih (Nat.add_le_add_right (add_gap_mono hB h) l)

theorem le_layoutEnd (e : ℕ) (ls : List ℕ) : e ≤ layoutEnd B e ls := by
  induction ls generalizing e with
  | nil => exact le_rfl
  | cons l ls ih => exact le_trans (by omega) (ih _)

/-- A place behind the first block gives a layout that ends later. -/
theorem layoutEnd_lt (hB : 0 < B) {e : ℕ} (h : B < e) (ls : List ℕ) :
    layoutEnd B B ls < layoutEnd B e ls := by
  cases ls with
  | nil => exact h
  | cons l ls =>
    have hround : 2 * B ≤ e + gap B e := by
      have hmono := add_gap_mono hB (show B + 1 ≤ e from h)
      rcases Nat.lt_or_ge 1 B with hB1 | hB1
      · have hnext := add_gap (B := B) (k := 1) Nat.one_pos hB1.le
        rw [Nat.add_comm B 1, gap_add_block] at hmono
        omega
      · omega
    have hfull : gap B B = 0 := gap_of_dvd (dvd_refl B)
    calc layoutEnd B B (l :: ls) = layoutEnd B (B + l) ls := by rw [layoutEnd, hfull, Nat.add_zero]
      _ < layoutEnd B (B + l) ls + B := by omega
      _ = layoutEnd B (B + l + B) ls := (layoutEnd_add_block _ ls).symm
      _ ≤ layoutEnd B e (l :: ls) := layoutEnd_mono hB (by omega) ls

theorem length_le_layout : out.length ≤ (layout B z r out ps).length := by
  have hlen := @length_layout α B z r out ps
  have hle := @le_layoutEnd B (out.length + r) (ps.map length)
  omega

/-! ### Layouts behind a front -/

/-- What stands in front stays there. -/
theorem layout_append (a b : List α) (ps : List (List α)) :
    layout B z r (a ++ b) ps = a ++ layout B z (r + a.length) b ps := by
  induction ps generalizing b with
  | nil => rfl
  | cons p ps ih =>
    have hplace : (a ++ b).length + r = b.length + (r + a.length) := by
      rw [length_append]
      omega
    rw [layout, layout, hplace, ← ih]
    simp only [append_assoc]

/-- Only the place within a block counts. -/
theorem layout_add_block (out : List α) (ps : List (List α)) :
    layout B z (r + B) out ps = layout B z r out ps := by
  induction ps generalizing out with
  | nil => rfl
  | cons p ps ih => rw [layout, layout, ← Nat.add_assoc, gap_add_block, ih]

theorem layout_append_pieces (front rest : List (List α)) :
    layout B z r out (front ++ rest) = layout B z r (layout B z r out front) rest := by
  induction front generalizing out with
  | nil => rfl
  | cons p front ih => rw [cons_append, layout, layout, ih]

theorem layout_nil_cons (p : List α) (ps : List (List α)) :
    layout B z 0 [] (p :: ps) = layout B z 0 p ps := by
  rfl

/-- A piece with the gap behind it. -/
def block (B : ℕ) (z : α) (p : List α) : List α := p ++ replicate (gap B p.length) z

theorem layout_cons_cons (p q : List α) (ps : List (List α)) :
    layout B z 0 [] (p :: q :: ps) =
      block B z p ++ layout B z (block B z p).length q ps := by
  rw [← Nat.zero_add (block B z p).length, ← layout_append]
  rfl

/-- A piece that is neither empty nor longer than a block. -/
def Good (B : ℕ) (p : List α) : Prop := 0 < p.length ∧ p.length ≤ B

theorem Good.length_block (hp : Good B p) : (block B z p).length = B := by
  rw [block, length_append, length_replicate, add_gap hp.1 hp.2]

/-- **A good piece takes one block** if something comes behind it. -/
theorem Good.layout_cons (hp : Good B p) (hps : ps ≠ []) :
    layout B z 0 [] (p :: ps) = block B z p ++ layout B z 0 [] ps := by
  obtain ⟨q, qs, rfl⟩ := exists_cons_of_ne_nil hps
  have hnext : layout B z (0 + B) q qs = layout B z 0 q qs := layout_add_block q qs
  rw [Nat.zero_add] at hnext
  rw [layout_cons_cons, hp.length_block, hnext, layout_nil_cons]

/-! ### Buffers -/

/-- As long as there is room the buffer holds the layout. -/
theorem fill_append (front rest : List (List α)) (h : (layout B z r out front).length < n) :
    fill B z n r out (front ++ rest) = fill B z n r (layout B z r out front) rest := by
  induction front generalizing out with
  | nil => rfl
  | cons p front ih =>
    rw [layout] at h
    have hroom := lt_of_le_of_lt length_le_layout h
    simp only [length_append, length_replicate] at hroom
    have htake : p.take (n - (out ++ replicate (gap B (out.length + r)) z).length) = p :=
      take_of_length_le (by
        rw [length_append, length_replicate]
        omega)
    rw [cons_append, fill, if_neg (by omega), if_neg (by
      rw [length_append, length_replicate]
      omega), htake, ih h, ← layout]

theorem fill_eq_layout (h : (layout B z r out ps).length < n) :
    fill B z n r out ps = layout B z r out ps := by
  have hfill := @fill_append α B z n r out ps [] h
  rwa [append_nil] at hfill

/-- That is also so when the buffer gets full, with a piece that is not empty. -/
theorem fill_append_of_le {front : List (List α)} (rest : List (List α)) (hp : p ≠ [])
    (h : (layout B z r out (front ++ [p])).length ≤ n) :
    fill B z n r out (front ++ p :: rest) =
      fill B z n r (layout B z r out (front ++ [p])) rest := by
  have hpos := length_pos_iff.2 hp
  rw [layout_append_pieces, layout, layout] at h ⊢
  generalize hfront : layout B z r out front = out' at h ⊢
  simp only [length_append, length_replicate] at h
  have htake : p.take (n - (out' ++ replicate (gap B (out'.length + r)) z).length) = p :=
    take_of_length_le (by
      rw [length_append, length_replicate]
      omega)
  rw [fill_append _ _ (by rw [hfront]; omega), hfront, fill, if_neg (by omega), if_neg (by
    rw [length_append, length_replicate]
    omega), htake]

/-- Empty pieces at the end of a block change nothing. -/
theorem layout_replicate_nil (h : gap B (out.length + r) = 0) (k : ℕ) :
    layout B z r out (replicate k []) = out := by
  induction k with
  | zero => rfl
  | succ k ih =>
    rw [replicate_succ, layout, h, replicate_zero, append_nil, append_nil, ih]

theorem fill_replicate_nil (h : gap B (out.length + r) = 0) (k : ℕ) :
    fill B z n r out (replicate k []) = out := by
  induction k with
  | zero => rfl
  | succ k ih =>
    rw [replicate_succ, fill, h]
    dsimp only
    rw [replicate_zero, append_nil, take_nil, append_nil, ih]
    exact ite_self out

/-- A buffer never holds more than the layout. -/
theorem length_fill_le (hB : 0 < B) :
    (fill B z n r out ps).length ≤ (layout B z r out ps).length := by
  induction ps generalizing out with
  | nil => exact le_rfl
  | cons p ps ih =>
    have hstart := @length_le_layout α B z r out (p :: ps)
    rw [fill]
    split
    · exact hstart
    · dsimp only
      rw [layout]
      generalize out ++ replicate (gap B (out.length + r)) z = out'
      split
      · exact le_trans (by rw [length_append]; omega) length_le_layout
      · -- a piece that was cut lets the layout end earlier
        refine le_trans ih ?_
        have hcut : (out' ++ p.take (n - out'.length)).length + r ≤ (out' ++ p).length + r := by
          rw [length_append, length_append, length_take]
          omega
        have hend := layoutEnd_mono hB hcut (ps.map length)
        rw [← @length_layout α B z, ← @length_layout α B z] at hend
        omega

/-- A buffer that has not got the whole layout has less than a block left. -/
theorem min_lt_length_fill (hB : 0 < B) :
    min n (layout B z r out ps).length < (fill B z n r out ps).length + B := by
  induction ps generalizing out with
  | nil =>
    rw [fill, layout]
    omega
  | cons p ps ih =>
    have hgap := gap_lt hB (out.length + r)
    rw [fill, layout]
    split
    · omega
    · dsimp only
      generalize out ++ replicate (gap B (out.length + r)) z = out'
      split
      · omega
      case isFalse hroom =>
        have hrest := @ih (out' ++ p.take (n - out'.length))
        rcases Nat.lt_or_ge (n - out'.length) p.length with hcut | hfits
        · have hfull := @length_le_layout α B z r (out' ++ p.take (n - out'.length)) ps
          rw [length_append, length_take] at hfull
          omega
        · rw [take_of_length_le hfits] at hrest ⊢
          exact hrest

theorem fill_zero (ps : List (List α)) : fill B z 0 r [] ps = [] := by
  cases ps with
  | nil => rfl
  | cons p ps =>
    rw [fill]
    split
    · rfl
    case isFalse h =>
      have hgap : gap B (([] : List α).length + r) = 0 := by
        by_contra hne
        exact h ⟨hne, Nat.zero_le _⟩
      rw [hgap]
      rfl

/-! ### Regular pieces -/

/-- **Regular pieces**: no piece is longer than a block, and the only empty ones stand at the end,
behind a full one. -/
def Regular (B : ℕ) (ps : List (List α)) : Prop :=
  ∃ (front : List (List α)) (k : ℕ), ps = front ++ replicate k [] ∧ (∀ p ∈ front, Good B p) ∧
    (k ≠ 0 → ∀ last ∈ front.getLast?, last.length = B)

/-- Good pieces in front of others take one block each. -/
theorem layout_front {front rest : List (List α)} (hfront : ∀ p ∈ front, Good B p)
    (hrest : rest ≠ []) :
    ∃ a, a.length = B * front.length ∧
      layout B z 0 [] (front ++ rest) = a ++ layout B z 0 [] rest := by
  induction front with
  | nil => exact ⟨[], rfl, rfl⟩
  | cons p front ih =>
    obtain ⟨hp, hfront⟩ := forall_mem_cons.1 hfront
    obtain ⟨a, hlen, heq⟩ := ih hfront
    have hne : front ++ rest ≠ [] := fun h => hrest (append_eq_nil_iff.1 h).2
    refine ⟨block B z p ++ a, ?_, ?_⟩
    · rw [length_append, hp.length_block, hlen, length_cons, Nat.mul_succ, Nat.add_comm]
    · rw [cons_append, hp.layout_cons hne, heq, append_assoc]

theorem fragment_front {front : List (List α)} (o : ℕ) (rest : List (List α)) :
    fragment B z n (B * front.length + o) (front ++ rest) = fragment B z n o rest := by
  induction front with
  | nil => rw [length_nil, Nat.mul_zero, Nat.zero_add, nil_append]
  | cons p front ih =>
    rw [length_cons, Nat.mul_succ, cons_append, fragment, if_pos (by omega), ← ih]
    congr 1
    omega

theorem fragment_zero (hB : 0 < B) (ps : List (List α)) :
    fragment B z n 0 ps = fill B z n 0 [] ps := by
  cases ps with
  | nil => rfl
  | cons p ps => rw [fragment, if_neg hB.not_ge, if_pos rfl]

/-- **Dropping places of a layout**, when the cut is in the first piece or in the gap behind it. -/
theorem Good.drop_layout (hp : Good B p) (hoB : o < B) (ho : o ≤ (layout B z 0 [] (p :: ps)).length)
    (hpos : 0 < o) : (layout B z 0 [] (p :: ps)).drop o = layout B z o (p.drop o) ps := by
  rcases Nat.lt_or_ge p.length o with hlt | hle
  · cases ps with
    | nil =>
      rw [layout_nil_cons, layout] at ho
      omega
    | cons q qs =>
      have hgap : gap B o = B - o := by
        have := add_gap hpos hoB.le
        omega
      have hblock := @Good.length_block α B z p hp
      have hdrop : (block B z p).drop o = replicate (B - o) z := by
        have hlen := add_gap hp.1 hp.2
        rw [block, drop_append, drop_of_length_le hlt.le, nil_append, drop_replicate]
        congr 1
        omega
      have hsplit := @layout_append α B z 0 ((block B z p).take o) ((block B z p).drop o ++ q) qs
      rw [← append_assoc, take_append_drop, length_take, hblock, Nat.min_eq_left hoB.le,
        hdrop] at hsplit
      have hfront : ((block B z p).take o).length = o := by
        rw [length_take, hblock, Nat.min_eq_left hoB.le]
      rw [layout_nil_cons, layout, Nat.add_zero, ← block, hsplit, drop_left' hfront,
        drop_of_length_le hlt.le, layout, length_nil, Nat.zero_add, hgap, nil_append]
  · have hsplit := @layout_append α B z 0 (p.take o) (p.drop o) ps
    rw [take_append_drop, length_take, Nat.min_eq_left hle, Nat.zero_add] at hsplit
    rw [layout_nil_cons, hsplit, drop_left' (by rw [length_take, Nat.min_eq_left hle])]

/-- **Behind good pieces a fragment is right** if the buffer has a place left, or does not start
at the beginning. -/
theorem fragment_eq_drop (hB : 0 < B) {front : List (List α)} {k o : ℕ}
    (hfront : ∀ p ∈ front, Good B p)
    (ho : o ≤ (layout B z 0 [] (front ++ replicate k [])).length)
    (hn : (layout B z 0 [] (front ++ replicate k [])).length < n + o) :
    fragment B z n o (front ++ replicate k []) =
      (layout B z 0 [] (front ++ replicate k [])).drop o := by
  induction front generalizing o with
  | nil =>
    have hnil : layout B z 0 [] (replicate k []) = [] :=
      layout_replicate_nil gap_zero k
    rw [nil_append, hnil] at ho ⊢
    obtain rfl : o = 0 := Nat.le_zero.1 ho
    rw [fragment_zero hB]
    exact fill_replicate_nil gap_zero k
  | cons p front ih =>
    obtain ⟨hp, hfront⟩ := forall_mem_cons.1 hfront
    rw [cons_append] at ho hn ⊢
    generalize hrest : front ++ replicate k [] = rest at ho hn ih ⊢
    rw [fragment]
    by_cases hskip : B ≤ o
    · rw [if_pos hskip]
      by_cases hend : rest = []
      · subst hend
        rw [layout_nil_cons, layout] at ho ⊢
        rw [drop_of_length_le (hp.2.trans hskip), fragment]
      · rw [hp.layout_cons hend, length_append, hp.length_block] at ho hn
        rw [hp.layout_cons hend, drop_append, hp.length_block,
          drop_of_length_le (by rw [hp.length_block]; exact hskip)]
        exact ih hfront (by omega) (by omega)
    · rw [if_neg hskip]
      by_cases hzero : o = 0
      · rw [hzero]
        exact fill_eq_layout (by omega)
      · have hdrop := hp.drop_layout (by omega) ho (by omega)
        have hlen : (layout B z o (p.drop o) rest).length < n := by
          rw [← hdrop, length_drop]
          omega
        have htake : (p.drop o).take n = p.drop o :=
          take_of_length_le (le_trans length_le_layout hlen.le)
        rw [if_neg hzero, take_of_length_le hp.2, htake, hdrop, fill_eq_layout hlen]

/-- A regular layout fits into a buffer of its own length. -/
theorem Regular.fill_eq_layout (hps : Regular B ps) (hn : (layout B z 0 [] ps).length ≤ n) :
    fill B z n 0 [] ps = layout B z 0 [] ps := by
  obtain ⟨front, k, rfl, hfront, hlast⟩ := hps
  rcases eq_nil_or_concat front with rfl | ⟨front, p, rfl⟩
  · rw [nil_append, fill_replicate_nil gap_zero, layout_replicate_nil gap_zero]
  · have hp := hfront p (by simp)
    have hne : p ≠ [] := length_pos_iff.1 hp.1
    rw [layout_append_pieces] at hn
    have hfull := le_trans length_le_layout hn
    rw [concat_eq_append] at hfull ⊢
    rw [layout_append_pieces, append_assoc, singleton_append, fill_append_of_le _ hne hfull]
    -- behind the last block there are empty pieces only if there is no gap
    rcases Nat.eq_zero_or_pos k with rfl | hk
    · rfl
    · obtain ⟨a, hlen, heq⟩ := @layout_front α B z front [p]
        (fun q hq => hfront q (by simp [hq])) (cons_ne_nil p [])
      have hend : gap B ((layout B z 0 [] (front ++ [p])).length + 0) = 0 := by
        have hpB : p.length = B := hlast hk.ne' p (by simp)
        rw [heq, layout_nil_cons, layout, Nat.add_zero, length_append, hlen, hpB, gap_add_block]
        exact gap_of_dvd (Dvd.intro _ rfl)
      rw [fill_replicate_nil hend, layout_replicate_nil hend]

/-- **The fragments of regular pieces are right**, in every buffer that holds the whole layout. -/
theorem Regular.fragment_eq (hB : 0 < B) (hps : Regular B ps) (ho : o ≤ (layout B z 0 [] ps).length)
    (hn : (layout B z 0 [] ps).length ≤ n) : fragment B z n o ps = (layout B z 0 [] ps).drop o := by
  rcases Nat.eq_zero_or_pos o with rfl | hpos
  · rw [fragment_zero hB, hps.fill_eq_layout hn, drop_zero]
  · obtain ⟨front, k, rfl, hfront, -⟩ := hps
    exact fragment_eq_drop hB hfront ho (by omega)

/-! ### Irregular pieces -/

/-- All fragments are right, in every buffer that holds the layout and has fewer than `M` places. -/
def FragmentLaw (B : ℕ) (z : α) (M : ℕ) (ps : List (List α)) : Prop :=
  ∀ o ≤ (layout B z 0 [] ps).length, ∀ n, (layout B z 0 [] ps).length ≤ n → n < M →
    fragment B z n o ps = (layout B z 0 [] ps).drop o

variable {M : ℕ} {front rest : List (List α)}

/-- The law for fragments behind good pieces. -/
theorem FragmentLaw.behind (h : FragmentLaw B z M (front ++ rest)) (hfront : ∀ p ∈ front, Good B p)
    (hrest : rest ≠ []) (ho : o ≤ (layout B z 0 [] rest).length)
    (hn : B * front.length + (layout B z 0 [] rest).length ≤ n) (hM : n < M) :
    fragment B z n o rest = (layout B z 0 [] rest).drop o := by
  obtain ⟨a, hlen, heq⟩ := @layout_front α B z front rest hfront hrest
  have hlaw := h (B * front.length + o) (by rw [heq, length_append]; omega) n
    (by rw [heq, length_append]; omega) hM
  rw [fragment_front, heq, ← drop_drop, drop_left' hlen] at hlaw
  exact hlaw

/-- **No piece is too long**: the fragment that starts in it would lack its end. -/
theorem FragmentLaw.length_le (hB : 1 < B)
    (h : FragmentLaw B z M (front ++ p :: rest)) (hfront : ∀ p ∈ front, Good B p)
    (hM : (layout B z 0 [] (front ++ p :: rest)).length < M) : p.length ≤ B := by
  by_contra hlong
  obtain ⟨a, hlen, heq⟩ := @layout_front α B z front (p :: rest) hfront (cons_ne_nil p rest)
  rw [heq, length_append, hlen] at hM
  have hp : p.length ≤ (layout B z 0 [] (p :: rest)).length := length_le_layout
  have hlaw := h.behind hfront (cons_ne_nil p rest) (o := 1) (by omega) le_rfl hM
  have hcut : ((p.take B).drop 1).length = B - 1 := by
    rw [length_drop, length_take]
    omega
  rw [fragment, if_neg (by omega), if_neg one_ne_zero,
    take_of_length_le (by rw [hcut]; omega)] at hlaw
  have hfill := @length_fill_le α B z (B * front.length + (layout B z 0 [] (p :: rest)).length) 1
    ((p.take B).drop 1) rest (by omega)
  have hend := @length_layout α B z 1 ((p.take B).drop 1) rest
  have hfull := @length_layout α B z 0 p rest
  have hlt := layoutEnd_lt (by omega) (not_le.1 hlong) (rest.map length)
  rw [hcut, Nat.sub_add_cancel hB.le] at hend
  rw [hlaw, length_drop, layout_nil_cons] at hfill
  rw [Nat.add_zero, Nat.add_zero] at hfull
  omega

theorem length_le_layout_of_mem {q : List α} (hq : q ∈ ps) :
    q.length ≤ (layout B z r out ps).length := by
  induction ps generalizing out with
  | nil => cases hq
  | cons p ps ih =>
    rw [layout]
    rcases mem_cons.1 hq with rfl | hq
    · exact le_trans (by rw [length_append]; omega) length_le_layout
    · exact ih hq

/-- One place later the layout starts with the next block. -/
theorem length_layout_one (hB : 1 < B) (hps : ps ≠ []) :
    (layout B z 1 [] ps).length + 1 = (layout B z 0 [] ps).length + B := by
  obtain ⟨p, ps, rfl⟩ := exists_cons_of_ne_nil hps
  have hone := add_gap Nat.one_pos hB.le
  have hzero := @length_layout α B z 0 [] (p :: ps)
  rw [length_layout, length_nil, map_cons, layoutEnd, hone, Nat.add_comm B, layoutEnd_add_block]
  rw [length_nil, map_cons, layoutEnd, Nat.add_zero, gap_zero, Nat.zero_add] at hzero
  rw [hzero]

/-- **An empty piece has only empty ones behind it**: it takes no block, and is taken for one. -/
theorem FragmentLaw.eq_nil (hB : 1 < B) (h2 : 2 * B ≤ M)
    (h : FragmentLaw B z M (front ++ [] :: rest)) (hfront : ∀ p ∈ front, Good B p)
    (hM : (layout B z 0 [] (front ++ [] :: rest)).length < M) : ∀ p ∈ rest, p = [] := by
  intro q hq
  by_contra hne
  have hqpos := length_pos_iff.2 hne
  obtain ⟨a, hlen, heq⟩ := @layout_front α B z front ([] :: rest) hfront (cons_ne_nil [] rest)
  have hne0 : [] :: rest ≠ [] := cons_ne_nil [] rest
  rw [heq, length_append, hlen] at hM
  have hsame : layout B z 0 [] ([] :: rest) = layout B z 0 [] rest := layout_nil_cons [] rest
  have hpos : q.length ≤ (layout B z 0 [] rest).length := length_le_layout_of_mem hq
  have hlate := @length_layout_one α B z rest hB (ne_nil_of_mem hq)
  by_cases hroom : (layout B z 0 [] rest).length + B < M
  · -- the fragment that starts one place behind the empty piece has a gap too much
    obtain ⟨n, hn, hnM, hnB⟩ : ∃ n, B * front.length + (layout B z 0 [] rest).length ≤ n ∧
        n < M ∧ (layout B z 0 [] rest).length + B ≤ n := by
      rw [hsame] at hM
      exact ⟨max (B * front.length + (layout B z 0 [] rest).length)
        ((layout B z 0 [] rest).length + B), by omega, by omega, by omega⟩
    have hlaw := h.behind hfront hne0 (o := 1) (by rw [hsame]; omega) (by rw [hsame]; exact hn) hnM
    rw [fragment, if_neg (by omega), if_neg one_ne_zero, hsame, take_nil, drop_nil,
      take_nil] at hlaw
    have hfill := @min_lt_length_fill α B z n 1 [] rest (by omega)
    rw [hlaw, length_drop] at hfill
    omega
  · -- then there is a whole block, which is dropped for the empty piece
    have hlaw := h.behind hfront hne0 (o := B) (by rw [hsame]; omega) le_rfl hM
    rw [fragment, if_pos le_rfl, Nat.sub_self, fragment_zero (by omega), hsame] at hlaw
    have hfill := @min_lt_length_fill α B z
      (B * front.length + (layout B z 0 [] rest).length) 0 [] rest (by omega)
    rw [hlaw, length_drop] at hfill
    omega

/-- **In front of empty pieces there is no gap**: it would not be filled. -/
theorem FragmentLaw.length_eq (hB : 1 < B) (hk : k ≠ 0)
    (h : FragmentLaw B z M (front ++ [p] ++ replicate k []))
    (hfront : ∀ q ∈ front ++ [p], Good B q)
    (hM : (layout B z 0 [] (front ++ [p] ++ replicate k [])).length < M) : p.length = B := by
  have hB0 : 0 < B := by omega
  obtain ⟨j, rfl⟩ : ∃ j, k = j + 1 := ⟨k - 1, by omega⟩
  obtain ⟨a, hlen, heq⟩ := @layout_front α B z front [p]
    (fun q hq => hfront q (mem_append_left _ hq)) (cons_ne_nil p [])
  have hp := hfront p (mem_append_right _ (mem_singleton_self p))
  -- the layout ends with the gap
  have hend : layout B z 0 [] (front ++ [p] ++ replicate (j + 1) []) =
      block B z (layout B z 0 [] (front ++ [p])) := by
    have hgap := gap_of_dvd (dvd_add_gap hB0 (layout B z 0 [] (front ++ [p])).length)
    rw [layout_append_pieces, replicate_succ, layout, append_nil, Nat.add_zero]
    exact layout_replicate_nil (by
      rw [length_append, length_replicate, Nat.add_zero, hgap]) j
  have hlaw := h 0 (Nat.zero_le _) _ le_rfl hM
  rw [drop_zero, fragment_zero hB0, hend] at hlaw
  generalize hout : layout B z 0 [] (front ++ [p]) = out at *
  have hblock : (block B z out).length = out.length + gap B out.length := by
    rw [block, length_append, length_replicate]
  by_contra hshort
  have hgap : gap B out.length ≠ 0 := by
    have hplace : gap B out.length = gap B p.length := by
      rw [heq, layout_nil_cons, layout, length_append, hlen, gap, gap, Nat.mul_add_mod]
    have hadd := add_gap hp.1 hp.2
    omega
  rw [fill_append _ _ (by rw [hout]; omega), hout, replicate_succ, fill,
    if_pos ⟨hgap, hblock.le⟩] at hlaw
  rw [← hlaw] at hblock
  omega

/-- **Fragments are right exactly for regular pieces.** -/
theorem fragmentLaw_iff (hB : 1 < B) (h2 : 2 * B ≤ M) (hM : (layout B z 0 [] ps).length < M) :
    FragmentLaw B z M ps ↔ Regular B ps := by
  constructor
  · intro h
    obtain ⟨front, rest, rfl, hfront, hrest⟩ : ∃ front rest : List (List α), ps = front ++ rest ∧
        (∀ p ∈ front, Good B p) ∧ ∀ p ∈ rest.head?, ¬ Good B p := by
      classical
      refine ⟨ps.takeWhile (Good B ·), ps.dropWhile (Good B ·),
        (takeWhile_append_dropWhile).symm, fun p hp => ?_, fun p hp hgood => ?_⟩
      · simpa using mem_takeWhile_imp hp
      · have hhead := head?_dropWhile_not (fun p => decide (Good B p)) ps
        rw [hp] at hhead
        simp [hgood] at hhead
    cases rest with
    | nil => exact ⟨front, 0, rfl, hfront, fun h => absurd rfl h⟩
    | cons p rest =>
      have hle := h.length_le hB hfront hM
      have hp : p = [] := by
        by_contra hne
        exact hrest p rfl ⟨length_pos_iff.2 hne, hle⟩
      subst hp
      have hempty := h.eq_nil hB h2 hfront hM
      have hall : [] :: rest = replicate (rest.length + 1) [] := by
        rw [replicate_succ, ← eq_replicate_iff.2 ⟨rfl, hempty⟩]
      rw [hall] at h hM ⊢
      refine ⟨front, _, rfl, hfront, fun hk last hlast => ?_⟩
      obtain ⟨init, rfl⟩ := getLast?_eq_some_iff.1 hlast
      exact h.length_eq hB hk hfront hM
  · exact fun hps o ho n hn _ => hps.fragment_eq (by omega) ho hn

end PaddedLayout

end Windivs

import Windivs.Se.AclInherit

/-!
# Propagated lists are well formed

What the callers of `SepPropagateAcl` rely on is `Windivs.PropagatePromise`: a call without a
buffer reports the room that a second call needs, and the second call makes a valid ACL of just
that size in it. `Windivs.propagatePromise_iff` says for which sources this holds. The source has
to pass the assertions of the function, and there are two ways in which the promise is broken
nevertheless.

* The room is a `ULONG`, and `AclSize` is a `USHORT`. An entry for containers can become two,
  so that the list of a valid ACL may need more than `2 ^ 16` bytes. The call then succeeds,
  with an `AclSize` that is truncated.
* `RtlValidAcl` asks for some room *behind* the header of every entry. An ACL may have that
  behind an entry that consists of its header, or that is even smaller; the destination,
  which ends with its last entry, has not.

That the second way needs no more than a look at the last entry is
`Windivs.PropagateRequest.exists_small_suffix`: entries smaller than their header can only
be the last ones.
-/

namespace Windivs

open PropagateRequest List RecordFormat

variable {e : AceEntry} {es : List AceEntry} {m : Mem} {n p : ℕ}

/-! ### The entries of the result -/

/-- Two other entries that are the same have the same bytes. -/
theorem bytes_eq_of_readAce_eq {m m' : Mem} {p p' : ℕ}
    (hother : accessMaxMsV2AceType < aceTypeAt m p) (h : readAce m' p' = readAce m p) :
    ∀ i < aceSizeAt m p, m' (p' + i) = m (p + i) := by
  rw [readAce, readAce] at h
  split at h
  · have hbytes := AceEntry.other.inj h
    have hlen : aceSizeAt m' p' = aceSizeAt m p := by
      simpa [Mem.bytes] using congrArg length hbytes
    intro i hi
    have hi' : viewOf (m.bytes p (aceSizeAt m p)) i = m (p + i) := viewOf_bytes hi
    rw [← hi', ← hbytes, viewOf_bytes (hlen ▸ hi)]
  · cases h

/-- An entry that can be read back and passes the checks of `RtlValidAcl` wherever it lies. -/
structure AceEntry.Sound (revision : ℕ) (e : AceEntry) : Prop where
  stored : e.Stored
  even : e.size % 2 = 0
  body : ∀ m p, readAce m p = e → validAceBody revision m p = true

variable {a : KnownAce}

/-- The fields of a known entry take sixteen bytes at least. -/
theorem KnownAce.Stored.sixteen_le (h : a.Stored) : 16 ≤ a.aceSize := by
  have hroom := h.room
  have hsid : 8 ≤ a.sid.length := by
    rw [← h.sid_eq, length_sidValue]
    exact eight_le_rtlLengthSid _
  omega

/-- A known entry whose identifier is valid passes the checks. -/
theorem KnownAce.Stored.sound (h : a.Stored) (hmod : a.aceSize % 4 = 0)
    (hsid : validSid (viewOf a.sid) = true) (revision : ℕ) :
    (AceEntry.known a).Sound revision where
  stored := h
  even := by
    rw [AceEntry.size]
    omega
  body m p hread := by
    rw [readAce] at hread
    split at hread
    · cases hread
    · rename_i hknown
      obtain rfl := AceEntry.known.inj hread
      have hvalid : validSid (aceSidAt m p) = true := by
        rwa [← validSid_congr (sidValue_viewOf_sidValue _)]
      have hroom : 8 + rtlLengthSid (aceSidAt m p) ≤ aceSizeAt m p := by simpa using h.room
      simp only [validAceBody, if_pos (UInt8.not_lt.1 hknown), hvalid, Bool.and_true,
        Bool.and_eq_true, decide_eq_true_eq]
      exact ⟨⟨hmod, by omega⟩, by omega⟩

namespace PropagateRequest

variable {rq : PropagateRequest} {src dest : Mem} {aclLength : ℕ}

section

variable (hv : validAce src p = true) (ha : rq.AcceptsAce src p) (howner : validSid rq.owner = true)
  (hgroup : validSid rq.group = true)
include hv ha howner hgroup

/-- **What a valid entry becomes**: another entry stays as it is, and a known entry becomes known
entries that pass the checks. -/
theorem propagate_cases (he : e ∈ rq.propagate (readAce src p)) :
    (accessMaxMsV2AceType < aceTypeAt src p ∧ e = readAce src p) ∨
      ∃ a : KnownAce, e = .known a ∧ a.Stored ∧ a.aceSize % 4 = 0 ∧
        validSid (viewOf a.sid) = true := by
  by_cases hother : accessMaxMsV2AceType < aceTypeAt src p
  · rw [readAce, if_pos hother, propagate, mem_singleton] at he
    exact .inl ⟨hother, by rw [he, readAce, if_pos hother]⟩
  · have hknown := UInt8.not_lt.1 hother
    obtain ⟨hmod, hsid, -⟩ := knownAce_of_validAce hv hknown
    rw [readAce, if_neg hother] at he
    obtain ⟨a, hmem, rfl⟩ := mem_map.1 he
    refine .inr ⟨a, rfl, ?_⟩
    obtain ⟨hsome, htype, hfields⟩ := mem_propagateKnown hmem
    have hroom := ha.sid hknown hsome
    -- the identifier is that of the source or that of its heir
    rcases hfields with ⟨hsize, hvalue⟩ | ⟨hsize, hvalue⟩
    · refine ⟨⟨htype ▸ hknown, hsize ▸ Mem.readU16_lt _ _, ?_, ?_⟩, hsize ▸ hmod, ?_⟩
      · rw [hsize, hvalue, length_sidValue]
        exact hroom
      · rw [hvalue, sidValue_viewOf_sidValue]
      · rw [hvalue, validSid_congr (sidValue_viewOf_sidValue _), hsid]
    · rw [← sidValue_effectiveSid] at hsize hvalue
      rw [length_sidValue] at hsize
      have hheir : validSid (rq.effectiveSid (aceSidAt src p)) = true := by
        rw [effectiveSid]
        split_ifs
        exacts [howner, hgroup, hsid]
      have hshort := rtlLengthSid_le_of_validSid hheir
      have hmod' := rtlLengthSid_mod (rq.effectiveSid (aceSidAt src p))
      refine ⟨⟨htype ▸ hknown, by omega, ?_, ?_⟩, by omega, ?_⟩
      · rw [hsize, hvalue, length_sidValue]
      · rw [hvalue, sidValue_viewOf_sidValue]
      · rw [hvalue, validSid_congr (sidValue_viewOf_sidValue _), hheir]

theorem bounded_of_mem_propagate (he : e ∈ rq.propagate (readAce src p)) : aceFormat.Bounded e := by
  rcases propagate_cases hv ha howner hgroup he with ⟨hother, rfl⟩ | ⟨a, rfl, ha, -⟩
  · rw [readAce, if_pos hother]
    exact fun m p b hb => Mem.copy_of_notMem hb
  · exact (show (AceEntry.known a).Stored from ha).readable.bounded

theorem sound_of_mem_propagate (h4 : 4 ≤ aceSizeAt src p) (he : e ∈ rq.propagate (readAce src p)) :
    e.Sound (aclRevision src) := by
  rcases propagate_cases hv ha howner hgroup he with ⟨hother, rfl⟩ | ⟨a, rfl, ha, hmod, hsid⟩
  · have hc : AceContained src p := ⟨h4, fun h => absurd hother (UInt8.not_lt.2 h)⟩
    simp only [validAce, Bool.and_eq_true, decide_eq_true_eq] at hv
    refine ⟨hc.stored, by rw [size_readAce]; exact hv.1.1.2, fun m q hread => ?_⟩
    exact validAceBody_shift hc (bytes_eq_of_readAce_eq hother hread) hv.2
  · exact ha.sound hmod hsid _

end

/-! ### The header of the destination -/

variable (hbounded : ∀ e ∈ rq.propagated src, aceFormat.Bounded e)

include hbounded in
/-- **Nothing is written behind the length the caller gave.** -/
theorem destination_of_le {b : ℕ} (hb : aclLength ≤ b) :
    rq.destination dest aclLength src b = dest b := by
  have hlaid : rq.laidOut dest aclLength src b = dest b := by
    rw [laidOut, writeAll_of_le hbounded (.inr hb)]
    split
    · exact Mem.copy_of_notMem (by omega)
    · rfl
  rw [destination]
  split
  · rw [Mem.agreeOn_writeU16 _ _ _ (by omega) b le_rfl (Nat.lt_succ_self b),
      Mem.agreeOn_writeU16 _ _ _ (by omega) b le_rfl (Nat.lt_succ_self b), hlaid]
  · exact hlaid

variable (h8 : 8 ≤ aclLength)

include h8 in
theorem aclSize_destination :
    aclSize (rq.destination dest aclLength src) = rq.neededLength src % 0x10000 := by
  rw [destination, if_pos h8, aclSize, Mem.readU16_writeU16]

include h8 in
theorem aceCount_destination :
    aceCount (rq.destination dest aclLength src) = (rq.propagated src).length % 0x10000 := by
  rw [destination, if_pos h8, aceCount, Mem.readU16_congr (Mem.agreeOn_writeU16 _ _ _ (by omega)),
    Mem.readU16_writeU16]

include hbounded h8 in
/-- The header of the source, but for the size and the count. -/
theorem destination_header {b : ℕ} (hb : b < 2 ∨ 6 ≤ b ∧ b < 8) :
    rq.destination dest aclLength src b = src b := by
  rw [destination, if_pos h8, Mem.agreeOn_writeU16 _ _ _ (by omega) b le_rfl (Nat.lt_succ_self b),
    Mem.agreeOn_writeU16 _ _ _ (by omega) b le_rfl (Nat.lt_succ_self b), laidOut,
    writeAll_of_le hbounded (.inl (by omega)), if_pos h8,
    Mem.copy_of_mem (Nat.zero_le b) (by omega), Nat.zero_add, Nat.sub_zero]

include h8 in
/-- The entries that can be read back are found in the destination, if there was room for them. -/
theorem recordsAt_destination {es es' : List AceEntry} (heq : rq.propagated src = es ++ es')
    (hes : ∀ e ∈ es, e.Stored) (hes' : ∀ e ∈ es', aceFormat.Bounded e)
    (hroom : 8 + aceFormat.total es ≤ aclLength) :
    aceFormat.RecordsAt (rq.destination dest aclLength src) 8 es := by
  have hread : ∀ e ∈ es, aceFormat.Readable e := fun e he => (hes e he).readable
  have hlaid : aceFormat.RecordsAt (rq.laidOut dest aclLength src) 8 es := by
    rw [laidOut, heq]
    exact recordsAt_writeAll hread hes' hroom
  refine hlaid.congr hread fun b hb _ => ?_
  rw [destination, if_pos h8, Mem.agreeOn_writeU16 _ _ _ (by omega) b le_rfl (Nat.lt_succ_self b),
    Mem.agreeOn_writeU16 _ _ _ (by omega) b le_rfl (Nat.lt_succ_self b)]

end PropagateRequest

/-! ### Places and entries -/

section Places

@[simp] theorem length_acePlaces (m : Mem) (n p : ℕ) : (acePlaces m n p).length = n := by
  induction n generalizing p with
  | zero => rfl
  | succ n ih => rw [acePlaces, length_cons, ih]

theorem of_recordsAt_cons (h : aceFormat.RecordsAt m p (e :: es)) :
    readAce m p = e ∧ aceSizeAt m p = e.size ∧ aceFormat.RecordsAt m (p + e.size) es := by
  obtain ⟨hread, hrest⟩ := h
  rw [aceFormat_read] at hread
  exact ⟨hread, by rw [← hread, size_readAce], hrest⟩

section

variable (h : aceFormat.RecordsAt m p es)
include h

/-- Where the entries of a list lie, their places follow one another. -/
theorem acePlaces_of_recordsAt (n : ℕ) :
    acePlaces m (es.length + n) p =
      acePlaces m es.length p ++ acePlaces m n (p + aceFormat.total es) := by
  induction es generalizing p with
  | nil => simp [acePlaces]
  | cons e es ih =>
    obtain ⟨hread, hsize, hrest⟩ := of_recordsAt_cons h
    rw [length_cons, Nat.add_right_comm, acePlaces, acePlaces, hsize, ih hrest,
      total_cons, aceFormat_size, cons_append, Nat.add_assoc]

/-- The entries at the places are the entries of the list. -/
theorem map_acePlaces_of_recordsAt : (acePlaces m es.length p).map (readAce m) = es := by
  induction es generalizing p with
  | nil => rfl
  | cons e es ih =>
    obtain ⟨hread, hsize, hrest⟩ := of_recordsAt_cons h
    rw [length_cons, acePlaces, map_cons, hsize, ih hrest, hread]

/-- Entries of at least a header, the last of them larger, lie well before the end of the list. -/
theorem places_lt_of_recordsAt (h4 : ∀ e ∈ es, 4 ≤ e.size) (hlast : ∀ e ∈ es.getLast?, 4 < e.size) :
    ∀ q ∈ acePlaces m es.length p, q + 4 < p + aceFormat.total es ∧
      q + aceSizeAt m q ≤ p + aceFormat.total es := by
  induction es generalizing p with
  | nil => simp [acePlaces]
  | cons e es ih =>
    obtain ⟨hread, hsize, hrest⟩ := of_recordsAt_cons h
    have he := h4 e (mem_cons_self ..)
    intro q hq
    rw [length_cons, acePlaces, mem_cons] at hq
    rw [total_cons, aceFormat_size]
    rcases hq with rfl | hq
    · -- behind an entry of four bytes there is another one
      rcases es with _ | ⟨e', es⟩
      · have := hlast e rfl
        omega
      · have := h4 e' (by simp)
        rw [total_cons, aceFormat_size]
        omega
    · rw [hsize] at hq
      rcases es with _ | ⟨e', es⟩
      · simp [acePlaces] at hq
      · have := ih hrest (fun x hx => h4 x (mem_cons_of_mem e hx))
          (by rwa [getLast?_cons_cons] at hlast) q hq
        omega

end

end Places

/-! ### Entries that are too small -/

namespace PropagateRequest

variable {rq : PropagateRequest} {src dest : Mem} {aclLength : ℕ} {ps : List ℕ}

/-- The entry at `p` has entries in the result. -/
def goes (rq : PropagateRequest) (src : Mem) (p : ℕ) : Bool :=
  decide (accessMaxMsV2AceType < aceTypeAt src p) ||
    (sepShouldPropagateAce (aceFlagsAt src p) rq.isInherited rq.isDirectoryObject).isSome

theorem propagateKnown_eq_nil_iff : rq.propagateKnown a = [] ↔
    sepShouldPropagateAce a.aceFlags rq.isInherited rq.isDirectoryObject = none := by
  rw [propagateKnown]
  split
  · rename_i h
    simp [h]
  · rename_i flags h
    rw [h]
    split_ifs <;> simp

theorem propagate_eq_nil_iff : rq.propagate (readAce src p) = [] ↔ rq.goes src p = false := by
  rw [readAce, goes]
  split
  · rename_i h
    simp [propagate, h]
  · rename_i h
    simp [propagate, h, propagateKnown_eq_nil_iff]

/-- The last entry that goes into the result is more than a header. -/
def LastHasBody (rq : PropagateRequest) (src : Mem) (ps : List ℕ) : Prop :=
  ∀ p ∈ (ps.filter (rq.goes src)).getLast?, 4 < aceSizeAt src p

/-- So the last entry of the result is. -/
theorem lastHasBody_iff (hv : ∀ p ∈ ps, validAce src p = true)
    (ha : ∀ p ∈ ps, rq.AcceptsAce src p) (howner : validSid rq.owner = true)
    (hgroup : validSid rq.group = true) : rq.LastHasBody src ps ↔
      ∀ e ∈ (rq.propagateAll (ps.map (readAce src))).getLast?, 4 < e.size := by
  rw [LastHasBody]
  induction ps using reverseRecOn with
  | nil => simp [propagateAll]
  | append_singleton ps p ih =>
    have ih := ih (fun q hq => hv q (by simp [hq])) fun q hq => ha q (by simp [hq])
    have hall : rq.propagateAll ((ps ++ [p]).map (readAce src)) =
        rq.propagateAll (ps.map (readAce src)) ++ rq.propagate (readAce src p) := by
      simp [propagateAll]
    rw [hall, filter_append]
    cases hgoes : rq.goes src p with
    | false =>
      rw [propagate_eq_nil_iff.2 hgoes, append_nil, ← ih]
      simp [hgoes]
    | true =>
      have hne : rq.propagate (readAce src p) ≠ [] := fun h => by
        rw [propagate_eq_nil_iff, hgoes] at h
        cases h
      have hvp := hv p (by simp)
      rw [getLast?_append_of_ne_nil _ hne]
      simp only [filter_cons, hgoes, if_true, filter_nil, getLast?_append,
        getLast?_singleton, Option.some_or, Option.mem_some, forall_eq']
      by_cases hother : accessMaxMsV2AceType < aceTypeAt src p
      · have hread : rq.propagate (readAce src p) = [readAce src p] := by
          rw [readAce, if_pos hother, propagate]
        simp [hread]
      · -- a known entry and what it becomes are large
        have hknown := UInt8.not_lt.1 hother
        obtain ⟨-, -, hroom⟩ := knownAce_of_validAce hvp hknown
        have h8 := eight_le_rtlLengthSid (aceSidAt src p)
        refine iff_of_true (by omega) fun e he => ?_
        rcases propagate_cases hvp (ha p (by simp)) howner hgroup (mem_of_getLast? he) with
          ⟨h, -⟩ | ⟨a, rfl, hstored, -⟩
        · exact absurd h hother
        · have := hstored.sixteen_le
          rw [AceEntry.size]
          omega

theorem acePlaces_of_size_eq_zero (h : aceSizeAt src p = 0) (n : ℕ) :
    ∀ q ∈ acePlaces src n p, q = p := by
  induction n with
  | zero => simp [acePlaces]
  | succ n ih =>
    intro q hq
    rw [acePlaces, h, mem_cons] at hq
    exact hq.elim id (ih q)

theorem not_known_of_lt (hv : validAce src p = true) (h : aceSizeAt src p < 4) :
    accessMaxMsV2AceType < aceTypeAt src p := by
  by_contra hknown
  obtain ⟨-, -, hroom⟩ := knownAce_of_validAce hv (UInt8.not_lt.1 hknown)
  omega

/-- **Entries smaller than their header come last**: behind one of no bytes there are only more of
it, and behind one of two bytes nothing begins at an aligned place. -/
theorem exists_small_suffix (n p : ℕ) (hv : ∀ q ∈ acePlaces src n p, validAce src q = true)
    (ha : ∀ q ∈ acePlaces src n p, rq.AcceptsAce src q) :
    ∃ ps ps', acePlaces src n p = ps ++ ps' ∧ (∀ q ∈ ps, 4 ≤ aceSizeAt src q) ∧
      (∀ q ∈ ps', accessMaxMsV2AceType < aceTypeAt src q ∧ aceSizeAt src q < 4) ∧
      (ps'.map (aceSizeAt src)).sum ≤ 2 := by
  induction n generalizing p with
  | zero => exact ⟨[], [], by simp [acePlaces]⟩
  | succ n ih =>
    have hmem : p ∈ acePlaces src (n + 1) p := mem_cons_self ..
    by_cases h4 : 4 ≤ aceSizeAt src p
    · obtain ⟨ps, ps', heq, hps, hps'⟩ := ih (p + aceSizeAt src p)
        (fun q hq => hv q (mem_cons_of_mem _ hq)) fun q hq => ha q (mem_cons_of_mem _ hq)
      refine ⟨p :: ps, ps', by rw [acePlaces, heq, cons_append], ?_, hps'⟩
      simpa using ⟨h4, hps⟩
    · have hvp := hv p hmem
      simp only [validAce, Bool.and_eq_true, decide_eq_true_eq] at hvp
      have hother := not_known_of_lt (hv p hmem) (not_le.1 h4)
      refine ⟨[], acePlaces src (n + 1) p, rfl, by simp, ?_⟩
      rcases n with _ | n
      · simp only [acePlaces, mem_singleton, forall_eq, map_cons, map_nil, sum_singleton]
        exact ⟨⟨hother, not_le.1 h4⟩, by omega⟩
      · have hnext := (ha _ (mem_cons_of_mem _ (mem_cons_self ..))).aligned
        have hp := (ha p hmem).aligned
        have hzero : aceSizeAt src p = 0 := by omega
        have hall := acePlaces_of_size_eq_zero hzero (n + 2)
        refine ⟨fun q hq => ?_, ?_⟩
        · rw [hall q hq]
          exact ⟨hother, not_le.1 h4⟩
        · rw [sum_eq_zero]
          · omega
          · intro k hk
            obtain ⟨q, hq, rfl⟩ := mem_map.1 hk
            rw [hall q hq, hzero]

section

variable (hv : ∀ q ∈ ps, validAce src q = true) (ha : ∀ q ∈ ps, rq.AcceptsAce src q)
  (howner : validSid rq.owner = true) (hgroup : validSid rq.group = true)
include hv ha howner hgroup

/-- What is known of the entries of the result when every entry of the source has a header. -/
theorem sound_of_mem_propagateAll (h4 : ∀ q ∈ ps, 4 ≤ aceSizeAt src q)
    (he : e ∈ rq.propagateAll (ps.map (readAce src))) : e.Sound (aclRevision src) := by
  obtain ⟨x, hx, he⟩ := mem_flatMap.1 he
  obtain ⟨q, hq, rfl⟩ := mem_map.1 hx
  exact sound_of_mem_propagate (hv q hq) (ha q hq) howner hgroup (h4 q hq) he

theorem bounded_of_mem_propagateAll (he : e ∈ rq.propagateAll (ps.map (readAce src))) :
    aceFormat.Bounded e := by
  obtain ⟨x, hx, he⟩ := mem_flatMap.1 he
  obtain ⟨q, hq, rfl⟩ := mem_map.1 hx
  exact bounded_of_mem_propagate (hv q hq) (ha q hq) howner hgroup he

end

end PropagateRequest

theorem AceEntry.Stored.four_le (h : e.Stored) : 4 ≤ e.size := by
  rcases e with a | bytes
  · exact (show 4 ≤ 16 by norm_num).trans (KnownAce.Stored.sixteen_le h)
  · exact h.1

/-- Entries that have a header are not more than their bytes allow. -/
theorem four_mul_length_le (h : ∀ e ∈ es, 4 ≤ e.size) : 4 * es.length ≤ aceFormat.total es := by
  induction es with
  | nil => simp
  | cons e es ih =>
    have := h e (mem_cons_self ..)
    have := ih fun x hx => h x (mem_cons_of_mem e hx)
    rw [length_cons, total_cons, aceFormat_size]
    omega

/-- The entries of the list, each of the size its header states, fill it exactly. -/
def AcesFill (acl : Mem) : Prop := 8 + ((aces acl).map (aceSizeAt acl)).sum = aclSize acl

theorem sum_map_aceSizeAt (m : Mem) (ps : List ℕ) :
    (ps.map (aceSizeAt m)).sum = aceFormat.total (ps.map (readAce m)) := by
  rw [total, map_map]
  exact congrArg sum (map_congr_left fun p _ => (size_readAce m p).symm)

/-! ### Lists that are laid out well -/

/-- **A list of sound entries under a header that fits is a valid ACL**: its last entry, if it has
one, must be more than a header. -/
theorem rtlValidAcl_of_recordsAt (hes : ∀ e ∈ es, e.Sound (aclRevision m))
    (hlast : ∀ e ∈ es.getLast?, 4 < e.size) (hrev : 2 ≤ aclRevision m ∧ aclRevision m ≤ 4)
    (hsize : aclSize m = 8 + aceFormat.total es) (hcount : aceCount m = es.length)
    (h : aceFormat.RecordsAt m 8 es) : rtlValidAcl m = true ∧ AcesFill m := by
  have hplaces : aces m = acePlaces m es.length 8 := by rw [aces, hcount]
  have hmap := map_acePlaces_of_recordsAt h
  have heven : 2 ∣ aceFormat.total es := by
    refine dvd_sum fun n hn => ?_
    obtain ⟨e, he, rfl⟩ := mem_map.1 hn
    exact Nat.dvd_of_mod_eq_zero (hes e he).even
  constructor
  · simp only [rtlValidAcl, Bool.and_eq_true, decide_eq_true_eq, all_eq_true]
    refine ⟨⟨⟨hrev, by omega⟩, by omega⟩, fun q hq => ?_⟩
    rw [hplaces] at hq
    have hmem : readAce m q ∈ es := hmap ▸ mem_map_of_mem hq
    obtain ⟨hlt, hle⟩ := places_lt_of_recordsAt h (fun e he => (hes e he).stored.four_le) hlast q hq
    have hq2 := (hes _ hmem).even
    rw [size_readAce] at hq2
    simp only [validAce, Bool.and_eq_true, decide_eq_true_eq, hsize]
    exact ⟨⟨⟨hlt, hq2⟩, hle⟩, (hes _ hmem).body m q rfl⟩
  · rw [AcesFill, hplaces, sum_map_aceSizeAt, hmap, hsize]

/-- Entries of aligned size begin at aligned places. -/
theorem acePlaces_mod_of_recordsAt (h : aceFormat.RecordsAt m p es) (hp : p % 4 = 0)
    (hes : ∀ e ∈ es, e.size % 4 = 0) : ∀ q ∈ acePlaces m es.length p, q % 4 = 0 := by
  induction es generalizing p with
  | nil => simp [acePlaces]
  | cons e es ih =>
    obtain ⟨-, hsize, hrest⟩ := of_recordsAt_cons h
    have he := hes e (mem_cons_self ..)
    intro q hq
    rw [length_cons, acePlaces, mem_cons, hsize] at hq
    rcases hq with rfl | hq
    · exact hp
    · exact ih hrest (by omega) (fun x hx => hes x (mem_cons_of_mem e hx)) q hq

/-- A list of stored entries of aligned size passes the assertions, whatever it is inherited by. -/
theorem accepts_of_recordsAt (h : aceFormat.RecordsAt m 8 es) (hcount : aceCount m = es.length)
    (hes : ∀ e ∈ es, e.Stored ∧ e.size % 4 = 0) (hsize : aclSize m % 4 = 0) (hsbz1 : aclSbz1 m = 0)
    (hsbz2 : aclSbz2 m = 0) (rq : PropagateRequest) : rq.Accepts m := by
  refine ⟨hsize, hsbz1, hsbz2, fun p hp => ⟨?_, fun hknown _ => ?_⟩⟩
  · rw [aces, hcount] at hp
    exact acePlaces_mod_of_recordsAt h (by norm_num) (fun e he => (hes e he).2) p hp
  · rw [aces, hcount] at hp
    have hmem : readAce m p ∈ es := map_acePlaces_of_recordsAt h ▸ mem_map_of_mem hp
    exact (hes _ hmem).1.contained.sid hknown

/-- **Four bytes at the end are not enough for an entry**: a valid ACL has none there. -/
theorem length_le_of_rtlValidAcl (h : aceFormat.RecordsAt m 8 es) (hv : rtlValidAcl m = true)
    (hsize : aclSize m ≤ 8 + aceFormat.total es + 4) : aceCount m ≤ es.length := by
  by_contra hlt
  obtain ⟨n, hn⟩ : ∃ n, aceCount m = es.length + (n + 1) :=
    ⟨aceCount m - es.length - 1, by omega⟩
  have hmem : 8 + aceFormat.total es ∈ aces m := by
    rw [aces, hn, acePlaces_of_recordsAt h, acePlaces]
    simp
  have hvalid := validAce_of_mem_aces hv hmem
  simp only [validAce, Bool.and_eq_true, decide_eq_true_eq] at hvalid
  omega

/-! ### Destinations that are laid out well -/

namespace PropagateRequest

variable {rq : PropagateRequest} {src dest : Mem} {aclLength : ℕ}

theorem eight_le_neededLength (rq : PropagateRequest) (src : Mem) : 8 ≤ rq.neededLength src := by
  rw [neededLength]
  omega

/-- The last entry is of no use to a list with entries smaller than their header. -/
theorem four_le_of_lastHasBody (hv : rtlValidAcl src = true) (ha : rq.Accepts src)
    (hlast : rq.LastHasBody src (aces src)) : ∀ p ∈ aces src, 4 ≤ aceSizeAt src p := by
  obtain ⟨ps, ps', heq, hps, hps', -⟩ := exists_small_suffix (aceCount src) 8
    (fun q hq => validAce_of_mem_aces hv hq) ha.aces
  change aces src = ps ++ ps' at heq
  rcases eq_nil_or_concat ps' with rfl | ⟨qs, q, rfl⟩
  · rw [heq, append_nil]
    exact hps
  · obtain ⟨hother, hsmall⟩ := hps' q (by simp)
    have := hlast q (by simp [heq, goes, hother])
    omega

section Layout

variable (hv : rtlValidAcl src = true) (ha : rq.Accepts src) (howner : validSid rq.owner = true)
  (hgroup : validSid rq.group = true)

include hv ha howner hgroup

theorem bounded_of_mem_propagated (he : e ∈ rq.propagated src) : aceFormat.Bounded e :=
  bounded_of_mem_propagateAll (fun _ hp => validAce_of_mem_aces hv hp) ha.aces howner hgroup he

variable (hneeded : rq.neededLength src < 0x10000) (hlen : rq.neededLength src ≤ aclLength)

include hneeded hlen

/-- The destination holds the whole list, under a header that says so. -/
theorem layout_destination (dest : Mem) (hlast : rq.LastHasBody src (aces src)) :
    aceFormat.RecordsAt (rq.destination dest aclLength src) 8 (rq.propagated src) ∧
      aceCount (rq.destination dest aclLength src) = (rq.propagated src).length ∧
      aclSize (rq.destination dest aclLength src) = rq.neededLength src ∧
      ∀ e ∈ rq.propagated src, e.Sound (aclRevision src) := by
  have hsound : ∀ e ∈ rq.propagated src, e.Sound (aclRevision src) := fun e =>
    sound_of_mem_propagateAll (fun p hp => validAce_of_mem_aces hv hp) ha.aces howner hgroup
      (four_le_of_lastHasBody hv ha hlast)
  have h8 : 8 ≤ aclLength := (rq.eight_le_neededLength src).trans hlen
  refine ⟨?_, ?_, ?_, hsound⟩
  · exact recordsAt_destination h8 (append_nil _).symm (fun e he => (hsound e he).stored)
      (by simp) hlen
  · have := four_mul_length_le fun e he => (hsound e he).stored.four_le
    rw [neededLength] at hneeded
    rw [aceCount_destination h8, Nat.mod_eq_of_lt (by omega)]
  · rw [aclSize_destination h8, Nat.mod_eq_of_lt hneeded]

/-- **The destination is a valid ACL** with the propagated list as its entries. -/
theorem wellFormed_destination (dest : Mem) (hlast : rq.LastHasBody src (aces src)) :
    rtlValidAcl (rq.destination dest aclLength src) = true ∧
      AcesFill (rq.destination dest aclLength src) ∧
      aclSize (rq.destination dest aclLength src) = rq.neededLength src ∧
      aceEntries (rq.destination dest aclLength src) = rq.propagated src := by
  have hv' := fun p hp => validAce_of_mem_aces (p := p) hv hp
  have hbounded := fun e he => bounded_of_mem_propagated (e := e) hv ha howner hgroup he
  obtain ⟨hrecords, hcount, hsize, hsound⟩ :=
    layout_destination hv ha howner hgroup hneeded hlen dest hlast
  have hrev : aclRevision (rq.destination dest aclLength src) = aclRevision src := by
    rw [aclRevision, aclRevision, destination_header hbounded
      ((rq.eight_le_neededLength src).trans hlen) (by omega)]
  have hsrc : 2 ≤ aclRevision src ∧ aclRevision src ≤ 4 := by
    simp only [rtlValidAcl, Bool.and_eq_true, decide_eq_true_eq] at hv
    exact hv.1.1.1
  obtain ⟨hvalid, hfill⟩ := rtlValidAcl_of_recordsAt (by rwa [hrev])
    ((lastHasBody_iff hv' ha.aces howner hgroup).1 hlast) (by rwa [hrev]) hsize hcount hrecords
  refine ⟨hvalid, hfill, hsize, ?_⟩
  rw [aceEntries, aces, hcount, map_acePlaces_of_recordsAt hrecords]

omit hneeded hlen in
/-- A list whose last entry is not more than a header ends in entries that are at most four bytes
together. -/
theorem exists_tail_of_not_lastHasBody (hlast : ¬rq.LastHasBody src (aces src)) :
    ∃ es es', rq.propagated src = es ++ es' ∧ (∀ e ∈ es, e.Stored) ∧
      (∀ e ∈ es', ∃ bytes, e = .other bytes) ∧ aceFormat.total es' ≤ 4 ∧ 0 < es'.length ∧
      es'.length < 0x10000 := by
  have hv' := fun p hp => validAce_of_mem_aces (p := p) hv hp
  obtain ⟨ps, ps', heq, hps, hps', hsum⟩ := exists_small_suffix (aceCount src) 8 hv' ha.aces
  change aces src = ps ++ ps' at heq
  have hprop : rq.propagated src =
      rq.propagateAll (ps.map (readAce src)) ++ rq.propagateAll (ps'.map (readAce src)) := by
    rw [propagated, aceEntries, heq, map_append, propagateAll_append]
  have hstored : ∀ e ∈ rq.propagateAll (ps.map (readAce src)), e.Stored := by
    intro e he
    exact (sound_of_mem_propagateAll (fun p hp => hv' p (by simp [heq, hp]))
      (fun p hp => ha.aces p (by simp [heq, hp])) howner hgroup hps he).stored
  rcases eq_or_ne ps' [] with rfl | hne
  · -- every entry has a header, and the last is no more than that
    rw [lastHasBody_iff hv' ha.aces howner hgroup] at hlast
    push Not at hlast
    obtain ⟨e, he, hsize⟩ := hlast
    change e ∈ (rq.propagated src).getLast? at he
    rw [hprop] at he ⊢
    rw [map_nil, show rq.propagateAll [] = [] from rfl, append_nil] at he ⊢
    obtain ⟨es, hes⟩ := getLast?_eq_some_iff.1 he
    refine ⟨es, [e], hes, fun x hx => hstored x (by rw [hes]; simp [hx]), ?_, by simpa using hsize,
      by simp⟩
    rw [forall_mem_singleton]
    rcases e with a | bytes
    · -- a known entry has more than a header
      have hknown := KnownAce.Stored.sixteen_le (hstored (.known a) (by rw [hes]; simp))
      rw [AceEntry.size] at hsize
      omega
    · exact ⟨bytes, rfl⟩
  · have hother : ∀ e ∈ ps'.map (readAce src), ∃ bytes, e = .other bytes := by
      intro e he
      obtain ⟨p, hp, rfl⟩ := mem_map.1 he
      exact ⟨_, if_pos (hps' p hp).1⟩
    rw [rq.propagateAll_of_other hother] at hprop
    refine ⟨_, _, hprop, hstored, hother, ?_, ?_, ?_⟩
    · rw [← sum_map_aceSizeAt]
      omega
    · rw [length_map]
      exact length_pos_iff.2 hne
    · have hcount : aceCount src < 0x10000 := Mem.readU16_lt src 4
      have hlength := congrArg length heq
      rw [aces, length_acePlaces, length_append] at hlength
      rw [length_map]
      omega

/-- **A valid destination of a list that ends in a header lacks entries**: they are lost to the
sixteen bits of the count. -/
theorem truncated_of_not_lastHasBody
    (hvalid : rtlValidAcl (rq.destination dest aclLength src) = true)
    (hlast : ¬rq.LastHasBody src (aces src)) :
    ∃ es es', rq.propagated src = es ++ es' ∧ (∀ e ∈ es, e.Stored) ∧
      (∀ e ∈ es', ∃ bytes, e = .other bytes) ∧ 0 < es'.length ∧ es'.length < 0x10000 ∧
      ∃ c, c = (es.length + es'.length) % 0x10000 ∧ c ≤ es.length ∧
        aceEntries (rq.destination dest aclLength src) = es.take c := by
  obtain ⟨es, es', heq, hstored, hother, htotal, hpos, hlength⟩ :=
    exists_tail_of_not_lastHasBody hv ha howner hgroup hlast
  have hbounded : ∀ e ∈ rq.propagated src, aceFormat.Bounded e := fun e he =>
    bounded_of_mem_propagated hv ha howner hgroup he
  have h8 : 8 ≤ aclLength := (rq.eight_le_neededLength src).trans hlen
  have hroom : rq.neededLength src = 8 + aceFormat.total es + aceFormat.total es' := by
    rw [neededLength, heq, total_append, Nat.add_assoc]
  have hcount : aceCount (rq.destination dest aclLength src) =
      (es.length + es'.length) % 0x10000 := by
    rw [aceCount_destination h8, heq, length_append]
  have hle : aceCount (rq.destination dest aclLength src) ≤ es.length := by
    refine length_le_of_rtlValidAcl (recordsAt_destination h8 heq hstored ?_ (by omega)) hvalid ?_
    · exact fun e he => hbounded e (by rw [heq]; simp [he])
    · rw [aclSize_destination h8, Nat.mod_eq_of_lt hneeded]
      omega
  refine ⟨es, es', heq, hstored, hother, hpos, hlength, _, hcount, hle, ?_⟩
  generalize hc : aceCount (rq.destination dest aclLength src) = c at *
  -- the entries that are left are the first ones of the list
  have hsplit : rq.propagated src = es.take c ++ (es.drop c ++ es') := by
    rw [heq, ← append_assoc, take_append_drop]
  have htake : aceFormat.total es = aceFormat.total (es.take c) + aceFormat.total (es.drop c) := by
    rw [← total_append, take_append_drop]
  have hrecords : aceFormat.RecordsAt (rq.destination dest aclLength src) 8 (es.take c) := by
    refine recordsAt_destination h8 hsplit (fun e he => hstored e (mem_of_mem_take he)) ?_
      (by omega)
    exact fun e he => hbounded e (by rw [hsplit]; exact mem_append_right _ he)
  have hmap := map_acePlaces_of_recordsAt hrecords
  rw [length_take, Nat.min_eq_left hle] at hmap
  rw [aceEntries, aces, hc, hmap]

/-- **The last entry must be more than a header**, or the entries of the destination do not fill
it. -/
theorem lastHasBody_of_acesFill (hvalid : rtlValidAcl (rq.destination dest aclLength src) = true)
    (hfill : AcesFill (rq.destination dest aclLength src)) : rq.LastHasBody src (aces src) := by
  by_contra hlast
  obtain ⟨es, es', heq, hstored, -, hpos, hlength, c, hc, hle, hentries⟩ :=
    truncated_of_not_lastHasBody hv ha howner hgroup hneeded hlen hvalid hlast
  have hdrop : 4 * (es.drop c).length ≤ aceFormat.total (es.drop c) :=
    four_mul_length_le fun e he => (hstored e (mem_of_mem_drop he)).four_le
  have htake : aceFormat.total es = aceFormat.total (es.take c) + aceFormat.total (es.drop c) := by
    rw [← total_append, take_append_drop]
  rw [AcesFill, sum_map_aceSizeAt, ← aceEntries, hentries,
    aclSize_destination ((rq.eight_le_neededLength src).trans hlen), Nat.mod_eq_of_lt hneeded,
    neededLength, heq, total_append] at hfill
  rw [length_drop] at hdrop
  omega

end Layout

end PropagateRequest

/-! ### What the callers rely on -/

/-- What `SepPropagateAcl` promises to its callers: the sizing call reports what the writing call
needs; the writing call succeeds with that much, makes a valid ACL of the size that it reports, and
stays in its buffer. -/
def PropagatePromise (rq : PropagateRequest) (src : Mem) : Prop :=
  ∃ needed, (∀ dest, sepPropagateAcl rq dest 0 src = .ok (.bufferTooSmall, needed, dest)) ∧
    ∀ dest aclLength, ∃ status length dest',
      sepPropagateAcl rq dest aclLength src = .ok (status, length, dest') ∧
      (status = .success ↔ needed ≤ aclLength) ∧
      (∀ a, aclLength ≤ a → dest' a = dest a) ∧
      (status = .success →
        rtlValidAcl dest' = true ∧ aclSize dest' = length ∧ AcesFill dest')

section Promise

variable {rq : PropagateRequest} {src : Mem} (hv : rtlValidAcl src = true)
  (howner : validSid rq.owner = true) (hgroup : validSid rq.group = true)

include hv howner hgroup

/-- The promise is kept when the list fits and ends in more than a header. -/
theorem propagatePromise_of (ha : rq.Accepts src) (hneeded : rq.neededLength src < 0x10000)
    (hlast : rq.LastHasBody src (aces src)) : PropagatePromise rq src := by
  have hbounded := fun e he => bounded_of_mem_propagated (e := e) hv ha howner hgroup he
  have h8 := rq.eight_le_neededLength src
  refine ⟨rq.neededLength src, fun dest => ?_, fun dest aclLength => ?_⟩
  · rw [sepPropagateAcl_eq hv ha, if_pos (by omega)]
    exact congrArg Except.ok (congrArg _ (congrArg _ (funext fun b =>
      destination_of_le hbounded (Nat.zero_le b))))
  · refine ⟨_, _, _, sepPropagateAcl_eq hv ha, ?_, fun a h => destination_of_le hbounded h, ?_⟩
    · by_cases hlen : aclLength < rq.neededLength src
      · rw [if_pos hlen]
        exact iff_of_false (by simp) (by omega)
      · rw [if_neg hlen]
        exact iff_of_true rfl (by omega)
    · intro hstatus
      have hlen : rq.neededLength src ≤ aclLength := by
        by_contra hlt
        rw [if_pos (by omega)] at hstatus
        cases hstatus
      obtain ⟨hvalid, hfill, hsize, -⟩ :=
        wellFormed_destination hv ha howner hgroup hneeded hlen dest hlast
      exact ⟨hvalid, hsize, hfill⟩

/-- It is kept only then. -/
theorem of_propagatePromise (h : PropagatePromise rq src) :
    rq.Accepts src ∧ rq.neededLength src < 0x10000 ∧ rq.LastHasBody src (aces src) := by
  obtain ⟨needed, hsizing, hwriting⟩ := h
  have ha := (accepts_of_sepPropagateAcl (hsizing fun _ => 0)).2
  obtain ⟨status, length, dest, hcall, -, -, hwell⟩ := hwriting (fun _ => 0) (rq.neededLength src)
  rw [sepPropagateAcl_eq hv ha, if_neg (lt_irrefl _)] at hcall
  obtain ⟨rfl, rfl, rfl⟩ := hcall
  obtain ⟨hvalid, hsize, hfill⟩ := hwell rfl
  have h8 := rq.eight_le_neededLength src
  have hneeded : rq.neededLength src < 0x10000 := by
    rw [aclSize_destination h8] at hsize
    omega
  exact ⟨ha, hneeded, lastHasBody_of_acesFill hv ha howner hgroup hneeded le_rfl hvalid hfill⟩

end Promise

/-! ### Lists of equal entries -/

/-- An ACL with `n` entries for the creator. -/
def creatorAcl (n : ℕ) : Mem :=
  (Mem.writeU16 (Mem.writeU16 (fun a => if a < 8 then viewOf [2] a
    else viewOf creatorAce ((a - 8) % 20)) 2 (8 + 20 * n)) 4 n)

section CreatorAcl

theorem creatorAcl_apply {n i j : ℕ} (hj : j < 20) :
    creatorAcl n (8 + 20 * i + j) = viewOf creatorAce j := by
  rw [creatorAcl, Mem.agreeOn_writeU16 _ _ _ (by omega) _ le_rfl (Nat.lt_succ_self _),
    Mem.agreeOn_writeU16 _ _ _ (by omega) _ le_rfl (Nat.lt_succ_self _), if_neg (by omega)]
  congr 1
  omega

theorem creatorAce_eq : readAce (viewOf creatorAce) 0 =
    .known ⟨0, 3, 20, 0x10000000, [1, 1, 0, 0, 0, 0, 0, 3, 0, 0, 0, 0]⟩ := by
  with_unfolding_all decide

theorem creatorAce_contained : AceContained (viewOf creatorAce) 0 := by
  refine ⟨?_, fun _ => ?_⟩ <;> with_unfolding_all decide

theorem readAce_creatorAcl (n i : ℕ) :
    readAce (creatorAcl n) (8 + 20 * i) = readAce (viewOf creatorAce) 0 := by
  refine readAce_shift creatorAce_contained fun j hj => ?_
  have hsize : aceSizeAt (viewOf creatorAce) 0 = 20 := by
    rw [← size_readAce, creatorAce_eq]
    rfl
  rw [creatorAcl_apply (by omega), Nat.zero_add]

theorem recordsAt_creatorAcl (n k i : ℕ) : aceFormat.RecordsAt (creatorAcl n) (8 + 20 * i)
    (replicate k (readAce (viewOf creatorAce) 0)) := by
  induction k generalizing i with
  | zero => trivial
  | succ k ih =>
    refine ⟨readAce_creatorAcl n i, ?_⟩
    rw [aceFormat_size, creatorAce_eq, AceEntry.size, ← creatorAce_eq]
    exact ih (i + 1)

theorem aceCount_creatorAcl (hn : n ≤ 3276) : aceCount (creatorAcl n) = n := by
  rw [aceCount, creatorAcl, Mem.readU16_writeU16, Nat.mod_eq_of_lt (by omega)]

theorem aceEntries_creatorAcl (hn : n ≤ 3276) :
    aceEntries (creatorAcl n) = replicate n (readAce (viewOf creatorAce) 0) := by
  have h := map_acePlaces_of_recordsAt (recordsAt_creatorAcl n n 0)
  rw [length_replicate] at h
  rw [aceEntries, aces, aceCount_creatorAcl hn]
  exact h

theorem readAce_of_mem_aces_creatorAcl (hn : n ≤ 3276) (hp : p ∈ aces (creatorAcl n)) :
    readAce (creatorAcl n) p = readAce (viewOf creatorAce) 0 := by
  have hmem : readAce (creatorAcl n) p ∈ aceEntries (creatorAcl n) := mem_map_of_mem hp
  rw [aceEntries_creatorAcl hn] at hmem
  exact eq_of_mem_replicate hmem

theorem total_replicate (k : ℕ) (e : AceEntry) :
    aceFormat.total (replicate k e) = k * e.size := by
  simp [total]

theorem aclSize_creatorAcl (hn : n ≤ 3276) : aclSize (creatorAcl n) = 8 + 20 * n := by
  rw [aclSize, creatorAcl, Mem.readU16_congr (Mem.agreeOn_writeU16 _ _ _ (by omega)),
    Mem.readU16_writeU16, Nat.mod_eq_of_lt (by omega)]

theorem rtlValidAcl_creatorAcl (hn : n ≤ 3276) : rtlValidAcl (creatorAcl n) = true := by
  have hrev : aclRevision (creatorAcl n) = 2 := by
    rw [aclRevision, creatorAcl, Mem.agreeOn_writeU16 _ _ _ (by omega) 0 le_rfl Nat.zero_lt_one,
      Mem.agreeOn_writeU16 _ _ _ (by omega) 0 le_rfl Nat.zero_lt_one]
    rfl
  have hsound : (readAce (viewOf creatorAce) 0).Sound (aclRevision (creatorAcl n)) := by
    have hstored := creatorAce_contained.stored
    rw [creatorAce_eq] at hstored ⊢
    exact KnownAce.Stored.sound hstored (by decide) (by decide) _
  refine (rtlValidAcl_of_recordsAt (fun e he => ?_) (fun e he => ?_) (by omega) ?_ ?_
    (recordsAt_creatorAcl n n 0)).1
  · rwa [eq_of_mem_replicate he]
  · rw [eq_of_mem_replicate (mem_of_getLast? he), creatorAce_eq]
    decide
  · rw [aclSize_creatorAcl hn, total_replicate, creatorAce_eq, AceEntry.size, Nat.mul_comm]
  · rw [aceCount_creatorAcl hn, length_replicate]

theorem accepts_creatorAcl (hn : n ≤ 3276) : worldRequest.Accepts (creatorAcl n) := by
  have hbyte : ∀ a, a = 1 ∨ a = 6 ∨ a = 7 → creatorAcl n a = 0 := by
    intro a ha
    rw [creatorAcl, Mem.agreeOn_writeU16 _ _ _ (by omega) a le_rfl (Nat.lt_succ_self a),
      Mem.agreeOn_writeU16 _ _ _ (by omega) a le_rfl (Nat.lt_succ_self a)]
    rcases ha with rfl | rfl | rfl <;> rfl
  refine accepts_of_recordsAt (recordsAt_creatorAcl n n 0) ?_ (fun e he => ?_) ?_
    (hbyte 1 (by omega)) ?_ _
  · rw [aceCount_creatorAcl hn, length_replicate]
  · rw [eq_of_mem_replicate he]
    exact ⟨creatorAce_contained.stored, by rw [creatorAce_eq]; decide⟩
  · rw [aclSize_creatorAcl hn]
    omega
  · rw [aclSbz2, Mem.readU16_shift (m := fun _ => 0) (a := 0) fun i hi => ?_]
    · simp [Mem.readU16]
    · exact hbyte (6 + i) (by omega)

/-- Each of the entries becomes two. -/
theorem neededLength_creatorAcl (hn : n ≤ 3276) :
    worldRequest.neededLength (creatorAcl n) = 8 + 40 * n := by
  have htwo : aceFormat.total (worldRequest.propagate (readAce (viewOf creatorAce) 0)) = 40 := by
    rw [creatorAce_eq]
    decide
  have hall : ∀ k, aceFormat.total (worldRequest.propagateAll
      (replicate k (readAce (viewOf creatorAce) 0))) = 40 * k := by
    intro k
    induction k with
    | zero => rfl
    | succ k ih =>
      rw [propagateAll] at ih
      rw [replicate_succ, propagateAll, flatMap_cons, total_append]
      omega
  rw [neededLength, propagated, aceEntries_creatorAcl hn, hall]

theorem lastHasBody_creatorAcl (hn : n ≤ 3276) :
    worldRequest.LastHasBody (creatorAcl n) (aces (creatorAcl n)) := by
  intro p hp
  rw [← size_readAce, readAce_of_mem_aces_creatorAcl hn
    (mem_of_mem_filter (mem_of_getLast? hp)), creatorAce_eq]
  decide

end CreatorAcl

/-- An ACL with one entry, of a type that the system does not know and with no more than a
header. -/
def headerOnlyAcl : Mem := viewOf [2, 0, 16, 0, 1, 0, 0, 0, 0x10, 0, 4, 0]

theorem aces_headerOnlyAcl : aces headerOnlyAcl = [8] := by with_unfolding_all decide

theorem accepts_headerOnlyAcl : worldRequest.Accepts headerOnlyAcl where
  size_mod := by simp [aclSize, Mem.readU16, headerOnlyAcl, viewOf]
  sbz1 := by decide
  sbz2 := by simp [aclSbz2, Mem.readU16, headerOnlyAcl, viewOf]
  aces p hp := by
    rw [aces_headerOnlyAcl, mem_singleton] at hp
    subst hp
    exact ⟨by norm_num, fun h => absurd h (by decide)⟩

/-! ### The promise -/

/-- **`SepPropagateAcl` keeps its promise exactly for** sources that pass its assertions, whose
entries need less than `2 ^ 16` bytes, and whose last entry that goes into the result is more than
a header. -/
theorem propagatePromise_iff (rq : PropagateRequest) (src : Mem) (hv : rtlValidAcl src = true)
    (howner : validSid rq.owner = true) (hgroup : validSid rq.group = true) :
    PropagatePromise rq src ↔
      rq.Accepts src ∧ rq.neededLength src < 0x10000 ∧ rq.LastHasBody src (aces src) := by
  constructor
  · exact of_propagatePromise hv howner hgroup
  · rintro ⟨ha, hneeded, hlast⟩
    exact propagatePromise_of hv howner hgroup ha hneeded hlast

/-- The promise is kept for a thousand entries. -/
theorem propagatePromise_creatorAcl :
    rtlValidAcl (creatorAcl 1000) = true ∧ PropagatePromise worldRequest (creatorAcl 1000) := by
  have hn : 1000 ≤ 3276 := by norm_num
  refine ⟨rtlValidAcl_creatorAcl hn, (propagatePromise_iff worldRequest (creatorAcl 1000)
    (rtlValidAcl_creatorAcl hn) (by decide) (by decide)).2 ⟨accepts_creatorAcl hn, ?_,
    lastHasBody_creatorAcl hn⟩⟩
  rw [neededLength_creatorAcl hn]
  norm_num

/-- Two thousand entries of twenty bytes become four thousand: the call succeeds and reports 80008
bytes, and `AclSize` is what sixteen bits leave of that. And an entry that is only a header is valid
as long as something lies behind it, which in the destination is not so. -/
theorem propagate_breaks_promise :
    (rtlValidAcl (creatorAcl 2000) = true ∧ worldRequest.Accepts (creatorAcl 2000) ∧
      (∃ dest, sepPropagateAcl worldRequest (fun _ => 0) 80008 (creatorAcl 2000) =
        .ok (.success, 80008, dest) ∧ aclSize dest = 14472) ∧
      ¬PropagatePromise worldRequest (creatorAcl 2000)) ∧
    rtlValidAcl headerOnlyAcl = true ∧ worldRequest.Accepts headerOnlyAcl ∧
      ¬PropagatePromise worldRequest headerOnlyAcl := by
  have hn : 2000 ≤ 3276 := by norm_num
  have hneeded := neededLength_creatorAcl hn
  have hv := rtlValidAcl_creatorAcl hn
  have hsmall : rtlValidAcl headerOnlyAcl = true := by with_unfolding_all decide
  refine ⟨⟨hv, accepts_creatorAcl hn,
    ⟨worldRequest.destination (fun _ => 0) 80008 (creatorAcl 2000), ?_, ?_⟩, fun h => ?_⟩, hsmall,
    accepts_headerOnlyAcl, fun h => ?_⟩
  · rw [sepPropagateAcl_eq hv (accepts_creatorAcl hn), hneeded]
    rfl
  · rw [aclSize_destination (by norm_num), hneeded]
  · obtain ⟨-, hlt, -⟩ := of_propagatePromise hv (by decide) (by decide) h
    omega
  · obtain ⟨-, -, hlast⟩ := of_propagatePromise hsmall (by decide) (by decide) h
    have h8 : (8 : ℕ) ∈ ((aces headerOnlyAcl).filter (worldRequest.goes headerOnlyAcl)).getLast? := by
      with_unfolding_all decide
    have hsize : aceSizeAt headerOnlyAcl 8 = 4 := by
      simp [aceSizeAt, Mem.readU16, headerOnlyAcl, viewOf]
    have := hlast 8 h8
    omega

end Windivs

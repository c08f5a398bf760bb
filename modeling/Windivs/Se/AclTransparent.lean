import Windivs.Se.AclWellFormed

/-!
# Inheritance through a container

An object in a directory inherits the ACL of the directory, which the directory inherited from
its own parent. When no entry of that parent says that it is not to be propagated, the object
gets the ACL that it would have got from the parent itself, byte by byte
(`Windivs.leafTransparent_iff`). The lists are equal because inheritance is transparent entry by
entry (`Windivs.PropagateRequest.propagate_toLeaf_toContainer`), and the memories because they
are lists laid out under headers with the same revision.

This needs an intermediate ACL that is one. `RtlValidAcl` takes entries for valid that are smaller
than their header, and `SepPropagateAcl` makes an ACL of such a source that `RtlValidAcl` rejects,
or, from a last entry of an odd number of words, one that it rejects itself.
-/

namespace Windivs

open List

namespace PropagateRequest

variable {rq : PropagateRequest} {src src' dest : Mem} {aclLength : ℕ}

/-! ### Equal lists under equal headers -/

theorem AceEntry.pointwise (e : AceEntry) : aceFormat.Pointwise e := by
  intro m m' p b h
  rcases e with a | bytes
  · change writeAce _ _ _ _ _ _ _ b = writeAce _ _ _ _ _ _ _ b
    have hheader := Mem.writeU32_pointwise (Mem.writeU16_pointwise (Mem.writeU8_pointwise
      (Mem.writeU8_pointwise h p a.aceType) (p + 1) (UInt8.ofBitVec a.aceFlags)) (p + 2) a.aceSize)
      (p + 4) a.mask.toNat
    rw [writeAce, writeAce, rtlCopySid, rtlCopySid]
    split
    · exact hheader
    · exact Mem.copy_pointwise hheader _ _ _ _
  · exact Mem.copy_pointwise h _ _ _ _

/-- The destination is determined by the list and by the rest of the header. -/
theorem destination_congr (hlist : rq.propagated src' = rq.propagated src)
    (hbounded : ∀ e ∈ rq.propagated src, aceFormat.Bounded e)
    (hheader : ∀ b, b < 2 ∨ 6 ≤ b ∧ b < 8 → src' b = src b) (h8 : 8 ≤ aclLength) :
    rq.destination dest aclLength src' = rq.destination dest aclLength src := by
  funext b
  by_cases hb : b < 2 ∨ 6 ≤ b ∧ b < 8
  · rw [destination_header (hlist ▸ hbounded) h8 hb, destination_header hbounded h8 hb,
      hheader b hb]
  · have hlen : rq.neededLength src' = rq.neededLength src := by rw [neededLength, hlist, neededLength]
    rw [destination, destination, if_pos h8, if_pos h8, hlist, hlen]
    by_cases hfield : b < 8
    · -- the size and the count, whatever was there
      by_cases h4 : b < 4
      · exact Mem.writeU16_of_mem _ (by omega)
      · exact Mem.writeU16_pointwise (Mem.writeU16_of_mem _ (by omega)) _ _
    · refine Mem.writeU16_pointwise (Mem.writeU16_pointwise ?_ _ _) _ _
      rw [laidOut, hlist]
      refine RecordFormat.writeAll_pointwise (fun e _ => AceEntry.pointwise e) ?_
      rw [if_pos h8, if_pos h8, Mem.copy_of_notMem (by omega), Mem.copy_of_notMem (by omega)]

/-! ### The intermediate list -/

/-- What goes to an object goes to a container. -/
theorem isSome_toContainer {f : BitVec 8} (hnp : f &&& noPropagateInheritAce = 0)
    (h : (sepShouldPropagateAce f true false).isSome = true) :
    (sepShouldPropagateAce f true true).isSome = true := by
  revert f
  decide

theorem accepts_toLeaf (ha : rq.toContainer.Accepts src)
    (hnp : ∀ p ∈ aces src, aceFlagsAt src p &&& noPropagateInheritAce = 0) :
    rq.toLeaf.Accepts src where
  size_mod := ha.size_mod
  sbz1 := ha.sbz1
  sbz2 := ha.sbz2
  aces p hp := by
    refine ⟨(ha.aces p hp).aligned, fun hknown hsome => (ha.aces p hp).sid hknown ?_⟩
    exact isSome_toContainer (hnp p hp) hsome

/-- **Inheritance through a container is transparent** for whole lists. -/
theorem propagateAll_toLeaf_toContainer
    (hnp : ∀ p ∈ aces src, aceFlagsAt src p &&& noPropagateInheritAce = 0) :
    rq.toLeaf.propagateAll (rq.toContainer.propagated src) = rq.toLeaf.propagated src := by
  rw [propagated, propagateAll, propagateAll, flatMap_assoc]
  refine flatMap_congr fun e he => propagate_toLeaf_toContainer _ ?_
  obtain ⟨p, hp, rfl⟩ := mem_map.1 he
  intro a ha
  rw [readAce] at ha
  split at ha
  · cases ha
  · obtain rfl := AceEntry.known.inj ha
    exact hnp p hp

/-- A stored entry becomes entries that take room. -/
theorem size_pos_of_mem_propagateAll {es : List AceEntry} {x : AceEntry}
    (hes : ∀ e ∈ es, e.Stored) (hx : x ∈ rq.propagateAll es) : 0 < x.size := by
  obtain ⟨e, he, hx⟩ := mem_flatMap.1 hx
  have hstored := hes e he
  rcases e with a | bytes
  · obtain ⟨a', ha', rfl⟩ := mem_map.1 hx
    have := KnownAce.Stored.sixteen_le hstored
    obtain ⟨-, -, ⟨hsize, -⟩ | ⟨hsize, -⟩⟩ := mem_propagateKnown ha' <;>
    · rw [AceEntry.size]
      omega
  · rw [propagate, mem_singleton] at hx
    subst hx
    exact (show 0 < 4 by norm_num).trans_le hstored.four_le

/-- A list whose entries take a multiple of four bytes together has only entries that do. -/
theorem size_mod_of_dvd_total (n p : ℕ) (hv : ∀ q ∈ acePlaces src n p, validAce src q = true)
    (ha : ∀ q ∈ acePlaces src n p, rq.AcceptsAce src q)
    (htotal : 4 ∣ aceFormat.total (rq.propagateAll ((acePlaces src n p).map (readAce src)))) :
    ∀ q ∈ acePlaces src n p, aceSizeAt src q % 4 = 0 := by
  induction n generalizing p with
  | zero => simp [acePlaces]
  | succ n ih =>
    have hmem : p ∈ acePlaces src (n + 1) p := mem_cons_self ..
    have hrest : ∀ q ∈ acePlaces src n (p + aceSizeAt src p), q ∈ acePlaces src (n + 1) p :=
      fun q hq => mem_cons_of_mem p hq
    rw [acePlaces, map_cons, propagateAll, flatMap_cons, RecordFormat.total_append]
      at htotal
    have hp : aceSizeAt src p % 4 = 0 := by
      rcases n with _ | n
      · -- the last entry: what is behind it is the end of the list
        by_cases hother : accessMaxMsV2AceType < aceTypeAt src p
        · rw [readAce, if_pos hother] at htotal
          have hsize : 4 ∣ aceSizeAt src p := by
            simpa [acePlaces, propagate, AceEntry.size, Mem.bytes] using htotal
          omega
        · exact (knownAce_of_validAce (hv p hmem) (UInt8.not_lt.1 hother)).1
      · have hp := (ha p hmem).aligned
        have hp' := (ha _ (hrest _ (mem_cons_self ..))).aligned
        omega
    intro q hq
    rcases mem_cons.1 hq with rfl | hq
    · exact hp
    · refine ih _ (fun q hq => hv q (hrest q hq)) (fun q hq => ha q (hrest q hq)) ?_ q hq
      exact (Nat.dvd_add_right (four_dvd_total_propagate hp)).1 htotal

end PropagateRequest

/-! ### Objects in directories -/

/-- The ACL that an object inherits from a directory is the one it would have inherited from the
parent of the directory, for all buffers that are large enough. -/
def LeafTransparent (rq : PropagateRequest) (src : Mem) : Prop :=
  ∀ dest dest' length length', rq.toContainer.neededLength src ≤ length →
    rq.toLeaf.neededLength src ≤ length' →
    ∃ n acl r, sepPropagateAcl rq.toContainer dest length src = .ok (.success, n, acl) ∧
      sepPropagateAcl rq.toLeaf dest' length' acl = .ok (.success, r) ∧
      sepPropagateAcl rq.toLeaf dest' length' src = .ok (.success, r)

section Transparent

variable {rq : PropagateRequest} {src : Mem} (hv : rtlValidAcl src = true)
  (howner : validSid rq.owner = true) (hgroup : validSid rq.group = true)
  (hneeded : rq.toContainer.neededLength src < 0x10000)

include hv howner hgroup hneeded

open PropagateRequest

/-- The intermediate list passes the assertions of the second call. -/
theorem accepts_destination {length : ℕ} (ha : rq.toContainer.Accepts src)
    (hmod : ∀ p ∈ aces src, aceSizeAt src p % 4 = 0)
    (hlast : rq.toContainer.LastHasBody src (aces src))
    (hlength : rq.toContainer.neededLength src ≤ length) (dest : Mem) :
    rq.toLeaf.Accepts (rq.toContainer.destination dest length src) := by
  have hbounded := fun e he => bounded_of_mem_propagated (e := e) hv ha howner hgroup he
  have h8 := (rq.toContainer.eight_le_neededLength src).trans hlength
  obtain ⟨hrecords, hcount, hsize, hsound⟩ :=
    layout_destination hv ha howner hgroup hneeded hlength dest hlast
  have hwords : ∀ e ∈ rq.toContainer.propagated src, e.size % 4 = 0 := by
    intro e he
    obtain ⟨x, hx, he⟩ := mem_flatMap.1 he
    obtain ⟨p, hp, rfl⟩ := mem_map.1 hx
    rcases propagate_cases (validAce_of_mem_aces hv hp) (ha.aces p hp) howner hgroup he with
      ⟨-, rfl⟩ | ⟨a, rfl, -, hsize, -⟩
    · rw [size_readAce]
      exact hmod p hp
    · exact hsize
  have hdvd : 4 ∣ aceFormat.total (rq.toContainer.propagated src) := by
    refine dvd_sum fun n hn => ?_
    obtain ⟨e, he, rfl⟩ := mem_map.1 hn
    exact Nat.dvd_of_mod_eq_zero (hwords e he)
  have hsbz2 : aclSbz2 (rq.toContainer.destination dest length src) = aclSbz2 src :=
    Mem.readU16_congr fun b hb hb' => destination_header hbounded h8 (by omega)
  refine accepts_of_recordsAt hrecords hcount (fun e he => ⟨(hsound e he).stored, hwords e he⟩) ?_
    ?_ (hsbz2.trans ha.sbz2) _
  · rw [hsize, neededLength]
    omega
  · rw [aclSbz1, destination_header hbounded h8 (by omega)]
    exact ha.sbz1

variable (hnp : ∀ p ∈ aces src, aceFlagsAt src p &&& noPropagateInheritAce = 0)

include hnp

/-- It is, when the entries have whole words and the last of them more than a header. -/
theorem leafTransparent_of (ha : rq.toContainer.Accepts src)
    (hmod : ∀ p ∈ aces src, aceSizeAt src p % 4 = 0)
    (hlast : rq.toContainer.LastHasBody src (aces src)) : LeafTransparent rq src := by
  intro dest dest' length length' hlength hlength'
  have hleaf := accepts_toLeaf ha hnp
  have hacl := accepts_destination hv howner hgroup hneeded ha hmod hlast hlength dest
  obtain ⟨hvalid, -, -, hentries⟩ :=
    wellFormed_destination hv ha howner hgroup hneeded hlength dest hlast
  have hlist : rq.toLeaf.propagated (rq.toContainer.destination dest length src) =
      rq.toLeaf.propagated src := by
    rw [propagated, hentries]
    exact propagateAll_toLeaf_toContainer hnp
  have hlen : rq.toLeaf.neededLength (rq.toContainer.destination dest length src) =
      rq.toLeaf.neededLength src := by
    rw [neededLength, hlist, neededLength]
  refine ⟨rq.toContainer.neededLength src, rq.toContainer.destination dest length src,
    (rq.toLeaf.neededLength src, rq.toLeaf.destination dest' length' src), ?_, ?_, ?_⟩
  · rw [sepPropagateAcl_eq hv ha, if_neg (by omega)]
  · rw [sepPropagateAcl_eq hvalid hacl, hlen, if_neg (by omega)]
    rw [destination_congr hlist
      (fun e he => bounded_of_mem_propagated hv hleaf howner hgroup he)
      (fun b hb => destination_header
        (fun e he => bounded_of_mem_propagated hv ha howner hgroup he)
        ((rq.toContainer.eight_le_neededLength src).trans hlength) hb)
      ((rq.toLeaf.eight_le_neededLength src).trans hlength')]
  · rw [sepPropagateAcl_eq hv hleaf, if_neg (by omega)]

/-- The last entry that the container inherits is more than a header: otherwise its ACL lacks
entries, and they are missed further down. -/
theorem lastHasBody_of_transparent {dest : Mem} {length : ℕ}
    (hlength : rq.toContainer.neededLength src ≤ length) (ha : rq.toContainer.Accepts src)
    (hvalid : rtlValidAcl (rq.toContainer.destination dest length src) = true)
    (hlen : rq.toLeaf.neededLength (rq.toContainer.destination dest length src) =
      rq.toLeaf.neededLength src)
    (hcount : (rq.toLeaf.propagated (rq.toContainer.destination dest length src)).length % 0x10000 =
      (rq.toLeaf.propagated src).length % 0x10000) : rq.toContainer.LastHasBody src (aces src) := by
  by_contra hlast
  obtain ⟨es, es', heq, hstored, hother, hpos, hlt, c, hc, hle, hentries⟩ :=
    truncated_of_not_lastHasBody hv ha howner hgroup hneeded hlength hvalid hlast
  have hleaf : rq.toLeaf.propagated src = rq.toLeaf.propagateAll (es.take c) ++
      (rq.toLeaf.propagateAll (es.drop c) ++ es') := by
    rw [← propagateAll_toLeaf_toContainer hnp, heq, propagateAll_append,
      propagateAll_of_other _ hother, ← append_assoc, ← propagateAll_append,
      take_append_drop]
  have hacl : rq.toLeaf.propagated (rq.toContainer.destination dest length src) =
      rq.toLeaf.propagateAll (es.take c) := by
    rw [propagated, hentries]
  -- what is missing takes no room, so that it is the tail alone
  have hdrop : rq.toLeaf.propagateAll (es.drop c) = [] := by
    refine eq_nil_iff_forall_not_mem.2 fun x hx => ?_
    have hpos := size_pos_of_mem_propagateAll
      (fun e he => hstored e (mem_of_mem_drop he)) hx
    have hle := aceFormat.size_le_total hx
    rw [neededLength, neededLength, hacl, hleaf, RecordFormat.total_append,
      RecordFormat.total_append] at hlen
    rw [aceFormat_size] at hle
    omega
  rw [hacl, hleaf, hdrop, nil_append, length_append] at hcount
  omega

/-- It is only then: the second call asserts that it has been given an ACL. -/
theorem of_leafTransparent (h : LeafTransparent rq src) :
    rq.toContainer.Accepts src ∧ (∀ p ∈ aces src, aceSizeAt src p % 4 = 0) ∧
      rq.toContainer.LastHasBody src (aces src) := by
  obtain ⟨n, acl, ⟨n', acl'⟩, hfirst, hsecond, hdirect⟩ :=
    h (fun _ => 0) (fun _ => 0) _ _ le_rfl le_rfl
  have ha := (accepts_of_sepPropagateAcl hfirst).2
  have hleaf := (accepts_of_sepPropagateAcl hdirect).2
  obtain ⟨hvalid, hacl⟩ := accepts_of_sepPropagateAcl hsecond
  rw [sepPropagateAcl_eq hv ha] at hfirst
  rw [sepPropagateAcl_eq hvalid hacl] at hsecond
  rw [sepPropagateAcl_eq hv hleaf] at hdirect
  simp only [Except.ok.injEq, Prod.mk.injEq] at hfirst hsecond hdirect
  obtain ⟨-, -, rfl⟩ := hfirst
  obtain ⟨-, hlen, hmem⟩ := hsecond
  obtain ⟨-, hlen', hmem'⟩ := hdirect
  have h8 := rq.toLeaf.eight_le_neededLength src
  have hcount := (congrArg aceCount hmem).trans (congrArg aceCount hmem').symm
  rw [aceCount_destination h8, aceCount_destination h8] at hcount
  refine ⟨ha, ?_, lastHasBody_of_transparent hv howner hgroup hneeded hnp le_rfl ha hvalid
    (hlen.trans hlen'.symm) hcount⟩
  have hsize := hacl.size_mod
  rw [aclSize_destination (rq.toContainer.eight_le_neededLength src), neededLength] at hsize
  refine size_mod_of_dvd_total _ _ (fun q hq => validAce_of_mem_aces hv hq) ha.aces ?_
  change 4 ∣ aceFormat.total (rq.toContainer.propagated src)
  omega

end Transparent

/-- **Inheritance through a container is transparent to objects** exactly when the source passes
the assertions, its entries have whole words, and the last of those that the container inherits is
more than a header. -/
theorem leafTransparent_iff (rq : PropagateRequest) (src : Mem) (hv : rtlValidAcl src = true)
    (howner : validSid rq.owner = true) (hgroup : validSid rq.group = true)
    (hnp : ∀ p ∈ aces src, aceFlagsAt src p &&& noPropagateInheritAce = 0)
    (hneeded : rq.toContainer.neededLength src < 0x10000) :
    LeafTransparent rq src ↔
      rq.toContainer.Accepts src ∧ (∀ p ∈ aces src, aceSizeAt src p % 4 = 0) ∧
        rq.toContainer.LastHasBody src (aces src) := by
  constructor
  · exact of_leafTransparent hv howner hgroup hneeded hnp
  · rintro ⟨ha, hmod, hlast⟩
    exact leafTransparent_of hv howner hgroup hneeded hnp ha hmod hlast

/-- The object in a directory with a thousand entries for its creator. -/
theorem leafTransparent_creatorAcl :
    rtlValidAcl (creatorAcl 1000) = true ∧ LeafTransparent worldRequest (creatorAcl 1000) := by
  have hn : 1000 ≤ 3276 := by norm_num
  have hv := rtlValidAcl_creatorAcl hn
  have hnp : ∀ p ∈ aces (creatorAcl 1000),
      aceFlagsAt (creatorAcl 1000) p &&& noPropagateInheritAce = 0 := by
    intro p hp
    have hread := readAce_of_mem_aces_creatorAcl hn hp
    rw [readAce] at hread
    split at hread
    · cases hread
    · rw [(KnownAce.mk.inj (AceEntry.known.inj hread)).2.1]
      decide
  have hneeded : worldRequest.toContainer.neededLength (creatorAcl 1000) < 0x10000 := by
    rw [show worldRequest.toContainer = worldRequest from rfl, neededLength_creatorAcl hn]
    norm_num
  refine ⟨hv, (leafTransparent_iff worldRequest (creatorAcl 1000) hv (by decide) (by decide) hnp
    hneeded).2 ⟨accepts_creatorAcl hn, fun p hp => ?_, lastHasBody_creatorAcl hn⟩⟩
  rw [← size_readAce, readAce_of_mem_aces_creatorAcl hn hp, creatorAce_eq]
  decide

/-- An ACL with one entry, of the compound type and of no bytes at all. -/
def emptyAceAcl : Mem := viewOf [2, 0, 16, 0, 1, 0, 0, 0, 4]

/-- The entry of no bytes is valid in the source. The list of the directory has its count and ends
before it, so that nothing can be inherited from it. -/
theorem propagate_not_transparent :
    rtlValidAcl emptyAceAcl = true ∧ worldRequest.toContainer.Accepts emptyAceAcl ∧
      (∃ acl, sepPropagateAcl worldRequest.toContainer (fun _ => 0) 8 emptyAceAcl =
          .ok (.success, 8, acl) ∧ aceCount acl = 1 ∧ aclSize acl = 8 ∧
        sepPropagateAcl worldRequest.toLeaf (fun _ => 0) 8 acl = .error .assertion) ∧
      ¬LeafTransparent worldRequest emptyAceAcl := by
  have hv : rtlValidAcl emptyAceAcl = true := by with_unfolding_all decide
  have haces : aces emptyAceAcl = [8] := by with_unfolding_all decide
  have ha : worldRequest.toContainer.Accepts emptyAceAcl := by
    refine ⟨by with_unfolding_all decide, by decide, by decide +kernel, fun p hp => ?_⟩
    rw [haces, mem_singleton] at hp
    subst hp
    exact ⟨by norm_num, fun h => absurd h (by decide)⟩
  have hneeded : worldRequest.toContainer.neededLength emptyAceAcl = 8 := by with_unfolding_all decide
  refine ⟨hv, ha, ⟨worldRequest.toContainer.destination (fun _ => 0) 8 emptyAceAcl, ?_, ?_, ?_, ?_⟩,
    fun h => ?_⟩
  · rw [sepPropagateAcl_eq hv ha, hneeded]
    rfl
  · with_unfolding_all decide
  · with_unfolding_all decide
  · rw [sepPropagateAcl, assert, if_neg (by with_unfolding_all decide)]
    rfl
  · have hnp : ∀ p ∈ aces emptyAceAcl,
        aceFlagsAt emptyAceAcl p &&& noPropagateInheritAce = 0 := by
      with_unfolding_all decide
    obtain ⟨-, -, hlast⟩ := of_leafTransparent hv (by decide) (by decide) (by omega) hnp h
    have h8 : (8 : ℕ) ∈
        ((aces emptyAceAcl).filter (worldRequest.toContainer.goes emptyAceAcl)).getLast? := by
      with_unfolding_all decide
    have hsize : aceSizeAt emptyAceAcl 8 = 0 := by with_unfolding_all decide
    have := hlast 8 h8
    omega

end Windivs

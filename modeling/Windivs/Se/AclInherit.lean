import Windivs.Se.AclEntries

/-!
# What inheritance does to a list of entries

The abstract side of `SepPropagateAcl`: a list of entries becomes the list of what its
entries become (`Windivs.PropagateRequest.propagate`), and inheritance by an object through
a container is inheritance by the object (`Windivs.PropagateRequest.propagate_toLeaf_toContainer`).
An entry for containers that inheritance changes becomes two, and only the second of them,
which is the source entry again, goes further.

`Windivs.sepPropagateAcl_eq` connects the two sides: when no assertion fails, the function
lays the list out in the destination, as far as it fits, and reports the room it takes. No
assertion fails exactly for the sources that `Windivs.PropagateRequest.Accepts` describes
(`Windivs.accepts_of_sepPropagateAcl`).
-/

namespace Windivs

open List PropagateState

variable {defaultAcl explicitAcl parentAcl : Option Mem}

variable {acl null : Mem} {p : ℕ} {r : SelectedAcl}

/-! ### What becomes of an entry -/

/-- `SeCreatorOwnerSid` or `SeCreatorGroupSid`. -/
def IsCreator (sid : List UInt8) : Prop :=
  sid = sidValue seCreatorOwnerSid ∨ sid = sidValue seCreatorGroupSid

instance (sid : List UInt8) : Decidable (IsCreator sid) :=
  inferInstanceAs (Decidable (_ ∨ _))

namespace PropagateRequest

variable (rq : PropagateRequest)

/-- The identifier that an inherited entry gets on the new object. -/
def heirSid (sid : List UInt8) : List UInt8 :=
  if sid = sidValue seCreatorOwnerSid then sidValue rq.owner
  else if sid = sidValue seCreatorGroupSid then sidValue rq.group
  else sid

/-- The entry as it takes effect on an object that inherits it. -/
def effectiveAce (a : KnownAce) (flags : BitVec 8) : KnownAce :=
  { a with
    aceFlags := flags
    aceSize := 8 + (rq.heirSid a.sid).length
    mask := rq.effectiveMask a.mask
    sid := rq.heirSid a.sid }

/-- The entries that a known entry becomes. -/
def propagateKnown (a : KnownAce) : List KnownAce :=
  match sepShouldPropagateAce a.aceFlags rq.isInherited rq.isDirectoryObject with
  | none => []
  | some flags =>
    if flags &&& inheritOnlyAce ≠ 0 then [{ a with aceFlags := flags }]
    else if rq.isInherited = false then
      [{ a with aceFlags := flags, mask := rq.effectiveMask a.mask }]
    else if rq.isDirectoryObject = true ∧ flags &&& containerInheritAce ≠ 0 ∧
        (rq.effectiveMask a.mask ≠ a.mask ∨ IsCreator a.sid) then
      [rq.effectiveAce a (flags &&& ~~~validInheritFlags),
        { a with aceFlags := flags ||| inheritOnlyAce }]
    else [rq.effectiveAce a flags]

/-- The entries that an entry becomes. -/
def propagate : AceEntry → List AceEntry
  | .known a => (rq.propagateKnown a).map .known
  | .other bytes => [.other bytes]

/-- Inheritance by an object in the container. -/
def toLeaf : PropagateRequest := { rq with isInherited := true, isDirectoryObject := false }

/-- Inheritance by a container in the container. -/
def toContainer : PropagateRequest := { rq with isInherited := true, isDirectoryObject := true }

theorem heirSid_of_not_creator {sid : List UInt8} (h : ¬IsCreator sid) : rq.heirSid sid = sid := by
  rw [heirSid, if_neg fun h' => h (.inl h'), if_neg fun h' => h (.inr h')]

@[simp] theorem aceFlags_effectiveAce (a : KnownAce) (flags : BitVec 8) :
    (rq.effectiveAce a flags).aceFlags = flags := rfl

theorem propagateKnown_toLeaf (a : KnownAce) :
    rq.toLeaf.propagateKnown a =
      if a.aceFlags &&& objectInheritAce ≠ 0 then
        [rq.effectiveAce a (a.aceFlags &&& ~~~validInheritFlags)]
      else [] := by
  have heff : a.aceFlags &&& ~~~validInheritFlags &&& inheritOnlyAce = 0 := by
    generalize a.aceFlags = f
    revert f
    decide
  by_cases h : a.aceFlags &&& objectInheritAce ≠ 0
  · simp only [propagateKnown, sepShouldPropagateAce, toLeaf, Bool.not_true, Bool.false_eq_true,
      if_false, Bool.not_false, if_true, if_pos h, heff]
    rfl
  · simp only [propagateKnown, sepShouldPropagateAce, toLeaf, Bool.not_true, Bool.false_eq_true,
      if_false, Bool.not_false, if_true, if_neg h]

/-- The flags with which a container inherits an entry for containers. -/
def containerFlags (f : BitVec 8) : BitVec 8 :=
  containerInheritAce ||| (f &&& objectInheritAce) ||| (f &&& ~~~validInheritFlags)

theorem propagateKnown_toContainer {a : KnownAce} (hnp : a.aceFlags &&& noPropagateInheritAce = 0) :
    rq.toContainer.propagateKnown a =
      if a.aceFlags &&& containerInheritAce ≠ 0 then
        if rq.effectiveMask a.mask ≠ a.mask ∨ IsCreator a.sid then
          [rq.effectiveAce a (containerFlags a.aceFlags &&& ~~~validInheritFlags),
            { a with aceFlags := containerFlags a.aceFlags ||| inheritOnlyAce }]
        else [rq.effectiveAce a (containerFlags a.aceFlags)]
      else if a.aceFlags &&& objectInheritAce ≠ 0 then
        [{ a with aceFlags := inheritOnlyAce ||| objectInheritAce |||
            (a.aceFlags &&& ~~~validInheritFlags) }]
      else [] := by
  have hflags : ∀ f : BitVec 8, containerFlags f &&& inheritOnlyAce = 0 ∧
      containerFlags f &&& containerInheritAce ≠ 0 ∧
      (inheritOnlyAce ||| objectInheritAce ||| (f &&& ~~~validInheritFlags)) &&&
        inheritOnlyAce ≠ 0 := by
    decide
  obtain ⟨heff, hci, hio⟩ := hflags a.aceFlags
  have hshould : sepShouldPropagateAce a.aceFlags true true =
      if a.aceFlags &&& containerInheritAce ≠ 0 then some (containerFlags a.aceFlags)
      else if a.aceFlags &&& objectInheritAce ≠ 0 then
        some (inheritOnlyAce ||| objectInheritAce ||| (a.aceFlags &&& ~~~validInheritFlags))
      else none := by
    rw [sepShouldPropagateAce, if_neg (not_not.2 hnp)]
    rfl
  change (match sepShouldPropagateAce a.aceFlags true true with | none => _ | some flags => _) = _
  rw [hshould]
  by_cases hc : a.aceFlags &&& containerInheritAce ≠ 0
  · simp only [if_pos hc, heff, ne_eq, hci, not_false_eq_true, true_and, toContainer]
    rfl
  · by_cases ho : a.aceFlags &&& objectInheritAce ≠ 0
    · simp only [if_neg hc, if_pos ho, hio, ne_eq, not_false_eq_true, if_true]
    · simp only [if_neg hc, if_neg ho]

/-- **Inheritance through a container is transparent**, entry by entry. -/
theorem propagate_toLeaf_toContainer {e : AceEntry}
    (h : ∀ a, e = .known a → a.aceFlags &&& noPropagateInheritAce = 0) :
    (rq.toContainer.propagate e).flatMap rq.toLeaf.propagate = rq.toLeaf.propagate e := by
  rcases e with a | bytes
  · have hflags : ∀ f : BitVec 8,
        containerFlags f &&& ~~~validInheritFlags &&& objectInheritAce = 0 ∧
        (containerFlags f ||| inheritOnlyAce) &&& objectInheritAce = f &&& objectInheritAce ∧
        (containerFlags f ||| inheritOnlyAce) &&& ~~~validInheritFlags =
          f &&& ~~~validInheritFlags ∧
        containerFlags f &&& objectInheritAce = f &&& objectInheritAce ∧
        containerFlags f &&& ~~~validInheritFlags = f &&& ~~~validInheritFlags ∧
        (inheritOnlyAce ||| objectInheritAce ||| (f &&& ~~~validInheritFlags)) &&&
          objectInheritAce ≠ 0 ∧
        (inheritOnlyAce ||| objectInheritAce ||| (f &&& ~~~validInheritFlags)) &&&
          ~~~validInheritFlags = f &&& ~~~validInheritFlags := by
      decide
    obtain ⟨hfirst, hsecond, hkeep, hplain, hplain', hio, hio'⟩ := hflags a.aceFlags
    rw [propagate, propagate, rq.propagateKnown_toContainer (h a rfl), flatMap_map]
    by_cases hc : a.aceFlags &&& containerInheritAce ≠ 0
    · rw [if_pos hc]
      by_cases htwo : rq.effectiveMask a.mask ≠ a.mask ∨ IsCreator a.sid
      · -- the first of the two entries goes no further; the second is as the source was
        rw [if_pos htwo]
        simp only [flatMap_cons, flatMap_nil, propagate, propagateKnown_toLeaf,
          aceFlags_effectiveAce, hfirst, hsecond, hkeep, ne_eq, not_true_eq_false, if_false,
          map_nil, nil_append, append_nil]
        rfl
      · obtain ⟨hmask, hsid⟩ := not_or.1 htwo
        have hmask := not_not.1 hmask
        rw [if_neg htwo]
        simp only [flatMap_cons, flatMap_nil, propagate, propagateKnown_toLeaf,
          hplain, hplain', append_nil, effectiveAce, rq.heirSid_of_not_creator hsid, hmask]
    · rw [if_neg hc]
      by_cases ho : a.aceFlags &&& objectInheritAce ≠ 0
      · rw [if_pos ho]
        simp only [flatMap_cons, flatMap_nil, propagate, propagateKnown_toLeaf,
          if_pos ho, if_pos hio, hio', append_nil]
        rfl
      · rw [if_neg ho, flatMap_nil, propagateKnown_toLeaf, if_neg ho, map_nil]
  · rfl

end PropagateRequest

/-! ### The writing pass lays the list out -/

namespace PropagateState

variable (s : PropagateState) (aclLength : ℕ)

/-- What is done for one entry of the destination. -/
def putEntry (e : AceEntry) : PropagateState := s.put aclLength e.size e.write

/-- What is done for a list of entries. -/
def putAll (es : List AceEntry) : PropagateState :=
  es.foldl (fun s e => s.putEntry aclLength e) s

@[simp] theorem putAll_nil : s.putAll aclLength [] = s := rfl

@[simp] theorem putAll_cons (e : AceEntry) (es : List AceEntry) :
    s.putAll aclLength (e :: es) = (s.putEntry aclLength e).putAll aclLength es := rfl

theorem putAll_append (es es' : List AceEntry) :
    s.putAll aclLength (es ++ es') = (s.putAll aclLength es).putAll aclLength es' :=
  foldl_append

section

variable (es : List AceEntry)

@[simp] theorem currentSource_putAll : (s.putAll aclLength es).currentSource = s.currentSource := by
  induction es generalizing s with
  | nil => rfl
  | cons e es ih => exact ih _

@[simp] theorem currentDest_putAll :
    (s.putAll aclLength es).currentDest = s.currentDest + aceFormat.total es := by
  induction es generalizing s with
  | nil => rfl
  | cons e es ih =>
    rw [putAll_cons, ih, RecordFormat.total_cons, ← Nat.add_assoc]
    rfl

@[simp] theorem written_putAll :
    (s.putAll aclLength es).written = s.written + aceFormat.total es := by
  induction es generalizing s with
  | nil => rfl
  | cons e es ih =>
    rw [putAll_cons, ih, RecordFormat.total_cons, ← Nat.add_assoc]
    rfl

@[simp] theorem aceCount_putAll : (s.putAll aclLength es).aceCount = s.aceCount + es.length := by
  induction es generalizing s with
  | nil => rfl
  | cons e es ih =>
    rw [putAll_cons, ih, length_cons, Nat.add_comm es.length, ← Nat.add_assoc]
    rfl

end

/-- `CurrentDest` runs along with `Written`, so that what is written is the list as it is laid
out. -/
theorem dest_putAll (hs : s.currentDest = s.written) (es : List AceEntry) :
    (s.putAll aclLength es).dest = aceFormat.writeAll aclLength es s.dest s.written := by
  induction es generalizing s with
  | nil => rfl
  | cons e es ih =>
    rw [putAll_cons, ih _ (by simp only [putEntry, put, hs])]
    simp only [putEntry, put, hs]
    rfl

/-- Going on in the source changes nothing in the destination. -/
theorem putAll_nextSource (k : ℕ) (es : List AceEntry) :
    (s.nextSource k).putAll aclLength es = (s.putAll aclLength es).nextSource k := by
  induction es generalizing s with
  | nil => rfl
  | cons e es ih => exact ih (s.putEntry aclLength e)

@[simp] theorem currentSource_nextSource (k : ℕ) :
    (s.nextSource k).currentSource = s.currentSource + k := rfl

@[simp] theorem currentDest_nextSource (k : ℕ) : (s.nextSource k).currentDest = s.currentDest := rfl

@[simp] theorem written_nextSource (k : ℕ) : (s.nextSource k).written = s.written := rfl

@[simp] theorem dest_nextSource (k : ℕ) : (s.nextSource k).dest = s.dest := rfl

@[simp] theorem aceCount_nextSource (k : ℕ) : (s.nextSource k).aceCount = s.aceCount := rfl

theorem nextSource_nextSource (k l : ℕ) : (s.nextSource k).nextSource l = s.nextSource (k + l) := by
  simp only [nextSource, Nat.add_assoc]

end PropagateState

/-- Only the bytes of the identifier itself are written. -/
theorem writeAce_viewOf_sidValue (m : Mem) (p : ℕ) (type : UInt8) (flags : BitVec 8) (size : ℕ)
    (mask : AccessMask) (v : View) :
    writeAce m p type flags size mask (viewOf (sidValue v)) =
      writeAce m p type flags size mask v := by
  rw [writeAce, rtlCopySid, rtlLengthSid_viewOf_sidValue]
  refine if_congr Iff.rfl rfl (funext fun b => ?_)
  rw [Mem.copy, Mem.copy]
  by_cases hb : p + 8 ≤ b ∧ b < p + 8 + rtlLengthSid v
  · rw [if_pos hb, if_pos hb, viewOf_sidValue (by omega)]
  · rw [if_neg hb, if_neg hb]

/-- The entry with the identifier behind a pointer is written through the pointer. -/
theorem write_known_sidValue (type : UInt8) (flags : BitVec 8) (size : ℕ) (mask : AccessMask)
    (v : View) : (AceEntry.known ⟨type, flags, size, mask, sidValue v⟩).write =
      fun m p => writeAce m p type flags size mask v :=
  funext fun m => funext fun p => writeAce_viewOf_sidValue m p type flags size mask v

namespace PropagateRequest

variable (rq : PropagateRequest)

theorem sidValue_effectiveSid (v : View) :
    sidValue (rq.effectiveSid v) = rq.heirSid (sidValue v) := by
  rw [effectiveSid, heirSid]
  simp only [rtlEqualSid_iff, apply_ite sidValue]

theorem isCreatorSid_iff (v : View) : isCreatorSid v = true ↔ IsCreator (sidValue v) := by
  rw [isCreatorSid, Bool.or_eq_true, rtlEqualSid_iff, rtlEqualSid_iff, IsCreator]

variable {rq} {aclLength : ℕ} {src : Mem} {s : PropagateState}

/-- A known entry that goes further is written as what it becomes. -/
theorem writeKnownAce_eq {flags : BitVec 8}
    (hknown : ¬accessMaxMsV2AceType < aceTypeAt src s.currentSource)
    (hflags : sepShouldPropagateAce (aceFlagsAt src s.currentSource) rq.isInherited
      rq.isDirectoryObject = some flags) :
    rq.writeKnownAce aclLength src flags s =
      s.putAll aclLength (rq.propagate (readAce src s.currentSource)) := by
  rw [readAce, if_neg hknown, propagate, propagateKnown]
  simp only [hflags]
  by_cases heff : flags &&& inheritOnlyAce = 0
  · by_cases hinh : rq.isInherited = true
    · have hcreator := isCreatorSid_iff (aceSidAt src s.currentSource)
      simp only [writeKnownAce, heff, hinh, beq_self_eq_true, Bool.true_and, if_true, ne_eq,
        not_true_eq_false, if_false, Bool.true_eq_false, effectiveAce, ← sidValue_effectiveSid,
        length_sidValue, Bool.and_eq_true, Bool.or_eq_true, bne_iff_ne, hcreator, and_assoc]
      split <;> simp only [map_cons, map_nil, putAll_cons,
        putAll_nil, putEntry, AceEntry.size, write_known_sidValue]
    · simp only [writeKnownAce, heff, hinh, beq_self_eq_true, Bool.and_false, Bool.false_and,
        Bool.false_eq_true, if_true, if_false, ne_eq, not_true_eq_false, map_cons,
        map_nil, putAll_cons, putAll_nil,
        putEntry, AceEntry.size, write_known_sidValue]
  · have hbeq : (flags &&& inheritOnlyAce == 0) = false := beq_false_of_ne heff
    simp only [writeKnownAce, heff, hbeq, Bool.false_and, Bool.false_eq_true, if_false, ne_eq,
      not_false_eq_true, if_true, map_cons, map_nil, putAll_cons,
      putAll_nil, putEntry, AceEntry.size, write_known_sidValue]

/-- The entries that a list of entries becomes. -/
def propagateAll (rq : PropagateRequest) (es : List AceEntry) : List AceEntry :=
  es.flatMap rq.propagate

theorem propagateAll_append (rq : PropagateRequest) (es es' : List AceEntry) :
    rq.propagateAll (es ++ es') = rq.propagateAll es ++ rq.propagateAll es' :=
  flatMap_append

/-- Other entries go everywhere as they are. -/
theorem propagateAll_of_other (rq : PropagateRequest) {es : List AceEntry}
    (h : ∀ e ∈ es, ∃ bytes, e = .other bytes) : rq.propagateAll es = es := by
  induction es with
  | nil => rfl
  | cons e es ih =>
    obtain ⟨bytes, rfl⟩ := h e (mem_cons_self ..)
    have ih := ih fun x hx => h x (mem_cons_of_mem _ hx)
    rw [propagateAll] at ih
    rw [propagateAll, flatMap_cons, ih]
    rfl

/-- **What an entry of the result can be**: of the type of the source entry, with its size and
identifier or with the heir's. -/
theorem mem_propagateKnown {a a' : KnownAce} (h : a' ∈ rq.propagateKnown a) :
    (sepShouldPropagateAce a.aceFlags rq.isInherited rq.isDirectoryObject).isSome = true ∧
      a'.aceType = a.aceType ∧
      (a'.aceSize = a.aceSize ∧ a'.sid = a.sid ∨
        a'.aceSize = 8 + (rq.heirSid a.sid).length ∧ a'.sid = rq.heirSid a.sid) := by
  rw [propagateKnown] at h
  split at h
  · cases h
  · rename_i flags hflags
    refine ⟨by rw [hflags]; rfl, ?_⟩
    split_ifs at h
    · rw [mem_singleton] at h
      subst h
      exact ⟨rfl, .inl ⟨rfl, rfl⟩⟩
    · rw [mem_singleton] at h
      subst h
      exact ⟨rfl, .inl ⟨rfl, rfl⟩⟩
    · rw [mem_cons, mem_singleton] at h
      rcases h with rfl | rfl
      · exact ⟨rfl, .inr ⟨rfl, rfl⟩⟩
      · exact ⟨rfl, .inl ⟨rfl, rfl⟩⟩
    · rw [mem_singleton] at h
      subst h
      exact ⟨rfl, .inr ⟨rfl, rfl⟩⟩

theorem length_heirSid_mod (rq : PropagateRequest) (v : View) :
    (rq.heirSid (sidValue v)).length % 4 = 0 := by
  rw [← sidValue_effectiveSid, length_sidValue, rtlLengthSid_mod]

/-- An entry of aligned size becomes entries of aligned size. -/
theorem four_dvd_total_propagate (h : aceSizeAt src p % 4 = 0) :
    4 ∣ aceFormat.total (rq.propagate (readAce src p)) := by
  refine dvd_sum fun n hn => ?_
  obtain ⟨e, he, rfl⟩ := mem_map.1 hn
  change 4 ∣ e.size
  by_cases hother : accessMaxMsV2AceType < aceTypeAt src p
  · rw [readAce, if_pos hother, propagate, mem_singleton] at he
    subst he
    rw [AceEntry.size, Mem.bytes, length_map, length_range]
    omega
  · rw [readAce, if_neg hother] at he
    obtain ⟨a, ha, rfl⟩ := mem_map.1 he
    have hheir := length_heirSid_mod rq (aceSidAt src p)
    obtain ⟨-, -, ⟨hsize, -⟩ | ⟨hsize, -⟩⟩ := mem_propagateKnown ha <;>
    · rw [AceEntry.size, hsize]
      dsimp only
      omega

/-- Other entries are copied byte by byte. -/
theorem write_other_bytes (m : Mem) (p n : ℕ) :
    (AceEntry.other (m.bytes p n)).write = fun m' d => m'.copy d m p n := by
  refine funext fun m' => funext fun d => funext fun b => ?_
  have hlen : (m.bytes p n).length = n := by simp [Mem.bytes]
  simp only [AceEntry.write, Mem.copy, hlen]
  by_cases hb : d ≤ b ∧ b < d + n
  · rw [if_pos hb, if_pos hb, Nat.zero_add, viewOf_bytes (by omega)]
  · rw [if_neg hb, if_neg hb]

/-- What `SepPropagateAcl` asserts of the entry at `p`. -/
structure AcceptsAce (rq : PropagateRequest) (src : Mem) (p : ℕ) : Prop where
  aligned : p % 4 = 0
  sid : aceTypeAt src p ≤ accessMaxMsV2AceType →
    (sepShouldPropagateAce (aceFlagsAt src p) rq.isInherited rq.isDirectoryObject).isSome = true →
    8 + rtlLengthSid (aceSidAt src p) ≤ aceSizeAt src p

/-- A valid known entry has room for its fields but the last four bytes. -/
theorem knownAce_of_validAce (hv : validAce src p = true)
    (hknown : aceTypeAt src p ≤ accessMaxMsV2AceType) :
    aceSizeAt src p % 4 = 0 ∧ validSid (aceSidAt src p) = true ∧
      4 + rtlLengthSid (aceSidAt src p) ≤ aceSizeAt src p := by
  rw [validAce, Bool.and_eq_true] at hv
  have hbody := hv.2
  simp only [validAceBody, if_pos hknown, Bool.and_eq_true, decide_eq_true_eq] at hbody
  exact ⟨hbody.1.1.1, hbody.1.2, hbody.2⟩

theorem type_eq_of_le {t : UInt8} (h : t ≤ accessMaxMsV2AceType) :
    t = 0 ∨ t = 1 ∨ t = 2 ∨ t = 3 := by
  have : t.toNat ≤ 3 := h
  simp only [← UInt8.toNat_inj]
  change t.toNat = 0 ∨ t.toNat = 1 ∨ t.toNat = 2 ∨ t.toNat = 3
  omega

/-- **A turn of the loop**: the entry is replaced by what it becomes. -/
theorem propagateAce_eq (hv : validAce src s.currentSource = true)
    (ha : rq.AcceptsAce src s.currentSource) (hd : s.currentDest % 4 = 0) :
    rq.propagateAce aclLength src s =
      .ok ((s.putAll aclLength (rq.propagate (readAce src s.currentSource))).nextSource
        (aceSizeAt src s.currentSource)) := by
  rw [propagateAce, assert_bind hd, assert_bind ha.aligned]
  by_cases hother : accessMaxMsV2AceType < aceTypeAt src s.currentSource
  · rw [if_pos hother, readAce, if_pos hother]
    simp only [propagate, putAll_cons, putAll_nil, putEntry, write_other_bytes]
    simp only [AceEntry.size, Mem.bytes, length_map, length_range]
  · have hknown := UInt8.not_lt.1 hother
    obtain ⟨hmod, -, hroom⟩ := knownAce_of_validAce hv hknown
    have h8 := eight_le_rtlLengthSid (aceSidAt src s.currentSource)
    rw [if_neg hother, assert_bind (type_eq_of_le hknown), assert_bind hmod, assert_bind (by omega)]
    cases hflags : sepShouldPropagateAce (aceFlagsAt src s.currentSource) rq.isInherited
      rq.isDirectoryObject with
    | none =>
      rw [readAce, if_neg hother]
      simp only [propagate, propagateKnown, hflags]
      rfl
    | some flags =>
      rw [← writeKnownAce_eq hother hflags]
      exact assert_bind (ha.sid hknown (by rw [hflags]; rfl)) _

/-- A turn that comes back has passed the assertions. -/
theorem acceptsAce_of_propagateAce {s' : PropagateState}
    (h : rq.propagateAce aclLength src s = .ok s') : rq.AcceptsAce src s.currentSource := by
  obtain ⟨-, h⟩ := of_assert_bind h
  obtain ⟨haligned, h⟩ := of_assert_bind h
  refine ⟨haligned, fun hknown hsome => ?_⟩
  rw [if_neg (UInt8.not_lt.2 hknown)] at h
  obtain ⟨-, h⟩ := of_assert_bind h
  obtain ⟨-, h⟩ := of_assert_bind h
  obtain ⟨-, h⟩ := of_assert_bind h
  obtain ⟨flags, hflags⟩ := Option.isSome_iff_exists.1 hsome
  rw [hflags] at h
  exact (of_assert_bind h).1

/-- **The loop**: every entry is replaced by what it becomes. The destination stays aligned as
long as the next entry of the source is. -/
theorem propagateLoop_eq (n : ℕ) (s : PropagateState)
    (hv : ∀ p ∈ acePlaces src n s.currentSource, validAce src p = true)
    (ha : ∀ p ∈ acePlaces src n s.currentSource, rq.AcceptsAce src p)
    (hd : n ≠ 0 → s.currentDest % 4 = 0) :
    ∃ k, rq.propagateLoop aclLength src n s =
      .ok ((s.putAll aclLength (rq.propagateAll
        ((acePlaces src n s.currentSource).map (readAce src)))).nextSource k) := by
  induction n generalizing s with
  | zero => exact ⟨0, rfl⟩
  | succ n ih =>
    have hmem : s.currentSource ∈ acePlaces src (n + 1) s.currentSource := mem_cons_self ..
    have hnext : ∀ p ∈ acePlaces src n (s.currentSource + aceSizeAt src s.currentSource),
        p ∈ acePlaces src (n + 1) s.currentSource := fun p hp => mem_cons_of_mem _ hp
    obtain ⟨k, hk⟩ := ih
      ((s.putAll aclLength (rq.propagate (readAce src s.currentSource))).nextSource
        (aceSizeAt src s.currentSource)) (fun p hp => hv p (hnext p (by simpa using hp)))
      (fun p hp => ha p (hnext p (by simpa using hp))) fun hn => by
        -- another entry follows, and begins at an aligned place
        obtain ⟨n, rfl⟩ := Nat.exists_eq_succ_of_ne_zero hn
        have hp := (ha _ hmem).aligned
        have hp' := (ha _ (hnext _ (mem_cons_self ..))).aligned
        have hdvd : 4 ∣ aceFormat.total (rq.propagate (readAce src s.currentSource)) :=
          four_dvd_total_propagate (by omega)
        rw [currentDest_nextSource, currentDest_putAll]
        omega
    refine ⟨aceSizeAt src s.currentSource + k, ?_⟩
    rw [propagateLoop, propagateAce_eq (hv _ hmem) (ha _ hmem) (hd (Nat.succ_ne_zero n))]
    refine Eq.trans hk ?_
    rw [putAll_nextSource, nextSource_nextSource, ← putAll_append, currentSource_nextSource,
      currentSource_putAll]
    rfl

/-- A loop that comes back has passed the assertions of every turn. -/
theorem acceptsAce_of_propagateLoop {n : ℕ} {s s' : PropagateState}
    (hv : ∀ p ∈ acePlaces src n s.currentSource, validAce src p = true)
    (h : rq.propagateLoop aclLength src n s = .ok s') :
    ∀ p ∈ acePlaces src n s.currentSource, rq.AcceptsAce src p := by
  induction n generalizing s with
  | zero => simp [acePlaces]
  | succ n ih =>
    obtain ⟨t, hturn, hloop⟩ := Run.bind_eq_ok.1 h
    have ha := acceptsAce_of_propagateAce hturn
    have hv0 := hv _ (mem_cons_self ..)
    obtain rfl := Except.ok.inj ((propagateAce_eq hv0 ha (of_assert_bind hturn).1).symm.trans hturn)
    intro p hp
    rcases mem_cons.1 hp with rfl | hp
    · exact ha
    · refine ih (fun q hq => hv q (mem_cons_of_mem _ (by simpa using hq))) hloop p ?_
      simpa using hp

/-- What `SepPropagateAcl` asserts of a source that `RtlValidAcl` accepts. -/
structure Accepts (rq : PropagateRequest) (src : Mem) : Prop where
  size_mod : aclSize src % 4 = 0
  sbz1 : aclSbz1 src = 0
  sbz2 : aclSbz2 src = 0
  aces : ∀ p ∈ aces src, rq.AcceptsAce src p

/-- The entries of the destination. -/
def propagated (rq : PropagateRequest) (src : Mem) : List AceEntry :=
  rq.propagateAll (aceEntries src)

/-- The room that the destination needs. -/
def neededLength (rq : PropagateRequest) (src : Mem) : ℕ :=
  8 + aceFormat.total (rq.propagated src)

/-- The destination before the last stores: the header of the source, and the entries as far as
they fit. -/
def laidOut (rq : PropagateRequest) (dest : Mem) (aclLength : ℕ) (src : Mem) : Mem :=
  aceFormat.writeAll aclLength (rq.propagated src)
    (if 8 ≤ aclLength then dest.copy 0 src 0 8 else dest) 8

/-- The destination: the list laid out under its own header. -/
def destination (rq : PropagateRequest) (dest : Mem) (aclLength : ℕ) (src : Mem) : Mem :=
  if 8 ≤ aclLength then
    ((rq.laidOut dest aclLength src).writeU16 4 (rq.propagated src).length).writeU16 2
      (rq.neededLength src)
  else rq.laidOut dest aclLength src

end PropagateRequest

theorem validAce_of_mem_aces (h : rtlValidAcl acl = true)
    (hp : p ∈ aces acl) : validAce acl p = true := by
  rw [rtlValidAcl, Bool.and_eq_true] at h
  exact all_eq_true.1 h.2 p hp

variable {rq : PropagateRequest} {src dest : Mem} {aclLength : ℕ}

/-- **`SepPropagateAcl` lays the propagated list out** in the destination, as far as it fits, and
reports the room the list needs. -/
theorem sepPropagateAcl_eq (hv : rtlValidAcl src = true) (ha : rq.Accepts src) :
    sepPropagateAcl rq dest aclLength src =
      .ok (if aclLength < rq.neededLength src then .bufferTooSmall else .success,
        rq.neededLength src, rq.destination dest aclLength src) := by
  rw [sepPropagateAcl, assert_bind hv, assert_bind ha.size_mod, assert_bind ha.sbz1,
    assert_bind ha.sbz2]
  generalize hs : (⟨if 8 ≤ aclLength then dest.copy 0 src 0 8 else dest, 8, 8, 8, 0⟩ :
    PropagateState) = s
  obtain ⟨k, hk⟩ : ∃ k, rq.propagateLoop aclLength src (aceCount src) s =
      .ok ((s.putAll aclLength (rq.propagated src)).nextSource k) := by
    subst hs
    exact PropagateRequest.propagateLoop_eq _ _ (fun p hp => validAce_of_mem_aces hv hp) ha.aces
      fun _ => by norm_num
  rw [hk]
  change Except.ok _ = _
  simp only [written_nextSource, dest_nextSource, aceCount_nextSource, written_putAll,
    aceCount_putAll]
  rw [dest_putAll _ _ (by rw [← hs])]
  subst hs
  simp only [Nat.zero_add]
  rfl

/-- A call that comes back has passed all assertions. -/
theorem accepts_of_sepPropagateAcl {r : PropagateStatus × ℕ × Mem}
    (h : sepPropagateAcl rq dest aclLength src = .ok r) :
    rtlValidAcl src = true ∧ rq.Accepts src := by
  obtain ⟨hv, h⟩ := of_assert_bind h
  obtain ⟨hsize, h⟩ := of_assert_bind h
  obtain ⟨hsbz1, h⟩ := of_assert_bind h
  obtain ⟨hsbz2, h⟩ := of_assert_bind h
  obtain ⟨s, hloop, -⟩ := Run.bind_eq_ok.1 h
  refine ⟨hv, hsize, hsbz1, hsbz2, ?_⟩
  have hplaces : ∀ p ∈ acePlaces src (aceCount src) 8, validAce src p = true :=
    fun p hp => validAce_of_mem_aces hv hp
  exact PropagateRequest.acceptsAce_of_propagateLoop hplaces hloop

/-- The sizing call: what comes back is the room needed. -/
theorem neededLength_of_sepPropagateAcl {r : PropagateStatus × ℕ × Mem}
    (h : sepPropagateAcl rq dest aclLength src = .ok r) :
    rtlValidAcl src = true ∧ rq.Accepts src ∧ r.2.1 = rq.neededLength src := by
  obtain ⟨hv, ha⟩ := accepts_of_sepPropagateAcl h
  refine ⟨hv, ha, ?_⟩
  rw [sepPropagateAcl_eq hv ha] at h
  rw [← Except.ok.inj h]

/-- What is handed out is an ACL with the length of a sizing call for it. -/
def SelectedAcl.Measured (rq : PropagateRequest) (null : Mem) (r : SelectedAcl) : Prop :=
  ∀ acl, r.acl = some acl → ∃ s,
    sepPropagateAcl { rq with isInherited := r.isInherited } null 0 acl = .ok s ∧
      r.aclLength = s.2.1

theorem measured_ownAcl {present : Bool} {acl : Option Mem}
    (h : ownAcl rq null present acl = .ok r) : r.Measured rq null := by
  intro acl' hacl
  rcases acl with _ | acl
  · obtain rfl := Except.ok.inj h
    cases hacl
  · obtain ⟨s, hs, h⟩ := Run.bind_eq_ok.1 h
    obtain rfl := Except.ok.inj (of_assert_bind h).2
    obtain rfl := Option.some.inj hacl
    exact ⟨s, hs, rfl⟩

theorem measured_sepSelectAcl {explicitPresent explicitDefaulted : Bool}
    (h : sepSelectAcl rq null explicitAcl explicitPresent explicitDefaulted parentAcl defaultAcl =
      .ok r) : r.Measured rq null := by
  -- without a parent, or with one that has nothing to inherit
  have hwithout : (if explicitPresent then ownAcl rq null true explicitAcl
      else ownAcl rq null defaultAcl.isSome defaultAcl) = .ok r → r.Measured rq null := by
    intro h
    split at h
    · exact measured_ownAcl h
    · exact measured_ownAcl h
  simp only [sepSelectAcl] at h
  split at h
  · exact measured_ownAcl h
  · rcases parentAcl with _ | parent
    · exact hwithout h
    · obtain ⟨s, hs, h⟩ := Run.bind_eq_ok.1 h
      have h := (of_assert_bind h).2
      split at h
      · obtain rfl := Except.ok.inj h
        intro acl hacl
        obtain rfl := Option.some.inj hacl
        exact ⟨s, hs, rfl⟩
      · exact hwithout h

/-- **What `SepSelectAcl` hands out is what the descriptor needs**: the call of `SepPropagateAcl`
that follows it, with the flag and the length it has set, succeeds. -/
theorem sepPropagateAcl_of_sepSelectAcl {explicitPresent explicitDefaulted : Bool}
    (h : sepSelectAcl rq null explicitAcl explicitPresent explicitDefaulted parentAcl defaultAcl =
      .ok r) (hacl : r.acl = some acl) (dest : Mem) :
    ∃ dest', sepPropagateAcl { rq with isInherited := r.isInherited } dest r.aclLength acl =
      .ok (.success, r.aclLength, dest') := by
  obtain ⟨s, hs, hlen⟩ := measured_sepSelectAcl h acl hacl
  obtain ⟨hv, ha, hneeded⟩ := neededLength_of_sepPropagateAcl hs
  rw [sepPropagateAcl_eq hv ha, hlen, hneeded, if_neg (lt_irrefl _)]
  exact ⟨_, rfl⟩

/-- An entry that gives the creator of an object all rights, inherited by containers and by
objects. -/
def creatorAce : List UInt8 := [0, 3, 20, 0, 0, 0, 0, 0x10, 1, 1, 0, 0, 0, 0, 0, 3, 0, 0, 0, 0]

/-- Inheritance by a directory of everyone, with the rights of files. -/
def worldRequest : PropagateRequest :=
  ⟨seWorldSid, seWorldSid, true, true, ⟨0x120089, 0x120116, 0x1200A0, 0x1F01FF⟩⟩

/-- The ACL of a parent with this entry. -/
def creatorParent : Mem := viewOf ([2, 0, 28, 0, 1, 0, 0, 0] ++ creatorAce)

/-- The ACL of a parent whose one entry is inherited as two. -/
theorem sepPropagateAcl_of_sepSelectAcl_parent : ∃ r,
    sepSelectAcl worldRequest (fun _ => 0) none false false (some creatorParent) none = .ok r ∧
    r.isInherited = true ∧ r.aclLength = 48 ∧
    ∃ dest', sepPropagateAcl { worldRequest with isInherited := r.isInherited } (fun _ => 0)
      r.aclLength creatorParent = .ok (.success, r.aclLength, dest') := by
  have hselect : sepSelectAcl worldRequest (fun _ => 0) none false false (some creatorParent) none =
      .ok ⟨some creatorParent, 48, true, true⟩ := by
    with_unfolding_all rfl
  exact ⟨_, hselect, rfl, rfl, sepPropagateAcl_of_sepSelectAcl hselect rfl _⟩

end Windivs

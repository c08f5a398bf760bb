import Windivs.Se.Verdict

/-!
# Object type lists in an access check

With an object type list, the object entries of a DACL are aimed at entries of the
list and write to their records. A result list (`UseResultList`) is a tree flattened
by levels, and what is aimed at an entry reaches everything below it
(`Windivs.getElem?_updateTree`); otherwise only the entry itself is touched.

`Windivs.entryRule` is the rule an entry of the DACL is for an entry of the list, and
in maximum mode each record is the accumulating sweep of its own rules
(`Windivs.maximumLoop_list`). Plain entries never reach a record; they are aimed at
the object itself.
-/

namespace Windivs

open Option

/-! ### The hierarchy of a list -/

/-- The level of an entry. -/
def levelAt (l : List ObjectTypeInternal) (i : ℕ) : ℕ := (l[i]?.map ObjectTypeInternal.level).getD 0

/-- Entry `j` is above entry `k`: it comes before it, and everything after it up to
`k` is on a deeper level. -/
def IsAncestor (l : List ObjectTypeInternal) (j k : ℕ) : Prop :=
  j < k ∧ ∀ i < k + 1, j < i → levelAt l j < levelAt l i

instance (l : List ObjectTypeInternal) (j k : ℕ) : Decidable (IsAncestor l j k) :=
  inferInstanceAs (Decidable (j < k ∧ ∀ i < k + 1, j < i → levelAt l j < levelAt l i))

section

variable (e : ObjectTypeInternal)

section

variable (l : List ObjectTypeInternal)

@[simp] theorem levelAt_cons_zero : levelAt (e :: l) 0 = e.level := rfl

@[simp] theorem levelAt_cons_succ (i : ℕ) : levelAt (e :: l) (i + 1) = levelAt l i := rfl

theorem isAncestor_zero_succ (k : ℕ) :
    IsAncestor (e :: l) 0 (k + 1) ↔ ∀ i < k + 1, e.level < levelAt l i := by
  rw [IsAncestor, Nat.forall_lt_succ_left]
  simp

theorem isAncestor_succ_succ (j k : ℕ) :
    IsAncestor (e :: l) (j + 1) (k + 1) ↔ IsAncestor l j k := by
  rw [IsAncestor, IsAncestor, Nat.forall_lt_succ_left]
  simp

end

end

section

variable (f : AccessCheckRights → AccessCheckRights) {ace : Ace} {l l' : List ObjectTypeInternal}

/-- The children reached from a level. -/
theorem getElem?_updateChildren (level : ℕ) (l : List ObjectTypeInternal) (k : ℕ) :
    (updateChildren f level l)[k]? =
      l[k]?.map fun e => if ∀ i < k + 1, level < levelAt l i then e.mapRights f else e := by
  induction l generalizing k with
  | nil => rfl
  | cons e l ih =>
    rw [updateChildren]
    by_cases hlevel : e.level ≤ level
    · have hno : ¬∀ i < k + 1, level < levelAt (e :: l) i :=
        fun h => absurd (h 0 (by omega)) (not_lt.mpr hlevel)
      simp only [if_pos hlevel, if_neg hno, map_id']
    · rw [if_neg hlevel]
      cases k with
      | zero => simp [not_le.mp hlevel]
      | succ k =>
        rw [List.getElem?_cons_succ, List.getElem?_cons_succ, ih]
        simp only [Nat.forall_lt_succ_left (n := k + 1), levelAt_cons_zero, levelAt_cons_succ,
          not_le.mp hlevel, true_and]

/-- **What is aimed at an entry reaches it and everything below it.** -/
theorem getElem?_updateTree (j : ℕ) (l : List ObjectTypeInternal) (k : ℕ) :
    (updateTree f j l)[k]? =
      l[k]?.map fun e => if j = k ∨ IsAncestor l j k then e.mapRights f else e := by
  induction l generalizing j k with
  | nil => cases j <;> rfl
  | cons e l ih =>
    cases j with
    | zero =>
      rw [updateTree]
      cases k with
      | zero => simp
      | succ k =>
        rw [List.getElem?_cons_succ, List.getElem?_cons_succ, getElem?_updateChildren]
        simp only [isAncestor_zero_succ, show ¬0 = k + 1 by omega, false_or]
    | succ j =>
      rw [updateTree]
      cases k with
      | zero => simp [IsAncestor]
      | succ k =>
        rw [List.getElem?_cons_succ, List.getElem?_cons_succ, ih]
        simp only [isAncestor_succ_succ, Nat.add_right_cancel_iff]

/-! ### What an entry of a DACL is aimed at -/

/-- The type of an object entry. -/
def AceType.isObject : AceType → Bool
  | .accessAllowedObject | .accessDeniedObject => true
  | _ => false

/-- An object entry is aimed at an entry of the list: the first one with the type,
and for a result list also those below it. -/
def Aims (useResultList : Bool) (l : List ObjectTypeInternal) (ace : Ace) (k : ℕ) : Prop :=
  ∃ j ∈ sepObjectTypeGuidInList l (sepGetObjectTypeGuidFromAce ace),
    j = k ∨ useResultList = true ∧ IsAncestor l j k

instance (useResultList : Bool) (l : List ObjectTypeInternal) (ace : Ace) (k : ℕ) :
    Decidable (Aims useResultList l ace k) :=
  inferInstanceAs (Decidable (∃ j, j ∈ sepObjectTypeGuidInList l (sepGetObjectTypeGuidFromAce ace) ∧
    (j = k ∨ useResultList = true ∧ IsAncestor l j k)))

/-- The rule an entry of the DACL is for an entry of the list. -/
def entryRule (c : AceContext) (l : List ObjectTypeInternal) (k : ℕ) (ace : Ace) :
    Option (Rule 32) :=
  if ace.aceType.isObject = true ∧ Aims c.useResultList l ace k then aceRule c ace else none

/-- **The verdict on a right for an entry of the list.** -/
def entryVerdict (c : AceContext) (l : List ObjectTypeInternal) (k : ℕ) (dacl : List Ace) (r : ℕ) :
    Option Effect :=
  verdict (dacl.filterMap (entryRule c l k)) r

/-- What a rule does to a record. -/
def ruleRights (r : Rule 32) : AccessCheckRights → AccessCheckRights :=
  match r.effect with
  | .allow => allowRights r.mask
  | .deny => denyRights r.mask

theorem decided_ruleRights (r : Rule 32) (x : AccessCheckRights) :
    (ruleRights r x).decided = accumulateRule x.decided r := by
  rcases r with ⟨_ | _, m⟩ <;> rfl

/-- What a list is, apart from its records. -/
def shape (l : List ObjectTypeInternal) : List (Guid × ℕ) :=
  l.map fun e => (e.objectTypeGuid, e.level)

theorem sepObjectTypeGuidInList_congr (h : shape l = shape l')
    (guid : Guid) : sepObjectTypeGuidInList l guid = sepObjectTypeGuidInList l' guid := by
  have hmap : ∀ l : List ObjectTypeInternal, sepObjectTypeGuidInList l guid =
      (shape l).findIdx? fun e => e.1 = guid := fun l => by
    rw [shape, List.findIdx?_map]
    rfl
  rw [hmap, hmap, h]

theorem levelAt_congr (h : shape l = shape l') (i : ℕ) : levelAt l i = levelAt l' i := by
  have hmap : ∀ l : List ObjectTypeInternal, levelAt l i = ((shape l)[i]?.map Prod.snd).getD 0 :=
    fun l => by
      rw [shape, List.getElem?_map, map_map]
      rfl
  rw [hmap, hmap, h]

theorem entryRule_congr (h : shape l = shape l') (c : AceContext)
    (k : ℕ) (ace : Ace) : entryRule c l k ace = entryRule c l' k ace := by
  have haims : Aims c.useResultList l ace k ↔ Aims c.useResultList l' ace k := by
    unfold Aims
    rw [sepObjectTypeGuidInList_congr h]
    simp only [IsAncestor, levelAt_congr h]
  simp only [entryRule, haims]

/-! ### The updates, entry by entry -/

/-- What an update leaves of an entry, if the entry is aimed at. -/
def updateIf (p : Prop) [Decidable p] (f : AccessCheckRights → AccessCheckRights)
    (e : ObjectTypeInternal) : ObjectTypeInternal :=
  if p then e.mapRights f else e

theorem updateIf_congr {p q : Prop} [Decidable p] [Decidable q]
    (h : p ↔ q) : updateIf p f = updateIf q f :=
  funext fun _ => if_congr h rfl rfl

/-- A type that is not in the list is aimed at nothing. -/
theorem map_updateIf_of_not_mem (use : Bool)
    (hj : sepObjectTypeGuidInList l (sepGetObjectTypeGuidFromAce ace) = none) (k : ℕ) :
    l[k]? = l[k]?.map (updateIf (Aims use l ace k) f) := by
  have hno : ¬Aims use l ace k := by simp [Aims, hj]
  have hid : updateIf (Aims use l ace k) f = id := funext fun _ => if_neg hno
  rw [hid, map_id, id]

/-- The updates of a result list. -/
theorem getElem?_updateResultList (l : List ObjectTypeInternal) (ace : Ace) (k : ℕ) :
    (updateResultList f l (some (sepGetObjectTypeGuidFromAce ace)))[k]? =
      l[k]?.map (updateIf (Aims true l ace k) f) := by
  rw [updateResultList, targetIndex]
  cases hj : sepObjectTypeGuidInList l (sepGetObjectTypeGuidFromAce ace) with
  | none => exact map_updateIf_of_not_mem f true hj k
  | some j =>
    have haims : Aims true l ace k ↔ j = k ∨ IsAncestor l j k := by simp [Aims, hj]
    rw [updateIf_congr f haims]
    exact getElem?_updateTree f j l k

/-- The other updates change the entry itself. -/
theorem getElem?_modify_aimed {j : ℕ}
    (hj : sepObjectTypeGuidInList l (sepGetObjectTypeGuidFromAce ace) = some j) (k : ℕ) :
    (l.modify j (·.mapRights f))[k]? = l[k]?.map (updateIf (Aims false l ace k) f) := by
  have haims : Aims false l ace k ↔ j = k := by simp [Aims, hj]
  rw [List.getElem?_modify, updateIf_congr f haims]
  rfl

end

theorem getElem?_sepDenyAccessObjectTypeList (l : List ObjectTypeInternal) (access : AccessMask)
    (ace : Ace) (k : ℕ) :
    (sepDenyAccessObjectTypeList l access (some (sepGetObjectTypeGuidFromAce ace))).1[k]? =
      l[k]?.map (updateIf (Aims false l ace k) (denyRights access)) := by
  rw [sepDenyAccessObjectTypeList, targetIndex]
  cases hj : sepObjectTypeGuidInList l (sepGetObjectTypeGuidFromAce ace) with
  | none => exact map_updateIf_of_not_mem _ false hj k
  | some j => exact getElem?_modify_aimed _ hj k

theorem getElem?_sepAllowAccessObjectTypeList (l : List ObjectTypeInternal) (access : AccessMask)
    (remove : Bool) (ace : Ace) (k : ℕ) :
    (sepAllowAccessObjectTypeList l access remove
        (some (sepGetObjectTypeGuidFromAce ace)))[k]? =
      l[k]?.map (updateIf (Aims false l ace k) (allowTarget access remove)) := by
  rw [sepAllowAccessObjectTypeList, targetIndex]
  cases hj : sepObjectTypeGuidInList l (sepGetObjectTypeGuidFromAce ace) with
  | none => exact map_updateIf_of_not_mem _ false hj k
  | some j => exact getElem?_modify_aimed _ hj k

/-! ### Maximum mode -/

section Maximum

variable {c : AceContext} {s : AnalysisState} {l : List ObjectTypeInternal}

/-- What a rule, if there is one, does to an entry. -/
def applyRule (rule : Option (Rule 32)) (e : ObjectTypeInternal) : ObjectTypeInternal :=
  match rule with
  | none => e
  | some r => e.mapRights (ruleRights r)

/-- One entry of the DACL in maximum mode, on each record of the list. -/
theorem maximumAce_list (ace : Ace) (hs : s.objectTypeList ≠ []) (k : ℕ) :
    (maximumAce c s ace).objectTypeList[k]? =
      s.objectTypeList[k]?.map (applyRule (entryRule c s.objectTypeList k ace)) := by
  have hfull : s.objectTypeList.isEmpty = false := by simpa using hs
  -- no rule, no change; an object rule changes the records it is aimed at
  have hnone : s.objectTypeList[k]? = s.objectTypeList[k]?.map (applyRule none) := by
    rw [show applyRule none = id from rfl, map_id, id]
  have haimed : ∀ r : Rule 32, updateIf (Aims c.useResultList s.objectTypeList ace k)
      (ruleRights r) = applyRule (if true = true ∧ Aims c.useResultList s.objectTypeList ace k
        then some r else none) := by
    intro r
    by_cases h : Aims c.useResultList s.objectTypeList ace k
    · rw [if_pos ⟨rfl, h⟩]
      funext e
      exact if_pos h
    · rw [if_neg fun hc => h hc.2]
      funext e
      exact if_neg h
  rw [maximumAce, entryRule, aceRule]
  cases ace.effective with
  | false => simpa using hnone
  | true =>
    simp only [hfull, aceAccess_eq]
    cases hty : ace.aceType <;> dsimp only [AceType.isObject]
    case accessDeniedObject =>
      cases sidInToken c ace true with
      | false => simpa using hnone
      | true =>
        refine Eq.trans ?_ (congrArg (s.objectTypeList[k]?.map ·) (haimed ⟨.deny, _⟩))
        cases hu : c.useResultList with
        | false => exact getElem?_sepDenyAccessObjectTypeList _ _ ace k
        | true => exact getElem?_updateResultList _ _ ace k
    case accessAllowedObject =>
      cases sidInToken c ace false with
      | false => simpa using hnone
      | true =>
        refine Eq.trans ?_ (congrArg (s.objectTypeList[k]?.map ·) (haimed ⟨.allow, _⟩))
        cases hu : c.useResultList with
        | false => exact getElem?_sepAllowAccessObjectTypeList _ _ false ace k
        | true => exact getElem?_updateResultList _ _ ace k
    case accessAllowed =>
      cases sidInToken c ace false <;> exact hnone
    case accessDenied =>
      cases sidInToken c ace true <;> exact hnone
    all_goals exact hnone

/-- A list that is changed record by record keeps its shape. -/
theorem shape_eq_of_getElem? {l l' : List ObjectTypeInternal}
    (rule : ℕ → AccessCheckRights → AccessCheckRights)
    (h : ∀ k : ℕ, l'[k]? = l[k]?.map (ObjectTypeInternal.mapRights (rule k))) :
    shape l' = shape l := by
  refine List.ext_getElem? fun k => ?_
  rw [shape, shape, List.getElem?_map, List.getElem?_map, h, map_map]
  rfl

theorem applyRule_eq_mapRights (rule : Option (Rule 32)) :
    applyRule rule = ObjectTypeInternal.mapRights ((rule.map ruleRights).getD id) := by
  funext e
  cases rule <;> rfl

theorem shape_maximumAce (ace : Ace) (hs : s.objectTypeList ≠ []) :
    shape (maximumAce c s ace).objectTypeList = shape s.objectTypeList :=
  shape_eq_of_getElem? _ fun k => by rw [maximumAce_list ace hs, applyRule_eq_mapRights]

theorem ne_nil_of_shape {l l' : List ObjectTypeInternal} (h : shape l' = shape l) (hl : l ≠ []) :
    l' ≠ [] := by
  rintro rfl
  exact hl (List.map_eq_nil_iff.mp h.symm)

/-- **Maximum mode with a list**: each record is the accumulating sweep of the rules
for its entry. -/
theorem maximumLoop_list (dacl : List Ace) (hl : l ≠ []) (hs : shape s.objectTypeList = shape l) :
    shape (dacl.foldl (maximumAce c) s).objectTypeList = shape l ∧
      ∀ k, (dacl.foldl (maximumAce c) s).objectTypeList[k]?.map (·.objectAccessRights.decided) =
        (s.objectTypeList[k]?.map (·.objectAccessRights.decided)).map
          (accumulate · (dacl.filterMap (entryRule c l k))) := by
  induction dacl generalizing s with
  | nil => exact ⟨hs, fun k => (congrFun map_id _).symm⟩
  | cons ace dacl ih =>
    have hne := ne_nil_of_shape hs hl
    obtain ⟨ihshape, ihk⟩ := ih ((shape_maximumAce (c := c) ace hne).trans hs)
    refine ⟨ihshape, fun k => ?_⟩
    rw [List.foldl_cons, ihk, maximumAce_list ace hne, map_map, map_map,
      map_map, entryRule_congr hs]
    congr 1
    funext e
    cases hrule : entryRule c l k ace with
    | none => rw [List.filterMap_cons_none hrule]; rfl
    | some r =>
      rw [List.filterMap_cons_some hrule]
      exact congrArg (accumulate · _) (decided_ruleRights r e.objectAccessRights)

end Maximum

/-! ### Lists that are accepted -/

/-- A list that is accepted has entries. -/
theorem ne_nil_of_sepValidateObjectTypeList {types : List ObjectType}
    (h : sepValidateObjectTypeList types = .success) : types ≠ [] := by
  rintro rfl
  exact absurd h (by decide)

/-- A list that is accepted is captured as it is, with nothing granted or denied. -/
theorem seCaptureObjectTypeList_of_valid {types : List ObjectType}
    (h : sepValidateObjectTypeList types = .success) :
    seCaptureObjectTypeList types true = .ok (types.map captureObjectType) := by
  have hne := ne_nil_of_sepValidateObjectTypeList h
  rw [seCaptureObjectTypeList, if_neg (mt List.length_eq_zero_iff.mp hne),
    if_neg (not_not_intro h), if_pos rfl]

/-- **The hierarchy of a result list.** After the sweep of a DACL in maximum mode, a
right is granted to an entry of a captured list exactly if the first entry of the
DACL that counts, has the right and is aimed at the entry of the list is an allow
entry. In a result list, that is an object entry with the type of the entry itself
or of one of its ancestors. -/
theorem resultList_firstMatch (c : AceContext) {types : List ObjectType}
    {l : List ObjectTypeInternal} (hvalid : sepValidateObjectTypeList types = .success)
    (hcapture : seCaptureObjectTypeList types true = .ok l) (dacl : List Ace)
    (rights : AccessCheckRights) (remaining : AccessMask) :
    let after := sepAnalyzeAcesFromDacl c .accessCheckMaximum remaining dacl ⟨rights, l⟩
    shape after.objectTypeList = shape l ∧
      ∀ k e, after.objectTypeList[k]? = some e → ∀ r,
        (e.objectAccessRights.grantedAccessRights.getLsbD r = true ↔
          entryVerdict c l k dacl r = some .allow) := by
  intro after
  rw [seCaptureObjectTypeList_of_valid hvalid, Except.ok.injEq] at hcapture
  have hne : l ≠ [] := by
    rw [← hcapture]
    exact mt List.map_eq_nil_iff.mp (ne_nil_of_sepValidateObjectTypeList hvalid)
  have hstart : ∀ e ∈ l, e.objectAccessRights.decided = (0, 0) := by
    intro e he
    rw [← hcapture] at he
    obtain ⟨t, -, rfl⟩ := List.mem_map.mp he
    rfl
  obtain ⟨hshape, hsweep⟩ := maximumLoop_list (c := c) (s := ⟨rights, l⟩) dacl hne rfl
  refine ⟨hshape, fun k e he r => ?_⟩
  have hk := hsweep k
  rw [show dacl.foldl (maximumAce c) ⟨rights, l⟩ = after from rfl, he] at hk
  obtain ⟨e0, he0, hdecided⟩ := map_eq_some_iff.mp (map_map .. ▸ hk.symm)
  rw [Function.comp_apply, hstart e0 (List.mem_of_getElem? he0)] at hdecided
  have hbit := congrArg (fun d : AccessMask × AccessMask => d.1.getLsbD r) hdecided
  rw [entryVerdict, ← beq_iff_eq (b := some Effect.allow), ← getLsbD_accumulate_zero]
  exact Bool.eq_iff_iff.mp hbit.symm

/-- A type all of whose bytes are the same. -/
def guidOf (byte : UInt8) : Guid := fun _ => byte

/-- An object entry for World with an object type. -/
def objectEntry (aceType : AceType) (guid : Guid) (mask : AccessMask) : Ace where
  aceType := aceType
  aceFlags := 0
  mask := mask
  flags := aceObjectTypePresent
  body := fun i => if h : i < 16 then guid ⟨i, h⟩ else seWorldSid (i - 16)

/-- The context of a check for World with a result list. -/
def worldContext : AceContext where
  accessToken := worldToken
  isTokenRestricted := false
  principalSelfSid := none
  genericMapping := ⟨0x120089, 0x120116, 0x1200a0, 0x1f01ff⟩
  useResultList := true

/-- A right denied to a child and then allowed from the root on is granted to the
root and not to the child. -/
theorem resultList_firstMatch_child :
    let types : List ObjectType := [⟨0, some (guidOf 1)⟩, ⟨1, some (guidOf 2)⟩]
    let dacl := [objectEntry .accessDeniedObject (guidOf 2) 0x1,
      objectEntry .accessAllowedObject (guidOf 1) 0x1]
    ∃ l root child, seCaptureObjectTypeList types true = .ok l ∧
      (sepAnalyzeAcesFromDacl worldContext .accessCheckMaximum 0 dacl
        ⟨⟨0, 0, 0⟩, l⟩).objectTypeList = [root, child] ∧
      root.objectAccessRights.grantedAccessRights.getLsbD 0 = true ∧
      ¬child.objectAccessRights.grantedAccessRights.getLsbD 0 = true := by
  intro types dacl
  have hvalid : sepValidateObjectTypeList types = .success := rfl
  have hfirst := (resultList_firstMatch worldContext hvalid rfl dacl ⟨0, 0, 0⟩ 0).2
  refine ⟨_, _, _, rfl, rfl, (hfirst 0 _ rfl 0).mpr (by decide), fun h => ?_⟩
  exact absurd ((hfirst 1 _ rfl 0).mp h) (by decide)

end Windivs

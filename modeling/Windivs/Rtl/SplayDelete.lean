import Windivs.Rtl.SplayLinks

/-!
# Deletion from a splay tree

`RtlDelete` and `RtlDeleteNoSplay`. A node with two children first changes places with its
subtree predecessor, which has at most one; then the parent is linked to what is below the node.
The first routine splays the parent, the second one does not.

`SwapSplayLinks` exchanges the pointers of two nodes and then repairs those that lead to them,
with special cases for a parent and its child and for the root. What comes out is the same tree
with the two nodes renamed into each other, `Windivs.Links.holds_swapSplayLinks`.
-/

namespace Windivs

open Equiv

namespace Links

variable {α : Type} [DecidableEq α] {s s' : Links α}

/-! ### The routines -/

/-- `RtlInsertAsLeftChild` or `RtlInsertAsRightChild`, by a flag. -/
def insertByFlag (s : Links α) (leftChild : Bool) (parent child : α) : Links α :=
  if leftChild then s.insertAsChild .left parent child else s.insertAsChild .right parent child

/-- `if (Child) RtlInsertAs…Child(Links, Child)`, with the child that is there. -/
def insertOwn (s : Links α) (d : Side) (links : α) : Links α :=
  match s.child d links with
  | some c => s.insertAsChild d links c
  | none => s

/-- `FixupChildLinks`. -/
def fixupChildLinks (s : Links α) (links : α) (root leftChild : Bool) : Links α :=
  let s := s.insertOwn .left links
  let s := s.insertOwn .right links
  if !root then s.insertByFlag leftChild (s.parent links) links else s

/-- `*Links = record`: the three pointers of another node. -/
def setLinks (s : Links α) (links parent : α) (left right : Option α) : Links α :=
  ((s.setParent links parent).setChild .left links left).setChild .right links right

/-- The second block of `SwapSplayLinks`, where `LinkA` is the parent if one is the parent of the
other, and the root if one is the root. -/
def swapLinks (s : Links α) (linkA linkB : α) : Links α :=
  let parentA := s.parent linkA
  let leftChildA := s.child .left linkA
  let rightChildA := s.child .right linkA
  let parentB := s.parent linkB
  let leftChildB := s.child .left linkB
  let rightChildB := s.child .right linkB
  let rootA := s.isRoot linkA
  let leftA := s.isChild .left linkA
  let leftB := s.isChild .left linkB
  let s := s.setLinks linkB parentA leftChildA rightChildA
  let s := s.setLinks linkA parentB leftChildB rightChildB
  let s :=
    if parentB = linkA then
      let s := if !rootA then s.insertByFlag leftA parentA linkB else s
      s.insertByFlag leftB linkB linkA
    else s
  let s := s.fixupChildLinks linkA false leftB
  let s := s.fixupChildLinks linkB rootA leftA
  if rootA then s.setParent linkB linkB else s

/-- `SwapSplayLinks`. -/
def swapSplayLinks (s : Links α) (linkA linkB : α) : Links α :=
  if s.parent linkA = linkB ∨ s.isRoot linkB then s.swapLinks linkB linkA
  else s.swapLinks linkA linkB

/-- Follow the children on a side to the last one. -/
def lastChild (budget : ℕ) (s : Links α) (d : Side) (child : α) : Run α :=
  runLoop
    (fun child =>
      match s.child d child with
      | some c => .again c
      | none => .leave (.ok child))
    budget child

/-- `RtlSubtreePredecessor`. -/
def rtlSubtreePredecessor (budget : ℕ) (s : Links α) (links : α) : Run (Option α) :=
  match s.child .left links with
  | none => .ok none
  | some child => do
    let child ← s.lastChild budget .right child
    return some child

/-- The first part of both routines: a node with two children changes places with its
predecessor. -/
def swapDown (budget : ℕ) (s : Links α) (n : α) : Run (Links α × Option α) :=
  if (s.child .left n).isSome && (s.child .right n).isSome then do
    let sp ← s.rtlSubtreePredecessor budget n
    match sp with
    | some sp => return (s.swapSplayLinks sp n, some sp)
    | none => return (s, none)
  else .ok (s, none)

/-- The reference of the parent to `N` is set to a child of `N`, or erased. -/
def replaceReference (s : Links α) (n : α) (c : Option α) : Links α :=
  if s.isChild .left n then s.setChild .left (s.parent n) c
  else s.setChild .right (s.parent n) c

/-- The second part of both routines, for a node with one child at most: the parent is linked to
the child, or the child becomes the root. The result is the root, as far as it has changed, or the
parent. -/
def cutNode (s : Links α) (n : α) : Links α × (Option α ⊕ α) :=
  if s.child .left n = none ∧ s.child .right n = none then
    if s.isRoot n then (s, .inl none)
    else
      let p := s.parent n
      (s.replaceReference n none, .inr p)
  else
    match (s.child .left n).or (s.child .right n) with
    | none => (s, .inl none)
    | some c =>
      if s.isRoot n then (s.setParent c c, .inl (some c))
      else
        let p := s.parent n
        ((s.replaceReference n (some c)).setParent c p, .inr p)

/-- `RtlDelete`. -/
def rtlDelete (budget : ℕ) (s : Links α) (links : α) : Run (Links α × Option α) := do
  let (s, _) ← s.swapDown budget links
  match s.cutNode links with
  | (s, .inl root) => return (s, root)
  | (s, .inr p) => do
    let (s, root) ← rtlSplay budget s p
    return (s, some root)

/-- `RtlDeleteNoSplay`: the pointers and `*Root` afterwards. If the node is the root, the new root
is the predecessor it changes places with. -/
def rtlDeleteNoSplay (budget : ℕ) (s : Links α) (links : α) (root : Option α) :
    Run (Links α × Option α) := do
  let (s', sp) ← s.swapDown budget links
  let root := if s.isRoot links ∧ sp.isSome then sp else root
  match s'.cutNode links with
  | (s, .inl root) => return (s, root)
  | (s, .inr _) => return (s, root)

/-! ### Changing places -/

theorem insertOwn_eq (s : Links α) (d : Side) (links : α) :
    s.insertOwn d links = s.adopt (s.child d links) links := by
  rw [insertOwn]
  cases hc : s.child d links with
  | none => simp [adopt]
  | some c =>
    simp only [insertAsChild, setChild, setParent, adopt, Links.mk.injEq]
    refine ⟨funext fun y => ?_, funext fun e => funext fun y => ?_⟩
    · simp [eq_comm]
    · split
      · next h => rw [h.1, h.2, hc]
      · rfl

/-- The side a flag stands for. -/
def flagSide (leftChild : Bool) : Side := if leftChild then .left else .right

theorem insertByFlag_eq (s : Links α) (leftChild : Bool) (parent child : α) :
    s.insertByFlag leftChild parent child =
      (s.setChild (flagSide leftChild) parent (some child)).setParent child parent := by
  cases leftChild <;> rfl

variable {nodes : List α} {a b x : α}

/-- The pointers after `FixupChildLinks`. -/
theorem fixupChildLinks_eq (hself : ∀ d, s.child d x ≠ some x) (root leftChild : Bool) :
    (∀ y, (s.fixupChildLinks x root leftChild).parent y =
      if s.child .left x = some y ∨ s.child .right x = some y then x else s.parent y) ∧
    ∀ e y, (s.fixupChildLinks x root leftChild).child e y =
      if root = false ∧ e = flagSide leftChild ∧ y = s.parent x then some x else s.child e y := by
  have hl := hself .left
  have hr := hself .right
  cases root
  · simp only [fixupChildLinks, insertOwn_eq, insertByFlag_eq]
    grind
  · simp only [fixupChildLinks, insertOwn_eq]
    grind

/-- The records of two nodes exchanged. -/
theorem setLinks_setLinks (s : Links α) (a b : α) :
    let s₁ := (s.setLinks b (s.parent a) (s.child .left a) (s.child .right a)).setLinks a
      (s.parent b) (s.child .left b) (s.child .right b)
    (∀ y, s₁.parent y = s.parent (swap a b y)) ∧
      ∀ e y, s₁.child e y = s.child e (swap a b y) := by
  simp only [setLinks, parent_setParent, child_setParent, parent_setChild, child_setChild,
    swap_apply_def]
  refine ⟨fun y => ?_, fun e y => ?_⟩
  · grind
  · cases e <;> grind

/-- The flag tells on which side of its parent a node is. -/
theorem Consistent.child_parent_iff (hc : s.Consistent nodes) (hx : x ∈ nodes)
    (hne : s.parent x ≠ x) (d : Side) :
    s.child d (s.parent x) = some x ↔ d = flagSide (s.isChild .left x) := by
  obtain ⟨hmem, e, he⟩ := hc.parent_mem hx hne
  have hapart := fun h => hc.apart (c := x) hmem h
  cases e <;> cases d <;> simp only [flagSide, isChild, decide_eq_true_eq] <;> grind

/-- The special case of `SwapSplayLinks`: `LinkA` was the parent of `LinkB`. -/
theorem swapAdjacent_eq (s s₁ : Links α) {a b : α} (hp₁ : s₁.parent b = s.parent a)
    (rootA leftA leftB : Bool) :
    let s₂ :=
      if s.parent b = a then
        (if !rootA then s₁.insertByFlag leftA (s.parent a) b else s₁).insertByFlag leftB b a
      else s₁
    (∀ y, s₂.parent y = if s.parent b = a ∧ y = a then b else s₁.parent y) ∧
      ∀ e y, s₂.child e y =
        if s.parent b = a ∧ e = flagSide leftB ∧ y = b then some a
        else if s.parent b = a ∧ rootA = false ∧ e = flagSide leftA ∧ y = s.parent a then some b
        else s₁.child e y := by
  simp only [insertByFlag_eq]
  refine ⟨fun y => ?_, fun e y => ?_⟩
  · cases rootA <;> grind
  · cases rootA <;> grind

theorem map_swap_of_ne {c : Option α} (ha : c ≠ some a) (hb : c ≠ some b) :
    c.map (swap a b) = c := by
  cases c with
  | none => rfl
  | some x =>
    rw [Option.map_some, swap_apply_of_ne_of_ne]
    · exact fun h => ha (by rw [h])
    · exact fun h => hb (by rw [h])

/-- The children of `LinkB` while the pointers to them are repaired. -/
def takenChild (s : Links α) (a b : α) (d : Side) : Option α :=
  if s.parent b = a ∧ d = flagSide (s.isChild .left b) then some a else s.child d a

section

variable (hc : s.Consistent nodes) (ha : a ∈ nodes) (hb : b ∈ nodes) (hab : a ≠ b)
  (hpa : s.parent a ≠ b) (hpb : s.parent b ≠ b)
include hc ha hb hab hpa hpb

/-- The pointers after the exchange of two nodes. -/
theorem swapLinks_eq :
    (∀ y, (s.swapLinks a b).parent y =
      if s.parent a = a ∧ y = b then b
      else if s.takenChild a b .left = some y ∨ s.takenChild a b .right = some y then b
      else if s.child .left b = some y ∨ s.child .right b = some y then a
      else if y = a then (if s.parent b = a then b else s.parent b)
      else if y = b then s.parent a else s.parent y) ∧
    ∀ e y, (s.swapLinks a b).child e y =
      if s.parent a ≠ a ∧ e = flagSide (s.isChild .left a) ∧ y = s.parent a then some b
      else if e = flagSide (s.isChild .left b) ∧ y = (if s.parent b = a then b else s.parent b) then
        some a
      else if y = a then s.child e b else if y = b then s.child e a else s.child e y := by
  have hroot : s.isRoot a = decide (s.parent a = a) := rfl
  have hna : ∀ d, s.child d b ≠ some a := fun d h => hpa (hc.child_mem hb h).2.1
  have hnb : ∀ d, s.child d b ≠ some b := fun d h => (hc.child_mem hb h).2.2 rfl
  have hside : ∀ d, s.child d a = some b →
      s.parent b = a ∧ d = flagSide (s.isChild .left b) := fun d h => by
    have hadj := (hc.child_mem ha h).2.1
    refine ⟨hadj, (hc.child_parent_iff hb hpb d).1 ?_⟩
    rw [hadj, h]
  obtain ⟨hp₁, hc1⟩ := setLinks_setLinks s a b
  simp only [swap_apply_def] at hp₁ hc1
  rw [swapLinks]
  dsimp only
  generalize (s.setLinks b (s.parent a) (s.child .left a) (s.child .right a)).setLinks a
      (s.parent b) (s.child .left b) (s.child .right b) = s₁ at *
  obtain ⟨hp2, hc2⟩ := swapAdjacent_eq s s₁ (a := a) (b := b) (by grind)
    (s.isRoot a) (s.isChild .left a) (s.isChild .left b)
  generalize (if s.parent b = a then
        (if !s.isRoot a then s₁.insertByFlag (s.isChild .left a) (s.parent a) b else s₁).insertByFlag
          (s.isChild .left b) b a
      else s₁) = s2 at *
  -- the pointers of the two nodes, before those to them are repaired
  have hchild2 : ∀ d, s2.child d a = s.child d b := by grind
  have hparent2 : s2.parent a = if s.parent b = a then b else s.parent b := by grind
  obtain ⟨hp3, hc3⟩ := fixupChildLinks_eq (s := s2) (x := a) (by grind) false (s.isChild .left b)
  generalize s2.fixupChildLinks a false (s.isChild .left b) = s3 at *
  have hchild3 : ∀ d, s3.child d b = s.takenChild a b d := by grind [takenChild]
  have hparent3 : s3.parent b = s.parent a := by grind
  obtain ⟨hp4, hc4⟩ := fixupChildLinks_eq (s := s3) (x := b) (by grind [takenChild]) (s.isRoot a)
    (s.isChild .left a)
  generalize s3.fixupChildLinks b (s.isRoot a) (s.isChild .left a) = s4 at *
  simp only [hroot, decide_eq_true_eq]
  refine ⟨fun y => ?_, fun e y => ?_⟩
  · have hfinal : (if s.parent a = a then s4.setParent b b else s4).parent y =
        if s.parent a = a ∧ y = b then b else s4.parent y := by grind
    rw [hfinal, hp4, hp3, hchild2, hchild2, hchild3, hchild3]
    grind
  · have hfinal : (if s.parent a = a then s4.setParent b b else s4).child e y = s4.child e y := by
      split <;> rfl
    rw [hfinal, hc4, hc3, hparent3, hparent2]
    grind

/-- **The parent pointers after the exchange** are the old ones with the two nodes renamed. -/
theorem parent_swapLinks {y : α} (hy : y ∈ nodes) :
    (s.swapLinks a b).parent (swap a b y) = swap a b (s.parent y) := by
  have hpar := (swapLinks_eq hc ha hb hab hpa hpb).1
  have hca : ∀ d c, s.child d a = some c → s.parent c = a ∧ c ≠ a := fun d c h =>
    (hc.child_mem ha h).2
  have hcb : ∀ d c, s.child d b = some c → s.parent c = b ∧ c ≠ b := fun d c h =>
    (hc.child_mem hb h).2
  have hbside := hc.child_parent_iff hb hpb
  rcases eq_or_ne y a with rfl | hne
  · rw [swap_apply_left, swap_apply_def, hpar]
    grind [takenChild]
  rcases eq_or_ne y b with rfl | hne'
  · rw [swap_apply_right, swap_apply_def, hpar]
    grind [takenChild, flagSide]
  · rw [swap_apply_of_ne_of_ne hne hne', swap_apply_def, hpar]
    -- a node with one of the two as its parent is a child of it
    have hof : s.parent y ≠ y → ∃ d, s.child d (s.parent y) = some y := fun h =>
      (hc.parent_mem hy h).2
    have hkid : ∀ x, (∃ d, s.child d x = some y) ↔
        (s.child .left x = some y ∨ s.child .right x = some y) := fun x =>
      ⟨fun h => by obtain ⟨d, hd⟩ := h; cases d; exacts [.inl hd, .inr hd],
        fun h => h.elim (fun h => ⟨_, h⟩) fun h => ⟨_, h⟩⟩
    grind [takenChild]

/-- **The child pointers after the exchange.** -/
theorem child_swapLinks (e : Side) {y : α} (hy : y ∈ nodes) :
    (s.swapLinks a b).child e (swap a b y) = (s.child e y).map (swap a b) := by
  have hchi := (swapLinks_eq hc ha hb hab hpa hpb).2
  have hcy : ∀ c, s.child e y = some c → s.parent c = y ∧ c ≠ y := fun c h =>
    (hc.child_mem hy h).2
  have hbside := hc.child_parent_iff hb hpb
  have haside := hc.child_parent_iff ha
  rcases eq_or_ne (s.child e y) (some a) with h₁ | h₁
  · rw [h₁, Option.map_some, swap_apply_left, swap_apply_def, hchi]
    grind
  rcases eq_or_ne (s.child e y) (some b) with h₂ | h₂
  · rw [h₂, Option.map_some, swap_apply_right, swap_apply_def, hchi]
    grind
  · rw [map_swap_of_ne h₁ h₂, swap_apply_def, hchi]
    grind

end

/-- **`SwapSplayLinks` renames two nodes into each other.** -/
theorem holds_swapSplayLinks {t : BinaryTree α} (h : s.Holds t []) (ha : a ∈ inorder t)
    (hb : b ∈ inorder t) (hab : a ≠ b) : (s.swapSplayLinks a b).Holds (t.map (swap a b)) [] := by
  have hc := h.consistent
  have key : ∀ {a b : α}, a ∈ inorder t → b ∈ inorder t → a ≠ b → s.parent a ≠ b →
      s.parent b ≠ b → (s.swapLinks a b).Holds (t.map (swap a b)) [] :=
    fun ha hb hab hpa hpb => h.rename _ (fun x hx => parent_swapLinks hc ha hb hab hpa hpb hx)
      fun d x hx => child_swapLinks hc ha hb hab hpa hpb d hx
  rw [swapSplayLinks]
  split
  · next hcond =>
    rw [swap_comm]
    refine key hb ha hab.symm (fun hpb => ?_) fun hpa => ?_
    · rcases hcond with hpa | hroot
      · exact hab (hc.acyclic ha hpa hpb)
      · exact hab (hpb.symm.trans (of_decide_eq_true hroot))
    · rcases hcond with hpa' | hroot
      · exact hab (hpa.symm.trans hpa')
      · exact hab (hc.root ha hb hpa (of_decide_eq_true hroot))
  · next hcond =>
    rw [not_or] at hcond
    exact key ha hb hab hcond.1 fun h => hcond.2 (decide_eq_true h)

/-! ### Going down to the predecessor -/

variable {l r t c : BinaryTree α} {way : List (Frame α)} {n : α} {d : Side} {f : Frame α}

omit [DecidableEq α] in
/-- The last child on the right is the rightmost node. -/
theorem Holds.lastChild_right {budget : ℕ} (h : s.Holds (.node x l r) way)
    (hbudget : (inorder r).length < budget) (q : List (Frame α)) :
    s.lastChild budget .right x = .ok (rightmost x l r q).1 := by
  induction r generalizing x l way budget q with
  | nil =>
    have hchild : s.child .right x = none := (h.linked x rfl).2.2.1
    obtain ⟨k, rfl⟩ : ∃ k, budget = k + 1 := ⟨budget - 1, by omega⟩
    exact runLoop_leave k (by simp [hchild, rightmost])
  | node z l' r' _ ih =>
    have hchild : s.child .right x = some z := (h.linked x rfl).2.2.1
    obtain ⟨k, rfl⟩ : ∃ k, budget = k + 1 := ⟨budget - 1, by omega⟩
    have hdown : s.Holds (.node z l' r') (.right x l :: way) :=
      (holds_of_iff (d := .right)).2 h
    have hlast : s.lastChild k .right z = .ok (rightmost z l' r' (.right x l :: q)).1 :=
      ih hdown (by simp at hbudget; omega) (.right x l :: q)
    rw [rightmost, ← hlast]
    exact runLoop_again k (by simp [hchild])

/-- A node changes places with one further up. -/
theorem Holds.swapSplayLinks_eq {z : α} {m u : BinaryTree α} {q : List (Frame α)}
    (h : s.Holds (.node z m u) (q ++ .left n r :: way)) :
    (s.swapSplayLinks z n).Holds (.node n m u) (q ++ .left z r :: way) := by
  have hmem : n ∈ outside (.left n r :: way) := mem_outside_cons.2 (.inl rfl)
  have hz : z ∉ outside (q ++ .left n r :: way) := h.not_mem_outside rfl
  have hn : n ∉ inorder (.node z m u) := fun hn =>
    h.disjoint n hn (mem_outside_append.2 (.inr hmem))
  obtain ⟨-, hnf, hqf⟩ := nodup_outside_append.1 h.nodup_outside
  obtain ⟨hnr, hnw, -⟩ : n ∉ inorder r ∧ n ∉ outside way ∧ _ := nodup_outside_cons.1 hnf
  obtain ⟨hzm, hzu, -⟩ := (nodup_inorder_branch (d := .left)).1 h.nodup
  rw [mem_outside_append, mem_outside_cons, not_or, not_or, not_or] at hz
  obtain ⟨hzq, hzn, hzr, hzw⟩ : _ ∧ z ≠ n ∧ z ∉ inorder r ∧ z ∉ outside way := hz
  rw [inorder_node, List.mem_append, List.mem_cons, not_or, not_or] at hn
  obtain ⟨hnm, -, hnu⟩ := hn
  -- the other nodes keep their names
  have hfix : ∀ {l : List α}, z ∉ l → n ∉ l → ∀ x ∈ l, swap z n x = x :=
    fun hz hn x hx => swap_apply_of_ne_of_ne (fun h => hz (h ▸ hx)) fun h => hn (h ▸ hx)
  have hswap := holds_swapSplayLinks (holds_plug.2 h) (a := z) (b := n) (by simp)
    (by
      have hout := mem_outside_append.2 (.inr hmem : n ∈ outside q ∨ _)
      rw [outside, List.mem_append] at hout
      simp only [inorder_plug, List.mem_append]
      tauto)
    hzn
  rw [map_plug, holds_plug, BinaryTree.map, swap_apply_left, map_eq_self (hfix hzm hnm),
    map_eq_self (hfix hzu hnu), List.map_append, List.map_cons, Frame.map, swap_apply_right,
    map_eq_self (hfix hzr hnr), map_way_eq_self (hfix hzq fun hn => hqf n hn hmem),
    map_way_eq_self (hfix hzw hnw)] at hswap
  exact hswap

/-- **The first part of a deletion** leaves the node with one subtree at most. -/
theorem Holds.swapDown_eq (h : s.Holds (.node n l r) way) :
    ∃ s' sp d, (∀ budget, (inorder l).length < budget → s.swapDown budget n = .ok (s', sp)) ∧
      s'.Holds (branch d n (lowered l r way).1 .nil) (lowered l r way).2 ∧
      ((sp = none ∧ (lowered l r way).2 = way) ∨
        ∃ z q, sp = some z ∧ (lowered l r way).2 = q ++ .left z r :: way) := by
  obtain ⟨-, hcl, hcr, -⟩ := h.linked n rfl
  rcases l with - | ⟨y, a, b⟩
  · refine ⟨s, none, .right, fun budget _ => ?_, h, .inl ⟨rfl, rfl⟩⟩
    simp [swapDown, hcl]
  rcases r with - | ⟨w, c, d⟩
  · refine ⟨s, none, .left, fun budget _ => ?_, h, .inl ⟨rfl, rfl⟩⟩
    simp [swapDown, hcr]
  · obtain ⟨z, m, q, hright, hplug⟩ := plug_rightmost y a b []
    have hlow : lowered (.node y a b) (.node w c d) way =
        (m, q ++ .left z (.node w c d) :: way) := by
      rw [lowered, hright]
      simp
    rw [hlow]
    refine ⟨s.swapSplayLinks z n, some z, .left, fun budget hbudget => ?_, ?_,
      .inr ⟨z, q, rfl, rfl⟩⟩
    · have hchild := (holds_of_iff (d := .left)).2 h
      have hlast : s.lastChild budget .right y = .ok z := by
        rw [hchild.lastChild_right (by simp at hbudget; omega) [], hright]
      simp [swapDown, rtlSubtreePredecessor, hcl, hcr, hlast]
      rfl
    · -- the predecessor, with the way up to the node and further
      refine Holds.swapSplayLinks_eq ?_
      rw [← holds_plug, plug_append, hplug, holds_plug]
      exact (holds_of_iff (d := .left)).2 h

/-! ### Linking the parent to what is below -/

/-- The reference of the parent is set. -/
theorem Holds.replaceReference_eq (h : s.Holds t (f :: way)) (hx : rootOf t = some n)
    (k : Option α) : s.replaceReference n k = s.setChild f.side f.elem k := by
  rw [replaceReference, h.isChild_cons hx, h.parent_cons hx]
  cases f.side <;> rfl

/-- **A node with one subtree is cut out**: its parent is linked to the subtree. -/
theorem Holds.cut_cons (h : s.Holds (branch d n c .nil) (f :: way)) :
    ((s.replaceReference n (rootOf c)).adopt (rootOf c) f.elem).Holds c (f :: way) := by
  rw [h.replaceReference_eq (rootOf_branch _ _ _ _)]
  obtain ⟨⟨hparent, hchild, hother, hlinked, -⟩, hhole, habove, ⟨hnc, -, -, hnodup, -⟩, hout, hn,
    hdisj, -⟩ := holds_branch.1 h
  refine ⟨fun x hx => ?_, fun e y hy => ?_, ?_, hnodup, hout, hdisj⟩
  · refine hlinked.move hnodup ?_ ?_ ?_ <;> grind
  · rw [child_adopt, child_setChild, if_pos ((isHole_cons f way e y).1 hy)]
  · refine habove.move hout ?_ ?_ <;> grind

/-- The subtree of the root is all that is left. -/
theorem Holds.cut_nil (h : s.Holds (branch d n c .nil) []) {k : α}
    (hk : rootOf c = some k) : (s.setParent k k).Holds c [] := by
  obtain ⟨⟨hparent, hchild, hother, hlinked, -⟩, -, -, ⟨hnc, -, -, hnodup, -⟩, -⟩ :=
    holds_branch.1 h
  refine ⟨fun x hx => ?_, by simp, trivial, hnodup, by simp [outside], by simp⟩
  refine hlinked.move hnodup ?_ ?_ ?_ <;> grind

/-- **The second part of a deletion** leaves what was below the node, in its place. -/
theorem Holds.cutNode_eq (h : s.Holds (branch d n c .nil) way) :
    ∃ s', s'.Holds c way ∧ s.cutNode n =
      (s', match way with
        | [] => .inl (rootOf c)
        | f :: _ => .inr f.elem) := by
  obtain ⟨⟨-, hchild, hother, -⟩, -⟩ := holds_branch.1 h
  have hor : (s.child .left n).or (s.child .right n) = rootOf c := by
    cases d <;> simp_all
  have hnone : s.child .left n = none ∧ s.child .right n = none ↔ rootOf c = none := by
    cases d <;> simp_all
  rw [cutNode, hor]
  cases way with
  | nil =>
    have hroot := h.isRoot_nil (rootOf_branch d n c .nil)
    cases hc : rootOf c with
    | none =>
      refine ⟨s, ?_, by rw [if_pos (hnone.2 hc), if_pos hroot]⟩
      rw [rootOf_eq_none.1 hc]
      exact ⟨by simp, by simp, trivial, by simp, by simp [outside], by simp⟩
    | some k =>
      refine ⟨s.setParent k k, h.cut_nil hc, ?_⟩
      rw [if_neg fun hn => by simp [hnone.1 hn] at hc]
      dsimp only
      rw [if_pos hroot]
  | cons f way =>
    have hroot : ¬ s.isRoot n = true := by
      simp [h.isRoot_cons (rootOf_branch d n c .nil)]
    have hparent := h.parent_cons (rootOf_branch d n c .nil)
    refine ⟨_, h.cut_cons, ?_⟩
    cases hc : rootOf c with
    | none => simp [if_pos (hnone.2 hc), hroot, hparent, adopt]
    | some k =>
      rw [if_neg fun hn => by simp [hnone.1 hn] at hc]
      dsimp only
      simp [hroot, hparent, adopt, setParent, eq_comm]

/-! ### The two deletions -/

/-- After the parent has been linked to a subtree, splaying the parent is what is left to do. -/
theorem Holds.rtlSplay_relink (h : s.Holds c (f :: way)) :
    ∃ s', (∀ budget, way.length < budget → rtlSplay budget s f.elem = .ok (s', f.elem)) ∧
      s'.Holds (relink c (f :: way)) [] ∧ rootOf (relink c (f :: way)) = some f.elem := by
  have hup : s.Holds (branch f.side f.elem c f.rest) way := by
    rwa [← holds_of_iff, Frame.of_eq]
  cases f with
  | left x r =>
    obtain ⟨s', hrun, hs'⟩ := hup.rtlSplay_eq
    obtain ⟨l', r', heq, -⟩ := splay_eq x c r way
    exact ⟨s', hrun, hs', by rw [relink, heq, rootOf_node]; rfl⟩
  | right x l =>
    obtain ⟨s', hrun, hs'⟩ := hup.rtlSplay_eq
    obtain ⟨l', r', heq, -⟩ := splay_eq x l c way
    exact ⟨s', hrun, hs', by rw [relink, heq, rootOf_node]; rfl⟩

/-- **`RtlDelete` removes a node as `delete` does.** -/
theorem Holds.rtlDelete_eq (h : s.Holds (.node n l r) way) :
    ∃ s', (∀ budget, (inorder (plug (.node n l r) way)).length ≤ budget →
        rtlDelete budget s n = .ok (s', rootOf (delete l r way))) ∧
      s'.Holds (delete l r way) [] := by
  obtain ⟨s₁, sp, d, hdown, h₁, -⟩ := h.swapDown_eq
  obtain ⟨s2, h₂, hcut⟩ := h₁.cutNode_eq
  have hlow := length_lowered_le n l r way
  have hl : (inorder l).length < (inorder (plug (.node n l r) way)).length := by
    simp
    omega
  rw [delete_eq_relink]
  generalize (lowered l r way).1 = c at *
  generalize (lowered l r way).2 = p at *
  rcases p with - | ⟨f, p⟩
  · refine ⟨s2, fun budget hbudget => ?_, h₂⟩
    rw [rtlDelete, hdown budget (by omega)]
    show (match s₁.cutNode n with | (s, .inl root) => _ | (s, .inr p) => _) = _
    rw [hcut]
    rfl
  · obtain ⟨s3, hrun, h3, hroot⟩ := h₂.rtlSplay_relink
    refine ⟨s3, fun budget hbudget => ?_, h3⟩
    rw [List.length_cons] at hlow
    rw [rtlDelete, hdown budget (by omega)]
    show (match s₁.cutNode n with | (s, .inl root) => _ | (s, .inr p) => _) = _
    rw [hcut]
    dsimp only
    rw [hrun budget (by omega), hroot]
    rfl

/-- The root of the tree that is left, as `RtlDeleteNoSplay` finds it. -/
theorem Holds.rootOf_lowered {sp : Option α} {p : List (Frame α)} (h : s.Holds (.node n l r) way)
    (hsp : (sp = none ∧ f :: p = way) ∨ ∃ z q, sp = some z ∧ f :: p = q ++ .left z r :: way) :
    (if s.isRoot n ∧ sp.isSome then sp else rootOf (plug (.node n l r) way)) =
      rootOf (plug c (f :: p)) := by
  rcases hsp with ⟨rfl, rfl⟩ | ⟨z, q, rfl, heq⟩
  · rw [if_neg (by simp)]
    exact rootOf_plug_cons _ _ f p
  · rw [heq, plug_append]
    cases way with
    | nil =>
      rw [if_pos ⟨h.isRoot_nil rfl, rfl⟩]
      rfl
    | cons g way =>
      rw [if_neg (by simp [h.isRoot_cons rfl])]
      exact rootOf_plug_cons _ _ g way

/-- **`RtlDeleteNoSplay` only links the parent to what is left below.** -/
theorem Holds.rtlDeleteNoSplay_eq (h : s.Holds (.node n l r) way) :
    ∃ s', (∀ budget, (inorder (plug (.node n l r) way)).length ≤ budget →
        rtlDeleteNoSplay budget s n (rootOf (plug (.node n l r) way)) =
          .ok (s', rootOf (plug (lowered l r way).1 (lowered l r way).2))) ∧
      s'.Holds (plug (lowered l r way).1 (lowered l r way).2) [] := by
  obtain ⟨s₁, sp, d, hdown, h₁, hsp⟩ := h.swapDown_eq
  obtain ⟨s2, h₂, hcut⟩ := h₁.cutNode_eq
  have hl : (inorder l).length < (inorder (plug (.node n l r) way)).length := by
    simp
    omega
  refine ⟨s2, fun budget hbudget => ?_, holds_plug.2 h₂⟩
  rw [rtlDeleteNoSplay, hdown budget (by omega)]
  show (match s₁.cutNode n with | (s, .inl root) => _ | (s, .inr _) => _) = _
  rw [hcut]
  generalize (lowered l r way).1 = c at *
  generalize (lowered l r way).2 = p at *
  cases p with
  | nil => rfl
  | cons f p =>
    rw [h.rootOf_lowered hsp]
    rfl

/-- **Deletion from a splay tree.** Both routines leave a tree with the same nodes in the same
order, without the one that was deleted; it is empty if there was no other. -/
theorem rtlDelete_inorder {t : BinaryTree α} (h : s.Holds t []) {x : α} (hx : x ∈ inorder t) :
    ∃ s₁ t₁ s₂ t₂,
      ((∀ budget, (inorder t).length ≤ budget → rtlDelete budget s x = .ok (s₁, rootOf t₁)) ∧
        s₁.Holds t₁ [] ∧ inorder t₁ = (inorder t).erase x ∧
        (rootOf t₁ = none ↔ inorder t = [x])) ∧
      ((∀ budget, (inorder t).length ≤ budget →
          rtlDeleteNoSplay budget s x (rootOf t) = .ok (s₂, rootOf t₂)) ∧
        s₂.Holds t₂ [] ∧ inorder t₂ = (inorder t).erase x) := by
  obtain ⟨l, r, way, rfl⟩ := exists_plug_eq hx
  have hs := holds_plug.1 h
  have herase : (inorder (plug (.node x l r) way)).erase x =
      before way ++ (inorder l ++ inorder r) ++ after way := by
    have hnot : x ∉ before way ++ inorder l := fun hmem => by
      rcases List.mem_append.1 hmem with hmem | hmem
      · exact hs.not_mem_outside rfl (List.mem_append_left _ hmem)
      · exact ((nodup_inorder_branch (d := .left)).1 hs.nodup).1 hmem
    rw [inorder_plug, inorder_node, List.append_assoc, List.append_assoc, ← List.append_assoc,
      List.erase_append_right _ hnot]
    simp
  obtain ⟨s₁, hrun1, h₁⟩ := hs.rtlDelete_eq
  obtain ⟨s₂, hrun2, h₂⟩ := hs.rtlDeleteNoSplay_eq
  refine ⟨s₁, delete l r way, s₂, _, ⟨hrun1, h₁, ?_, ?_⟩, hrun2, h₂, ?_⟩
  · rw [herase, inorder_delete]
  · rw [rootOf_eq_none, ← inorder_eq_nil, inorder_delete]
    simp [List.append_eq_singleton_iff]
  · rw [herase, inorder_plug_lowered]

section

-- a named instance, so that the numerals hold no proof of their own
local instance neZeroThree : NeZero 3 := ⟨by decide⟩

/-- A memory with a root and its two children. -/
def rootWithTwo : Links (Fin 3) where
  parent := ![1, 1, 1]
  child
    | .left => ![none, some 0, none]
    | .right => ![none, some 2, none]

end

theorem holds_rootWithTwo :
    rootWithTwo.Holds (.node 1 (.node 0 .nil .nil) (.node 2 .nil .nil)) [] := by
  refine (holds_branch (d := .left)).2 ?_
  simp [Linked, rootWithTwo, outside]

/-- The root of three nodes. -/
theorem rtlDelete_inorder_rootWithTwo :
    ∃ s₁ t₁ s₂ t₂,
      ((∀ budget, 3 ≤ budget → rtlDelete budget rootWithTwo 1 = .ok (s₁, rootOf t₁)) ∧
        s₁.Holds t₁ [] ∧ inorder t₁ = [0, 2] ∧
        (rootOf t₁ = none ↔ ([0, 1, 2] : List (Fin 3)) = [1])) ∧
      ((∀ budget, 3 ≤ budget →
          rtlDeleteNoSplay budget rootWithTwo 1 (some 1) = .ok (s₂, rootOf t₂)) ∧
        s₂.Holds t₂ [] ∧ inorder t₂ = [0, 2]) :=
  rtlDelete_inorder holds_rootWithTwo (by decide)

end Links

end Windivs

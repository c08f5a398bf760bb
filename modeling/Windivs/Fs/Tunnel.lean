import Windivs.Lib.LinkedTree

/-!
# The tunnel cache

The cache of the names of deleted files, `ntoskrnl/fsrtl/tunnel.c`. Its entries are the nodes of a
splay tree and the elements of a queue ordered by time. `FsRtlAddToTunnelCache` puts greater
directory keys to the left, so the keys descend from left to right; `FsRtlDeleteKeyFromTunnelCache`
looks for the first entry with a key as if they ascended. What it finds is the end of the run of
entries with the key down the left side from the root, and it deletes from there to the right
(`Windivs.Tunnel.deletesExactly_iff`).

A tree is given by its shape, with the operations of `Windivs.Lib.SplayTree`, and a node by its
address. The order of names and the clock are parameters. The names and the data that a search
copies out are those of the entry it returns. A call whose allocation fails changes nothing and is
left out, and so is the choice between the two pools.
-/

namespace Windivs

open List

variable {e last : TunnelEntry}

/-- `TUNNEL_NODE_ENTRY` at the address `node`. -/
structure TunnelEntry where
  node : ℕ
  time : ℤ
  directoryKey : UInt64
  keyByShortName : Bool
  shortName : List UInt16
  longName : List UInt16
  data : List UInt8
  deriving DecidableEq

/-- `TUNNEL`. -/
structure Tunnel where
  cache : BinaryTree TunnelEntry
  timerQueue : List TunnelEntry
  numEntries : UInt16

namespace Tunnel

/-- The name an entry is found by. -/
def keyName (e : TunnelEntry) : List UInt16 := if e.keyByShortName then e.shortName else e.longName

/-- A node of a tree with its children and the way up from it. -/
def zoom {α : Type*} [DecidableEq α] (x : α) :
    BinaryTree α → List (Frame α) → Option (BinaryTree α × BinaryTree α × List (Frame α))
  | .nil, _ => none
  | .node y l r, way =>
    if y = x then some (l, r, way)
    else (zoom x l (.left y r :: way)).or (zoom x r (.right y l :: way))

/-- `RtlDelete` or, without rebalancing, `RtlDeleteNoSplay` of a node. -/
def removeNode {α : Type*} [DecidableEq α] (rebalance : Bool) (x : α) (t : BinaryTree α) :
    BinaryTree α :=
  match zoom x t [] with
  | some (l, r, way) =>
    if rebalance then delete l r way else plug (lowered l r way).1 (lowered l r way).2
  | none => t

/-- `RtlRealSuccessor`. -/
def realSuccessor {α : Type*} [DecidableEq α] (x : α) (t : BinaryTree α) : Option α :=
  match zoom x t [] with
  | some (_, r, way) => (inorder r ++ after way).head?
  | none => none

/-- `FsRtlRemoveNodeFromTunnel`. After it `Rebalance` is false. -/
def fsRtlRemoveNodeFromTunnel (c : Tunnel) (e : TunnelEntry) (rebalance : Bool) : Tunnel where
  cache := removeNode rebalance e c.cache
  timerQueue := c.timerQueue.erase e
  numEntries := c.numEntries - 1

section Calls

variable (compareNames : List UInt16 → List UInt16 → Ordering) (maxEntries : UInt32) (maxAge : ℤ)

/-- `FsRtlCompareNodeAndKey`. -/
def fsRtlCompareNodeAndKey (e : TunnelEntry) (key : UInt64) (name : List UInt16) : Ordering :=
  if e.directoryKey < key then .gt
  else if key < e.directoryKey then .lt
  else compareNames name (keyName e)

/-- One turn over the queue: the entries that are too old, or of a later time, are removed. -/
def pruneTurn (now : ℤ) (s : Tunnel × Bool) (e : TunnelEntry) : Tunnel × Bool :=
  if e.time < now - maxAge ∨ now < e.time then (fsRtlRemoveNodeFromTunnel s.1 e s.2, false) else s

/-- The oldest entries go while there are too many. At the end of the queue there are none. -/
def pruneExcess : List TunnelEntry → Tunnel × Bool → Tunnel
  | [], s => s.1
  | e :: rest, s =>
    if maxEntries < s.1.numEntries.toUInt32 then
      pruneExcess rest (fsRtlRemoveNodeFromTunnel s.1 e s.2, false)
    else s.1

/-- `FsRtlPruneTunnelCache`. -/
def fsRtlPruneTunnelCache (now : ℤ) (c : Tunnel) : Tunnel :=
  let s := c.timerQueue.foldl (pruneTurn maxAge now) (c, true)
  pruneExcess maxEntries s.1.timerQueue s

/-- The way down to an entry: to the left where the key compares greater. -/
def find (c : Tunnel) (key : UInt64) (name : List UInt16) : Found TunnelEntry :=
  search (fun e => (fsRtlCompareNodeAndKey compareNames e key name).swap) c.cache []

/-- The new entry takes the place of one with the same key, or a free place. -/
def insert (c : Tunnel) (e : TunnelEntry) : Tunnel :=
  match c.find compareNames e.directoryKey (keyName e) with
  | .node old l r way =>
    ⟨plug (.node e l r) way, c.timerQueue.erase old ++ [e], c.numEntries - 1 + 1⟩
  | .vacant way => ⟨plug (.node e .nil .nil) way, c.timerQueue ++ [e], c.numEntries + 1⟩

/-- `FsRtlAddToTunnelCache`, with the new entry. The clock is read again to prune. -/
def fsRtlAddToTunnelCache (c : Tunnel) (e : TunnelEntry) (now : ℤ) : Tunnel :=
  if maxEntries = 0 then c
  else fsRtlPruneTunnelCache maxEntries maxAge now (c.insert compareNames e)

/-- `FsRtlFindInTunnelCache`. -/
def fsRtlFindInTunnelCache (c : Tunnel) (key : UInt64) (name : List UInt16) (now : ℤ) :
    Option TunnelEntry × Tunnel :=
  if maxEntries = 0 then (none, c)
  else
    let c := fsRtlPruneTunnelCache maxEntries maxAge now c
    (match c.find compareNames key name with
      | .node e _ _ _ => some e
      | .vacant _ => none, c)

/-- The first loop of `FsRtlDeleteKeyFromTunnelCache`: `LastEntry`. -/
def lastEntry (key : UInt64) : Option TunnelEntry → BinaryTree TunnelEntry → Option TunnelEntry
  | last, .nil => last
  | last, .node e l r =>
    if key < e.directoryKey then lastEntry key last l
    else if e.directoryKey < key then
      if last.isSome then last else lastEntry key last r
    else lastEntry key (some e) l

/-- The second loop, with a bound for its turns. -/
def deleteLoop (key : UInt64) : ℕ → Tunnel → TunnelEntry → Bool → Tunnel
  | 0, c, _, _ => c
  | fuel + 1, c, last, rebalance =>
    if last.directoryKey ≠ key then c
    else
      match realSuccessor last c.cache with
      | none => fsRtlRemoveNodeFromTunnel c last rebalance
      | some next => deleteLoop key fuel (fsRtlRemoveNodeFromTunnel c last rebalance) next false

/-- `FsRtlDeleteKeyFromTunnelCache`. -/
def fsRtlDeleteKeyFromTunnelCache (c : Tunnel) (key : UInt64) : Tunnel :=
  if maxEntries = 0 then c
  else
    match lastEntry key none c.cache with
    | none => c
    | some last => deleteLoop key (inorder c.cache).length c last true

/-- **The states of a cache**: what calls make of an empty one. A new entry has an address that
none of the others has. -/
inductive Reachable : Tunnel → Prop
  | init : Reachable ⟨.nil, [], 0⟩
  | add {c : Tunnel} (e : TunnelEntry) (now : ℤ) (h : Reachable c)
      (hnew : ∀ e' ∈ inorder c.cache, e'.node ≠ e.node) :
      Reachable (c.fsRtlAddToTunnelCache compareNames maxEntries maxAge e now)
  | find {c : Tunnel} (key : UInt64) (name : List UInt16) (now : ℤ) (h : Reachable c) :
      Reachable (c.fsRtlFindInTunnelCache compareNames maxEntries maxAge key name now).2
  | delete {c : Tunnel} (key : UInt64) (h : Reachable c) :
      Reachable (c.fsRtlDeleteKeyFromTunnelCache maxEntries key)

/-- **A deletion is exact**: of the tree and of the queue just the entries with the key are gone,
and their number from the count. -/
structure DeletesExactly (c : Tunnel) (key : UInt64) : Prop where
  tree : ∀ e, e ∈ inorder (c.fsRtlDeleteKeyFromTunnelCache maxEntries key).cache ↔
    e ∈ inorder c.cache ∧ e.directoryKey ≠ key
  queue : ∀ e, e ∈ (c.fsRtlDeleteKeyFromTunnelCache maxEntries key).timerQueue ↔
    e ∈ c.timerQueue ∧ e.directoryKey ≠ key
  count : (c.fsRtlDeleteKeyFromTunnelCache maxEntries key).numEntries =
    c.numEntries - .ofNat ((inorder c.cache).countP (·.directoryKey = key))

end Calls

/-- The root has the key, and so has each left child down to the first entry with the key. -/
def LeftRun (key : UInt64) : BinaryTree TunnelEntry → Prop
  | .nil => False
  | .node e l _ =>
    e.directoryKey = key ∧ ((∀ e' ∈ inorder l, e'.directoryKey ≠ key) ∨ LeftRun key l)

/-- Keys that descend from left to right. -/
def Descending (l : List TunnelEntry) : Prop :=
  l.Pairwise fun e e' => e'.directoryKey ≤ e.directoryKey

/-- What every call keeps. -/
structure Valid (c : Tunnel) : Prop where
  nodup : ((inorder c.cache).map TunnelEntry.node).Nodup
  queue : c.timerQueue.Perm (inorder c.cache)
  descending : Descending (inorder c.cache)

/-! ### Removing a node -/

section Remove

variable {α : Type*} [DecidableEq α] {t : BinaryTree α} {x : α} {a b : List α}

theorem plug_of_zoom {t l r : BinaryTree α} {way q : List (Frame α)}
    (h : zoom x t way = some (l, r, q)) : plug (.node x l r) q = plug t way := by
  induction t generalizing way with
  | nil => cases h
  | node y l' r' ihl ihr =>
    rw [zoom] at h
    by_cases hy : y = x
    · rw [if_pos hy] at h
      cases h
      rw [hy]
    · rw [if_neg hy, Option.or_eq_some_iff] at h
      rcases h with h | ⟨-, h⟩
      · exact ihl h
      · exact ihr h

theorem zoom_eq_none {way : List (Frame α)} (h : zoom x t way = none) : x ∉ inorder t := by
  induction t generalizing way with
  | nil => simp
  | node y l r ihl ihr =>
    rw [zoom] at h
    by_cases hy : y = x
    · rw [if_pos hy] at h
      cases h
    · rw [if_neg hy, Option.or_eq_none_iff] at h
      simp [ihl h.1, ihr h.2, Ne.symm hy]

section

variable (hnodup : (inorder t).Nodup) (h : inorder t = a ++ x :: b)
include hnodup h

/-- A node of the tree, with what is before and behind it. -/
theorem exists_zoom :
    ∃ l r way, zoom x t [] = some (l, r, way) ∧ before way ++ inorder l = a ∧
      inorder r ++ after way = b := by
  cases hzoom : zoom x t [] with
  | none => exact (zoom_eq_none hzoom (h ▸ by simp)).elim
  | some found =>
    obtain ⟨l, r, way⟩ := found
    have hplug := congrArg inorder (plug_of_zoom hzoom)
    rw [inorder_plug, inorder_node, plug, h, append_assoc, append_assoc, ← append_assoc] at hplug
    -- the node stands only once in the list
    rw [h] at hnodup
    have hnot := (nodup_cons.1 (nodup_middle.1 hnodup)).1
    rw [mem_append, not_or] at hnot
    obtain ⟨ha, -, hb⟩ := (append_cons_inj_of_notMem hnot.1 hnot.2).1 hplug.symm
    exact ⟨l, r, way, rfl, ha.symm, hb.symm⟩

/-- **Removing a node** keeps the order of the others. -/
theorem inorder_removeNode (rebalance : Bool) : inorder (removeNode rebalance x t) = a ++ b := by
  obtain ⟨l, r, way, hzoom, ha, hb⟩ := exists_zoom hnodup h
  have hrest : before way ++ (inorder l ++ inorder r) ++ after way = a ++ b := by
    rw [← ha, ← hb]
    simp
  rw [removeNode, hzoom]
  cases rebalance with
  | false => exact (inorder_plug_lowered l r way).trans hrest
  | true => exact (inorder_delete l r way).trans hrest

theorem realSuccessor_eq : realSuccessor x t = b.head? := by
  obtain ⟨l, r, way, hzoom, -, hb⟩ := exists_zoom hnodup h
  rw [realSuccessor, hzoom, ← hb]

end

theorem removeNode_of_notMem (h : x ∉ inorder t) (rebalance : Bool) :
    removeNode rebalance x t = t := by
  rw [removeNode]
  split
  · next l r way hzoom =>
    have hplug := congrArg inorder (plug_of_zoom hzoom)
    exact (h (hplug ▸ by simp)).elim
  · rfl

end Remove

/-! ### What the calls keep -/

variable {c : Tunnel}

theorem Valid.nodup_inorder (h : c.Valid) : (inorder c.cache).Nodup :=
  h.nodup.of_map

/-- The tree after a removal: the list without the entry. -/
theorem Valid.inorder_remove (h : c.Valid) (e : TunnelEntry) (rebalance : Bool) :
    inorder (c.fsRtlRemoveNodeFromTunnel e rebalance).cache = (inorder c.cache).erase e := by
  by_cases he : e ∈ inorder c.cache
  · obtain ⟨a, b, hsplit⟩ := append_of_mem he
    have hnodup := h.nodup_inorder
    rw [fsRtlRemoveNodeFromTunnel, inorder_removeNode hnodup hsplit, hsplit,
      erase_middle (hsplit ▸ hnodup)]
  · rw [fsRtlRemoveNodeFromTunnel, removeNode_of_notMem he, erase_of_not_mem he]

theorem Valid.remove (h : c.Valid) (e : TunnelEntry) (rebalance : Bool) :
    (c.fsRtlRemoveNodeFromTunnel e rebalance).Valid := by
  have hlist := h.inorder_remove e rebalance
  refine ⟨?_, ?_, ?_⟩
  · rw [hlist]
    exact h.nodup.sublist (erase_sublist.map _)
  · rw [hlist]
    exact h.queue.erase e
  · rw [hlist]
    exact List.Pairwise.sublist erase_sublist h.descending

section Runs

variable {compareNames : List UInt16 → List UInt16 → Ordering} {maxEntries : UInt32} {maxAge : ℤ}
  {key : UInt64} {a b : List TunnelEntry} {t : BinaryTree TunnelEntry}

theorem Valid.prune (h : c.Valid) (now : ℤ) :
    (fsRtlPruneTunnelCache maxEntries maxAge now c).Valid := by
  have hturns : ∀ (queue : List TunnelEntry) (s : Tunnel × Bool), s.1.Valid →
      (queue.foldl (pruneTurn maxAge now) s).1.Valid := by
    intro queue
    induction queue with
    | nil => exact fun s hs => hs
    | cons e queue ih =>
      intro s hs
      refine ih _ ?_
      rw [pruneTurn]
      split
      · exact hs.remove e s.2
      · exact hs
  have hexcess : ∀ (queue : List TunnelEntry) (s : Tunnel × Bool), s.1.Valid →
      (pruneExcess maxEntries queue s).Valid := by
    intro queue
    induction queue with
    | nil => exact fun s hs => hs
    | cons e queue ih =>
      intro s hs
      rw [pruneExcess]
      split
      · exact ih _ (hs.remove e s.2)
      · exact hs
  exact hexcess _ _ (hturns _ _ h)

/-- The comparison says what it says first of all about the keys. -/
theorem compare_key (e : TunnelEntry) (key : UInt64) (name : List UInt16) :
    (fsRtlCompareNodeAndKey compareNames e key name ≠ .lt → e.directoryKey ≤ key) ∧
      (fsRtlCompareNodeAndKey compareNames e key name ≠ .gt → key ≤ e.directoryKey) := by
  unfold fsRtlCompareNodeAndKey
  grind

/-- A way down the tree for a key passes between the greater and the smaller keys, whatever the
names say among equal ones. -/
theorem search_between {name : List UInt16} {p q : List (Frame TunnelEntry)}
    (ht : Descending (inorder t)) (hbefore : ∀ e ∈ before p, key ≤ e.directoryKey)
    (hafter : ∀ e ∈ after p, e.directoryKey ≤ key)
    (h : search (fun e => (fsRtlCompareNodeAndKey compareNames e key name).swap) t p = .vacant q) :
    (∀ e ∈ before q, key ≤ e.directoryKey) ∧ ∀ e ∈ after q, e.directoryKey ≤ key := by
  induction t generalizing p with
  | nil =>
    cases h
    exact ⟨hbefore, hafter⟩
  | node x l r ihl ihr =>
    obtain ⟨hl, hxr, hcross⟩ := pairwise_append.1 ht
    obtain ⟨hx, hr⟩ := pairwise_cons.1 hxr
    rw [search] at h
    split at h
    · next hlt =>
      -- to the left: the key is not smaller
      have hle := (compare_key x key name).1 (by rw [Ordering.swap_eq_lt.1 hlt]; decide)
      refine ihl hl hbefore (p := .left x r :: p) (fun e he => ?_) h
      rw [after_left, cons_append, mem_cons, mem_append] at he
      rcases he with rfl | he | he
      · exact hle
      · exact UInt64.le_trans (hx e he) hle
      · exact hafter e he
    · next hgt =>
      have hle := (compare_key x key name).2 (by rw [Ordering.swap_eq_gt.1 hgt]; decide)
      refine ihr hr (p := .right x l :: p) (fun e he => ?_) hafter h
      rw [before_right, mem_append, mem_append, mem_singleton] at he
      rcases he with he | he | rfl
      · exact hbefore e he
      · exact UInt64.le_trans hle (hcross e he x mem_cons_self)
      · exact hle
    · cases h

/-- A list with a new entry in it, in the tree and at the end of the queue. -/
theorem valid_of_split (hlist : inorder c.cache = a ++ e :: b)
    (hnodup : ((a ++ b).map TunnelEntry.node).Nodup) (hnew : ∀ e' ∈ a ++ b, e'.node ≠ e.node)
    {queue : List TunnelEntry} (hqueue : c.timerQueue = queue ++ [e]) (hperm : queue.Perm (a ++ b))
    (hdescending : Descending (a ++ e :: b)) : c.Valid := by
  refine ⟨?_, ?_, hlist ▸ hdescending⟩
  · rw [hlist, map_append, map_cons, nodup_middle, nodup_cons, ← map_append]
    refine ⟨fun hmem => ?_, hnodup⟩
    obtain ⟨e', he', heq⟩ := mem_map.1 hmem
    exact hnew e' he' heq
  · rw [hlist, hqueue]
    exact (perm_append_singleton e queue).trans
      ((hperm.cons e).trans perm_middle.symm)

theorem Valid.insert (h : c.Valid)
    (hnew : ∀ e' ∈ inorder c.cache, e'.node ≠ e.node) : (c.insert compareNames e).Valid := by
  have hnodup := h.nodup
  have hdescending := h.descending
  have hperm := h.queue
  rw [Tunnel.insert]
  split
  · next old l r way hfind =>
    obtain ⟨hold, a, b, hlist, hbefore, hafter⟩ := search_node hfind
    have hlist' : inorder c.cache = (a ++ inorder l) ++ old :: (inorder r ++ b) := by
      simp [hlist]
    have hkey : old.directoryKey = e.directoryKey := by
      have hcompare := @compare_key compareNames old e.directoryKey (keyName e)
      rw [Ordering.swap_eq_eq.1 hold] at hcompare
      exact UInt64.le_antisymm (hcompare.1 (by decide)) (hcompare.2 (by decide))
    have hsub : ((a ++ inorder l) ++ (inorder r ++ b)).Sublist (inorder c.cache) := by
      rw [hlist']
      exact (sublist_cons_self _ _).append_left _
    refine valid_of_split (a := a ++ inorder l) (b := inorder r ++ b) ?_
      (hnodup.sublist (hsub.map _)) (fun e' he' => hnew e' (hsub.subset he')) rfl ?_ ?_
    · simp [hbefore, hafter]
    · have herase := hperm.erase old
      rwa [hlist', erase_middle (hlist' ▸ h.nodup_inorder)] at herase
    · have hkeys : (a ++ inorder l ++ e :: (inorder r ++ b)).map (·.directoryKey) =
          (inorder c.cache).map (·.directoryKey) := by simp [hlist', hkey]
      have hold := (pairwise_map (R := fun k k' => k' ≤ k)).2 hdescending
      exact pairwise_map.1 (hkeys ▸ hold)
  · next way hfind =>
    have hlist : inorder c.cache = before way ++ after way := by
      have hplug := congrArg inorder (plug_of_search_vacant hfind)
      rw [inorder_plug, inorder_nil, append_nil] at hplug
      exact hplug.symm
    obtain ⟨hbefore, hafter⟩ := search_between hdescending (by simp) (by simp) hfind
    rw [hlist] at hnodup hdescending hperm hnew
    refine valid_of_split (a := before way) (b := after way) ?_ hnodup hnew rfl hperm ?_
    · simp
    · obtain ⟨ha, hb, hcross⟩ := pairwise_append.1 hdescending
      refine pairwise_append.2 ⟨ha, pairwise_cons.2 ⟨hafter, hb⟩, fun x hx y hy => ?_⟩
      rcases mem_cons.1 hy with rfl | hy
      · exact hbefore x hx
      · exact hcross x hx y hy

/-! ### Deleting a key -/

/-- Entries of the key, in a list that descends from it: the first ones. -/
theorem takeWhile_of_descending {l : List TunnelEntry} (hl : Descending l)
    (hle : ∀ e ∈ l, e.directoryKey ≤ key) :
    l.takeWhile (·.directoryKey = key) = l.filter (·.directoryKey = key) ∧
      l.dropWhile (·.directoryKey = key) = l.filter (·.directoryKey ≠ key) := by
  induction l with
  | nil => exact ⟨rfl, rfl⟩
  | cons e l ih =>
    obtain ⟨he, hl⟩ := pairwise_cons.1 hl
    obtain ⟨htake, hdrop⟩ := ih hl fun e' he' => hle e' (mem_cons_of_mem _ he')
    by_cases hkey : e.directoryKey = key
    · simp [hkey, htake, hdrop]
    · -- below the key there is none with the key
      have hnone : ∀ e' ∈ l, e'.directoryKey ≠ key := fun e' he' heq => by
        have hle := hle e mem_cons_self
        have hlow := he e' he'
        grind
      have htake : (e :: l).filter (·.directoryKey = key) = [] := by simpa [hkey] using hnone
      have hdrop : (e :: l).filter (·.directoryKey ≠ key) = e :: l := by simpa [hkey] using hnone
      rw [htake, hdrop]
      simp [hkey]

/-- **The second loop**, by induction over the entries behind the last one found: the run of entries
with the key is gone. -/
theorem Valid.deleteLoop (h : c.Valid) (key : UInt64) (hlist : inorder c.cache = a ++ last :: b)
    {fuel : ℕ} (hfuel : b.length < fuel) (rebalance : Bool) :
    (c.deleteLoop key fuel last rebalance).Valid ∧
      inorder (c.deleteLoop key fuel last rebalance).cache =
        a ++ (last :: b).dropWhile (·.directoryKey = key) ∧
      (c.deleteLoop key fuel last rebalance).numEntries =
        c.numEntries - .ofNat ((last :: b).takeWhile (·.directoryKey = key)).length := by
  obtain ⟨fuel, rfl⟩ := Nat.exists_eq_succ_of_ne_zero (Nat.ne_of_gt (Nat.zero_lt_of_lt hfuel))
  induction b generalizing c last fuel rebalance with
  | nil =>
    rw [Tunnel.deleteLoop, realSuccessor_eq h.nodup_inorder hlist]
    by_cases hkey : last.directoryKey = key
    · have hremove := inorder_removeNode h.nodup_inorder hlist rebalance
      rw [if_neg (not_not.2 hkey)]
      simp only [hkey, dropWhile_cons, takeWhile_cons]
      exact ⟨h.remove last rebalance, hremove, rfl⟩
    · rw [if_pos hkey]
      exact ⟨h, by simpa [hkey] using hlist, by simp [hkey]⟩
  | cons next b ih =>
    rw [Tunnel.deleteLoop, realSuccessor_eq h.nodup_inorder hlist]
    by_cases hkey : last.directoryKey = key
    · have hremove := inorder_removeNode h.nodup_inorder hlist rebalance
      obtain ⟨fuel, rfl⟩ := Nat.exists_eq_succ_of_ne_zero
        (Nat.ne_of_gt (Nat.zero_lt_of_lt (Nat.lt_of_succ_lt_succ hfuel)))
      obtain ⟨hvalid, htree, hcount⟩ :=
        ih (h.remove last rebalance) hremove false fuel (Nat.lt_of_succ_lt_succ hfuel)
      rw [if_neg (not_not.2 hkey), dropWhile_cons_of_pos (by simpa using hkey),
        takeWhile_cons_of_pos (by simpa using hkey), length_cons, UInt16.ofNat_add]
      refine ⟨hvalid, htree, hcount.trans ?_⟩
      generalize UInt16.ofNat _ = n
      rw [fsRtlRemoveNodeFromTunnel]
      grind
    · rw [if_pos hkey]
      exact ⟨h, by simpa [hkey] using hlist, by simp [hkey]⟩

theorem lastEntry_of_forall_ne (h : ∀ e ∈ inorder t, e.directoryKey ≠ key)
    (last : Option TunnelEntry) : lastEntry key last t = last := by
  induction t with
  | nil => rfl
  | node e l r ihl ihr =>
    have hl := ihl fun e' he' => h e' (by simp [he'])
    have hr := ihr fun e' he' => h e' (by simp [he'])
    have he := h e (by simp)
    rw [lastEntry]
    grind

/-- Where all keys are at least the one looked for, the first loop goes to the left, along the
entries with the key. -/
theorem exists_lastEntry (ht : Descending (inorder t)) (hle : ∀ e ∈ inorder t, key ≤ e.directoryKey)
    (hlast : last.directoryKey = key) :
    ∃ a z b, lastEntry key (some last) t = some z ∧ z.directoryKey = key ∧
      inorder t ++ [last] = a ++ z :: b ∧
      ((∀ e ∈ a, e.directoryKey ≠ key) ↔
        (∀ e ∈ inorder t, e.directoryKey ≠ key) ∨ LeftRun key t) := by
  induction t generalizing last with
  | nil => exact ⟨[], last, [], rfl, hlast, rfl, by simp⟩
  | node e l r ihl ihr =>
    obtain ⟨hl, hxr, hcross⟩ := pairwise_append.1 ht
    have hlel : ∀ e' ∈ inorder l, key ≤ e'.directoryKey := fun e' he' => hle e' (by simp [he'])
    have hkey := hle e (by simp)
    rw [lastEntry]
    by_cases hlt : key < e.directoryKey
    · have hnone : ∀ e' ∈ inorder l, e'.directoryKey ≠ key := fun e' he' heq => by
        have hge := hcross e' he' e mem_cons_self
        grind
      rw [if_pos hlt, lastEntry_of_forall_ne hnone]
      refine ⟨inorder (.node e l r), last, [], rfl, hlast, rfl, ?_⟩
      simp only [LeftRun]
      grind
    · have heq : e.directoryKey = key := by grind
      rw [if_neg hlt, if_neg (by grind)]
      obtain ⟨a, z, b, hz, hzkey, hsplit, hiff⟩ := ihl hl hlel heq
      refine ⟨a, z, b ++ (inorder r ++ [last]), hz, hzkey, ?_, ?_⟩
      · calc inorder (.node e l r) ++ [last]
          _ = (inorder l ++ [e]) ++ (inorder r ++ [last]) := by simp
          _ = a ++ z :: (b ++ (inorder r ++ [last])) := by simp [hsplit]
      · have hroot : ¬ ∀ e' ∈ inorder (.node e l r), e'.directoryKey ≠ key := fun hall =>
          hall e (by simp) heq
        rw [hiff, LeftRun, or_iff_right hroot, and_iff_right heq]

/-- The entry that the first loop finds: none, though there may be some, unless the root has the
key. -/
theorem Valid.lastEntry (h : c.Valid) (hmem : ∃ e ∈ inorder c.cache, e.directoryKey = key) :
    (lastEntry key none c.cache = none ∧ ¬ LeftRun key c.cache) ∨
      ∃ a z b, lastEntry key none c.cache = some z ∧ z.directoryKey = key ∧
        inorder c.cache = a ++ z :: b ∧
          ((∀ e ∈ a, e.directoryKey ≠ key) ↔ LeftRun key c.cache) := by
  have hdescending := h.descending
  cases hcache : c.cache with
  | nil => simp [hcache] at hmem
  | node e l r =>
    rw [hcache] at hdescending
    obtain ⟨hl, hxr, hcross⟩ := pairwise_append.1 hdescending
    obtain ⟨hr, -⟩ := pairwise_cons.1 hxr
    rw [Tunnel.lastEntry]
    by_cases hkey : e.directoryKey = key
    · obtain ⟨a, z, b, hz, hzkey, hsplit, hiff⟩ := exists_lastEntry hl
        (fun e' he' => hkey ▸ hcross e' he' e mem_cons_self) hkey
      refine .inr ⟨a, z, b ++ inorder r, ?_, hzkey, ?_, ?_⟩
      · rw [if_neg (by grind), if_neg (by grind), hz]
      · calc inorder (.node e l r) = (inorder l ++ [e]) ++ inorder r := by simp
          _ = a ++ z :: (b ++ inorder r) := by simp [hsplit]
      · rw [hiff, LeftRun, and_iff_right hkey]
    · -- the loop turns away from the side on which the key may be
      refine .inl ⟨?_, fun hrun => hkey hrun.1⟩
      by_cases hlt : key < e.directoryKey
      · rw [if_pos hlt]
        refine lastEntry_of_forall_ne (fun e' he' heq => ?_) none
        have hge := hcross e' he' e mem_cons_self
        grind
      · rw [if_neg hlt, if_pos (by grind)]
        refine lastEntry_of_forall_ne (fun e' he' heq => ?_) none
        have hge := hr e' he'
        grind

theorem Valid.delete (h : c.Valid) (key : UInt64) :
    (c.fsRtlDeleteKeyFromTunnelCache maxEntries key).Valid := by
  rw [fsRtlDeleteKeyFromTunnelCache]
  split
  · exact h
  · split
    · exact h
    · next last hlast =>
      by_cases hmem : ∃ e ∈ inorder c.cache, e.directoryKey = key
      · rcases h.lastEntry hmem with ⟨hnone, -⟩ | ⟨a, z, b, hz, -, hlist, -⟩
        · rw [hnone] at hlast
          cases hlast
        · obtain rfl := Option.some.inj (hz.symm.trans hlast)
          exact (h.deleteLoop key hlist (by simp [hlist]; omega) true).1
      · push Not at hmem
        rw [lastEntry_of_forall_ne hmem] at hlast
        cases hlast

/-- Every state of a cache is valid. -/
theorem Reachable.valid (h : Reachable compareNames maxEntries maxAge c) : c.Valid := by
  induction h with
  | init => exact ⟨by simp, by simp, by simp [Descending]⟩
  | add e now h hnew ih =>
    rw [fsRtlAddToTunnelCache]
    split
    · exact ih
    · exact (ih.insert hnew).prune now
  | find key name now h ih =>
    rw [fsRtlFindInTunnelCache]
    split
    · exact ih
    · exact ih.prune now
  | delete key h ih => exact ih.delete key

theorem Reachable.cache_of_disabled (h : Reachable compareNames 0 maxAge c) : c.cache = .nil := by
  induction h with
  | init => rfl
  | add e now h hnew ih => exact ih
  | find key name now h ih => exact ih
  | delete key h ih => exact ih

/-- **Deleting a key is exact if and only if** there is no entry with the key, or the entries with
the key begin with a run down the left side from the root. -/
theorem deletesExactly_iff {c : Tunnel} (hc : Reachable compareNames maxEntries maxAge c)
    (key : UInt64) :
    DeletesExactly maxEntries c key ↔
      (∀ e ∈ inorder c.cache, e.directoryKey ≠ key) ∨ LeftRun key c.cache := by
  have h := hc.valid
  have hqueue : ∀ e, e ∈ c.timerQueue ↔ e ∈ inorder c.cache := fun e => h.queue.mem_iff
  have hqueue' : ∀ e, e ∈ (c.fsRtlDeleteKeyFromTunnelCache maxEntries key).timerQueue ↔
      e ∈ inorder (c.fsRtlDeleteKeyFromTunnelCache maxEntries key).cache := fun e =>
    (h.delete key).queue.mem_iff
  by_cases hmem : ∃ e ∈ inorder c.cache, e.directoryKey = key
  · have henabled : maxEntries ≠ 0 := by
      rintro rfl
      simp [hc.cache_of_disabled] at hmem
    have hnot : ¬ ∀ e ∈ inorder c.cache, e.directoryKey ≠ key := by
      push Not
      exact hmem
    rw [or_iff_right hnot]
    rcases h.lastEntry hmem with ⟨hnone, hrun⟩ | ⟨a, z, b, hz, hzkey, hlist, hiff⟩
    · -- nothing is found, and nothing deleted
      have hsame : c.fsRtlDeleteKeyFromTunnelCache maxEntries key = c := by
        rw [fsRtlDeleteKeyFromTunnelCache, if_neg henabled, hnone]
      refine iff_of_false (fun hexact => ?_) hrun
      obtain ⟨e, he, hkey⟩ := hmem
      exact ((hexact.tree e).1 (by rwa [hsame])).2 hkey
    · have hdelete : c.fsRtlDeleteKeyFromTunnelCache maxEntries key =
          c.deleteLoop key (inorder c.cache).length z true := by
        rw [fsRtlDeleteKeyFromTunnelCache, if_neg henabled, hz]
      obtain ⟨-, htree, hcount⟩ := h.deleteLoop key hlist
        (show b.length < (inorder c.cache).length by simp [hlist]; omega) true
      have hdescending := h.descending
      rw [hlist] at hdescending
      obtain ⟨-, hzb, -⟩ := pairwise_append.1 hdescending
      have hle : ∀ e ∈ z :: b, e.directoryKey ≤ key := fun e he => by
        rcases mem_cons.1 he with rfl | he
        · exact hzkey ▸ UInt64.le_refl _
        · exact hzkey ▸ (pairwise_cons.1 hzb).1 e he
      obtain ⟨htake, hdrop⟩ := takeWhile_of_descending hzb hle
      rw [← hdelete, hdrop] at htree
      rw [← hdelete, htake] at hcount
      rw [← hiff]
      constructor
      · intro hexact e he
        exact ((hexact.tree e).1 (htree ▸ mem_append_left _ he)).2
      · intro hnone
        have htree' : ∀ e, e ∈ inorder (c.fsRtlDeleteKeyFromTunnelCache maxEntries key).cache ↔
            e ∈ inorder c.cache ∧ e.directoryKey ≠ key := fun e => by
          rw [htree, hlist, mem_append, mem_append, mem_filter]
          have hne := hnone e
          grind
        refine ⟨htree', fun e => ?_, ?_⟩
        · rw [hqueue', hqueue, htree']
        · have hzero : a.countP (·.directoryKey = key) = 0 :=
            countP_eq_zero.2 fun e he => by simpa using hnone e he
          rw [hcount, hlist, countP_append, hzero, zero_add, countP_eq_length_filter]
  · push Not at hmem
    have hsame : c.fsRtlDeleteKeyFromTunnelCache maxEntries key = c := by
      rw [fsRtlDeleteKeyFromTunnelCache, lastEntry_of_forall_ne hmem, ite_self]
    have hzero : (inorder c.cache).countP (·.directoryKey = key) = 0 :=
      countP_eq_zero.2 fun e he => by simpa using hmem e he
    refine iff_of_true ⟨fun e => ?_, fun e => ?_, ?_⟩ (.inl hmem)
    · rw [hsame]
      exact ⟨fun he => ⟨he, hmem e he⟩, And.left⟩
    · rw [hsame]
      exact ⟨fun he => ⟨he, hmem e ((hqueue e).1 he)⟩, And.left⟩
    · rw [hsame, hzero]
      simp

end Runs

/-- An entry of a directory at an address. -/
def sample (node : ℕ) (key : UInt64) : TunnelEntry := ⟨node, 0, key, false, [], [], []⟩

/-- The cache with an entry of directory 2 and then one of directory 1. -/
def twoDirectories : Tunnel :=
  ((⟨.nil, [], 0⟩ : Tunnel).fsRtlAddToTunnelCache (fun _ _ => .eq) 256 1 (sample 0 2) 0
    ).fsRtlAddToTunnelCache (fun _ _ => .eq) 256 1 (sample 1 1) 0

theorem reachable_twoDirectories : Reachable (fun _ _ => .eq) 256 1 twoDirectories :=
  .add (sample 1 1) 0 (.add (sample 0 2) 0 .init (by simp)) (by decide)

/-- The directory at the root is deleted as it should be. -/
theorem deletesExactly_twoDirectories : DeletesExactly 256 twoDirectories 2 :=
  (deletesExactly_iff reachable_twoDirectories 2).2 (.inr ⟨by decide, .inl (by decide)⟩)

/-- The other one, to the right of it, is looked for on the left. -/
theorem not_deletesExactly_twoDirectories : ¬ DeletesExactly 256 twoDirectories 1 := by
  intro h
  exact ((h.tree (sample 1 1)).1 (by decide)).2 rfl

end Tunnel

end Windivs

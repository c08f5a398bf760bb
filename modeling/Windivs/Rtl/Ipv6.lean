import Windivs.Lib.Loop
import Windivs.Rtl.Ipv6Text

/-!
# IPv6 addresses as text: parsing

`RtlIpv6StringToAddressW` and `RtlIpv6StringToAddressExW` of `sdk/lib/rtl/network.c`, and the round
trip of an address with its scope and port.

The parser writes the words it reads one after the other into the address, notes where it has seen
`::`, and moves the words behind it to the end when it is done. A turn of its loop reads a number, a
colon or a double colon; each kind of turn has its lemma, and a run over printed words is put
together from them (`Windivs.RtlNetwork.leaves_colonWords`).
-/

namespace Windivs

open List Function

namespace RtlNetwork

/-! ### The routines -/

/-- `isxdigit`, as `libcntpr` has it: the table is read at the low byte. -/
def isxdigit (c : ℕ) : Prop :=
  isdigit c ∨ 0x41 ≤ c % 0x100 ∧ c % 0x100 ≤ 0x46 ∨ 0x61 ≤ c % 0x100 ∧ c % 0x100 ≤ 0x66

instance (c : ℕ) : Decidable (isxdigit c) := inferInstanceAs (Decidable (_ ∨ _))

/-- The loop of `RtlpClassifyChars`: the number of characters and the base. -/
def classifyLoop : List UInt16 → ℕ → ℕ → ℕ × ℕ
  | [], len, base => (len, base)
  | c :: s, len, base =>
    if c.toNat < 0x80 ∧ isdigit c.toNat then classifyLoop s (len + 1) (max base 10)
    else if c.toNat < 0x80 ∧ isxdigit c.toNat then classifyLoop s (len + 1) 16
    else (len, base)

/-- `RtlpClassifyChars`. -/
def rtlpClassifyChars (s : List UInt16) : ℕ × ℕ := classifyLoop s 0 0

/-- What the parser has read last. -/
inductive Last where
  | none
  | number
  | colon
  | doubleColon
  deriving DecidableEq, Repr

/-- The variables of the parser, with the words at `Addr`. `StartSkip` is `none` for `-1`, and
`hexTerminator` is what has been stored in `*Terminator` when `SkipoutLastHex` is set. -/
structure Scan where
  s : List UInt16
  n : ℕ
  startSkip : Option ℕ
  parts : ℕ
  status : Status
  last : Last
  hexTerminator : Option (List UInt16)
  words : ℕ → UInt16

/-- How the loop of the parser ends. -/
inductive Exit where
  /-- At its condition or by `break`. -/
  | done (st : Scan)
  /-- By `return`, with nothing stored in `*Terminator`. -/
  | failed (st : Scan)

/-- `Addr->s6_bytes[i] = b`. -/
def setByte (words : ℕ → UInt16) (i b : ℕ) : ℕ → UInt16 :=
  Function.update words (i / 2)
    (if i % 2 = 0 then .ofNat ((words (i / 2)).toNat / 0x100 * 0x100 + b)
    else .ofNat (b * 0x100 + (words (i / 2)).toNat % 0x100))

/-- The loop over the parts of a contained IPv4 address, from index `j` on. -/
def storeParts (count : ℕ) : List ℕ → ℕ → Scan → Exit
  | [], _, st => .done st
  | v :: vs, j, st =>
    if 255 < v then
      if j ≠ 3 then .failed { st with status := .invalidParameter }
      else .done { st with status := .invalidParameter }
    else if j = count - 1 ∧ (j < 3 ∨ charAt st.s 0 = 0x3A ∧ st.startSkip = none ∨
        st.startSkip = none ∧ st.n < 6 ∨ st.status = .invalidParameter) then
      .done { st with status := .invalidParameter }
    else storeParts count vs (j + 1) { st with words := setByte st.words (st.n * 2 + j) (v % 0x100) }

/-- The branch of the parser for a contained IPv4 address. -/
def readQuad (upper : ℕ → Bool) (fresh : ℕ → ℕ) (st : Scan) : Exit :=
  let r := rtlpIpv4StringToAddressParserW upper fresh st.s true
  match storeParts r.values.length r.values 0
    { st with s := r.terminator, status := r.status, last := .number } with
  | .failed st => .failed st
  | .done st => .done { st with n := st.n + 2, parts := st.parts + 2 }

/-- The branch of the parser for a number. -/
def readWord (upper : ℕ → Bool) (len : ℕ) (st : Scan) : Turn Scan Exit :=
  -- a number that starts with `0x` is read behind the prefix, and nothing is read after it
  let hex := len = 1 ∧ towlower upper (charAt st.s len) = 0x78 ∧ charAt st.s 0 = 0x30 ∧
    0 < (rtlpClassifyChars (st.s.drop 2)).1 ∧ (rtlpClassifyChars (st.s.drop 2)).1 ≤ 4
  let st := if hex then { st with s := st.s.drop 2, hexTerminator := some (st.s.drop 1) } else st
  let r := rtlpStringToUlongBase upper st.s 16
  let st := { st with s := r.terminator, status := r.status }
  if r.status ≠ .success then .leave (.done st)
  else
    let st := { st with
      parts := if st.startSkip = none then st.parts else st.parts + 1
      words := Function.update st.words st.n (.ofNat (wn2h r.out))
      n := st.n + 1
      last := .number }
    if st.hexTerminator.isSome then .leave (.done st) else .again st

/-- One turn of the loop of `RtlIpv6StringToAddressW`. -/
def ipv6Turn (upper : ℕ → Bool) (fresh : ℕ → ℕ) (st : Scan) : Turn Scan Exit :=
  if st.n < 8 then
    let (len, base) := rtlpClassifyChars st.s
    if len = 0 then
      if charAt st.s 0 ≠ 0x3A ∨ st.last = .colon then .leave (.done st)
      else if st.startSkip = none ∧ charAt st.s 1 = 0x3A then
        let st := if st.n = 0 then
            { st with words := Function.update (Function.update st.words 0 0) 1 0, n := 2 }
          else st
        .again { st with startSkip := some st.n, s := st.s.drop 2, last := .doubleColon }
      else if charAt st.s 1 = 0x3A ∨ st.last ≠ .number then .leave (.done st)
      else .again { st with s := st.s.drop 1, last := .colon }
    else if 4 < len then
      if st.last ≠ .doubleColon then .leave (.failed { st with status := .invalidParameter })
      else .leave (.done { st with status := .invalidParameter, s := st.s.drop len })
    else if charAt st.s len = 0x2E ∧ st.n ≤ 6 then .leave (readQuad upper fresh st)
    else if charAt st.s len ≠ 0x3A ∧ st.n < 7 ∧ st.startSkip = none then
      .leave (.done { st with
        status := .invalidParameter
        s := if base ≠ 0 then st.s.drop len else st.s })
    else readWord upper len st
  else .leave (.done st)

/-- The `memmove` and the `memset` that expand a `::` at index `k`. -/
def expand (words : ℕ → UInt16) (k parts : ℕ) : ℕ → UInt16 := fun i =>
  if k ≤ i ∧ i < 8 - parts then 0
  else if 8 - parts ≤ i ∧ i < 8 then words (k + (i - (8 - parts)))
  else words i

/-- What `RtlIpv6StringToAddressW` returns, with what it stores in `*Terminator`. -/
structure Ipv6Result where
  status : Status
  terminator : Option (List UInt16)
  words : ℕ → UInt16

/-- What `RtlIpv6StringToAddressW` does after its loop. -/
def finish (st : Scan) : Ipv6Result :=
  let terminator := if st.hexTerminator.isSome then st.hexTerminator else some st.s
  match st.startSkip with
  | some k =>
    if st.status ≠ .invalidParameter ∧ st.last ≠ .colon then
      ⟨st.status, terminator, expand st.words k st.parts⟩
    else ⟨if st.n < 8 then .invalidParameter else st.status, terminator, st.words⟩
  | none => ⟨if st.n < 8 then .invalidParameter else st.status, terminator, st.words⟩

/-- `RtlIpv6StringToAddressW`, for an address with `words` before. The result is `none` only if the
budget of the loop were spent. -/
def rtlIpv6StringToAddressW (upper : ℕ → Bool) (fresh : ℕ → ℕ) (s : List UInt16)
    (words : ℕ → UInt16) : Option Ipv6Result :=
  (loop (ipv6Turn upper fresh) (s.length + 1) ⟨s, 0, none, 0, .success, .none, none, words⟩).map
    fun
    | .done st => finish st
    | .failed st => ⟨st.status, none, st.words⟩

/-- What `RtlIpv6StringToAddressExW` returns, with what it stores in `*ScopeId` and `*Port`. -/
structure Ipv6ExResult where
  status : Status
  words : ℕ → UInt16
  out : Option (ℕ × UInt16)

/-- The end of `RtlIpv6StringToAddressExW`, which is reached when the port is read. -/
def finishEx (words : ℕ → UInt16) (s : List UInt16) (scope port : ℕ) : Ipv6ExResult :=
  if charAt s 0 = 0 then ⟨.success, words, some (scope, .ofNat (wn2h port))⟩
  else ⟨.invalidParameter, words, none⟩

/-- The part of `RtlIpv6StringToAddressExW` that reads the port, behind a `[`. -/
def readPort (upper : ℕ → Bool) (words : ℕ → UInt16) (s : List UInt16) (scope : ℕ) :
    Ipv6ExResult :=
  if charAt s 0 ≠ 0x5D then ⟨.invalidParameter, words, none⟩
  else if charAt s 1 = 0x3A then
    let s := s.drop 2
    if charAt s 0 = 0x30 ∧ towlower upper (charAt s 1) ≠ 0x78 then ⟨.invalidParameter, words, none⟩
    else
      let r := if charAt s 0 = 0x30 then rtlpStringToUlongBase upper (s.drop 2) 16
        else rtlpStringToUlongBase upper s 10
      if r.status ≠ .success ∨ 0xFFFF < r.out then ⟨.invalidParameter, words, none⟩
      else finishEx words r.terminator scope r.out
  else finishEx words (s.drop 1) scope 0

/-- The part of `RtlIpv6StringToAddressExW` behind the address. -/
def readScope (upper : ℕ → Bool) (words : ℕ → UInt16) (s : List UInt16) (bracket : Bool) :
    Ipv6ExResult :=
  if charAt s 0 = 0x25 then
    let r := rtlpStringToUlongBase upper (s.drop 1) 10
    if r.status ≠ .success then ⟨.invalidParameter, words, none⟩
    else if bracket then readPort upper words r.terminator r.out
    else finishEx words r.terminator r.out 0
  else if charAt s 0 ≠ 0 ∧ ¬ (bracket ∧ charAt s 0 = 0x5D) then ⟨.invalidParameter, words, none⟩
  else if bracket then readPort upper words s 0
  else finishEx words s 0 0

/-- `RtlIpv6StringToAddressExW`. -/
def rtlIpv6StringToAddressExW (upper : ℕ → Bool) (fresh : ℕ → ℕ) (s : List UInt16)
    (words : ℕ → UInt16) : Option Ipv6ExResult :=
  let bracket := decide (charAt s 0 = 0x5B)
  let s := if bracket then s.drop 1 else s
  (rtlIpv6StringToAddressW upper fresh s words).map fun r =>
    if r.status ≠ .success then ⟨.invalidParameter, r.words, none⟩
    else readScope upper r.words (r.terminator.getD s) bracket

/-! ### What the characters are -/

variable {upper : ℕ → Bool} {fresh : ℕ → ℕ} {words M addr : ℕ → UInt16}
  {rest tail t l : List UInt16} {n k e parts : ℕ} {skip : Option ℕ} {last : Last} {r : Exit}
  {s : List UInt16} {m : ℕ}

/-- What may follow a word. -/
def Sep (rest : List UInt16) : Prop := ∀ c ∈ rest.head?, c = 0x3A ∨ c = 0x25 ∨ c = 0x5D

/-- What may follow an address. -/
def Tail (rest : List UInt16) : Prop := ∀ c ∈ rest.head?, c = 0x25 ∨ c = 0x5D

theorem Tail.sep (h : Tail rest) : Sep rest := fun c hc => .inr (h c hc)

theorem sep_colon (rest : List UInt16) : Sep (0x3A :: rest) := fun c hc =>
  .inl (by simpa using hc.symm)

/-- A character that `RtlpClassifyChars` counts. -/
def Counted (c : UInt16) : Prop := c.toNat < 0x80 ∧ isxdigit c.toNat

instance (c : UInt16) : Decidable (Counted c) := inferInstanceAs (Decidable (_ ∧ _))

theorem classifyLoop_append {ds : List UInt16} (hds : ∀ c ∈ ds, Counted c)
    (hrest : ∀ c ∈ rest.head?, ¬ Counted c) (len base : ℕ) :
    ∃ base', classifyLoop (ds ++ rest) len base = (len + ds.length, base') := by
  induction ds generalizing len base with
  | nil =>
    cases rest with
    | nil => exact ⟨base, rfl⟩
    | cons c rest =>
      have hc := hrest c rfl
      refine ⟨base, ?_⟩
      rw [nil_append, classifyLoop, if_neg fun h => hc ⟨h.1, .inl h.2⟩]
      exact if_neg hc
  | cons c ds ih =>
    obtain ⟨hc, hds⟩ := forall_mem_cons.1 hds
    rw [cons_append, classifyLoop, length_cons, ← Nat.add_assoc, Nat.add_right_comm]
    split
    · exact ih hds _ _
    · obtain ⟨base', h⟩ := ih hds (len + 1) 16
      exact ⟨base', (if_pos hc).trans h⟩

theorem rtlpClassifyChars_append {ds : List UInt16} (hds : ∀ c ∈ ds, Counted c)
    (hrest : ∀ c ∈ rest.head?, ¬ Counted c) :
    ∃ base, rtlpClassifyChars (ds ++ rest) = (ds.length, base) := by
  obtain ⟨base, h⟩ := classifyLoop_append hds hrest 0 0
  exact ⟨base, by rw [rtlpClassifyChars, h, Nat.zero_add]⟩

theorem Sep.not_counted (h : Sep rest) : ∀ c ∈ rest.head?, ¬ Counted c := fun c hc => by
  rcases h c hc with rfl | rfl | rfl <;> decide

theorem Sep.digit_eq_none (h : Sep rest) (hupper : KnowsAscii upper) {base : ℕ}
    (hbase : IsBase base) : ∀ c ∈ rest.head?, digit upper base c.toNat = none := fun c hc => by
  rcases h c hc with rfl | rfl | rfl
  all_goals
    rw [digit_of_ascii hupper hbase (by decide)]
    rcases hbase with rfl | rfl | rfl <;> decide

theorem Tail.ends (h : Tail rest) (hupper : KnowsAscii upper) : Ends upper rest := fun c hc => by
  refine ⟨h.sep.digit_eq_none hupper (.inr (.inl rfl)) c hc, ?_⟩
  rcases h c hc with rfl | rfl <;> decide

theorem counted_digitChar {d : ℕ} (hd : d < 16) : Counted (digitChar d) := by
  rw [Counted, isxdigit, isdigit, toNat_digitChar hd]
  split <;> omega

theorem counted_printNumber {base : ℕ} (hbase : IsBase base) :
    ∀ c ∈ printNumber base m, Counted c := by
  intro c hc
  obtain ⟨d, hd, rfl⟩ := mem_map.1 hc
  have hlt := numeral_lt (one_lt_of_isBase hbase) hd
  rw [IsBase] at hbase
  exact counted_digitChar (by omega)

theorem charAt_append_length (ds rest : List UInt16) :
    charAt (ds ++ rest) ds.length = charAt rest 0 := by
  rw [charAt, charAt, getD_eq_getElem?_getD, getElem?_append_right le_rfl, Nat.sub_self,
    getD_eq_getElem?_getD]

/-- What follows a word or an address is no `x`. -/
theorem Sep.towlower_ne (h : Sep rest) (hupper : KnowsAscii upper) :
    towlower upper (charAt rest 0) ≠ 0x78 := by
  have hlow : ∀ c, c < 0x80 → ¬ (0x41 ≤ c ∧ c ≤ 0x5A) → towlower upper c = c := fun c hc hno => by
    rw [towlower, if_neg fun hup => hno ((hupper c hc).1 hup)]
  cases rest with
  | nil =>
    rw [show charAt [] 0 = 0 from rfl, hlow 0 (by decide) (by decide)]
    decide
  | cons c rest =>
    rw [charAt_zero_cons]
    rcases h c rfl with rfl | rfl | rfl
    all_goals
      rw [hlow _ (by decide) (by decide)]
      decide

theorem hexText_cons (w : UInt16) : ∃ c ds, hexText w = c :: ds ∧ Counted c := by
  obtain ⟨c, ds, h⟩ := exists_cons_of_ne_nil (printNumber_ne_nil 16 (wn2h w.toNat))
  exact ⟨c, ds, h, counted_printNumber (.inr (.inr rfl)) c (by rw [h]; exact mem_cons_self)⟩

theorem charAt_eq_iff {c : UInt16} (hc : c ≠ 0) : charAt s 0 = c.toNat ↔ s.head? = some c := by
  cases s with
  | nil =>
    refine ⟨fun h => absurd (eq_iff_toNat_eq.2 h.symm) hc, (by cases ·)⟩
  | cons d s =>
    rw [charAt_zero_cons, head?_cons, Option.some_inj, eq_iff_toNat_eq]

/-! ### The turns of the parser -/

/-- A word is read. -/
theorem ipv6Turn_word (hupper : KnowsAscii upper) (w : UInt16) (hn : n < 8) (hsep : Sep rest)
    (hnext : skip ≠ none ∨ rest.head? = some 0x3A ∨ n = 7) :
    ipv6Turn upper fresh ⟨hexText w ++ rest, n, skip, parts, .success, last, none, words⟩ =
      .again ⟨rest, n + 1, skip, if skip = none then parts else parts + 1, .success, .number, none,
        update words n w⟩ := by
  have hbase : IsBase 16 := .inr (.inr rfl)
  have hcounted : ∀ c ∈ hexText w, Counted c := counted_printNumber hbase
  obtain ⟨base, hclass⟩ := rtlpClassifyChars_append hcounted hsep.not_counted
  have hlen := length_hexText_le w
  have hpos : (hexText w).length ≠ 0 := fun h =>
    printNumber_ne_nil 16 (wn2h w.toNat) (length_eq_zero_iff.1 h)
  have hdot : charAt rest 0 ≠ 0x2E := fun h => by
    rcases hsep 0x2E (charAt_eq_dot.1 h) with h | h | h <;> exact absurd h (by decide)
  have hgo : ¬ (charAt rest 0 ≠ 0x3A ∧ n < 7 ∧ skip = none) := by
    rintro ⟨hcolon, hlt, hnone⟩
    rcases hnext with h | h | h
    · exact h hnone
    · exact hcolon ((charAt_eq_iff (by decide)).2 h)
    · omega
  have hhex : ∀ p, ¬ ((hexText w).length = 1 ∧
      towlower upper (charAt (hexText w ++ rest) (hexText w).length) = 0x78 ∧ p) := by
    rintro p ⟨-, h, -⟩
    rw [charAt_append_length] at h
    exact hsep.towlower_ne hupper h
  have hread : rtlpStringToUlongBase upper (hexText w ++ rest) 16 =
      ⟨.success, rest, wn2h w.toNat⟩ :=
    rtlpStringToUlongBase_printNumber hupper hbase ((wn2h_lt _).trans (by decide))
      (hsep.digit_eq_none hupper hbase)
  have hword : UInt16.ofNat (wn2h (wn2h w.toNat)) = w := by
    rw [wn2h_wn2h w.toNat_lt, UInt16.ofNat_toNat]
  rw [ipv6Turn, if_pos hn]
  dsimp only
  rw [hclass]
  rw [if_neg hpos, if_neg (by omega), charAt_append_length, if_neg fun h => hdot h.1, if_neg hgo,
    readWord]
  rw [if_neg (hhex _)]
  rw [hread]
  rw [hword]
  rfl

theorem rtlpClassifyChars_of_not_counted (h : ∀ c ∈ s.head?, ¬ Counted c) :
    ∃ base, rtlpClassifyChars s = (0, base) := by
  have hnil : ∀ c ∈ ([] : List UInt16), Counted c := by simp
  exact rtlpClassifyChars_append hnil h

/-- A colon is read between two numbers. -/
theorem ipv6Turn_colon (hn : n < 8) (hrest : rest.head? ≠ some 0x3A) :
    ipv6Turn upper fresh ⟨0x3A :: rest, n, skip, parts, .success, .number, none, words⟩ =
      .again ⟨rest, n, skip, parts, .success, .colon, none, words⟩ := by
  obtain ⟨base, hclass⟩ := rtlpClassifyChars_of_not_counted (sep_colon rest).not_counted
  have hone : charAt (0x3A :: rest) 1 ≠ 0x3A := fun h =>
    hrest ((charAt_eq_iff (by decide)).1 h)
  rw [ipv6Turn, if_pos hn]
  dsimp only
  rw [hclass]
  rw [if_pos rfl, if_neg, if_neg fun h => hone h.2, if_neg]
  · rfl
  · rintro (h | h)
    exacts [hone h, h rfl]
  · rintro (h | h)
    exacts [h rfl, by cases h]

/-- A double colon is read. -/
theorem ipv6Turn_doubleColon (hn : n < 8) (hlast : last ≠ .colon) :
    ipv6Turn upper fresh ⟨0x3A :: 0x3A :: rest, n, none, parts, .success, last, none, words⟩ =
      .again ⟨rest, if n = 0 then 2 else n, some (if n = 0 then 2 else n), parts, .success,
        .doubleColon, none,
        if n = 0 then update (update words 0 0) 1 0 else words⟩ := by
  obtain ⟨base, hclass⟩ :=
    rtlpClassifyChars_of_not_counted (sep_colon (0x3A :: rest)).not_counted
  rw [ipv6Turn, if_pos hn]
  dsimp only
  rw [hclass]
  rw [if_pos rfl, if_neg]
  · by_cases hzero : n = 0
    · rw [if_pos hzero, if_pos hzero, if_pos hzero]
      rfl
    · rw [if_neg hzero, if_neg hzero, if_neg hzero]
      rfl
  · rintro (h | h)
    exacts [h rfl, hlast h]

/-- The loop ends where the address ends. -/
theorem ipv6Turn_tail (htail : Tail tail) :
    ipv6Turn upper fresh ⟨tail, n, skip, parts, .success, last, none, words⟩ =
      .leave (.done ⟨tail, n, skip, parts, .success, last, none, words⟩) := by
  obtain ⟨base, hclass⟩ := rtlpClassifyChars_of_not_counted htail.sep.not_counted
  have hcolon : charAt tail 0 ≠ 0x3A := fun h => by
    rcases htail 0x3A ((charAt_eq_iff (by decide)).1 h) with h | h <;> exact absurd h (by decide)
  rw [ipv6Turn]
  dsimp only
  split
  · rw [hclass]
    dsimp only
    rw [if_pos rfl, if_pos (.inl hcolon)]
  · rfl

/-- The words with a list written into them from an index on. -/
def setWords (words : ℕ → UInt16) : ℕ → List UInt16 → ℕ → UInt16
  | _, [] => words
  | n, w :: l => setWords (Function.update words n w) (n + 1) l

theorem setWords_append (words : ℕ → UInt16) (n : ℕ) (l l' : List UInt16) :
    setWords words n (l ++ l') = setWords (setWords words n l) (n + l.length) l' := by
  induction l generalizing words n with
  | nil => rfl
  | cons w l ih =>
    rw [cons_append, setWords, ih, setWords, length_cons, Nat.add_right_comm, Nat.add_assoc]

theorem setWords_of_lt (h : k < n) : setWords words n l k = words k := by
  induction l generalizing words n with
  | nil => rfl
  | cons w l ih => rw [setWords, ih (by omega), update_of_ne (by omega)]

section

variable (words : ℕ → UInt16)

/-- The words of an address, written from an index on. -/
theorem setWords_wordsFrom {n e k i : ℕ} (hi : i < k) :
    setWords words n (wordsFrom addr e k) (n + i) = addr (e + i) := by
  induction k generalizing words n e i with
  | zero => omega
  | succ k ih =>
    rw [wordsFrom_succ, setWords]
    cases i with
    | zero => rw [setWords_of_lt (by omega), Nat.add_zero, update_self, Nat.add_zero]
    | succ i =>
      rw [← Nat.add_assoc, Nat.add_right_comm, ih _ (by omega), ← Nat.add_assoc, Nat.add_right_comm]

theorem toNat_ofNat_lt (hm : m < 0x10000) : (UInt16.ofNat m).toNat = m :=
  Nat.mod_eq_of_lt hm

theorem setByte_low (n b : ℕ) :
    setByte words (n * 2) b =
      update words n (.ofNat ((words n).toNat / 0x100 * 0x100 + b)) := by
  rw [setByte, if_pos (by omega), Nat.mul_div_cancel n two_pos]

theorem setByte_high (n b : ℕ) :
    setByte words (n * 2 + 1) b =
      update words n (.ofNat (b * 0x100 + (words n).toNat % 0x100)) := by
  rw [setByte, if_neg (by omega), show (n * 2 + 1) / 2 = n by omega]

/-- Two bytes of an address make up a word of it. -/
theorem setByte_setByte (n i : ℕ) :
    setByte (setByte words (n * 2) (s6Byte addr (2 * i))) (n * 2 + 1) (s6Byte addr (2 * i + 1)) =
      update words n (addr i) := by
  have hlt := (addr i).toNat_lt
  have hlow : s6Byte addr (2 * i) = (addr i).toNat % 0x100 := by
    rw [s6Byte, if_pos (by omega), Nat.mul_div_cancel_left i two_pos]
  have hhigh : s6Byte addr (2 * i + 1) = (addr i).toNat / 0x100 := by
    rw [s6Byte, if_neg (by omega), show (2 * i + 1) / 2 = i by omega]
  have hword := (words n).toNat_lt
  rw [setByte_low, setByte_high, update_self, update_idem, toNat_ofNat_lt (by omega)]
  congr 1
  rw [← UInt16.toNat_inj, toNat_ofNat_lt (by omega)]
  omega

end

/-- A byte is stored, unless the address ends too early or where none is allowed. -/
theorem storeParts_cons {count v j : ℕ} {vs : List ℕ} {st : Scan} (hv : v < 0x100)
    (hgo : ¬ (j = count - 1 ∧ (j < 3 ∨ charAt st.s 0 = 0x3A ∧ st.startSkip = none ∨
      st.startSkip = none ∧ st.n < 6 ∨ st.status = .invalidParameter))) :
    storeParts count (v :: vs) j st =
      storeParts count vs (j + 1) { st with words := setByte st.words (st.n * 2 + j) v } := by
  rw [storeParts, if_neg (by omega), if_neg hgo, Nat.mod_eq_of_lt hv]

/-- The four bytes are stored. -/
theorem storeParts_quad (hcolon : charAt s 0 ≠ 0x3A) (hskip : skip ≠ none ∨ n = 6) :
    storeParts 4 [quadByte addr 0, quadByte addr 1, quadByte addr 2, quadByte addr 3] 0
        ⟨s, n, skip, parts, .success, last, none, words⟩ =
      .done ⟨s, n, skip, parts, .success, last, none, setWords words n (wordsFrom addr 6 2)⟩ := by
  have hearly : ∀ {j : ℕ} {p : Prop}, j < 3 → ¬ (j = 4 - 1 ∧ p) := fun hj h => by omega
  have hlast : ¬ (3 = 4 - 1 ∧ (3 < 3 ∨ charAt s 0 = 0x3A ∧ skip = none ∨ skip = none ∧ n < 6 ∨
      Status.success = Status.invalidParameter)) := by
    rintro ⟨-, h | h | h | h⟩
    · omega
    · exact hcolon h.1
    · rcases hskip with hskip | rfl
      exacts [hskip h.1, by omega]
    · cases h
  rw [storeParts_cons (quadByte_lt addr 0) (hearly (by decide)),
    storeParts_cons (quadByte_lt addr 1) (hearly (by decide)),
    storeParts_cons (quadByte_lt addr 2) (hearly (by decide)),
    storeParts_cons (quadByte_lt addr 3) hlast]
  have hwords : setByte (setByte (setByte (setByte words (n * 2 + 0) (quadByte addr 0))
      (n * 2 + 1) (quadByte addr 1)) (n * 2 + 2) (quadByte addr 2)) (n * 2 + 3) (quadByte addr 3) =
      setWords words n (wordsFrom addr 6 2) := by
    have hfirst := @setByte_setByte addr words n 6
    have hsecond := @setByte_setByte addr (update words n (addr 6)) (n + 1) 7
    rw [show n * 2 + 2 = (n + 1) * 2 by omega, show n * 2 + 3 = (n + 1) * 2 + 1 by omega]
    exact (congrArg (fun w => setByte (setByte w ((n + 1) * 2) _) ((n + 1) * 2 + 1) _) hfirst).trans
      hsecond
  exact congrArg (fun w => Exit.done ⟨s, n, skip, parts, .success, last, none, w⟩) hwords

section

variable (hupper : KnowsAscii upper)
include hupper

/-- Four bytes are read, and the loop ends. -/
theorem ipv6Turn_quad (hn : n ≤ 6) (htail : Tail tail) (hskip : skip ≠ none ∨ n = 6) :
    ipv6Turn upper fresh ⟨quadText (quadByte addr) ++ tail, n, skip, parts, .success, last, none,
        words⟩ =
      .leave (.done ⟨tail, n + 2, skip, parts + 2, .success, .number, none,
        setWords words n (wordsFrom addr 6 2)⟩) := by
  have hten : IsBase 10 := .inr (.inl rfl)
  have hdot : tail.head? ≠ some 0x2E := fun h => by
    rcases htail 0x2E h with h | h <;> exact absurd h (by decide)
  have hcolon : charAt tail 0 ≠ 0x3A := fun h => by
    rcases htail 0x3A ((charAt_eq_iff (by decide)).1 h) with h | h <;> exact absurd h (by decide)
  have hparse := rtlpIpv4StringToAddressParserW_quadText hupper (quadByte_lt addr)
    (htail.ends hupper) hdot fresh true
  -- the first of the bytes is counted, and a dot follows it
  obtain ⟨more, hmore⟩ : ∃ more, quadText (quadByte addr) ++ tail =
      printNumber 10 (quadByte addr 0) ++ 0x2E :: more := by
    rw [quadText, append_assoc]
    exact ⟨_, rfl⟩
  have hcounted : ∀ c ∈ printNumber 10 (quadByte addr 0), Counted c := counted_printNumber hten
  have hstop : ∀ c ∈ (0x2E :: more : List UInt16).head?, ¬ Counted c := fun c hc => by
    obtain rfl : 0x2E = c := by simpa using hc
    decide
  obtain ⟨base, hclass⟩ := rtlpClassifyChars_append hcounted hstop
  have hlen : (printNumber 10 (quadByte addr 0)).length ≤ 3 :=
    length_printNumber_le (by decide) ((quadByte_lt addr 0).trans (by decide))
  have hpos : (printNumber 10 (quadByte addr 0)).length ≠ 0 := fun h =>
    printNumber_ne_nil 10 _ (length_eq_zero_iff.1 h)
  have hchar : charAt (quadText (quadByte addr) ++ tail)
      (printNumber 10 (quadByte addr 0)).length = 0x2E := by
    rw [hmore, charAt_append_length]
    rfl
  rw [← hmore] at hclass
  rw [ipv6Turn, if_pos (Nat.lt_of_le_of_lt hn (by decide))]
  dsimp only
  rw [hclass]
  rw [if_neg hpos, if_neg (by omega), if_pos ⟨hchar, hn⟩, readQuad]
  rw [hparse]
  dsimp only [length_cons, length_nil]
  rw [storeParts_quad hcolon hskip]

/-! ### Runs of the parser -/

/-- The count of the words behind a `::`. -/
def addParts (skip : Option ℕ) (parts k : ℕ) : ℕ := if skip = none then parts else parts + k

omit hupper in
theorem addParts_addParts (skip : Option ℕ) (parts j k : ℕ) :
    addParts skip (addParts skip parts j) k = addParts skip parts (j + k) := by
  rw [addParts, addParts, addParts]
  split
  · rfl
  · exact Nat.add_assoc parts j k

/-- One word is read, with more of them behind it. -/
theorem leaves_word (w : UInt16) (hn : n + (l.length + 1) ≤ 8)
    (hsep : Sep rest) (hnext : skip ≠ none ∨ rest.head? = some 0x3A ∨ n + (l.length + 1) = 8)
    (h : Leaves (ipv6Turn upper fresh) ⟨colonWords l ++ rest, n + 1, skip, addParts skip parts 1,
      .success, .number, none, update words n w⟩ r) :
    Leaves (ipv6Turn upper fresh)
      ⟨hexText w ++ (colonWords l ++ rest), n, skip, parts, .success, last, none, words⟩ r := by
  cases l with
  | nil =>
    refine .of_again (ipv6Turn_word hupper w (by omega) hsep ?_) h
    exact hnext.imp_right fun h => h.imp_right fun h => by simpa using h
  | cons v l =>
    exact .of_again (ipv6Turn_word hupper w (by omega) (sep_colon _) (.inr (.inl rfl))) h

/-- **Words with a colon before each** are read one after the other. -/
theorem leaves_colonWords (hn : n + l.length ≤ 8) (hsep : Sep rest)
    (hnext : skip ≠ none ∨ rest.head? = some 0x3A ∨ n + l.length = 8)
    (h : Leaves (ipv6Turn upper fresh) ⟨rest, n + l.length, skip, addParts skip parts l.length,
      .success, .number, none, setWords words n l⟩ r) :
    Leaves (ipv6Turn upper fresh)
      ⟨colonWords l ++ rest, n, skip, parts, .success, .number, none, words⟩ r := by
  induction l generalizing n parts words with
  | nil =>
    rw [length_nil, Nat.add_zero, addParts, Nat.add_zero, ite_self] at h
    exact h
  | cons w l ih =>
    rw [length_cons] at hn hnext h
    obtain ⟨c, ds, hw, hc⟩ := hexText_cons w
    have hhead : (hexText w ++ (colonWords l ++ rest)).head? ≠ some 0x3A := by
      rw [hw]
      rintro ⟨⟩
      exact absurd hc (by decide)
    rw [colonWords_cons, cons_append, append_assoc]
    refine .of_again (ipv6Turn_colon (by omega) hhead)
      (leaves_word hupper w hn hsep hnext (ih (by omega) ?_ ?_))
    · exact hnext.imp_right fun h => h.imp_right fun h => by omega
    · rw [addParts_addParts, Nat.add_comm 1, Nat.add_right_comm]
      exact h

/-- **Words with colons between them** are read one after the other. -/
theorem leaves_joinWords (hl : l ≠ []) (hn : n + l.length ≤ 8)
    (hsep : Sep rest) (hnext : skip ≠ none ∨ rest.head? = some 0x3A ∨ n + l.length = 8)
    (h : Leaves (ipv6Turn upper fresh) ⟨rest, n + l.length, skip, addParts skip parts l.length,
      .success, .number, none, setWords words n l⟩ r) :
    Leaves (ipv6Turn upper fresh)
      ⟨joinWords l ++ rest, n, skip, parts, .success, last, none, words⟩ r := by
  obtain ⟨w, l, rfl⟩ := exists_cons_of_ne_nil hl
  rw [length_cons] at hn hnext h
  rw [joinWords, append_assoc]
  refine leaves_word hupper w hn hsep hnext (leaves_colonWords hupper (by omega) hsep ?_ ?_)
  · exact hnext.imp_right fun h => h.imp_right fun h => by omega
  · rw [addParts_addParts, Nat.add_comm 1, Nat.add_right_comm]
    exact h

omit hupper in
theorem wordsFrom_ne_nil (hk : 0 < k) : wordsFrom addr n k ≠ [] := by
  rw [← length_pos_iff, length_wordsFrom]
  exact hk

omit hupper in
theorem wordsFrom_append (addr : ℕ → UInt16) (n j k : ℕ) :
    wordsFrom addr n j ++ wordsFrom addr (n + j) k = wordsFrom addr n (j + k) := by
  rw [wordsFrom, wordsFrom, wordsFrom, ← map_append, range'_append_1]

omit hupper in
theorem head_quadText (b : ℕ → ℕ) (rest : List UInt16) :
    (quadText b ++ rest).head? ≠ some 0x3A := by
  obtain ⟨c, ds, h⟩ := exists_cons_of_ne_nil (printNumber_ne_nil 10 (b 0))
  have hc : Counted c :=
    counted_printNumber (.inr (.inl rfl)) c (by rw [h]; exact mem_cons_self)
  rw [quadText, h]
  rintro ⟨⟩
  exact absurd hc (by decide)

/-- The words from `e` on with the last two as bytes are read. -/
theorem leaves_quadTail (he : e ≤ 6) (hn : n ≤ e)
    (hskip : skip ≠ none ∨ n = e) (htail : Tail tail) :
    ∃ parts', (skip ≠ none → parts' = parts + (8 - e)) ∧
      Leaves (ipv6Turn upper fresh)
        ⟨quadTail addr e ++ tail, n, skip, parts, .success, last, none, words⟩
        (.done ⟨tail, n + (8 - e), skip, parts', .success, .number, none,
          setWords words n (wordsFrom addr e (8 - e))⟩) := by
  rw [quadTail]
  split
  case isTrue hsix =>
    subst hsix
    exact ⟨parts + 2, fun _ => rfl, .of_leave (ipv6Turn_quad hupper hn htail hskip)⟩
  case isFalse hlt =>
    have hwords : setWords (setWords words n (wordsFrom addr e (6 - e))) (n + (6 - e))
        (wordsFrom addr 6 2) = setWords words n (wordsFrom addr e (8 - e)) := by
      have happend := wordsFrom_append addr e (6 - e) 2
      rw [show e + (6 - e) = 6 by omega, show 6 - e + 2 = 8 - e by omega] at happend
      rw [← happend, setWords_append, length_wordsFrom]
    refine ⟨addParts skip parts (6 - e) + 2, fun h => ?_, ?_⟩
    · rw [addParts, if_neg h]
      omega
    · rw [append_assoc]
      refine leaves_joinWords hupper (wordsFrom_ne_nil (by omega)) (by rw [length_wordsFrom]; omega)
        (sep_colon _) (.inr (.inl rfl)) ?_
      rw [length_wordsFrom]
      refine .of_again (ipv6Turn_colon (by omega) (head_quadText _ _)) ?_
      have hquad := @ipv6Turn_quad upper fresh (setWords words n (wordsFrom addr e (6 - e))) addr tail
        (n + (6 - e)) (addParts skip parts (6 - e)) skip .colon hupper (by omega) htail
        (hskip.imp_right fun h => by omega)
      rw [hwords, show n + (6 - e) + 2 = n + (8 - e) by omega] at hquad
      exact .of_leave hquad

/-- The words from `e` on are read, to the end of the address. -/
theorem leaves_back (he : e ≤ 8) (hk : k ≤ e) (htail : Tail tail) :
    ∃ last, last ≠ .colon ∧ Leaves (ipv6Turn upper fresh)
      ⟨joinWords (wordsFrom addr e (8 - e)) ++ tail, k, some k, 0, .success, .doubleColon, none,
        words⟩
      (.done ⟨tail, k + (8 - e), some k, 8 - e, .success, last, none,
        setWords words k (wordsFrom addr e (8 - e))⟩) := by
  rcases Nat.eq_or_lt_of_le he with rfl | hlt
  · exact ⟨.doubleColon, by decide, .of_leave (ipv6Turn_tail htail)⟩
  · refine ⟨.number, by decide, leaves_joinWords hupper (wordsFrom_ne_nil (by omega))
      (by rw [length_wordsFrom]; omega) htail.sep (.inl (by simp)) ?_⟩
    rw [length_wordsFrom, addParts, Nat.zero_add]
    exact .of_leave (ipv6Turn_tail htail)

/-! ### What is parsed -/

omit hupper in
/-- The words after the expansion of a `::` are those of the address. -/
theorem expand_setWords (hgap : ∀ i, k ≤ i → i < e → addr i = 0) (hk : k ≤ e) (he : e ≤ 8)
    (hfront : ∀ i < k, words i = addr i) {i : ℕ} (hi : i < 8) :
    expand (setWords words k (wordsFrom addr e (8 - e))) k (8 - e) i = addr i := by
  rw [expand, show 8 - (8 - e) = e by omega]
  split
  case isTrue h => exact (hgap i h.1 h.2).symm
  case isFalse h =>
    split
    case isTrue hback =>
      rw [setWords_wordsFrom words (by omega), Nat.add_sub_cancel' hback.1]
    case isFalse hback => rw [setWords_of_lt (by omega), hfront i (by omega)]

/-- The state of the parser at the start. -/
def startScan (s : List UInt16) (words : ℕ → UInt16) : Scan :=
  ⟨s, 0, none, 0, .success, .none, none, words⟩

/-- What comes before a `::` is read, and the `::`. -/
theorem leaves_front (hgap : Gap addr 8 k e) :
    ∃ k' words', k' ≤ e ∧ (∀ i, k' ≤ i → i < e → addr i = 0) ∧ (∀ i < k', words' i = addr i) ∧
      ∀ rest r, Leaves (ipv6Turn upper fresh)
          ⟨rest, k', some k', 0, .success, .doubleColon, none, words'⟩ r →
        Leaves (ipv6Turn upper fresh)
          (startScan (joinWords (wordsFrom addr 0 k) ++ 0x3A :: 0x3A :: rest) words) r := by
  have htwo := hgap.two
  have hle := hgap.le
  rcases Nat.eq_zero_or_pos k with rfl | hpos
  · refine ⟨2, update (update words 0 0) 1 0, htwo,
      fun i _ hi => hgap.zero i (Nat.zero_le i) hi, fun i hi => ?_, fun rest r h => ?_⟩
    · rw [hgap.zero i (Nat.zero_le i) (by omega)]
      interval_cases i <;> rfl
    · exact .of_again (ipv6Turn_doubleColon (by decide) (by decide)) h
  · refine ⟨k, setWords words 0 (wordsFrom addr 0 k), by omega, hgap.zero, fun i hi => ?_,
      fun rest r h => ?_⟩
    · have hword := @setWords_wordsFrom addr words 0 0 k i hi
      rwa [Nat.zero_add] at hword
    · refine leaves_joinWords hupper (wordsFrom_ne_nil hpos) (by rw [length_wordsFrom]; omega)
        (sep_colon _) (.inr (.inl rfl)) ?_
      rw [length_wordsFrom, Nat.zero_add]
      refine .of_again (ipv6Turn_doubleColon (by omega) (by decide)) ?_
      rw [if_neg hpos.ne', if_neg hpos.ne']
      exact h

omit hupper in
theorem Gap.mono (h : Gap addr parts k e) {parts' : ℕ} (hle : parts ≤ parts') :
    Gap addr parts' k e :=
  ⟨h.two, h.le.trans hle, h.zero⟩

/-- **A printed address is parsed**, up to what follows it. -/
theorem leaves_printed (ht : Printed addr t) (htail : Tail tail) :
    ∃ st, Leaves (ipv6Turn upper fresh) (startScan (t ++ tail) words) (.done st) ∧
      (finish st).status = .success ∧ (finish st).terminator = some tail ∧
      ∀ i < 8, (finish st).words i = addr i := by
  have hwhole : ∀ i < 8, setWords words 0 (wordsFrom addr 0 8) i = addr i := fun i hi => by
    have hword := @setWords_wordsFrom addr words 0 0 8 i hi
    rwa [Nat.zero_add] at hword
  cases ht with
  | all =>
    refine ⟨⟨tail, 8, none, 0, .success, .number, none, setWords words 0 (wordsFrom addr 0 8)⟩,
      leaves_joinWords hupper (wordsFrom_ne_nil (by decide)) (by simp) htail.sep (by simp)
        (.of_leave ?_), rfl, rfl, hwhole⟩
    rw [length_wordsFrom]
    exact ipv6Turn_tail htail
  | allQuad =>
    obtain ⟨parts', -, hleaves⟩ := @leaves_quadTail upper fresh words addr tail 0 0 0 none .none
      hupper (by decide) le_rfl (.inr rfl) htail
    exact ⟨_, hleaves, rfl, rfl, hwhole⟩
  | gap hgap =>
    obtain ⟨k', words', hk', hzero, hfront, hread⟩ := @leaves_front upper fresh words addr _ _ hupper
      hgap
    obtain ⟨last, hlast, hback⟩ := @leaves_back upper fresh words' addr tail k' _ hupper hgap.le hk'
      htail
    rw [gapText, append_assoc]
    refine ⟨_, hread _ _ hback, ?_⟩
    rw [finish]
    dsimp only
    rw [if_pos ⟨by decide, hlast⟩]
    exact ⟨rfl, rfl, fun i hi => expand_setWords hzero hk' hgap.le hfront hi⟩
  | gapQuad hgap =>
    obtain ⟨k', words', hk', hzero, hfront, hread⟩ := @leaves_front upper fresh words addr _ _ hupper
      (hgap.mono (by decide))
    obtain ⟨parts', hparts, hback⟩ := @leaves_quadTail upper fresh words' addr tail k' _ 0 (some k')
      .doubleColon hupper hgap.le hk' (.inl (by simp)) htail
    rw [hparts (by simp), Nat.zero_add] at hback
    rw [append_assoc]
    refine ⟨_, hread _ _ hback, ?_⟩
    rw [finish]
    dsimp only
    rw [if_pos ⟨by decide, by decide⟩]
    exact ⟨rfl, rfl, fun i hi =>
      expand_setWords hzero hk' (hgap.le.trans (by decide)) hfront hi⟩

/-! ### The parser returns -/

omit hupper in
theorem length_drop_lt {c : ℕ} (hc : c ≠ 0) (h : charAt s 0 = c)
    (hm : 0 < m) : (s.drop m).length < s.length := by
  cases s with
  | nil => exact absurd h.symm hc
  | cons d s =>
    rw [length_drop, length_cons]
    omega

omit hupper in
theorem length_readWord_lt {len : ℕ} {st st' : Scan} (h : readWord upper len st = .again st') :
    st'.s.length < st.s.length := by
  rw [readWord] at h
  dsimp only at h
  split at h
  · split at h
    case isTrue => cases h
    case isFalse =>
      split at h
      case isTrue => cases h
      case isFalse hno => exact absurd rfl hno
  · split at h
    case isTrue => cases h
    case isFalse hok =>
      split at h
      case isTrue => cases h
      case isFalse =>
        cases h
        exact length_terminator_lt (by decide) (not_not.1 hok)

omit hupper in
/-- Every turn that goes on has consumed a character. -/
theorem length_ipv6Turn_lt {st st' : Scan} (h : ipv6Turn upper fresh st = .again st') :
    st'.s.length < st.s.length := by
  rw [ipv6Turn] at h
  split at h
  case isFalse => cases h
  case isTrue =>
    dsimp only at h
    split at h
    case isTrue =>
      split at h
      case isTrue => cases h
      case isFalse hcolon =>
        have hchar : charAt st.s 0 = 0x3A := not_not.1 (not_or.1 hcolon).1
        split at h
        case isTrue =>
          cases h
          split <;> exact length_drop_lt (by decide) hchar two_pos
        case isFalse =>
          split at h
          case isTrue => cases h
          case isFalse =>
            cases h
            exact length_drop_lt (by decide) hchar one_pos
    case isFalse =>
      split at h
      case isTrue => split at h <;> cases h
      case isFalse =>
        split at h
        case isTrue => cases h
        case isFalse =>
          split at h
          case isTrue => cases h
          case isFalse => exact length_readWord_lt h

/-- **What `RtlIpv6StringToAddressW` makes of a printed address.** -/
theorem rtlIpv6StringToAddressW_printed (ht : Printed addr t)
    (htail : Tail tail) (fresh : ℕ → ℕ) (words : ℕ → UInt16) :
    ∃ words', rtlIpv6StringToAddressW upper fresh (t ++ tail) words =
        some ⟨.success, some tail, words'⟩ ∧ ∀ i < 8, words' i = addr i := by
  obtain ⟨st, hleaves, hstatus, hterminator, hwords⟩ := @leaves_printed upper fresh words addr tail t
    hupper ht htail
  have hloop := hleaves.loop_eq (fun st : Scan => st.s.length) (fun _ _ => length_ipv6Turn_lt)
    (Nat.lt_succ_self (t ++ tail).length)
  refine ⟨(finish st).words, ?_, hwords⟩
  rw [rtlIpv6StringToAddressW, ← startScan, hloop, Option.map_some, ← hstatus, ← hterminator]

/-! ### The scope and the port -/

omit hupper in
theorem charAt_printNumber_ne (hm : m ≠ 0) : charAt (printNumber 10 m) 0 ≠ 0x30 := by
  obtain ⟨d, ds, hnumeral⟩ := exists_cons_of_ne_nil (numeral_ne_nil 10 m)
  have hd : d < 10 := numeral_lt (n := m) (by decide) (by rw [hnumeral]; exact mem_cons_self)
  rw [printNumber, hnumeral, map_cons, charAt_zero_cons, toNat_digitChar (by omega), if_pos hd]
  intro hzero
  obtain rfl : d = 0 := by omega
  have hhead := @head_numeral 10 m (by rw [hnumeral]; rfl)
  have hvalue := numeralValue_numeral 10 m
  rw [hhead] at hvalue
  exact hm hvalue.symm

/-- A printed port is read. -/
theorem readPort_printNumber {port : UInt16} (hport : port ≠ 0) (scope : ℕ) :
    readPort upper words (0x5D :: 0x3A :: printNumber 10 (wn2h port.toNat)) scope =
      ⟨.success, words, some (scope, port)⟩ := by
  have hne : wn2h port.toNat ≠ 0 := fun h => by
    have hback := wn2h_wn2h port.toNat_lt
    rw [h] at hback
    exact hport (eq_iff_toNat_eq.2 hback.symm)
  have hlt := wn2h_lt port.toNat
  have hzero := charAt_printNumber_ne hne
  have hread := @rtlpStringToUlongBase_printNumber (wn2h port.toNat) upper 10 [] hupper
    (.inr (.inl rfl)) (hlt.trans (by decide)) (by simp)
  rw [append_nil] at hread
  rw [readPort, if_neg fun h => h rfl, if_pos (by rfl)]
  rw [show drop 2 (0x5D :: 0x3A :: printNumber 10 (wn2h port.toNat)) =
    printNumber 10 (wn2h port.toNat) from rfl, if_neg fun h => hzero h.1, if_neg hzero, hread]
  dsimp only
  rw [if_neg, finishEx, if_pos (by rfl), wn2h_wn2h port.toNat_lt, UInt16.ofNat_toNat]
  rintro (h | h)
  exacts [h rfl, by omega]

/-- The text of the port. -/
def portText (port : UInt16) : List UInt16 :=
  if port ≠ 0 then 0x5D :: 0x3A :: printNumber 10 (wn2h port.toNat) else []

omit hupper in
theorem tail_portText (port : UInt16) : Tail (portText port) := by
  intro c hc
  rw [portText] at hc
  split at hc
  · exact .inr (by simpa using hc.symm)
  · cases hc

omit hupper in
/-- An address that is printed does not start with a bracket. -/
theorem Printed.head_ne (ht : Printed addr t) (rest : List UInt16) :
    charAt (t ++ rest) 0 ≠ 0x5B := by
  have hword : ∀ w more, charAt (hexText w ++ more) 0 ≠ 0x5B := fun w more h => by
    obtain ⟨c, ds, hw, hc⟩ := hexText_cons w
    rw [hw, cons_append, charAt_zero_cons] at h
    rw [Counted, h] at hc
    exact absurd hc (by decide)
  have hjoin : ∀ k more, charAt more 0 ≠ 0x5B →
      charAt (joinWords (wordsFrom addr 0 k) ++ more) 0 ≠ 0x5B := fun k more hmore => by
    cases k with
    | zero => exact hmore
    | succ k =>
      rw [wordsFrom_succ, joinWords, append_assoc]
      exact hword _ _
  cases ht with
  | all =>
    rw [wordsFrom_succ, joinWords, append_assoc]
    exact hword _ _
  | allQuad =>
    rw [quadTail, if_neg (by decide), append_assoc]
    exact hjoin _ _ (by rw [cons_append, charAt_zero_cons]; decide)
  | gap =>
    rw [gapText, append_assoc]
    exact hjoin _ _ (by rw [cons_append, charAt_zero_cons]; decide)
  | gapQuad =>
    rw [append_assoc]
    exact hjoin _ _ (by rw [cons_append, charAt_zero_cons]; decide)

/-- The text of the scope. -/
def scopeText (scopeId : UInt32) : List UInt16 :=
  if scopeId ≠ 0 then 0x25 :: printNumber 10 scopeId.toNat else []

omit hupper in
theorem tail_scopeText (scopeId : UInt32) (port : UInt16) :
    Tail (scopeText scopeId ++ portText port) := by
  rw [scopeText]
  split
  · exact fun c hc => .inl (by simpa using hc.symm)
  · exact tail_portText port

/-- The port is read behind the scope, if it is there. -/
theorem readPort_portText (port : UInt16) (scope : ℕ) :
    (if decide (port ≠ 0) = true then readPort upper words (portText port) scope
      else finishEx words (portText port) scope 0) = ⟨.success, words, some (scope, port)⟩ := by
  by_cases hport : port ≠ 0
  · rw [if_pos (decide_eq_true hport), portText, if_pos hport, readPort_printNumber hupper hport]
  · obtain rfl : port = 0 := not_not.1 hport
    rfl

/-- **What is read behind the address** is the scope and the port. -/
theorem readScope_scopeText (scopeId : UInt32) (port : UInt16) :
    readScope upper words (scopeText scopeId ++ portText port) (decide (port ≠ 0)) =
      ⟨.success, words, some (scopeId.toNat, port)⟩ := by
  have hten : IsBase 10 := .inr (.inl rfl)
  by_cases hscope : scopeId ≠ 0
  · have hread : rtlpStringToUlongBase upper
        ((0x25 :: printNumber 10 scopeId.toNat ++ portText port).drop 1) 10 =
        ⟨.success, portText port, scopeId.toNat⟩ :=
      rtlpStringToUlongBase_printNumber hupper hten scopeId.toNat_lt
        ((tail_portText port).sep.digit_eq_none hupper hten)
    rw [scopeText, if_pos hscope, readScope, if_pos (by rfl)]
    rw [hread]
    rw [if_neg fun h => h rfl, readPort_portText hupper]
  · obtain rfl : scopeId = 0 := not_not.1 hscope
    have hpercent : charAt (portText port) 0 ≠ 0x25 := by
      rw [portText]
      split
      · rw [charAt_zero_cons]
        decide
      · decide
    have hgood : ¬ (charAt (portText port) 0 ≠ 0 ∧
        ¬ (decide (port ≠ 0) = true ∧ charAt (portText port) 0 = 0x5D)) := by
      rintro ⟨hne, hbad⟩
      rw [portText] at hne hbad
      by_cases hport : port ≠ 0
      · rw [if_pos hport] at hbad
        exact hbad ⟨decide_eq_true hport, rfl⟩
      · rw [if_neg hport] at hne
        exact hne rfl
    rw [scopeText, if_neg hscope, nil_append, readScope, if_neg hpercent, if_neg hgood,
      readPort_portText hupper]
    rfl

/-- **A printed address with its scope and port is read back.** -/
theorem rtlIpv6StringToAddressExW_extendedText (ht : Printed addr t)
    (scopeId : UInt32) (port : UInt16) (fresh : ℕ → ℕ) (words : ℕ → UInt16) :
    ∃ words', rtlIpv6StringToAddressExW upper fresh (extendedText t scopeId port) words =
        some ⟨.success, words', some (scopeId.toNat, port)⟩ ∧ ∀ i < 8, words' i = addr i := by
  obtain ⟨words', hparse, hwords⟩ :=
    rtlIpv6StringToAddressW_printed hupper ht (tail_scopeText scopeId port) fresh words
  have hbracket : decide (charAt (extendedText t scopeId port) 0 = 0x5B) = decide (port ≠ 0) := by
    refine decide_eq_decide.2 ?_
    by_cases hport : port ≠ 0
    · exact ⟨fun _ => hport, fun _ => by rw [extendedText, if_pos hport]; rfl⟩
    · refine ⟨fun h => ?_, fun h => absurd h hport⟩
      rw [extendedText, if_neg hport, append_assoc] at h
      exact absurd h (ht.head_ne _)
  have haddress : (if decide (port ≠ 0) = true then (extendedText t scopeId port).drop 1
      else extendedText t scopeId port) = t ++ (scopeText scopeId ++ portText port) := by
    rw [extendedText, scopeText, portText]
    by_cases hport : port ≠ 0
    · rw [if_pos (decide_eq_true hport), if_pos hport]
      simp
    · rw [if_neg (by simpa using hport), if_neg hport]
      simp
  refine ⟨words', ?_, hwords⟩
  rw [rtlIpv6StringToAddressExW]
  rw [hbracket, haddress, hparse, Option.map_some, if_neg fun h => h rfl]
  exact congrArg some (readScope_scopeText hupper scopeId port)

end

/-! ### The round trip -/

/-- The text that is printed into a buffer of `length` characters is parsed to the same address,
scope and port, whatever the address of the caller and the array on the stack hold before. -/
def RoundTrips (checked : Bool) (upper : ℕ → Bool) (addr : ℕ → UInt16) (scopeId : UInt32)
    (port : UInt16) (length : ℕ) : Prop :=
  ∃ text n,
    rtlIpv6AddressToStringExW checked addr scopeId port length = .ok ⟨.success, some text, n⟩ ∧
    ∀ fresh words, ∃ words', rtlIpv6StringToAddressExW upper fresh text words =
      some ⟨.success, words', some (scopeId.toNat, port)⟩ ∧ ∀ i < 8, words' i = addr i

/-- Above the largest buffer that `RtlStringCchCopyW` copies into nothing is copied, and it is a
success; or the assertion on the copy fails. -/
theorem rtlIpv6AddressToStringExW_large {scopeId : UInt32} {port : UInt16} {length : ℕ}
    (h : rtlIpv6AddressToStringW addr = some t) (ht : t.length ≤ 45) (checked : Bool)
    (hlt : (extendedText t scopeId port).length < length) (hmax : ¬ length ≤ 0x7FFFFFFF) :
    rtlIpv6AddressToStringExW checked addr scopeId port length =
      if checked then .error .assertion
      else .ok ⟨.success, some [], (extendedText t scopeId port).length + 1⟩ := by
  rw [rtlIpv6AddressToStringExW_eq h ht, if_pos hlt, rtlStringCchCopy, if_neg hmax, assertIn]
  cases checked with
  | false => rw [assert_bind fun hc => absurd hc (by decide)]; rfl
  | true => rw [assert, if_neg fun h => hmax (h rfl)]; rfl

theorem not_roundTrips {checked : Bool} {scopeId : UInt32} {port : UInt16} {length n : ℕ}
    (h : rtlIpv6AddressToStringExW checked addr scopeId port length =
      if checked then .error .assertion else .ok ⟨.success, some [], n⟩) :
    ¬ RoundTrips checked upper addr scopeId port length := by
  rintro ⟨text, n', htext, hparse⟩
  cases checked with
  | true => cases h.symm.trans htext
  | false =>
    obtain ⟨rfl, -⟩ : text = [] ∧ n' = n := by simpa [h, eq_comm] using htext
    obtain ⟨words', hwords, -⟩ := hparse (fun _ => 0) fun _ => 0
    cases hwords

/-- **The text of an IPv6 address round-trips**, in a checked build and in a free one, for every
address, scope and port, through every buffer that is large enough for it, up to the largest that
`RtlStringCchCopyW` copies into. -/
theorem ipv6_roundTrip (hupper : KnowsAscii upper) (addr : ℕ → UInt16) (scopeId : UInt32)
    (port : UInt16) : ∃ n ≤ 64, ∀ checked length,
      RoundTrips checked upper addr scopeId port length ↔ n < length ∧ length ≤ 0x7FFFFFFF := by
  obtain ⟨t, htext, hprinted⟩ := rtlIpv6AddressToStringW_printed addr
  refine ⟨(extendedText t scopeId port).length,
    length_extendedText_le scopeId port hprinted.length_le, fun checked length => ?_⟩
  by_cases hlt : (extendedText t scopeId port).length < length
  · by_cases hmax : length ≤ 0x7FFFFFFF
    · have heq := rtlIpv6AddressToStringExW_eq htext hprinted.length_le checked scopeId port length
      rw [if_pos hlt, assertIn, assert_bind fun _ => hmax, rtlStringCchCopy_eq hlt hmax] at heq
      exact iff_of_true ⟨_, _, heq,
        rtlIpv6StringToAddressExW_extendedText hupper hprinted scopeId port⟩ ⟨hlt, hmax⟩
    · exact iff_of_false (not_roundTrips
        (rtlIpv6AddressToStringExW_large htext hprinted.length_le checked hlt hmax))
        fun h => hmax h.2
  · have heq := rtlIpv6AddressToStringExW_eq htext hprinted.length_le checked scopeId port length
    rw [if_neg hlt] at heq
    refine iff_of_false ?_ fun h => hlt h.1
    rintro ⟨text, n, htext, -⟩
    cases heq.symm.trans htext

theorem ipv6_roundTrip_loopback : KnowsAscii asciiUpper ∧ ∃ n ≤ 64, ∀ checked length,
    RoundTrips checked asciiUpper (fun i => if i = 7 then 0x0100 else 0) 3 0x5000 length ↔
      n < length ∧ length ≤ 0x7FFFFFFF :=
  ⟨knowsAscii_asciiUpper, ipv6_roundTrip knowsAscii_asciiUpper _ 3 0x5000⟩

/-- `[::1%3]:80` into a buffer of `2 ^ 31` characters: in a free build nothing is copied, and it is
a success; in a checked one the assertion on the copy fails. -/
theorem loopback_not_copied : ∃ n ≤ 65, ∀ checked,
    rtlIpv6AddressToStringExW checked (fun i => if i = 7 then 0x0100 else 0) 3 0x5000 0x80000000 =
      (if checked then .error .assertion else .ok ⟨.success, some [], n⟩) ∧
    ¬ RoundTrips checked asciiUpper (fun i => if i = 7 then 0x0100 else 0) 3 0x5000 0x80000000 := by
  obtain ⟨t, htext, hprinted⟩ :=
    rtlIpv6AddressToStringW_printed fun i => if i = 7 then 0x0100 else 0
  have hle := length_extendedText_le 3 0x5000 hprinted.length_le
  have heq := fun checked => rtlIpv6AddressToStringExW_large htext hprinted.length_le checked
    (show (extendedText t 3 0x5000).length < 0x80000000 by omega) (by decide)
  exact ⟨_, by omega, fun checked => ⟨heq checked, not_roundTrips (heq checked)⟩⟩

end RtlNetwork

end Windivs

import Windivs.Rtl.StringToUlong

/-!
# IPv4 addresses as text

`RtlpIpv4StringToAddressParserW`, `RtlIpv4StringToAddressW` and `RtlIpv4AddressToStringW` of
`sdk/lib/rtl/network.c`, against the grammar of the text.

The grammar is stated for an arbitrary notion `dv` of what a digit is
(`Windivs.RtlNetwork.IsIpv4`). The routine accepts exactly the grammar of the characters it *reads*
as digits (`Windivs.RtlNetwork.rtlIpv4StringToAddressW_iff`), which are more than the digits. A
character that is wrongly read as a digit stands for at least 256, so it can only be in the last
number; `Windivs.RtlNetwork.Misread` says which strings the two grammars disagree on.
-/

namespace Windivs

open List

variable {a e i m more v w : ℕ} {b : ℕ → ℕ} {c : UInt16} {ds : List UInt16}

namespace RtlNetwork

/-! ### The routines -/

/-- What the parser leaves behind. -/
structure ParserResult where
  status : Status
  terminator : List UInt16
  values : List ℕ
  deriving DecidableEq, Repr

/-- The loop of `RtlpIpv4StringToAddressParserW`, with the number of parts that may still follow the
next one. A number that is refused because of its base leaves its place in `Values` as it was before
the call, which is `fresh`. -/
def ipv4ParserLoop (upper : ℕ → Bool) (fresh : ℕ → ℕ) (strict : Bool) :
    ℕ → List UInt16 → List ℕ → ParserResult
  | more, s, values =>
    let r := rtlpStringToUlong upper s strict (fresh values.length)
    let values := values ++ [r.out]
    if charAt r.terminator 0 ≠ 0x2E then ⟨r.status, r.terminator, values⟩
    else
      match more with
      | 0 => ⟨.invalidParameter, r.terminator, values⟩
      | more + 1 =>
        if r.status = .success then ipv4ParserLoop upper fresh strict more (r.terminator.drop 1) values
        else ⟨r.status, r.terminator.drop 1, values⟩

/-- `RtlpIpv4StringToAddressParserW`. -/
def rtlpIpv4StringToAddressParserW (upper : ℕ → Bool) (fresh : ℕ → ℕ) (s : List UInt16)
    (strict : Bool) : ParserResult :=
  ipv4ParserLoop upper fresh strict 3 s []

/-- The loop of `RtlIpv4StringToAddressW` that combines the parts, from index `i` on. -/
def combineParts : ℕ → List ℕ → ℕ → Option ℕ
  | _, [], result => some result
  | i, v :: vs, result =>
    let shift := 8 * (3 - i)
    if 0xFF < v ∨ result &&& (0xFF <<< shift) ≠ 0 then none
    else combineParts (i + 1) vs (result ||| (v <<< shift))

/-- `RtlUlongByteSwap`. -/
def rtlUlongByteSwap (v : ℕ) : UInt32 :=
  .ofNat (v % 0x100 * 2 ^ 24 + v / 2 ^ 8 % 0x100 * 2 ^ 16 + v / 2 ^ 16 % 0x100 * 2 ^ 8 +
    v / 2 ^ 24 % 0x100)

/-- What `RtlIpv4StringToAddressW` returns, with `S_addr`. -/
structure Ipv4Result where
  status : Status
  terminator : List UInt16
  addr : UInt32
  deriving DecidableEq, Repr

/-- `RtlIpv4StringToAddressW`, for an `Addr` that holds `addr` before and a `Values` that holds
`fresh`. -/
def rtlIpv4StringToAddressW (upper : ℕ → Bool) (fresh : ℕ → ℕ) (s : List UInt16) (strict : Bool)
    (addr : UInt32) : Ipv4Result :=
  let r := rtlpIpv4StringToAddressParserW upper fresh s strict
  let status := if strict ∧ r.values.length < 4 then .invalidParameter else r.status
  if status ≠ .success then ⟨status, r.terminator, addr⟩
  else
    match combineParts 0 r.values.dropLast (r.values.getLastD 0) with
    | none => ⟨.invalidParameter, r.terminator, addr⟩
    | some result => ⟨status, r.terminator, rtlUlongByteSwap result⟩

/-- The bytes `s_b1` to `s_b4` of an address. -/
def addrByte (addr : UInt32) (i : ℕ) : ℕ := addr.toNat / 2 ^ (8 * i) % 0x100

/-- The text `%u.%u.%u.%u` of four bytes. -/
def quadText (b : ℕ → ℕ) : List UInt16 :=
  printNumber 10 (b 0) ++ 0x2E :: (printNumber 10 (b 1) ++ 0x2E ::
    (printNumber 10 (b 2) ++ 0x2E :: printNumber 10 (b 3)))

/-- The text of an address. -/
def ipv4Text (addr : UInt32) : List UInt16 := quadText (addrByte addr)

/-- `RtlIpv4AddressToStringW`: the text, if it fits into `IPV4_ADDR_STRING_MAX_LEN` characters with
the terminating zero. -/
def rtlIpv4AddressToStringW (addr : UInt32) : Option (List UInt16) :=
  if (ipv4Text addr).length < 16 then some (ipv4Text addr) else none

/-! ### The grammar -/

/-- **The prefix of a number**, with the base it stands for and what follows it. -/
inductive Prefixed : List UInt16 → ℕ → List UInt16 → Prop
  | hex {x : UInt16} {s : List UInt16} (hx : x = 0x78 ∨ x = 0x58) : Prefixed (0x30 :: x :: s) 16 s
  | octal {d : UInt16} {s : List UInt16} (hd : 0x30 ≤ d ∧ d ≤ 0x39) :
    Prefixed (0x30 :: d :: s) 8 (d :: s)
  | decimal {s : List UInt16}
    (hs : ∀ x t, s = 0x30 :: x :: t → ¬ (x = 0x78 ∨ x = 0x58) ∧ ¬ (0x30 ≤ x ∧ x ≤ 0x39)) :
    Prefixed s 10 s

/-- A number of a string, with the base it is written in. -/
structure Number where
  base : ℕ
  value : ℕ
  deriving DecidableEq, Repr

/-- **A number at the start of a string**: a prefix and a maximal run of digits that is not empty,
with a value below `2 ^ 32`. -/
def IsNumber (dv : ℕ → ℕ → Option ℕ) (s : List UInt16) (n : Number) (rest : List UInt16) : Prop :=
  ∃ ds, Prefixed s n.base (ds ++ rest) ∧ IsRun dv n.base ds rest ∧ ds ≠ [] ∧
    n.value = runValue dv n.base ds ∧ n.value < 2 ^ 32

/-- Numbers at the start of a string that are each followed by a dot. -/
inductive Dotted (dv : ℕ → ℕ → Option ℕ) : List UInt16 → List Number → List UInt16 → Prop
  | nil {s : List UInt16} : Dotted dv s [] s
  | cons {s s' t : List UInt16} {n : Number} {front : List Number}
    (hn : IsNumber dv s n (0x2E :: s')) (hfront : Dotted dv s' front t) :
    Dotted dv s (n :: front) t

/-- The restrictions on the numbers before the last one, which are bytes, and what `Strict` asks. -/
structure FrontOk (strict : Bool) (front : List Number) (base : ℕ) : Prop where
  length : front.length ≤ 3
  bytes : ∀ n ∈ front, n.value ≤ 255
  four : strict = true → front.length = 3
  decimal : strict = true → (∀ n ∈ front, n.base = 10) ∧ base = 10

/-- The value of the numbers before the last one as leading bytes, with the last one filling the
rest. -/
def addressValue (front : List Number) (last : ℕ) : ℕ :=
  numeralValue 256 (front.map Number.value) * 2 ^ (32 - 8 * front.length) + last

/-- **The text of an IPv4 address** at the start of a string, with the value it stands for. -/
def IsIpv4 (dv : ℕ → ℕ → Option ℕ) (strict : Bool) (s : List UInt16) (value : ℕ)
    (rest : List UInt16) : Prop :=
  ∃ front t last, Dotted dv s front t ∧ IsNumber dv t last rest ∧ rest.head? ≠ some 0x2E ∧
    FrontOk strict front last.base ∧ last.value < 2 ^ (32 - 8 * front.length) ∧
    value = addressValue front last.value

variable {upper : ℕ → Bool} {fresh : ℕ → ℕ} {strict : Bool} {dv : ℕ → ℕ → Option ℕ}
  {s t rest rest' body : List UInt16} {n n' last : Number} {front front' : List Number} {base : ℕ}

/-! ### Prefixes and numbers -/

theorem charAt_zero_cons (c : UInt16) (s : List UInt16) : charAt (c :: s) 0 = c.toNat := rfl

theorem charAt_one_cons (c d : UInt16) (s : List UInt16) : charAt (c :: d :: s) 1 = d.toNat := rfl

theorem eq_iff_toNat_eq {c d : UInt16} : c = d ↔ c.toNat = d.toNat := UInt16.toNat_inj.symm

theorem prefixed_iff : Prefixed s base body ↔ numberBase s = (base, body) := by
  constructor
  · intro h
    cases h with
    | hex hx =>
      exact if_pos (hx.imp eq_iff_toNat_eq.1 eq_iff_toNat_eq.1)
    | @octal d t hd =>
      have hle : 0x30 ≤ d.toNat ∧ d.toNat ≤ 0x39 :=
        ⟨UInt16.le_iff_toNat_le.1 hd.1, UInt16.le_iff_toNat_le.1 hd.2⟩
      rw [numberBase, if_pos (by rfl), charAt_one_cons, if_neg (by omega), if_pos hle]
      rfl
    | decimal hs =>
      rw [numberBase]
      split
      case isFalse => rfl
      case isTrue hzero =>
        match s, hzero with
        | [c], _ => rfl
        | c :: x :: t, hzero =>
          obtain rfl : c = 0x30 := eq_iff_toNat_eq.2 hzero
          obtain ⟨hhex, hoctal⟩ := hs x t rfl
          rw [if_neg fun h => hhex (h.imp eq_iff_toNat_eq.2 eq_iff_toNat_eq.2),
            if_neg fun h => hoctal ⟨UInt16.le_iff_toNat_le.2 h.1, UInt16.le_iff_toNat_le.2 h.2⟩]
  · intro h
    match s with
    | [] =>
      cases h
      exact .decimal fun x t ht => by cases ht
    | [c] =>
      have hbase : numberBase [c] = (10, [c]) := by
        rw [numberBase]
        split <;> rfl
      rw [hbase] at h
      cases h
      exact .decimal fun x t ht => by cases ht
    | c :: x :: t =>
      rw [numberBase] at h
      split at h
      case isFalse hzero =>
        cases h
        exact .decimal fun x t ht => absurd (by rw [(cons_eq_cons.1 ht).1]; rfl) hzero
      case isTrue hzero =>
        obtain rfl : c = 0x30 := eq_iff_toNat_eq.2 hzero
        split at h
        case isTrue hx =>
          cases h
          exact .hex (hx.imp eq_iff_toNat_eq.2 eq_iff_toNat_eq.2)
        case isFalse hx =>
          split at h
          case isTrue hd =>
            cases h
            exact .octal ⟨UInt16.le_iff_toNat_le.2 hd.1, UInt16.le_iff_toNat_le.2 hd.2⟩
          case isFalse hd =>
            cases h
            refine .decimal fun y u hu => ?_
            obtain ⟨rfl, rfl⟩ := cons_eq_cons.1 (cons_eq_cons.1 hu).2
            exact ⟨fun h => hx (h.imp eq_iff_toNat_eq.1 eq_iff_toNat_eq.1),
              fun h => hd ⟨UInt16.le_iff_toNat_le.1 h.1, UInt16.le_iff_toNat_le.1 h.2⟩⟩

theorem Prefixed.isBase (h : Prefixed s base body) : IsBase base := by
  cases h with
  | hex _ => exact .inr (.inr rfl)
  | octal _ => exact .inl rfl
  | decimal _ => exact .inr (.inl rfl)

theorem Prefixed.unique {base' : ℕ} {body' : List UInt16} (h : Prefixed s base body)
    (h' : Prefixed s base' body') : base = base' ∧ body = body' := by
  rw [prefixed_iff] at h h'
  rw [h, Prod.mk.injEq] at h'
  exact h'

/-- A string starts with one number at most. -/
theorem IsNumber.unique (h : IsNumber dv s n rest) (h' : IsNumber dv s n' rest') :
    n = n' ∧ rest = rest' := by
  obtain ⟨base, value⟩ := n
  obtain ⟨base', value'⟩ := n'
  obtain ⟨ds, hpre, hrun, -, hvalue, -⟩ := h
  obtain ⟨ds', hpre', hrun', -, hvalue', -⟩ := h'
  dsimp only at hpre hpre' hrun hrun' hvalue hvalue'
  obtain ⟨rfl, hbody⟩ := hpre.unique hpre'
  obtain ⟨rfl, rfl⟩ := hrun.unique hrun' hbody
  rw [hvalue, hvalue']
  exact ⟨rfl, rfl⟩

/-- Where no digit follows the prefix, there is no number. -/
theorem Prefixed.not_isNumber {more : List UInt16} (hpre : Prefixed s base (c :: more))
    (hc : dv base c.toNat = none) : ¬ IsNumber dv s n rest := by
  rintro ⟨ds, hpre', hrun, hne, -⟩
  obtain ⟨rfl, hbody⟩ := hpre.unique hpre'
  obtain ⟨d, ds, rfl⟩ := exists_cons_of_ne_nil hne
  obtain ⟨rfl, -⟩ := cons_eq_cons.1 hbody
  have hsome := hrun.digits c mem_cons_self
  rw [hc] at hsome
  cases hsome

theorem IsNumber.value_lt (h : IsNumber dv s n rest) : n.value < 2 ^ 32 := by
  obtain ⟨-, -, -, -, -, hlt⟩ := h
  exact hlt

/-- **What `RtlpStringToUlong` reads** is a number, in strict mode a decimal one. -/
theorem rtlpStringToUlong_iff {v out : ℕ} :
    rtlpStringToUlong upper s strict out = ⟨.success, rest, v⟩ ↔
      ∃ b, IsNumber (digit upper) s ⟨b, v⟩ rest ∧ (strict = true → b = 10) := by
  obtain ⟨base, body, hpre⟩ : ∃ base body, Prefixed s base body := ⟨_, _, prefixed_iff.2 rfl⟩
  obtain ⟨ds, rest', rfl, hrun⟩ := exists_isRun (digit upper) base body
  have hpos : 0 < base := zero_lt_one.trans (one_lt_of_isBase hpre.isBase)
  obtain ⟨hread, hfail⟩ := rtlpStringToUlongBase_eq hpos hrun
  have hcode : rtlpStringToUlong upper s strict out =
      if strict = true ∧ base ≠ 10 then ⟨.invalidParameter, ds ++ rest', out⟩
      else rtlpStringToUlongBase upper (ds ++ rest') base := by
    rw [rtlpStringToUlong, prefixed_iff.1 hpre]
  rw [hcode]
  constructor
  · intro h
    split at h
    case isTrue => cases h
    case isFalse hstrict =>
      by_cases hok : ds ≠ [] ∧ runValue (digit upper) base ds < 2 ^ 32
      · rw [hread hok.1 hok.2] at h
        cases h
        exact ⟨base, ⟨ds, hpre, hrun, hok.1, rfl, hok.2⟩, fun hs => by_contra fun hb =>
          hstrict ⟨hs, hb⟩⟩
      · have hstatus := hfail hok
        rw [h] at hstatus
        cases hstatus
  · rintro ⟨b, ⟨ds', hpre', hrun', hne, hvalue, hlt⟩, hdecimal⟩
    dsimp only at hpre' hrun' hvalue hlt
    obtain ⟨rfl, hbody⟩ := hpre.unique hpre'
    obtain ⟨rfl, rfl⟩ := hrun.unique hrun' hbody
    rw [if_neg fun h => h.2 (hdecimal h.1), hvalue]
    exact hread hne (hvalue ▸ hlt)

/-! ### The loops -/

theorem charAt_eq_dot : charAt rest 0 = 0x2E ↔ rest.head? = some 0x2E := by
  cases rest with
  | nil => exact ⟨(by cases ·), (by cases ·)⟩
  | cons c rest =>
    rw [head?_cons, Option.some_inj, eq_iff_toNat_eq]
    rfl

/-- The parser reads what the grammar has. -/
theorem ipv4ParserLoop_of_dotted (hfront : Dotted (digit upper) s front t)
    (hlast : IsNumber (digit upper) t last rest) (hdot : rest.head? ≠ some 0x2E)
    (hdecimal : strict = true → (∀ n ∈ front, n.base = 10) ∧ last.base = 10)
    (hmore : front.length ≤ more) (acc : List ℕ) :
    ipv4ParserLoop upper fresh strict more s acc =
      ⟨.success, rest, acc ++ (front.map Number.value ++ [last.value])⟩ := by
  induction hfront generalizing more acc with
  | nil =>
    have hread : rtlpStringToUlong upper _ strict (fresh acc.length) = ⟨.success, rest, last.value⟩ :=
      rtlpStringToUlong_iff.2 ⟨last.base, hlast, fun h => (hdecimal h).2⟩
    rw [ipv4ParserLoop.eq_def]
    dsimp only
    rw [hread]
    rw [if_pos fun h => hdot (charAt_eq_dot.1 h)]
    rfl
  | @cons s s' t n front hn _ ih =>
    have hread : rtlpStringToUlong upper s strict (fresh acc.length) = ⟨.success, 0x2E :: s', n.value⟩ :=
      rtlpStringToUlong_iff.2 ⟨n.base, hn, fun h => (hdecimal h).1 n mem_cons_self⟩
    rw [length_cons] at hmore
    rcases more with - | more
    · omega
    rw [ipv4ParserLoop, hread]
    rw [drop_one, tail_cons,
      ih hlast (fun h => ⟨fun m hm => (hdecimal h).1 m (mem_cons_of_mem n hm), (hdecimal h).2⟩) (by omega),
      append_assoc]
    rfl

/-- One turn of a loop that succeeds: it reads the last number, or one with a dot behind it. -/
theorem ipv4ParserLoop_cases {acc values : List ℕ}
    (h : ipv4ParserLoop upper fresh strict more s acc = ⟨.success, rest, values⟩) :
    (∃ n, IsNumber (digit upper) s n rest ∧ rest.head? ≠ some 0x2E ∧
      (strict = true → n.base = 10) ∧ values = acc ++ [n.value]) ∨
    ∃ m n s', more = m + 1 ∧ IsNumber (digit upper) s n (0x2E :: s') ∧
      (strict = true → n.base = 10) ∧
      ipv4ParserLoop upper fresh strict m s' (acc ++ [n.value]) = ⟨.success, rest, values⟩ := by
  rw [ipv4ParserLoop.eq_def] at h
  dsimp only at h
  cases hr : rtlpStringToUlong upper s strict (fresh acc.length) with
  | mk status terminator out =>
    rw [hr] at h
    split at h
    case isTrue hdot =>
      cases h
      obtain ⟨b, hn, hdecimal⟩ := rtlpStringToUlong_iff.1 hr
      exact .inl ⟨⟨b, out⟩, hn, fun h => hdot (charAt_eq_dot.2 h), hdecimal, rfl⟩
    case isFalse hdot =>
      obtain ⟨s', rfl⟩ : ∃ s', terminator = 0x2E :: s' :=
        head?_eq_some_iff.1 (charAt_eq_dot.1 (not_not.1 hdot))
      cases more with
      | zero => cases h
      | succ more =>
        dsimp only at h
        split at h
        case isFalse hfail => exact absurd (congrArg ParserResult.status h) hfail
        case isTrue hok =>
          subst hok
          obtain ⟨b, hn, hdecimal⟩ := rtlpStringToUlong_iff.1 hr
          exact .inr ⟨more, ⟨b, out⟩, s', rfl, hn, hdecimal, h⟩

/-- What the parser reads is in the grammar. -/
theorem dotted_of_ipv4ParserLoop {acc values : List ℕ}
    (h : ipv4ParserLoop upper fresh strict more s acc = ⟨.success, rest, values⟩) :
    ∃ front t last, Dotted (digit upper) s front t ∧ IsNumber (digit upper) t last rest ∧
      rest.head? ≠ some 0x2E ∧ front.length ≤ more ∧
      (strict = true → (∀ n ∈ front, n.base = 10) ∧ last.base = 10) ∧
      values = acc ++ (front.map Number.value ++ [last.value]) := by
  induction more generalizing s acc with
  | zero =>
    obtain ⟨n, hn, hdot, hdecimal, hvalues⟩ | ⟨m, n, s', hm, -⟩ := ipv4ParserLoop_cases h
    · exact ⟨[], s, n, .nil, hn, hdot, le_rfl, fun hs => ⟨by simp, hdecimal hs⟩, hvalues⟩
    · omega
  | succ more ih =>
    obtain ⟨n, hn, hdot, hdecimal, hvalues⟩ | ⟨m, n, s', hm, hn, hten, hloop⟩ :=
      ipv4ParserLoop_cases h
    · exact ⟨[], s, n, .nil, hn, hdot, Nat.zero_le _, fun hs => ⟨by simp, hdecimal hs⟩, hvalues⟩
    · obtain rfl : more = m := by omega
      obtain ⟨front, t, last, hfront, hlast, hdot, hlen, hdecimal, hvalues⟩ := ih hloop
      refine ⟨n :: front, t, last, .cons hn hfront, hlast, hdot, Nat.succ_le_succ hlen,
        fun hs => ⟨?_, (hdecimal hs).2⟩, ?_⟩
      · exact forall_mem_cons.2 ⟨hten hs, (hdecimal hs).1⟩
      · rw [hvalues, append_assoc]
        rfl

/-- The byte at `e` is zero when nothing reaches up to it. -/
theorem and_byteMask_eq_zero (hw : w < 2 ^ (e + 8)) :
    (a * 2 ^ (e + 8) + w) &&& (0xFF <<< e) = 0 ↔ w < 2 ^ e := by
  have hpos : 0 < 2 ^ e := Nat.two_pow_pos e
  have hbyte : (a * 2 ^ (e + 8) + w) / 2 ^ e % 0x100 = w / 2 ^ e := by
    rw [pow_add, show a * (2 ^ e * 2 ^ 8) + w = w + 2 ^ e * (a * 0x100) by ring,
      Nat.add_mul_div_left _ _ hpos, Nat.add_mul_mod_self_right]
    rw [pow_add] at hw
    exact Nat.mod_eq_of_lt (Nat.div_lt_of_lt_mul hw)
  have hmask : (a * 2 ^ (e + 8) + w) &&& (0xFF <<< e) =
      ((a * 2 ^ (e + 8) + w) / 2 ^ e % 0x100) <<< e := and_mask _ e 8
  rw [hbyte] at hmask
  rw [hmask, Nat.shiftLeft_eq, Nat.mul_eq_zero, or_iff_left hpos.ne', Nat.div_eq_zero_iff_lt hpos]

/-- A byte put above what is below it and below what is above it. -/
theorem or_byte (hv : v ≤ 255) (hw : w < 2 ^ e) :
    (a * 2 ^ (e + 8) + w) ||| (v <<< e) = (a * 256 + v) * 2 ^ e + w := by
  have hsplit : a * 2 ^ (e + 8) + w = (a <<< 8) <<< e ||| w := by
    rw [← Nat.shiftLeft_add_eq_or_of_lt hw, Nat.shiftLeft_eq, Nat.shiftLeft_eq]
    ring
  have hbyte : a <<< 8 ||| v = a * 256 + v := by
    rw [← Nat.shiftLeft_add_eq_or_of_lt (by omega : v < 2 ^ 8), Nat.shiftLeft_eq]
  rw [hsplit, Nat.or_assoc, Nat.or_comm w, ← Nat.or_assoc, ← Nat.shiftLeft_or_distrib, hbyte,
    ← Nat.shiftLeft_add_eq_or_of_lt hw, Nat.shiftLeft_eq]

/-- **What the parts combine to**: from index `i` on, with the value `a` of the parts before it at
the top of the result and the last part `w` at its bottom. -/
theorem combineParts_iff {i a w v : ℕ} {vs : List ℕ} (hlen : i + vs.length ≤ 3)
    (hw : w < 2 ^ (32 - 8 * i)) :
    combineParts i vs (a * 2 ^ (32 - 8 * i) + w) = some v ↔
      (∀ x ∈ vs, x ≤ 255) ∧ w < 2 ^ (32 - 8 * (i + vs.length)) ∧
        v = vs.foldl (fun v d => v * 256 + d) a * 2 ^ (32 - 8 * (i + vs.length)) + w := by
  induction vs generalizing i a with
  | nil =>
    rw [combineParts, Option.some_inj]
    exact ⟨fun h => ⟨by simp, hw, h.symm⟩, fun h => h.2.2.symm⟩
  | cons x vs ih =>
    rw [length_cons] at hlen
    have hexp : 32 - 8 * i = 8 * (3 - i) + 8 := by omega
    have hexp' : 32 - 8 * (i + 1) = 8 * (3 - i) := by omega
    have hmask : (a * 2 ^ (32 - 8 * i) + w) &&& (0xFF <<< (8 * (3 - i))) = 0 ↔
        w < 2 ^ (8 * (3 - i)) := by
      rw [hexp] at hw ⊢
      exact and_byteMask_eq_zero hw
    have hlonger : w < 2 ^ (32 - 8 * (i + (vs.length + 1))) → w < 2 ^ (8 * (3 - i)) := fun h =>
      h.trans_le (Nat.pow_le_pow_right two_pos (by omega))
    rw [combineParts]
    split
    case isTrue hbad =>
      refine ⟨(by cases ·), ?_⟩
      rintro ⟨hbytes, hlt, -⟩
      rcases hbad with hbad | hbad
      · have hbyte := hbytes x mem_cons_self
        omega
      · exact absurd (hmask.2 (hlonger hlt)) hbad
    case isFalse hgood =>
      obtain ⟨hx, hzero⟩ := not_or.1 hgood
      have hlt := hmask.1 (not_not.1 hzero)
      rw [hexp, or_byte (by omega) hlt, ← hexp', ih (by omega) (hexp' ▸ hlt), forall_mem_cons,
        show i + 1 + vs.length = i + (vs.length + 1) by omega]
      exact ⟨fun h => ⟨⟨by omega, h.1⟩, h.2⟩, fun h => ⟨h.1.2, h.2⟩⟩

theorem combineParts_addressValue (hlen : front.length ≤ 3) {w v : ℕ} (hw : w < 2 ^ 32) :
    combineParts 0 (front.map Number.value) w = some v ↔
      (∀ n ∈ front, n.value ≤ 255) ∧ w < 2 ^ (32 - 8 * front.length) ∧
        v = addressValue front w := by
  have hlen' : 0 + (front.map Number.value).length ≤ 3 := by
    rw [length_map]
    omega
  have hcombine := @combineParts_iff 0 0 w v (front.map Number.value) hlen' hw
  rw [Nat.zero_mul, Nat.zero_add, length_map, Nat.zero_add, forall_mem_map] at hcombine
  exact hcombine

/-- How `RtlIpv4StringToAddressW` succeeds. -/
theorem rtlIpv4StringToAddressW_success {addr a : UInt32} :
    rtlIpv4StringToAddressW upper fresh s strict addr = ⟨.success, rest, a⟩ ↔
      ∃ values v, rtlpIpv4StringToAddressParserW upper fresh s strict = ⟨.success, rest, values⟩ ∧
        (strict = true → 4 ≤ values.length) ∧
        combineParts 0 values.dropLast (values.getLastD 0) = some v ∧ a = rtlUlongByteSwap v := by
  rw [rtlIpv4StringToAddressW]
  cases hr : rtlpIpv4StringToAddressParserW upper fresh s strict with
  | mk status terminator values =>
    constructor
    · intro h
      split at h
      case isTrue => cases h
      case isFalse hstrict =>
        split at h
        case isTrue hfail => exact absurd (congrArg Ipv4Result.status h) hfail
        case isFalse hok =>
          split at h
          case h_1 => cases h
          case h_2 v hv =>
            cases h
            exact ⟨values, v, rfl, fun hs => not_lt.1 fun hlt => hstrict ⟨hs, hlt⟩, hv, rfl⟩
    · rintro ⟨values', v, hparser, hstrict, hcombine, rfl⟩
      cases hparser
      have henough : ¬ (strict = true ∧ values.length < 4) := fun h =>
        absurd (hstrict h.1) (not_le.2 h.2)
      rw [if_neg henough, if_neg fun h => h rfl, hcombine]

/-- **What `RtlIpv4StringToAddressW` accepts** is the grammar of the characters it reads as
digits. -/
theorem rtlIpv4StringToAddressW_iff {addr a : UInt32} :
    rtlIpv4StringToAddressW upper fresh s strict addr = ⟨.success, rest, a⟩ ↔
      ∃ v, IsIpv4 (digit upper) strict s v rest ∧ a = rtlUlongByteSwap v := by
  rw [rtlIpv4StringToAddressW_success]
  constructor
  · rintro ⟨values, v, hparser, hstrict, hcombine, rfl⟩
    obtain ⟨front, t, last, hfront, hlast, hdot, hlen, hdecimal, rfl⟩ :=
      dotted_of_ipv4ParserLoop hparser
    rw [nil_append, dropLast_concat, getLastD_concat,
      combineParts_addressValue hlen hlast.value_lt] at hcombine
    obtain ⟨hbytes, hlt, rfl⟩ := hcombine
    have hfour : strict = true → front.length = 3 := by
      intro hs
      have hle := hstrict hs
      rw [nil_append, length_append, length_map, length_singleton] at hle
      omega
    exact ⟨_, ⟨front, t, last, hfront, hlast, hdot, ⟨hlen, hbytes, hfour, hdecimal⟩, hlt, rfl⟩, rfl⟩
  · rintro ⟨v, ⟨front, t, last, hfront, hlast, hdot, hok, hlt, rfl⟩, rfl⟩
    refine ⟨_, _, ipv4ParserLoop_of_dotted hfront hlast hdot hok.decimal hok.length [], ?_, ?_, rfl⟩
    · intro hs
      have hfour := hok.four hs
      rw [nil_append, length_append, length_map, length_singleton]
      omega
    · rw [nil_append, dropLast_concat, getLastD_concat]
      exact (combineParts_addressValue hok.length hlast.value_lt).2 ⟨hok.bytes, hlt, rfl⟩

/-! ### Digits and what is read as one -/

section

variable (hupper : KnowsAscii upper)
include hupper

section

variable (hbase : IsBase base)
include hbase

theorem runValue_eq_of_plain (hds : ∀ c ∈ ds, (plainDigit base c.toNat).isSome) :
    runValue (digit upper) base ds = runValue plainDigit base ds := by
  rw [runValue]
  congr 1
  refine map_congr_left fun c hc => ?_
  obtain ⟨d, hd⟩ := Option.isSome_iff_exists.1 (hds c hc)
  rw [hd, digit_of_plainDigit hupper hbase c.toNat_lt hd]

theorem digit_isSome_of_plain
    (hc : (plainDigit base c.toNat).isSome) : (digit upper base c.toNat).isSome := by
  obtain ⟨d, hd⟩ := Option.isSome_iff_exists.1 hc
  rw [digit_of_plainDigit hupper hbase c.toNat_lt hd]
  rfl

theorem plainDigit_eq_none (hc : digit upper base c.toNat = none) :
    plainDigit base c.toNat = none := by
  rw [← Option.not_isSome_iff_eq_none]
  intro hsome
  have hread := digit_isSome_of_plain hupper hbase hsome
  rw [hc] at hread
  cases hread

/-- What is wrongly read as a digit stands for at least 256. -/
theorem le_digit_of_misread (hplain : plainDigit base c.toNat = none)
    (hc : (digit upper base c.toNat).isSome) : 256 ≤ (digit upper base c.toNat).getD 0 := by
  rcases digit_cases hupper hbase c.toNat_lt with heq | ⟨-, -, d, hd, hle⟩
  · rw [heq, hplain] at hc
    cases hc
  · rw [hd]
    exact hle

/-- A misread character makes a number larger than the digits before it. -/
theorem runValue_add_le (hds : ∀ x ∈ ds, (plainDigit base x.toNat).isSome)
    (hplain : plainDigit base c.toNat = none) (hc : (digit upper base c.toNat).isSome)
    (es : List UInt16) :
    runValue plainDigit base ds + 256 ≤ runValue (digit upper) base (ds ++ c :: es) := by
  have hdigit := le_digit_of_misread hupper hbase hplain hc
  have hle := le_numeralValue (zero_lt_one.trans (one_lt_of_isBase hbase))
    (ds.map fun c => (digit upper base c.toNat).getD 0)
    (es.map fun c => (digit upper base c.toNat).getD 0) ((digit upper base c.toNat).getD 0)
  rw [← runValue_eq_of_plain hupper hbase hds, runValue, runValue, map_append, map_cons]
  omega

end

omit hupper in
/-- Characters that are read as digits are digits up to the first that is not. -/
theorem all_plain_or_split (ds : List UInt16) :
    (∀ c ∈ ds, (plainDigit base c.toNat).isSome) ∨
      ∃ es c more, ds = es ++ c :: more ∧ (∀ x ∈ es, (plainDigit base x.toNat).isSome) ∧
        plainDigit base c.toNat = none := by
  obtain ⟨es, more, rfl, hrun⟩ := exists_isRun plainDigit base ds
  cases more with
  | nil =>
    rw [append_nil]
    exact .inl hrun.digits
  | cons c more => exact .inr ⟨es, c, more, rfl, hrun.digits, hrun.maximal c rfl⟩

/-- A number is read as it is, unless what follows it is read as one more digit. -/
theorem IsNumber.read (h : IsNumber plainDigit s n rest)
    (hrest : ∀ c ∈ rest.head?, digit upper n.base c.toNat = none) :
    IsNumber (digit upper) s n rest := by
  obtain ⟨ds, hpre, hrun, hne, hvalue, hlt⟩ := h
  refine ⟨ds, hpre, ⟨fun c hc => digit_isSome_of_plain hupper hpre.isBase (hrun.digits c hc), hrest⟩,
    hne, ?_, hlt⟩
  rw [hvalue, runValue_eq_of_plain hupper hpre.isBase hrun.digits]

omit hupper in
theorem IsNumber.isBase (h : IsNumber dv s n rest) : IsBase n.base := by
  obtain ⟨ds, hpre, -⟩ := h
  exact hpre.isBase

/-- What is read as a number is one, or has a character in it that is not a digit. -/
theorem IsNumber.plain_or_split (h : IsNumber (digit upper) s n rest) :
    IsNumber plainDigit s n rest ∨
      ∃ es c more, Prefixed s n.base (es ++ c :: more) ∧
        (∀ x ∈ es, (plainDigit n.base x.toNat).isSome) ∧ plainDigit n.base c.toNat = none ∧
        (digit upper n.base c.toNat).isSome ∧ runValue plainDigit n.base es + 256 ≤ n.value := by
  obtain ⟨ds, hpre, hrun, hne, hvalue, hlt⟩ := h
  have hbase := hpre.isBase
  obtain hall | ⟨es, c, more, rfl, hes, hc⟩ := @all_plain_or_split n.base ds
  · rw [runValue_eq_of_plain hupper hbase hall] at hvalue
    exact .inl ⟨ds, hpre, ⟨hall, fun c hc => plainDigit_eq_none hupper hbase (hrun.maximal c hc)⟩,
      hne, hvalue, hlt⟩
  · have hread : (digit upper n.base c.toNat).isSome := hrun.digits c (by simp)
    refine .inr ⟨es, c, more ++ rest, by simpa using hpre, hes, hc, hread, ?_⟩
    rw [hvalue]
    exact runValue_add_le hupper hbase hes hc hread more

/-- A byte is read only where it is written. -/
theorem IsNumber.plain_of_byte (h : IsNumber (digit upper) s n rest)
    (hbyte : n.value ≤ 255) : IsNumber plainDigit s n rest := by
  obtain hplain | ⟨es, c, more, -, -, -, -, hle⟩ := h.plain_or_split hupper
  · exact hplain
  · omega

theorem Dotted.read (h : Dotted plainDigit s front t) : Dotted (digit upper) s front t := by
  induction h with
  | nil => exact .nil
  | cons hn _ ih =>
    refine .cons (hn.read hupper fun c hc => ?_) ih
    obtain rfl : 0x2E = c := by simpa using hc
    exact digit_dot hupper hn.isBase

theorem Dotted.plain_of_bytes (h : Dotted (digit upper) s front t)
    (hbytes : ∀ n ∈ front, n.value ≤ 255) : Dotted plainDigit s front t := by
  induction h with
  | nil => exact .nil
  | cons hn _ ih =>
    obtain ⟨hbyte, hbytes⟩ := forall_mem_cons.1 hbytes
    exact .cons (hn.plain_of_byte hupper hbyte) (ih hbytes)

omit hupper in
/-- Numbers with dots behind them are at the start of every list of parts of the string. -/
theorem Dotted.eq_append {t' : List UInt16} (h : Dotted dv s front t) (h' : Dotted dv s front' t')
    (hlast : IsNumber dv t' last rest) (hdot : rest.head? ≠ some 0x2E) :
    ∃ mid, front' = front ++ mid ∧ Dotted dv t mid t' := by
  induction h generalizing front' with
  | nil => exact ⟨front', rfl, h'⟩
  | cons hn _ ih =>
    cases h' with
    | nil =>
      obtain ⟨-, rfl⟩ := hlast.unique hn
      exact absurd rfl hdot
    | cons hn' hfront' =>
      obtain ⟨rfl, htail⟩ := hn.unique hn'
      obtain ⟨-, rfl⟩ := cons_eq_cons.1 htail
      obtain ⟨mid, rfl, hmid⟩ := ih hfront'
      exact ⟨mid, rfl, hmid⟩

/-! ### Where the two grammars disagree -/

/-- **A string with a misread last number**: after numbers that are bytes, the digits of the last
number are followed by a character that is no digit and is read as one. Either there are digits
before it, and with them the text is complete; or there are none, and the text is complete only
because of what is read. -/
def Misread (upper : ℕ → Bool) (strict : Bool) (s : List UInt16) : Prop :=
  ∃ front t base ds c more, Dotted plainDigit s front t ∧ FrontOk strict front base ∧
    Prefixed t base (ds ++ c :: more) ∧ (∀ x ∈ ds, (plainDigit base x.toNat).isSome) ∧
    plainDigit base c.toNat = none ∧ (digit upper base c.toNat).isSome ∧
    (ds ≠ [] ∧ runValue plainDigit base ds < 2 ^ (32 - 8 * front.length) ∨
      ds = [] ∧ ∃ last rest, IsNumber (digit upper) t last rest ∧ rest.head? ≠ some 0x2E ∧
        last.value < 2 ^ (32 - 8 * front.length))

/-- **`RtlIpv4StringToAddressW` parses a string by the grammar**: it succeeds when the string starts
with the text of an address, and then it returns that address. -/
def ParsesGrammar (upper : ℕ → Bool) (strict : Bool) (s : List UInt16) : Prop :=
  ∀ fresh addr,
    ((rtlIpv4StringToAddressW upper fresh s strict addr).status = .success ↔
      ∃ v rest, IsIpv4 plainDigit strict s v rest) ∧
    ∀ v rest, IsIpv4 plainDigit strict s v rest →
      (rtlIpv4StringToAddressW upper fresh s strict addr).addr = rtlUlongByteSwap v

/-- Without a misread number the two grammars are the same. -/
theorem isIpv4_read_iff (hmis : ¬ Misread upper strict s) :
    IsIpv4 (digit upper) strict s v rest ↔ IsIpv4 plainDigit strict s v rest := by
  constructor
  · rintro ⟨front, t, last, hfront, hlast, hdot, hok, hlt, hv⟩
    have hplain := hfront.plain_of_bytes hupper hok.bytes
    obtain hnum | ⟨es, c, more, hpre, hes, hc, hread, hle⟩ := hlast.plain_or_split hupper
    · exact ⟨front, t, last, hplain, hnum, hdot, hok, hlt, hv⟩
    · refine absurd ⟨front, t, last.base, es, c, more, hplain, hok, hpre, hes, hc, hread, ?_⟩ hmis
      by_cases hnil : es = []
      · exact .inr ⟨hnil, last, rest, hlast, hdot, hlt⟩
      · exact .inl ⟨hnil, by omega⟩
  · rintro ⟨front, t, last, hfront, hlast, hdot, hok, hlt, hv⟩
    refine ⟨front, t, last, hfront.read hupper, hlast.read hupper fun c hc => ?_, hdot, hok, hlt, hv⟩
    by_contra hsome
    obtain ⟨ds, hpre, hrun, hne, hvalue, -⟩ := hlast
    obtain ⟨more, rfl⟩ := head?_eq_some_iff.1 hc
    exact hmis ⟨front, t, last.base, ds, c, more, hfront, hok, hpre, hrun.digits,
      hrun.maximal c rfl, Option.isSome_iff_ne_none.2 hsome, .inl ⟨hne, hvalue ▸ hlt⟩⟩

/-- The number that is read where a character is misread is larger than its digits. -/
theorem le_value_of_misread {ds more : List UInt16}
    (hpre : Prefixed t base (ds ++ c :: more)) (hds : ∀ x ∈ ds, (plainDigit base x.toNat).isSome)
    (hc : plainDigit base c.toNat = none) (hread : (digit upper base c.toNat).isSome)
    (hn : IsNumber (digit upper) t n rest) : runValue plainDigit base ds + 256 ≤ n.value := by
  obtain ⟨ds', hpre', hrun', -, hvalue, -⟩ := hn
  obtain ⟨rfl, hbody⟩ := hpre.unique hpre'
  obtain ⟨es, rest', rfl, hrun⟩ := exists_isRun (digit upper) n.base more
  have hlonger : IsRun (digit upper) n.base (ds ++ c :: es) rest' := by
    refine ⟨fun x hx => ?_, hrun.maximal⟩
    rcases mem_append.1 hx with hx | hx
    · exact digit_isSome_of_plain hupper hpre.isBase (hds x hx)
    · rcases mem_cons.1 hx with rfl | hx
      exacts [hread, hrun.digits x hx]
  obtain ⟨rfl, -⟩ := hlonger.unique hrun' (by rw [← hbody, append_assoc, cons_append])
  rw [hvalue]
  exact runValue_add_le hupper hpre.isBase hds hc hread es

end

theorem toNat_rtlUlongByteSwap (v : ℕ) :
    (rtlUlongByteSwap v).toNat = v % 0x100 * 2 ^ 24 + v / 2 ^ 8 % 0x100 * 2 ^ 16 +
      v / 2 ^ 16 % 0x100 * 2 ^ 8 + v / 2 ^ 24 % 0x100 := by
  rw [rtlUlongByteSwap, UInt32.toNat_ofNat']
  exact Nat.mod_eq_of_lt (by omega)

theorem bytes_of_sum {a b c d : ℕ} (ha : a < 0x100) (hb : b < 0x100) (hc : c < 0x100)
    (hd : d < 0x100) :
    (a * 2 ^ 24 + b * 2 ^ 16 + c * 2 ^ 8 + d) / 2 ^ 0 % 0x100 = d ∧
      (a * 2 ^ 24 + b * 2 ^ 16 + c * 2 ^ 8 + d) / 2 ^ 8 % 0x100 = c ∧
      (a * 2 ^ 24 + b * 2 ^ 16 + c * 2 ^ 8 + d) / 2 ^ 16 % 0x100 = b ∧
      (a * 2 ^ 24 + b * 2 ^ 16 + c * 2 ^ 8 + d) / 2 ^ 24 % 0x100 = a := by
  refine ⟨?_, ?_, ?_, ?_⟩ <;> omega

theorem addrByte_rtlUlongByteSwap (v : ℕ) (hi : i < 4) :
    addrByte (rtlUlongByteSwap v) i = v / 2 ^ (8 * (3 - i)) % 0x100 := by
  have hbyte : ∀ x, x % 0x100 < 0x100 := fun x => Nat.mod_lt x (by decide)
  obtain ⟨h0, h1, h2, h3⟩ := bytes_of_sum (hbyte v) (hbyte (v / 2 ^ 8)) (hbyte (v / 2 ^ 16))
    (hbyte (v / 2 ^ 24))
  rw [addrByte, toNat_rtlUlongByteSwap]
  interval_cases i
  exacts [h0, h1, h2, h3.trans (by rw [Nat.sub_self, Nat.mul_zero, pow_zero, Nat.div_one])]

/-- A value is determined by the address it is returned as. -/
theorem rtlUlongByteSwap_inj (hv : v < 2 ^ 32) (hw : w < 2 ^ 32)
    (h : rtlUlongByteSwap v = rtlUlongByteSwap w) : v = w := by
  have hbyte : ∀ i < 4, v / 2 ^ (8 * (3 - i)) % 0x100 = w / 2 ^ (8 * (3 - i)) % 0x100 := by
    intro i hi
    rw [← addrByte_rtlUlongByteSwap v hi, h, addrByte_rtlUlongByteSwap w hi]
  have h0 := hbyte 0 (by decide)
  have h1 := hbyte 1 (by decide)
  have h2 := hbyte 2 (by decide)
  have h3 := hbyte 3 (by decide)
  norm_num at h0 h1 h2 h3
  omega

theorem IsIpv4.value_lt (h : IsIpv4 dv strict s v rest) : v < 2 ^ 32 := by
  obtain ⟨front, t, last, -, -, -, hok, hlt, rfl⟩ := h
  have hfront : numeralValue 256 (front.map Number.value) < 256 ^ front.length := by
    have hdigits : ∀ d ∈ front.map Number.value, d < 256 :=
      forall_mem_map.2 fun n hn => Nat.lt_succ_of_le (hok.bytes n hn)
    simpa using numeralValue_lt hdigits
  have hsplit : 2 ^ 32 = 256 ^ front.length * 2 ^ (32 - 8 * front.length) := by
    have hlen := hok.length
    rw [show (256 : ℕ) = 2 ^ 8 from rfl, ← pow_mul, ← pow_add]
    congr 1
    omega
  rw [hsplit]
  calc _ < numeralValue 256 (front.map Number.value) * 2 ^ (32 - 8 * front.length) +
        2 ^ (32 - 8 * front.length) := Nat.add_lt_add_left hlt _
    _ = (numeralValue 256 (front.map Number.value) + 1) * 2 ^ (32 - 8 * front.length) :=
      (Nat.succ_mul _ _).symm
    _ ≤ 256 ^ front.length * 2 ^ (32 - 8 * front.length) := Nat.mul_le_mul_right _ hfront

section

variable (hupper : KnowsAscii upper)
include hupper

/-- **Exactly the strings without a misread number are parsed by the grammar.** -/
theorem parsesGrammar_iff : ParsesGrammar upper strict s ↔ ¬ Misread upper strict s := by
  constructor
  · rintro hparse ⟨front, t, base, ds, c, more, hfront, hok, hpre, hds, hc, hread, hcase⟩
    obtain ⟨hsucc, haddr⟩ := hparse (fun _ => 0) 0
    have hcdot : c ≠ 0x2E := by
      rintro rfl
      have hnone : digit upper base (UInt16.toNat 0x2E) = none := digit_dot hupper hpre.isBase
      rw [hnone] at hread
      cases hread
    rcases hcase with ⟨hne, hlt⟩ | ⟨rfl, last, rest, hlast, hdot, hlt⟩
    · -- the text is complete before the character, and what is read instead is another number
      have hnum : IsNumber plainDigit t ⟨base, runValue plainDigit base ds⟩ (c :: more) :=
        ⟨ds, hpre, ⟨hds, by simpa using hc⟩, hne, rfl,
          hlt.trans_le (Nat.pow_le_pow_right two_pos (by omega))⟩
      have hplain : IsIpv4 plainDigit strict s _ (c :: more) :=
        ⟨front, t, _, hfront, hnum, by simpa using hcdot, hok, hlt, rfl⟩
      have hcode : rtlIpv4StringToAddressW upper (fun _ => 0) s strict 0 = ⟨.success,
          (rtlIpv4StringToAddressW upper (fun _ => 0) s strict 0).terminator,
          rtlUlongByteSwap (addressValue front (runValue plainDigit base ds))⟩ := by
        rw [← hsucc.2 ⟨_, _, hplain⟩, ← haddr _ _ hplain]
      obtain ⟨w, hloose, hswap⟩ := rtlIpv4StringToAddressW_iff.1 hcode
      have hvalue := rtlUlongByteSwap_inj hplain.value_lt hloose.value_lt hswap
      obtain ⟨front', t', last, hfront', hlast, hdot, hok', -, rfl⟩ := hloose
      obtain ⟨mid, rfl, hmid⟩ := (hfront.read hupper).eq_append hfront' hlast hdot
      cases hmid with
      | nil =>
        have hle := le_value_of_misread hupper hpre hds hc hread hlast
        rw [append_nil, addressValue, addressValue] at hvalue
        dsimp only at hvalue
        omega
      | @cons _ _ _ n mid hn _ =>
        have hle := le_value_of_misread hupper hpre hds hc hread hn
        have hbyte := hok'.bytes n (by simp)
        omega
    · -- nothing but the character makes the last part a number
      have hbase : last.base = base := by
        obtain ⟨ds, hpre', -⟩ := hlast
        exact (hpre'.unique hpre).1
      have hloose : IsIpv4 (digit upper) strict s _ rest :=
        ⟨front, t, last, hfront.read hupper, hlast, hdot, hbase ▸ hok, hlt, rfl⟩
      have hcode : rtlIpv4StringToAddressW upper (fun _ => 0) s strict 0 = ⟨.success, rest, _⟩ :=
        rtlIpv4StringToAddressW_iff.2 ⟨_, hloose, rfl⟩
      obtain ⟨w, rest', front', t', last', hfront', hlast', hdot', -⟩ :=
        hsucc.1 (congrArg Ipv4Result.status hcode)
      obtain ⟨mid, rfl, hmid⟩ := hfront.eq_append hfront' hlast' hdot'
      cases hmid with
      | nil => exact hpre.not_isNumber hc hlast'
      | cons hn _ => exact hpre.not_isNumber hc hn
  · intro hmis fresh addr
    refine ⟨⟨fun h => ?_, fun ⟨v, rest, hv⟩ => ?_⟩, fun v rest hv => ?_⟩
    · obtain ⟨v, hv, -⟩ := rtlIpv4StringToAddressW_iff.1
        (show rtlIpv4StringToAddressW upper fresh s strict addr = ⟨.success, _, _⟩ by rw [← h])
      exact ⟨v, _, (isIpv4_read_iff hupper hmis).1 hv⟩
    · exact congrArg Ipv4Result.status
        (rtlIpv4StringToAddressW_iff.2 ⟨v, (isIpv4_read_iff hupper hmis).2 hv, rfl⟩)
    · exact congrArg Ipv4Result.addr
        (rtlIpv4StringToAddressW_iff.2 ⟨v, (isIpv4_read_iff hupper hmis).2 hv, rfl⟩)

/-! ### Printed addresses -/

/-- Nothing in what follows a printed number is read as a part of it. -/
def Ends (upper : ℕ → Bool) (rest : List UInt16) : Prop :=
  ∀ c ∈ rest.head?, digit upper 10 c.toNat = none ∧ c ≠ 0x78 ∧ c ≠ 0x58

/-- A printed number has no prefix of another base. -/
theorem prefixed_printNumber (hrest : Ends upper rest) :
    Prefixed (printNumber 10 m ++ rest) 10 (printNumber 10 m ++ rest) := by
  have hten : IsBase 10 := .inr (.inl rfl)
  refine .decimal fun x t ht => ?_
  obtain ⟨d, ds, hnumeral⟩ := exists_cons_of_ne_nil (numeral_ne_nil 10 m)
  have hd : d < 10 := numeral_lt (n := m) (by decide) (by rw [hnumeral]; exact mem_cons_self)
  rw [printNumber, hnumeral, map_cons, cons_append, cons_eq_cons] at ht
  obtain ⟨hzero, htail⟩ := ht
  -- the first digit is zero, so it is the only one
  have hdigit : d = 0 := by
    rw [eq_iff_toNat_eq, toNat_digitChar (by omega), if_pos hd] at hzero
    exact Nat.add_eq_left.1 hzero
  obtain rfl : ds = [] := by
    have hhead := @head_numeral 10 m (by rw [hnumeral, hdigit]; rfl)
    rw [hnumeral] at hhead
    exact (cons_eq_cons.1 hhead).2
  rw [map_nil, nil_append] at htail
  obtain ⟨hnone, hx, hX⟩ := hrest x (by rw [htail]; rfl)
  refine ⟨not_or.2 ⟨hx, hX⟩, fun hle => ?_⟩
  have hplain := plainDigit_eq_none hupper hten hnone
  have hlow := UInt16.le_iff_toNat_le.1 hle.1
  have hhigh := UInt16.le_iff_toNat_le.1 hle.2
  change 0x30 ≤ x.toNat at hlow
  change x.toNat ≤ 0x39 at hhigh
  rw [plainDigit, if_pos (by omega)] at hplain
  cases hplain

/-- A printed number is a number. -/
theorem isNumber_printNumber (hm : m < 2 ^ 32) (hrest : Ends upper rest) :
    IsNumber (digit upper) (printNumber 10 m ++ rest) ⟨10, m⟩ rest := by
  have hten : IsBase 10 := .inr (.inl rfl)
  refine ⟨printNumber 10 m, prefixed_printNumber hupper hrest, ⟨fun c hc => ?_, fun c hc =>
    (hrest c hc).1⟩, printNumber_ne_nil 10 m, (runValue_printNumber hupper hten m).symm, hm⟩
  obtain ⟨d, -, -, hd⟩ := digit_printNumber hupper hten hc
  rw [hd]
  rfl

theorem isNumber_printNumber_dot (hm : m < 2 ^ 32) :
    IsNumber (digit upper) (printNumber 10 m ++ 0x2E :: t) ⟨10, m⟩ (0x2E :: t) := by
  refine isNumber_printNumber hupper hm fun c hc => ?_
  obtain rfl : 0x2E = c := by simpa using hc
  exact ⟨digit_dot hupper (.inr (.inl rfl)), by decide, by decide⟩

/-- **Four printed bytes** are three numbers with dots behind them and a last one. -/
theorem dotted_quadText (hb : ∀ i, b i < 0x100) (hrest : Ends upper rest) :
    ∃ t, Dotted (digit upper) (quadText b ++ rest) [⟨10, b 0⟩, ⟨10, b 1⟩, ⟨10, b 2⟩] t ∧
      IsNumber (digit upper) t ⟨10, b 3⟩ rest := by
  have hlt : ∀ i, b i < 2 ^ 32 := fun i => (hb i).trans (by decide)
  refine ⟨printNumber 10 (b 3) ++ rest, ?_, isNumber_printNumber hupper (hlt 3) hrest⟩
  simp only [quadText, append_assoc, cons_append]
  exact .cons (isNumber_printNumber_dot hupper (hlt 0))
    (.cons (isNumber_printNumber_dot hupper (hlt 1))
      (.cons (isNumber_printNumber_dot hupper (hlt 2)) .nil))

/-- The parser reads four printed bytes. -/
theorem rtlpIpv4StringToAddressParserW_quadText (hb : ∀ i, b i < 0x100) (hrest : Ends upper rest)
    (hdot : rest.head? ≠ some 0x2E) (fresh : ℕ → ℕ) (strict : Bool) :
    rtlpIpv4StringToAddressParserW upper fresh (quadText b ++ rest) strict =
      ⟨.success, rest, [b 0, b 1, b 2, b 3]⟩ := by
  obtain ⟨t, hfront, hlast⟩ := dotted_quadText hupper hb hrest
  exact ipv4ParserLoop_of_dotted hfront hlast hdot (fun _ => ⟨by simp, rfl⟩) le_rfl []

omit hupper in
theorem length_quadText_le (hb : ∀ i, b i < 0x100) : (quadText b).length ≤ 15 := by
  have hlength : ∀ i, (printNumber 10 (b i)).length ≤ 3 := fun i => by
    have hbyte := hb i
    rw [printNumber, length_map]
    exact length_numeral_le (by decide) (by decide) (by omega)
  have h0 := hlength 0
  have h1 := hlength 1
  have h2 := hlength 2
  have h3 := hlength 3
  simp only [quadText, length_append, length_cons]
  omega

omit hupper in
theorem addrByte_lt (addr : UInt32) (i : ℕ) : addrByte addr i < 0x100 := Nat.mod_lt _ (by decide)

omit hupper in
/-- The bytes of an address make up the value that is returned as it. -/
theorem rtlUlongByteSwap_addressValue (addr : UInt32) :
    rtlUlongByteSwap (addressValue [⟨10, addrByte addr 0⟩, ⟨10, addrByte addr 1⟩,
      ⟨10, addrByte addr 2⟩] (addrByte addr 3)) = addr := by
  have hvalue : addressValue [⟨10, addrByte addr 0⟩, ⟨10, addrByte addr 1⟩, ⟨10, addrByte addr 2⟩]
      (addrByte addr 3) = addrByte addr 0 * 2 ^ 24 + addrByte addr 1 * 2 ^ 16 +
        addrByte addr 2 * 2 ^ 8 + addrByte addr 3 := by
    simp only [addressValue, numeralValue, map_cons, map_nil, foldl_cons,
      foldl_nil, length_cons, length_nil]
    omega
  obtain ⟨h0, h1, h2, h3⟩ := bytes_of_sum (addrByte_lt addr 0) (addrByte_lt addr 1)
    (addrByte_lt addr 2) (addrByte_lt addr 3)
  rw [pow_zero, Nat.div_one] at h0
  rw [hvalue, ← UInt32.toNat_inj, toNat_rtlUlongByteSwap, h0, h1, h2, h3]
  have hlt := addr.toNat_lt
  simp only [addrByte]
  omega

/-- **A printed address is read back**, to the end of the text. -/
theorem rtlIpv4StringToAddressW_ipv4Text (strict : Bool) (fresh : ℕ → ℕ) (addr old : UInt32) :
    rtlIpv4StringToAddressW upper fresh (ipv4Text addr) strict old = ⟨.success, [], addr⟩ := by
  have hend : Ends upper [] := fun c hc => by cases hc
  obtain ⟨t, hfront, hlast⟩ := dotted_quadText hupper (addrByte_lt addr) hend
  rw [append_nil] at hfront
  refine rtlIpv4StringToAddressW_iff.2 ⟨_, ⟨_, t, _, hfront, hlast, by simp, ?_, addrByte_lt addr 3,
    rfl⟩, (rtlUlongByteSwap_addressValue addr).symm⟩
  refine ⟨le_rfl, ?_, fun _ => rfl, fun _ => ⟨by simp, rfl⟩⟩
  simp only [forall_mem_cons]
  exact ⟨Nat.le_of_lt_succ (addrByte_lt addr 0), Nat.le_of_lt_succ (addrByte_lt addr 1),
    Nat.le_of_lt_succ (addrByte_lt addr 2), by simp⟩

end

theorem rtlIpv4AddressToStringW_eq (addr : UInt32) :
    rtlIpv4AddressToStringW addr = some (ipv4Text addr) :=
  if_pos (Nat.lt_succ_of_le (length_quadText_le (addrByte_lt addr)))

/-! ### IPv4 text parsing -/

/-- **IPv4 text parsing.** Exactly the strings without a misread number are parsed by the grammar,
and every printed address is read back. -/
theorem ipv4_parsing (hupper : KnowsAscii upper) :
    (∀ strict s, ParsesGrammar upper strict s ↔ ¬ Misread upper strict s) ∧
      ∀ addr, ∃ text, rtlIpv4AddressToStringW addr = some text ∧
        ∀ strict fresh old,
          rtlIpv4StringToAddressW upper fresh text strict old = ⟨.success, [], addr⟩ :=
  ⟨fun _ _ => parsesGrammar_iff hupper, fun addr => ⟨ipv4Text addr, rtlIpv4AddressToStringW_eq addr,
    fun strict fresh old => rtlIpv4StringToAddressW_ipv4Text hupper strict fresh addr old⟩⟩

/-- A table with the upper case letters of ASCII only. -/
def asciiUpper (c : ℕ) : Bool := decide (0x41 ≤ c ∧ c ≤ 0x5A)

theorem knowsAscii_asciiUpper : KnowsAscii asciiUpper := fun c _ => by
  rw [asciiUpper, decide_eq_true_iff]

theorem ipv4_parsing_ascii : KnowsAscii asciiUpper ∧
    (ParsesGrammar asciiUpper false [0x31] ↔ ¬ Misread asciiUpper false [0x31]) ∧
    ∃ text, rtlIpv4AddressToStringW 0x0100007F = some text ∧
      rtlIpv4StringToAddressW asciiUpper (fun _ => 0) text true 0 = ⟨.success, [], 0x0100007F⟩ := by
  obtain ⟨text, htext, hread⟩ := (ipv4_parsing knowsAscii_asciiUpper).2 0x0100007F
  exact ⟨knowsAscii_asciiUpper, (ipv4_parsing knowsAscii_asciiUpper).1 false [0x31], text, htext,
    hread true (fun _ => 0) 0⟩

/-- The letter `ı` is accepted as an address: it is read as the number 257. -/
theorem dotless_i_accepted :
    (rtlIpv4StringToAddressW asciiUpper (fun _ => 0) [0x0131] false 0).status = .success ∧
      ¬ ParsesGrammar asciiUpper false [0x0131] := by
  have hcode : rtlIpv4StringToAddressW asciiUpper (fun _ => 0) [0x0131] false 0 =
      ⟨.success, [], rtlUlongByteSwap 257⟩ := by decide
  have hpre : Prefixed [0x0131] 10 [0x0131] := prefixed_iff.2 (by decide)
  refine ⟨congrArg Ipv4Result.status hcode, fun hparse => ?_⟩
  obtain ⟨v, rest, front, t, last, hfront, hlast, -⟩ :=
    (hparse (fun _ => 0) 0).1.1 (congrArg Ipv4Result.status hcode)
  cases hfront with
  | nil => exact hpre.not_isNumber (by decide) hlast
  | cons hn _ => exact hpre.not_isNumber (by decide) hn

end RtlNetwork

end Windivs

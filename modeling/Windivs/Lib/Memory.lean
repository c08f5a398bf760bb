import Mathlib.Tactic

/-!
# Byte memory with little-endian fields

A memory is a total function from addresses to bytes, and a C structure inside
it is read and written by the offsets of its fields. The file has the three
accesses the registry code makes – 16-bit and 32-bit unsigned fields and the
32-bit signed field – together with the two block operations, a copy
(`Windivs.Mem.copy`, which is `memmove`: the source is read before anything is
written) and a fill (`Windivs.Mem.fill`).

Every read depends on the bytes it covers and on nothing else, which is
`Windivs.Mem.readU32_congr`. The lemmas about a read after a write are all
instances of it, so a proof that two accesses do not interfere is a proof that
two intervals of addresses are disjoint, and nothing more.
-/

namespace Windivs

/-- A memory: one byte per address. -/
abbrev Mem := ℕ → UInt8

namespace Mem

/-! ### Fields -/

/-- The unsigned 16-bit field at address `a`, low byte first. -/
def readU16 (m : Mem) (a : ℕ) : ℕ :=
  (m a).toNat + 256 * (m (a + 1)).toNat

/-- The unsigned 32-bit field at address `a`, low byte first. -/
def readU32 (m : Mem) (a : ℕ) : ℕ :=
  (m a).toNat + 256 * (m (a + 1)).toNat + 65536 * (m (a + 2)).toNat +
    16777216 * (m (a + 3)).toNat

/-- The two's complement reading of a 32-bit word. -/
def toSigned (v : ℕ) : ℤ :=
  if v < 0x80000000 then (v : ℤ) else (v : ℤ) - 0x100000000

/-- The 32-bit word of a signed value, modulo `2 ^ 32`. -/
def ofSigned (z : ℤ) : ℕ :=
  (z % 0x100000000).toNat

/-- The signed 32-bit field at address `a`. -/
def readI32 (m : Mem) (a : ℕ) : ℤ :=
  toSigned (readU32 m a)

/-- Store the byte `v` at address `a`. -/
def writeU8 (m : Mem) (a : ℕ) (v : UInt8) : Mem := fun b =>
  if b = a then v else m b

/-- Store the low 16 bits of `v` at address `a`. -/
def writeU16 (m : Mem) (a v : ℕ) : Mem := fun b =>
  if b = a then UInt8.ofNat v
  else if b = a + 1 then UInt8.ofNat (v / 256)
  else m b

/-- Store the low 32 bits of `v` at address `a`. -/
def writeU32 (m : Mem) (a v : ℕ) : Mem := fun b =>
  if b = a then UInt8.ofNat v
  else if b = a + 1 then UInt8.ofNat (v / 256)
  else if b = a + 2 then UInt8.ofNat (v / 65536)
  else if b = a + 3 then UInt8.ofNat (v / 16777216)
  else m b

/-- Store a signed 32-bit value at address `a`. -/
def writeI32 (m : Mem) (a : ℕ) (z : ℤ) : Mem :=
  writeU32 m a (ofSigned z)

/-- `memmove`: `n` bytes of `src` from address `s` replace those of `m` from
address `d`. -/
def copy (m : Mem) (d : ℕ) (src : Mem) (s n : ℕ) : Mem := fun b =>
  if d ≤ b ∧ b < d + n then src (s + (b - d)) else m b

/-- `memset`: the `n` bytes from address `d` become `v`. -/
def fill (m : Mem) (d n : ℕ) (v : UInt8) : Mem := fun b =>
  if d ≤ b ∧ b < d + n then v else m b

/-- The `n` bytes from address `a` on. -/
def bytes (m : Mem) (a n : ℕ) : List UInt8 :=
  (List.range n).map fun i => m (a + i)

/-- The bytes of `m` and of `m'` agree on the addresses `lo, …, hi - 1`. -/
def AgreeOn (m m' : Mem) (lo hi : ℕ) : Prop :=
  ∀ a, lo ≤ a → a < hi → m a = m' a

/-! ### Two's complement -/

variable {a lo hi : ℕ} {z : ℤ}

theorem toSigned_ofSigned (hlo : -0x80000000 ≤ z) (hhi : z < 0x80000000) :
    toSigned (ofSigned z) = z := by
  rw [toSigned, ofSigned]
  split <;> omega

/-! ### Reads depend only on the bytes they cover -/

section

variable (m : Mem)

theorem readU16_lt (a : ℕ) : readU16 m a < 0x10000 := by
  have h₀ := (m a).toNat_lt
  have h₁ := (m (a + 1)).toNat_lt
  rw [readU16]
  omega

theorem readU32_lt (a : ℕ) : readU32 m a < 0x100000000 := by
  have h₀ := (m a).toNat_lt
  have h₁ := (m (a + 1)).toNat_lt
  have h₂ := (m (a + 2)).toNat_lt
  have h3 := (m (a + 3)).toNat_lt
  rw [readU32]
  omega

/-- A positive signed field is its unsigned reading. -/
theorem readU32_eq_toNat {m : Mem} (h : readI32 m a = z) (hz : 0 < z) : readU32 m a = z.toNat := by
  have hlt := readU32_lt m a
  rw [readI32, toSigned] at h
  split at h <;> omega

theorem AgreeOn.trans {m m' m'' : Mem} (h : AgreeOn m m' lo hi)
    (h' : AgreeOn m' m'' lo hi) : AgreeOn m m'' lo hi :=
  fun a hlo hhi => (h a hlo hhi).trans (h' a hlo hhi)

theorem AgreeOn.mono {m m' : Mem} {lo hi lo' hi' : ℕ} (h : AgreeOn m m' lo hi)
    (hlo : lo ≤ lo') (hhi : hi' ≤ hi) : AgreeOn m m' lo' hi' :=
  fun a h₁ h₂ => h a (hlo.trans h₁) (h₂.trans_le hhi)

theorem readU16_congr {m m' : Mem} (h : AgreeOn m m' a (a + 2)) : readU16 m a = readU16 m' a := by
  rw [readU16, readU16, h a (by omega) (by omega), h (a + 1) (by omega) (by omega)]

theorem readU32_congr {m m' : Mem} (h : AgreeOn m m' a (a + 4)) : readU32 m a = readU32 m' a := by
  rw [readU32, readU32, h a (by omega) (by omega), h (a + 1) (by omega) (by omega),
    h (a + 2) (by omega) (by omega), h (a + 3) (by omega) (by omega)]

/-- A field is read from its two bytes, wherever they lie. -/
theorem readU16_shift {m m' : Mem} {a a' : ℕ} (h : ∀ i < 2, m' (a' + i) = m (a + i)) :
    readU16 m' a' = readU16 m a := by
  rw [readU16, readU16, h 1 (by omega), show m' a' = m a from h 0 (by omega)]

/-- A field is read from its four bytes, wherever they lie. -/
theorem readU32_shift {m m' : Mem} {a a' : ℕ} (h : ∀ i < 4, m' (a' + i) = m (a + i)) :
    readU32 m' a' = readU32 m a := by
  rw [readU32, readU32, h 1 (by omega), h 2 (by omega), h 3 (by omega),
    show m' a' = m a from h 0 (by omega)]

theorem readI32_congr {m m' : Mem} (h : AgreeOn m m' a (a + 4)) : readI32 m a = readI32 m' a := by
  rw [readI32, readI32, readU32_congr h]

/-! ### What each operation leaves alone -/

theorem agreeOn_writeU8 (a : ℕ) (v : UInt8) (h : hi ≤ a ∨ a + 1 ≤ lo) :
    AgreeOn (writeU8 m a v) m lo hi := by
  intro b hlo hhi
  rw [writeU8, if_neg (by omega)]

theorem agreeOn_writeU16 (a v : ℕ) (h : hi ≤ a ∨ a + 2 ≤ lo) :
    AgreeOn (writeU16 m a v) m lo hi := by
  intro b hlo hhi
  rw [writeU16, if_neg (by omega), if_neg (by omega)]

theorem agreeOn_writeU32 (a v : ℕ) (h : hi ≤ a ∨ a + 4 ≤ lo) :
    AgreeOn (writeU32 m a v) m lo hi := by
  intro b hlo hhi
  rw [writeU32, if_neg (by omega), if_neg (by omega), if_neg (by omega), if_neg (by omega)]

theorem agreeOn_writeI32 (a : ℕ) (z : ℤ) (h : hi ≤ a ∨ a + 4 ≤ lo) :
    AgreeOn (writeI32 m a z) m lo hi :=
  agreeOn_writeU32 m a _ h

theorem agreeOn_copy (m src : Mem) (d s n : ℕ) (h : hi ≤ d ∨ d + n ≤ lo) :
    AgreeOn (copy m d src s n) m lo hi := by
  intro b hlo hhi
  rw [copy, if_neg (by omega)]

theorem agreeOn_fill (d n : ℕ) (v : UInt8) (h : hi ≤ d ∨ d + n ≤ lo) :
    AgreeOn (fill m d n v) m lo hi := by
  intro b hlo hhi
  rw [fill, if_neg (by omega)]

end

theorem writeU32_of_notMem {m : Mem} {a v b : ℕ} (h : b < a ∨ a + 4 ≤ b) :
    writeU32 m a v b = m b := by
  rw [writeU32, if_neg (by omega), if_neg (by omega), if_neg (by omega), if_neg (by omega)]

theorem writeI32_of_notMem {m : Mem} {a b : ℕ} (h : b < a ∨ a + 4 ≤ b) : writeI32 m a z b = m b :=
  writeU32_of_notMem h

theorem copy_of_mem {m src : Mem} {d s n b : ℕ} (h₁ : d ≤ b) (h₂ : b < d + n) :
    copy m d src s n b = src (s + (b - d)) :=
  if_pos ⟨h₁, h₂⟩

theorem copy_of_notMem {m src : Mem} {d s n b : ℕ} (h : b < d ∨ d + n ≤ b) :
    copy m d src s n b = m b :=
  if_neg (by omega)

/-! ### A store looks at the byte it replaces only -/

section Pointwise

variable {m m' : Mem} {b : ℕ}

theorem writeU8_pointwise (h : m b = m' b) (a : ℕ) (v : UInt8) :
    writeU8 m a v b = writeU8 m' a v b := by
  rw [writeU8, writeU8, h]

theorem writeU16_pointwise (h : m b = m' b) (a v : ℕ) : writeU16 m a v b = writeU16 m' a v b := by
  rw [writeU16, writeU16, h]

theorem writeU32_pointwise (h : m b = m' b) (a v : ℕ) : writeU32 m a v b = writeU32 m' a v b := by
  rw [writeU32, writeU32, h]

theorem copy_pointwise (h : m b = m' b) (src : Mem) (d s n : ℕ) :
    copy m d src s n b = copy m' d src s n b := by
  rw [copy, copy, h]

/-- The bytes of the field do not depend on what was there. -/
theorem writeU16_of_mem (v : ℕ) (h : a ≤ b ∧ b < a + 2) : writeU16 m a v b = writeU16 m' a v b := by
  rw [writeU16, writeU16]
  by_cases hb : b = a
  · rw [if_pos hb, if_pos hb]
  · rw [if_neg hb, if_neg hb, if_pos (by omega), if_pos (by omega)]

end Pointwise

/-! ### A read after a write -/

section

variable (m : Mem)

@[simp] theorem writeU8_self (a : ℕ) (v : UInt8) : writeU8 m a v a = v :=
  if_pos rfl

theorem readU16_writeU16 (a v : ℕ) : readU16 (writeU16 m a v) a = v % 0x10000 := by
  simp only [readU16, writeU16, UInt8.toNat_ofNat', if_pos, Nat.add_eq_left, one_ne_zero, if_false]
  omega

theorem readU32_writeU32 (a v : ℕ) : readU32 (writeU32 m a v) a = v % 0x100000000 := by
  have h₁ : a + 1 ≠ a := by omega
  have h₂ : a + 2 ≠ a ∧ a + 2 ≠ a + 1 := by omega
  have h3 : a + 3 ≠ a ∧ a + 3 ≠ a + 1 ∧ a + 3 ≠ a + 2 := by omega
  simp only [readU32, writeU32, UInt8.toNat_ofNat', if_pos, if_neg h₁, if_neg h₂.1, if_neg h₂.2,
    if_neg h3.1, if_neg h3.2.1, if_neg h3.2.2]
  omega

theorem readI32_writeI32 (a : ℕ) (hlo : -0x80000000 ≤ z) (hhi : z < 0x80000000) :
    readI32 (writeI32 m a z) a = z := by
  rw [readI32, writeI32, readU32_writeU32, Nat.mod_eq_of_lt (by rw [ofSigned]; omega),
    toSigned_ofSigned hlo hhi]

theorem readU32_writeU32_ne {a b : ℕ} (v : ℕ) (h : b + 4 ≤ a ∨ a + 4 ≤ b) :
    readU32 (writeU32 m a v) b = readU32 m b :=
  readU32_congr (agreeOn_writeU32 m a v h)

theorem readU32_writeI32_ne {a b : ℕ} (z : ℤ) (h : b + 4 ≤ a ∨ a + 4 ≤ b) :
    readU32 (writeI32 m a z) b = readU32 m b :=
  readU32_congr (agreeOn_writeI32 m a z h)

theorem readI32_writeI32_ne {a b : ℕ} (z : ℤ) (h : b + 4 ≤ a ∨ a + 4 ≤ b) :
    readI32 (writeI32 m a z) b = readI32 m b :=
  readI32_congr (agreeOn_writeI32 m a z h)

end

end Mem

-- the lemmas above are all that is used of these
attribute [irreducible] Mem.readU16 Mem.readU32 Mem.readI32 Mem.writeU16 Mem.writeU32 Mem.writeI32

end Windivs

import Windivs.Lib.Memory

/-!
# Records one after another in memory

A record of some type is stored in a memory from an address on, in as many bytes as it
has; `Windivs.RecordFormat` says how one is written and how one is read. Two properties
of a record matter: that writing it touches no byte outside its own
(`Windivs.RecordFormat.Bounded`), and that it can be read back from its bytes alone
(`Windivs.RecordFormat.Readable`).

`Windivs.RecordFormat.writeAll` lays a list of records out with a limit: a record that
would go past the limit is skipped, its room is still left. Nothing at or behind the limit
is written (`Windivs.RecordFormat.writeAll_of_le`), what becomes of a byte does not
depend on others (`Windivs.RecordFormat.writeAll_pointwise`), and as far as there is room the
records are then found one after another
(`Windivs.RecordFormat.recordsAt_writeAll`).
-/

namespace Windivs

open List

/-- How the records of a type are kept in memory. -/
structure RecordFormat (ε : Type*) where
  /-- How many bytes a record takes. -/
  size : ε → ℕ
  /-- Write a record from an address on. -/
  write : ε → Mem → ℕ → Mem
  /-- Read the record that begins at an address. -/
  read : Mem → ℕ → ε

namespace RecordFormat

variable {ε : Type*} (F : RecordFormat ε)

/-- Writing the record changes its own bytes only. -/
def Bounded (e : ε) : Prop :=
  ∀ m p b, b < p ∨ p + F.size e ≤ b → F.write e m p b = m b

/-- The record can be read back after it has been written, and is read from its own bytes. -/
structure Readable (e : ε) : Prop where
  bounded : F.Bounded e
  read_write : ∀ m p, F.read (F.write e m p) p = e
  read_congr : ∀ {m m' : Mem} {p : ℕ}, F.read m p = e → Mem.AgreeOn m m' p (p + F.size e) →
    F.read m' p = e

/-- What writing the record makes of a byte depends on that byte only. -/
def Pointwise (e : ε) : Prop :=
  ∀ {m m' : Mem} (p : ℕ) {b : ℕ}, m b = m' b → F.write e m p b = F.write e m' p b

/-- The room of a list of records. -/
def total (es : List ε) : ℕ := (es.map F.size).sum

@[simp] theorem total_nil : F.total [] = 0 := rfl

@[simp] theorem total_cons (e : ε) (es : List ε) : F.total (e :: es) = F.size e + F.total es := by
  simp [total]

@[simp] theorem total_append (es es' : List ε) :
    F.total (es ++ es') = F.total es + F.total es' := by
  simp [total]

theorem size_le_total {e : ε} {es : List ε} (h : e ∈ es) : F.size e ≤ F.total es :=
  single_le_sum (by simp) _ (mem_map_of_mem h)

/-- Write the records one after another from `p` on, skipping those that would go past `limit`. -/
def writeAll (limit : ℕ) : List ε → Mem → ℕ → Mem
  | [], m, _ => m
  | e :: es, m, p =>
    writeAll limit es (if p + F.size e ≤ limit then F.write e m p else m) (p + F.size e)

/-- The records lie one after another from `p` on. -/
def RecordsAt (m : Mem) : ℕ → List ε → Prop
  | _, [] => True
  | p, e :: es => F.read m p = e ∧ RecordsAt m (p + F.size e) es

variable {F} {m m' : Mem} {p limit : ℕ} {es es' : List ε}

/-- **Nothing is written at or behind the limit**, and nothing before the first record. -/
theorem writeAll_of_le (hes : ∀ e ∈ es, F.Bounded e) {b : ℕ} (hb : b < p ∨ limit ≤ b) :
    F.writeAll limit es m p b = m b := by
  induction es generalizing m p with
  | nil => rfl
  | cons e es ih =>
    rw [writeAll, ih (fun e' h => hes e' (mem_cons_of_mem e h)) (by omega)]
    by_cases hfit : p + F.size e ≤ limit
    · rw [if_pos hfit]
      exact hes e (mem_cons_self ..) m p b (by omega)
    · rw [if_neg hfit]

/-- What writing a list makes of a byte depends on that byte only. -/
theorem writeAll_pointwise (hes : ∀ e ∈ es, F.Pointwise e) {b : ℕ} (hb : m b = m' b) :
    F.writeAll limit es m p b = F.writeAll limit es m' p b := by
  induction es generalizing m m' p with
  | nil => exact hb
  | cons e es ih =>
    refine ih (fun e' h => hes e' (mem_cons_of_mem e h)) ?_
    by_cases hfit : p + F.size e ≤ limit
    · rw [if_pos hfit, if_pos hfit]
      exact hes e (mem_cons_self ..) p hb
    · rw [if_neg hfit, if_neg hfit, hb]

/-- Records that are read from their own bytes stay where those bytes do. -/
theorem RecordsAt.congr (h : F.RecordsAt m p es) (hes : ∀ e ∈ es, F.Readable e)
    (hm : Mem.AgreeOn m m' p (p + F.total es)) : F.RecordsAt m' p es := by
  induction es generalizing p with
  | nil => trivial
  | cons e es ih =>
    rw [total_cons] at hm
    obtain ⟨hread, hrest⟩ := h
    refine ⟨(hes e (mem_cons_self ..)).read_congr hread (hm.mono le_rfl (by omega)), ?_⟩
    exact ih hrest (fun e' h => hes e' (mem_cons_of_mem e h))
      (hm.mono (by omega) (by omega))

/-- **The records that were written are found again**, when there was room for them; others may
have been written behind them. -/
theorem recordsAt_writeAll (hes : ∀ e ∈ es, F.Readable e) (hes' : ∀ e ∈ es', F.Bounded e)
    (hroom : p + F.total es ≤ limit) : F.RecordsAt (F.writeAll limit (es ++ es') m p) p es := by
  induction es generalizing m p with
  | nil => trivial
  | cons e es ih =>
    rw [total_cons] at hroom
    have he := hes e (mem_cons_self ..)
    have hes := fun e' h => hes e' (mem_cons_of_mem e h)
    rw [cons_append, writeAll, if_pos (by omega)]
    refine ⟨he.read_congr (he.read_write m p) fun b _ hb => ?_, ih hes (by omega)⟩
    -- what follows is written behind the record
    have hbounded : ∀ e' ∈ es ++ es', F.Bounded e' := by
      intro e' h
      rcases mem_append.1 h with h | h
      · exact (hes e' h).bounded
      · exact hes' e' h
    exact (writeAll_of_le hbounded (.inl hb)).symm

end RecordFormat

end Windivs

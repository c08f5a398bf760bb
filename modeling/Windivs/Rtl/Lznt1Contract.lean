import Windivs.Lib.Numeral
import Windivs.Rtl.Lznt1

/-!
# The contracts of the LZNT1 routines

The compressor stores every block of `4096` bytes as it is, so what it writes is read back as these
blocks, and their layout is the source again (`Windivs.Lznt1.lznt1_roundTrip`).

A fragment of any buffer that the decompressor accepts is the rest of what it stands for exactly
when the chunks are regular (`Windivs.Lznt1.lznt1_fragments`). A chunk that stands for more than
`4096` bytes is written in full when it is decompressed into the destination, and cut when it is
decompressed into the workspace or skipped; a chunk that stands for none takes no place in the
destination, and is counted as `4096` bytes when it is skipped.
-/

namespace Windivs

variable {block : ℕ} {ps : List (List UInt8)} {s src : List UInt8}

namespace Lznt1

open PaddedLayout List

/-! ### The round trip -/

/-- The size of a buffer that is stored in chunks. -/
def storedSize (n : ℕ) : ℕ := n + 2 * ((n + 0xFFF) / 0x1000)

/-- The header of a stored block. -/
def storedHeader (block : ℕ) : ℕ := 0x3000 ||| (block - 1)

theorem storedHeader_eq (hpos : 0 < block) (hle : block ≤ 0x1000) :
    storedHeader block = 0x2FFF + block := by
  rw [storedHeader, or_eq_add 12 (by omega) (by decide)]
  omega

/-- The decompressor reads the header of a stored block. -/
theorem word_storedHeader (hpos : 0 < block) (hle : block ≤ 0x1000) :
    word (.ofNat (storedHeader block % 0x100)) (.ofNat (storedHeader block / 0x100)) =
      storedHeader block := by
  have hheader := storedHeader_eq hpos hle
  rw [word, UInt8.toNat_ofNat', UInt8.toNat_ofNat']
  omega

theorem chunkSize_storedHeader (hpos : 0 < block) (hle : block ≤ 0x1000) :
    chunkSize (storedHeader block) = block := by
  have hheader := storedHeader_eq hpos hle
  rw [chunkSize, show (0xFFF : ℕ) = 2 ^ 12 - 1 from rfl, Nat.and_two_pow_sub_one_eq_mod]
  omega

theorem chunkBytes_storedHeader (hpos : 0 < block) (hle : block ≤ 0x1000)
    (chunk : List UInt8) : chunkBytes (storedHeader block) chunk = some chunk := by
  have hmask : storedHeader block &&& 0x8000 = (storedHeader block / 0x8000 % 0x02) <<< 15 :=
    and_mask (storedHeader block) 15 1
  have hheader := storedHeader_eq hpos hle
  have hbit : storedHeader block / 0x8000 % 0x02 = 0 := by omega
  rw [chunkBytes, if_neg]
  rw [hmask, hbit]
  exact fun h => h rfl

theorem readChunks_short (h : src.length < 2) : readChunks src = some [] := by
  rw [readChunks]
  rintro lo hi src rfl
  rw [length_cons, length_cons] at h
  omega

/-- A stored block is read back. -/
theorem readChunks_stored {block rest : List UInt8}
    (hblock : Good 0x1000 block) (h : readChunks rest = some ps) :
    readChunks (.ofNat (storedHeader block.length % 0x100) ::
      .ofNat (storedHeader block.length / 0x100) :: (block ++ rest)) = some (block :: ps) := by
  have hheader := storedHeader_eq hblock.1 hblock.2
  rw [readChunks, word_storedHeader hblock.1 hblock.2, if_neg (by omega),
    chunkSize_storedHeader hblock.1 hblock.2, if_neg (by rw [length_append]; omega),
    chunkBytes_storedHeader hblock.1 hblock.2]
  dsimp only
  rw [take_left' rfl, drop_left' rfl, h, Option.map_some]

/-- Blocks that are full, the last one apart, are laid out without a gap. -/
theorem layout_stored {block : List UInt8} (hblock : Good 0x1000 block)
    (hfull : ps ≠ [] → block.length = 0x1000) :
    layout 0x1000 0 0 [] (block :: ps) = block ++ layout 0x1000 0 0 [] ps := by
  by_cases hps : ps = []
  · rw [hps, layout_nil_cons, layout, layout, append_nil]
  · rw [hblock.layout_cons hps, PaddedLayout.block, hfull hps, gap_of_dvd (dvd_refl 0x1000),
      replicate_zero, append_nil]

/-- **What the compressor writes**: chunks that are read back as the blocks of the source. -/
theorem compressLoop_eq {size : ℕ} {src dst : List UInt8}
    (h : dst.length + storedSize src.length ≤ size) :
    ∃ stored ps, compressLoop size src dst = done (dst ++ stored) ∧
      readChunks stored = some ps ∧ layout 0x1000 0 0 [] ps = src ∧ ∀ p ∈ ps, Good 0x1000 p := by
  induction src, dst using compressLoop.induct size with
  | case1 dst =>
    refine ⟨[], [], ?_, ?_, rfl, forall_mem_nil _⟩
    · rw [compressLoop, if_pos rfl, append_nil]
    · exact readChunks_short (by decide)
  | case2 src dst hsrc block hroom =>
    have hpos := length_pos_iff.2 hsrc
    simp only [storedSize] at h hroom
    omega
  | case3 src dst hsrc block hroom header ih =>
    have hpos := length_pos_iff.2 hsrc
    have hblock : (src.take block).length = block := by
      rw [length_take]
      omega
    have hgood : Good 0x1000 (src.take block) := by
      rw [Good]
      omega
    obtain ⟨stored, ps, hcall, hread, hlayout, hps⟩ := ih (by
      simp only [length_append, length_cons, length_nil, length_drop]
      simp only [storedSize] at h ⊢
      omega)
    refine ⟨.ofNat (header % 0x100) :: .ofNat (header / 0x100) :: (src.take block ++ stored),
      src.take block :: ps, ?_, ?_, ?_, forall_mem_cons.2 ⟨hgood, hps⟩⟩
    · rw [compressLoop, if_neg hsrc]
      rw [if_neg hroom, hcall]
      simp only [append_assoc, cons_append, nil_append]
    · have hstored := readChunks_stored hgood hread
      rw [hblock] at hstored
      exact hstored
    · rw [layout_stored hgood, hlayout, take_append_drop]
      intro hne
      obtain ⟨p, hp⟩ := exists_mem_of_ne_nil ps hne
      have hrest : p.length ≤ (src.drop block).length := hlayout ▸ length_le_layout_of_mem hp
      have hlen := (hps p hp).1
      rw [length_drop] at hrest
      omega

/-- **The round trip.** What was compressed is decompressed to the same bytes, with the sizes that
were written reported. -/
theorem lznt1_roundTrip (formatAndEngine : UInt16) (hformat : formatAndEngine &&& 0x00FF = 0x0002)
    (x : List UInt8) (hx : x ≠ []) (size : ℕ) (hsize : storedSize x.length ≤ size) :
    ∃ z, rtlCompressBuffer formatAndEngine x size = ⟨.success, some z.length, z⟩ ∧
      ∀ n, x.length ≤ n → rtlDecompressBuffer 0x0002 n z = ⟨.success, some x.length, x⟩ := by
  obtain ⟨stored, ps, hcall, hread, hlayout, hps⟩ := @compressLoop_eq size x []
    (by rw [length_nil, Nat.zero_add]; exact hsize)
  have hregular : Regular 0x1000 ps := ⟨ps, 0, by simp, hps, fun h => absurd rfl h⟩
  have hlong : 2 ≤ stored.length := by
    by_contra hshort
    rw [readChunks_short (not_le.1 hshort), Option.some.injEq] at hread
    exact hx (by rw [← hlayout, ← hread, layout])
  refine ⟨stored, ?_, fun n hn => ?_⟩
  · rw [rtlCompressBuffer, hformat, hcall]
    rfl
  · have hfragment := hregular.fragment_eq (z := (0 : UInt8)) (n := n) (o := 0) (by decide)
      (Nat.zero_le _) (by rw [hlayout]; exact hn)
    rw [rtlDecompressBuffer, rtlDecompressFragment, lznt1Decompress_eq hlong hread (.inr rfl),
      hfragment, hlayout]
    rfl

/-- Five thousand bytes, which are two chunks. -/
theorem lznt1_roundTrip_twoChunks :
    ∃ z, rtlCompressBuffer 0x0002 (replicate 5000 0x41) 5006 = ⟨.success, some z.length, z⟩ ∧
      ∀ n, 5000 ≤ n → rtlDecompressBuffer 0x0002 n z =
        ⟨.success, some 5000, replicate 5000 0x41⟩ := by
  have h := lznt1_roundTrip 0x0002 (by decide) (replicate 5000 0x41)
    (mt (replicate_eq_nil_iff _).1 (by decide)) 5006 (by rw [length_replicate]; decide)
  rwa [length_replicate] at h

/-! ### Fragments -/

/-- A buffer is accepted into a destination that is large enough, and gives `y`. -/
def Accepts (s y : List UInt8) : Prop :=
  ∃ N, ∀ n, N ≤ n → lznt1Decompress n s 0 false = ⟨.success, some y.length, y⟩

/-- Every fragment of a buffer that stands for `y` is the rest of `y`, in every destination that
could hold all of it. -/
def FragmentsRight (s y : List UInt8) : Prop :=
  ∀ o ≤ y.length, ∀ n, y.length ≤ n → n < 2 ^ 32 →
    rtlDecompressFragment 0x0002 n s o true = ⟨.success, some (y.length - o), y.drop o⟩

/-- Without an offset there is only the last loop. -/
theorem lznt1Decompress_zero {n : ℕ} (hlong : 2 ≤ s.length) (workspace : Bool) :
    lznt1Decompress n s 0 workspace = remainingChunks n 0 s [] := by
  obtain ⟨lo, hi, src, rfl⟩ : ∃ lo hi src, s = lo :: hi :: src := by
    match s, hlong with
    | lo :: hi :: src, _ => exact ⟨lo, hi, src, rfl⟩
  rw [lznt1Decompress, if_neg (by omega), skipChunks, if_neg (by decide)]
  dsimp only
  rw [partialChunk, if_neg (not_not.2 rfl)]

/-- **What is accepted** is the layout of chunks that can be read. -/
theorem Accepts.readChunks {s y : List UInt8} (h : Accepts s y) :
    2 ≤ s.length ∧ ∃ ps, readChunks s = some ps ∧ layout 0x1000 0 0 [] ps = y := by
  obtain ⟨N, hN⟩ := h
  have hlong : 2 ≤ s.length := by
    by_contra hshort
    have hcall := hN N le_rfl
    rw [lznt1Decompress, if_pos (not_le.1 hshort)] at hcall
    cases hcall
  refine ⟨hlong, ?_⟩
  cases hread : Lznt1.readChunks s with
  | none =>
    obtain ⟨N', hN'⟩ := @remainingChunks_none s 0 hread []
    have hcall := hN (max N N') (le_max_left _ _)
    have hbad := hN' (max N N') (le_max_right _ _)
    rw [← lznt1Decompress_zero hlong false, hcall] at hbad
    cases hbad
  | some ps =>
    have hcall := hN (max N ((layout 0x1000 0 0 [] ps).length + 1)) (le_max_left _ _)
    rw [lznt1Decompress_eq hlong hread (.inr rfl), fragment_zero (by decide),
      fill_eq_layout (by omega)] at hcall
    exact ⟨ps, rfl, congrArg Output.dst hcall⟩

theorem accepts_of_readChunks (hlong : 2 ≤ s.length)
    (h : Lznt1.readChunks s = some ps) : Accepts s (layout 0x1000 0 0 [] ps) := by
  refine ⟨(layout 0x1000 (0 : UInt8) 0 [] ps).length + 1, fun n hn => ?_⟩
  rw [lznt1Decompress_eq hlong h (.inr rfl), fragment_zero (by decide), fill_eq_layout (by omega)]
  rfl

/-- The law for fragments is that of the layout. -/
theorem fragmentsRight_iff (hlong : 2 ≤ s.length) (h : Lznt1.readChunks s = some ps) :
    FragmentsRight s (layout 0x1000 0 0 [] ps) ↔ FragmentLaw 0x1000 0 (2 ^ 32) ps := by
  refine forall₅_congr fun o ho n hn hM => ?_
  rw [rtlDecompressFragment, if_pos (by decide), lznt1Decompress_eq hlong h (.inl rfl), done]
  constructor
  · exact fun heq => congrArg Output.dst heq
  · intro heq
    rw [heq, length_drop]

/-- **The law for fragments.** It holds for a buffer exactly when its chunks are regular: none
stands for more than `4096` bytes, and none for no byte, except for such chunks at the end that
stand behind one of `4096` bytes. -/
theorem lznt1_fragments (s y : List UInt8) (haccepts : Accepts s y) (hy : y.length < 2 ^ 32) :
    FragmentsRight s y ↔ ∃ ps, readChunks s = some ps ∧ Regular 0x1000 ps := by
  obtain ⟨hlong, ps, hread, rfl⟩ := haccepts.readChunks
  rw [fragmentsRight_iff hlong hread, fragmentLaw_iff (by decide) (by decide) hy, hread]
  exact ⟨fun h => ⟨ps, rfl, h⟩, fun ⟨qs, hqs, h⟩ => Option.some.inj hqs ▸ h⟩

/-- Four equal bytes, of which three are a reference to the first, and a stored byte in the next
chunk are regular. -/
theorem lznt1_fragments_twoChunks :
    let s := [0x03, 0x80, 0x02, 0x41, 0x00, 0x00, 0x00, 0x30, 0x42]
    let y := replicate 4 0x41 ++ replicate 4092 0 ++ [0x42]
    Accepts s y ∧ FragmentsRight s y := by
  intro s y
  have hgood : Good 0x1000 [(0x42 : UInt8)] := ⟨by decide, by decide⟩
  have hstored : readChunks [0x00, 0x30, 0x42] = some [[0x42]] :=
    readChunks_stored hgood (readChunks_short (by decide))
  have hread : readChunks s = some [replicate 4 0x41, [0x42]] := by
    have hheader : word 0x03 0x80 = 0x8003 := rfl
    have hsize : chunkSize 0x8003 = 4 := rfl
    have hchunk : chunkBytes 0x8003 [0x02, 0x41, 0x00, 0x00] = some (replicate 4 0x41) := by
      decide
    rw [readChunks, hheader, if_neg (by decide), hsize, if_neg (by decide)]
    dsimp only [take, drop]
    rw [hchunk]
    dsimp only
    rw [hstored, Option.map_some]
  have haccepts : Accepts s y := accepts_of_readChunks (by decide) hread
  refine ⟨haccepts, (lznt1_fragments s y haccepts ?_).2
    ⟨_, hread, [replicate 4 0x41, [0x42]], 0, rfl, ?_, fun h => absurd rfl h⟩⟩
  · rw [length_append, length_append, length_replicate, length_replicate]
    decide
  · exact forall_mem_cons.2 ⟨⟨by decide, by decide⟩, forall_mem_singleton.2 hgood⟩

theorem copyBack_replicate (b : UInt8) (j length : ℕ) :
    copyBack 1 length (replicate (j + 1) b) = replicate (j + 1 + length) b := by
  induction length generalizing j with
  | zero => rfl
  | succ length ih =>
    have hlast : (replicate (j + 1) b).getD ((replicate (j + 1) b).length - 1) 0 = b := by
      rw [length_replicate, getD_eq_getElem?_getD,
        getElem?_replicate_of_lt (by omega), Option.getD_some]
    rw [copyBack, hlast, ← replicate_succ', ih]
    congr 1
    omega

/-- **A chunk of more than `4096` bytes**: a byte and a reference that repeats it `4098` times. The
fragment behind its first byte lacks the last three bytes. -/
theorem long_chunk_cut :
    Accepts [0x03, 0x80, 0x02, 0x41, 0xFF, 0x0F] (replicate 4099 0x41) ∧
      (rtlDecompressFragment 0x0002 4099 [0x03, 0x80, 0x02, 0x41, 0xFF, 0x0F] 1 true).dst =
        replicate 4095 0x41 ∧
      ¬ FragmentsRight [0x03, 0x80, 0x02, 0x41, 0xFF, 0x0F] (replicate 4099 0x41) := by
  have hentities : readEntities 0 [0x02, 0x41, 0xFF, 0x0F] 0 =
      some [.literal 0x41, .reference 1 4098] := by decide
  have hbytes : copyBack 1 4098 [0x41] = replicate 4099 0x41 := copyBack_replicate 0x41 0 4098
  have hread : readChunks [0x03, 0x80, 0x02, 0x41, 0xFF, 0x0F] =
      some [replicate 4099 0x41] := by
    have hheader : word 0x03 0x80 = 0x8003 := rfl
    have hsize : chunkSize 0x8003 = 4 := rfl
    have hchunk : chunkBytes 0x8003 [0x02, 0x41, 0xFF, 0x0F] = some (replicate 4099 0x41) := by
      rw [chunkBytes, if_pos (by decide), hentities, Option.map_some, foldl_cons,
        foldl_cons, foldl_nil, Entity.write, Entity.write, nil_append, hbytes]
    rw [readChunks, hheader, if_neg (by decide), hsize, if_neg (by decide)]
    dsimp only [take, drop]
    rw [hchunk]
    dsimp only
    rw [readChunks_short (by decide), Option.map_some]
  have haccepts := accepts_of_readChunks (by decide) hread
  have hcut : (rtlDecompressFragment 0x0002 4099 [0x03, 0x80, 0x02, 0x41, 0xFF, 0x0F] 1 true).dst =
      replicate 4095 0x41 := by
    have hmin : min 4099 (min 0x1000 4099 - 1) = 4095 := by decide
    rw [rtlDecompressFragment, if_pos (by decide), lznt1Decompress_eq (by decide) hread (.inl rfl),
      done, fragment, if_neg (by decide), if_neg (by decide), fill, take_replicate,
      drop_replicate, take_replicate, hmin]
  refine ⟨haccepts, hcut, fun hright => ?_⟩
  have hfull := congrArg (fun r => r.dst.length) (hright 1
    (by rw [length_replicate]; decide) 4099 (by rw [length_replicate]) (by decide))
  rw [hcut, drop_replicate, length_replicate, length_replicate] at hfull
  exact absurd hfull (by decide)

end Lznt1

end Windivs

import Windivs.Lib.PaddedLayout

/-!
# LZNT1 compression

`RtlCompressBuffer`, `RtlDecompressBuffer` and `RtlDecompressFragment` of
`sdk/lib/rtl/compress.c`. A compressed buffer is a sequence of chunks. A chunk has a header of two
bytes with its size, and holds either bytes as they are or entities: literal bytes, and references
back into the bytes of the same chunk, eight of them behind a byte of flags.

What a buffer stands for is said by `Windivs.Lznt1.readChunks`, without any destination: the bytes
of each chunk, which are then laid out at multiples of `4096`. The decompressor writes that layout
as far as the destination reaches (`Windivs.Lznt1.lznt1Decompress_eq`).

A pointer is an offset: `src` is what is left behind `src_cur`, and `dst` is what has been written
in front of `dst_cur`.
-/

namespace Windivs

open List

variable {bytes chunk dst src : List UInt8} {header offset size : ℕ} {workspace : Bool}

namespace Lznt1

/-! ### The routines -/

/-- The status codes of the routines. -/
inductive Status where
  | success
  | badCompressionBuffer
  | bufferTooSmall
  | accessViolation
  | invalidParameter
  | unsupportedCompression
  deriving DecidableEq, Repr

/-- What a routine returns, with `*final_size` if that was written, and the bytes it has put into
the destination. -/
structure Output where
  status : Status
  finalSize : Option ℕ
  dst : List UInt8
  deriving DecidableEq, Repr

/-- The end of a routine that has done its work. -/
def done (dst : List UInt8) : Output := ⟨.success, some dst.length, dst⟩

/-- A routine gives up. -/
def failed (status : Status) (dst : List UInt8) : Output := ⟨status, none, dst⟩

/-- A `WORD` in the source. -/
def word (lo hi : UInt8) : ℕ := lo.toNat + 0x100 * hi.toNat

/-- The size of a chunk, from its header. -/
def chunkSize (header : ℕ) : ℕ := (header &&& 0xFFF) + 1

/-- The search for the displacement bits, for a reference at place `pos` of a chunk. -/
def displacementBits (pos : ℕ) : ℕ → ℕ
  | 0 => 0
  | bits + 1 => if 4 < bits + 1 ∧ ¬ 1 <<< bits < pos then displacementBits pos bits else bits + 1

/-- The displacement and the length of a reference. -/
def reference (code pos : ℕ) : ℕ × ℕ :=
  let lengthBits := 16 - displacementBits pos 12
  ((code >>> lengthBits) + 1, (code &&& (1 <<< lengthBits - 1)) + 3)

/-- The bytes of a reference are copied one by one, since source and destination may overlap. The
flag says that the destination is full. -/
def copyBytes (size displacement : ℕ) : ℕ → List UInt8 → List UInt8 × Bool
  | 0, dst => (dst, false)
  | length + 1, dst =>
    if size ≤ dst.length then (dst, true)
    else copyBytes size displacement length (dst ++ [dst.getD (dst.length - displacement) 0])

/-- `lznt1_decompress_chunk`, in the middle of its two loops; `none` for `NULL`. When the flags are
used up, the inner loop is over, and the outer one reads the next flags. -/
def decompressLoop (size : ℕ) : ℕ → List UInt8 → List UInt8 → Option (List UInt8)
  | _, [], dst => some dst
  | flags, [b], dst =>
    if flags &&& 0xFF00 = 0 then some dst
    else if flags &&& 1 ≠ 0 then none
    else if size ≤ dst.length then some dst
    else some (dst ++ [b])
  | flags, b :: c :: src, dst =>
    if flags &&& 0xFF00 = 0 then
      if dst.length < size then decompressLoop size (0x8000 ||| b.toNat) (c :: src) dst
      else some dst
    else if flags &&& 1 ≠ 0 then
      let (displacement, length) := reference (word b c) dst.length
      if dst.length < displacement then none
      else
        match copyBytes size displacement length dst with
        | (dst, true) => some dst
        | (dst, false) => decompressLoop size (flags >>> 1) src dst
    else if size ≤ dst.length then some dst
    else decompressLoop size (flags >>> 1) (c :: src) (dst ++ [b])

/-- `lznt1_decompress_chunk`. -/
def lznt1DecompressChunk (size : ℕ) (src : List UInt8) : Option (List UInt8) :=
  decompressLoop size 0 src []

/-- The first loop of `lznt1_decompress`: it skips whole chunks. -/
def skipChunks (offset : ℕ) : List UInt8 → Except Output (ℕ × List UInt8)
  | lo :: hi :: src =>
    if 0x1000 ≤ offset then
      if word lo hi = 0 then .error (done [])
      else if src.length < chunkSize (word lo hi) then .error (failed .badCompressionBuffer [])
      else skipChunks (offset - 0x1000) (src.drop (chunkSize (word lo hi)))
    else .ok (offset, lo :: hi :: src)
  | src => .ok (offset, src)
termination_by src => src.length
decreasing_by
  rw [length_drop, length_cons, length_cons]
  omega

/-- The chunk that is included partially: what is left of the source, and what was written. -/
def partialChunk (size : ℕ) (workspace : Bool) (offset : ℕ) :
    List UInt8 → Except Output (List UInt8 × List UInt8)
  | lo :: hi :: src =>
    if offset ≠ 0 then
      if word lo hi = 0 then .error (done [])
      else if src.length < chunkSize (word lo hi) then .error (failed .badCompressionBuffer [])
      else if size = 0 then .error (done [])
      else
        let chunk := src.take (chunkSize (word lo hi))
        let rest := src.drop (chunkSize (word lo hi))
        if word lo hi &&& 0x8000 ≠ 0 then
          if ¬ workspace then .error (failed .accessViolation [])
          else
            match lznt1DecompressChunk 0x1000 chunk with
            | none => .error (failed .badCompressionBuffer [])
            | some bytes =>
              .ok (rest, if offset < bytes.length then (bytes.drop offset).take size else [])
        else
          .ok (rest, if offset < chunkSize (word lo hi) then (chunk.drop offset).take size else [])
    else .ok (lo :: hi :: src, [])
  | src => .ok (src, [])

/-- The last loop of `lznt1_decompress`. -/
def remainingChunks (size offset : ℕ) : List UInt8 → List UInt8 → Output
  | lo :: hi :: src, dst =>
    if word lo hi = 0 then done dst
    else if src.length < chunkSize (word lo hi) then failed .badCompressionBuffer dst
    else
      -- padding
      let block := (dst.length + offset) % 0x1000
      let padding := if block = 0 then 0 else 0x1000 - block
      if padding ≠ 0 ∧ size ≤ dst.length + padding then done dst
      else
        let dst := dst ++ replicate padding 0
        if size ≤ dst.length then done dst
        else
          let chunk := src.take (chunkSize (word lo hi))
          let rest := src.drop (chunkSize (word lo hi))
          if word lo hi &&& 0x8000 ≠ 0 then
            match lznt1DecompressChunk (size - dst.length) chunk with
            | none => failed .badCompressionBuffer dst
            | some bytes => remainingChunks size offset rest (dst ++ bytes)
          else remainingChunks size offset rest (dst ++ chunk.take (size - dst.length))
  | _, dst => done dst
termination_by src => src.length
decreasing_by
  all_goals
    rw [length_drop, length_cons, length_cons]
    omega

/-- `lznt1_decompress`, into a destination of `size` bytes. -/
def lznt1Decompress (size : ℕ) (src : List UInt8) (offset : ℕ) (workspace : Bool) : Output :=
  if src.length < 2 then failed .badCompressionBuffer []
  else
    match skipChunks offset src with
    | .error output => output
    | .ok (offset, src) =>
      match partialChunk size workspace offset src with
      | .error output => output
      | .ok (src, dst) => remainingChunks size offset src dst

/-- `RtlpCompressBufferLZNT1`, in the middle of its loop: every chunk is stored as it is. -/
def compressLoop (size : ℕ) (src dst : List UInt8) : Output :=
  if src = [] then done dst
  else
    let block := min 0x1000 src.length
    if size < dst.length + 2 + block then failed .bufferTooSmall dst
    else
      let header := 0x3000 ||| (block - 1)
      compressLoop size (src.drop block)
        (dst ++ [.ofNat (header % 0x100), .ofNat (header / 0x100)] ++ src.take block)
termination_by src.length
decreasing_by
  have hpos := length_pos_iff.2 ‹¬ src = []›
  rw [length_drop]
  omega

/-- `RtlCompressBuffer`. -/
def rtlCompressBuffer (formatAndEngine : UInt16) (src : List UInt8) (size : ℕ) : Output :=
  if formatAndEngine &&& 0x00FF = 0x0000 ∨ formatAndEngine &&& 0x00FF = 0x0001 then
    failed .invalidParameter []
  else if formatAndEngine &&& 0x00FF = 0x0002 then compressLoop size src []
  else failed .unsupportedCompression []

/-- `RtlDecompressFragment`. -/
def rtlDecompressFragment (format : UInt16) (size : ℕ) (src : List UInt8) (offset : ℕ)
    (workspace : Bool) : Output :=
  if format &&& ~~~0x0100 = 0x0002 then lznt1Decompress size src offset workspace
  else if format &&& ~~~0x0100 = 0x0000 ∨ format &&& ~~~0x0100 = 0x0001 then
    failed .invalidParameter []
  else failed .unsupportedCompression []

/-- `RtlDecompressBuffer`. -/
def rtlDecompressBuffer (format : UInt16) (size : ℕ) (src : List UInt8) : Output :=
  rtlDecompressFragment format size src 0 false

/-! ### What a chunk stands for -/

/-- An entity of a chunk. -/
inductive Entity where
  | literal (b : UInt8)
  | reference (displacement length : ℕ)
  deriving DecidableEq, Repr

/-- Bytes that are copied from a distance, the copy serving as source in turn. -/
def copyBack (displacement : ℕ) : ℕ → List UInt8 → List UInt8
  | 0, out => out
  | length + 1, out =>
    copyBack displacement length (out ++ [out.getD (out.length - displacement) 0])

/-- An entity appends bytes to those of the chunk so far. -/
def Entity.write (out : List UInt8) : Entity → List UInt8
  | .literal b => out ++ [b]
  | .reference displacement length => copyBack displacement length out

/-- The entities of a chunk, behind `pos` bytes. -/
def readEntities : ℕ → List UInt8 → ℕ → Option (List Entity)
  | _, [], _ => some []
  | flags, [b], _ =>
    if flags &&& 0xFF00 = 0 then some []
    else if flags &&& 1 ≠ 0 then none
    else some [.literal b]
  | flags, b :: c :: src, pos =>
    if flags &&& 0xFF00 = 0 then readEntities (0x8000 ||| b.toNat) (c :: src) pos
    else if flags &&& 1 ≠ 0 then
      let (displacement, length) := reference (word b c) pos
      if pos < displacement then none
      else (readEntities (flags >>> 1) src (pos + length)).map (.reference displacement length :: ·)
    else (readEntities (flags >>> 1) (c :: src) (pos + 1)).map (.literal b :: ·)

/-- The bytes a chunk stands for. -/
def chunkBytes (header : ℕ) (chunk : List UInt8) : Option (List UInt8) :=
  if header &&& 0x8000 ≠ 0 then (readEntities 0 chunk 0).map fun es => es.foldl Entity.write []
  else some chunk

/-- **The pieces of a compressed buffer**: the bytes of its chunks, up to a header that is zero. -/
def readChunks : List UInt8 → Option (List (List UInt8))
  | lo :: hi :: src =>
    if word lo hi = 0 then some []
    else if src.length < chunkSize (word lo hi) then none
    else
      match chunkBytes (word lo hi) (src.take (chunkSize (word lo hi))) with
      | none => none
      | some bytes => (readChunks (src.drop (chunkSize (word lo hi)))).map (bytes :: ·)
  | _ => some []
termination_by src => src.length
decreasing_by
  rw [length_drop, length_cons, length_cons]
  omega

/-! ### Entities and the destination -/

theorem length_copyBack (displacement length : ℕ) (out : List UInt8) :
    (copyBack displacement length out).length = out.length + length := by
  induction length generalizing out with
  | zero => rfl
  | succ length ih =>
    rw [copyBack, ih, length_append, length_singleton]
    omega

theorem prefix_copyBack (displacement length : ℕ) (out : List UInt8) :
    out <+: copyBack displacement length out := by
  induction length generalizing out with
  | zero => exact prefix_refl out
  | succ length ih => exact (prefix_append _ _).trans (ih _)

theorem prefix_write (out : List UInt8) (e : Entity) : out <+: e.write out := by
  cases e with
  | literal b => exact prefix_append out [b]
  | reference displacement length => exact prefix_copyBack displacement length out

theorem prefix_foldl_write (es : List Entity) (out : List UInt8) :
    out <+: es.foldl Entity.write out := by
  induction es generalizing out with
  | nil => exact prefix_refl out
  | cons e es ih => exact (prefix_write out e).trans (ih _)

/-- The copy goes on until the destination is full. -/
theorem copyBytes_eq (displacement : ℕ) {size length : ℕ} (h : dst.length ≤ size) :
    copyBytes size displacement length dst =
      ((copyBack displacement length dst).take size, decide (size < dst.length + length)) := by
  induction length generalizing dst with
  | zero =>
    rw [copyBytes, copyBack, take_of_length_le h, decide_eq_false (by omega)]
  | succ length ih =>
    rw [copyBytes]
    by_cases hfull : size ≤ dst.length
    · have htake : (copyBack displacement (length + 1) dst).take size = dst := by
        have hlen : dst.length = size := by omega
        exact hlen ▸ (prefix_iff_eq_take.1 (prefix_copyBack _ _ dst)).symm
      rw [if_pos hfull, htake, decide_eq_true (by omega)]
    · have hnext : (dst ++ [dst.getD (dst.length - displacement) 0]).length = dst.length + 1 := by
        rw [length_append, length_singleton]
      rw [if_neg hfull, ih (by omega)]
      congr 2
      exact propext (by omega)

/-- A full destination holds a prefix of what is still to come. -/
theorem take_foldl_write {es : List Entity} {out : List UInt8}
    (h : size ≤ out.length) : (es.foldl Entity.write out).take size = out.take size := by
  obtain ⟨rest, hrest⟩ := prefix_foldl_write es out
  rw [← hrest, take_append_of_le_length h]

/-- **A chunk that can be read is decompressed as far as the destination reaches.** -/
theorem decompressLoop_eq : ∀ {flags : ℕ} {src dst : List UInt8} {es : List Entity},
    readEntities flags src dst.length = some es → dst.length ≤ size →
      decompressLoop size flags src dst = some ((es.foldl Entity.write dst).take size)
  | flags, [], dst, es, h, hdst => by
    rw [readEntities] at h
    cases h
    rw [decompressLoop, foldl_nil, take_of_length_le hdst]
  | flags, [b], dst, es, h, hdst => by
    rw [readEntities] at h
    rw [decompressLoop]
    by_cases hflags : flags &&& 0xFF00 = 0
    · rw [if_pos hflags] at h ⊢
      cases h
      rw [foldl_nil, take_of_length_le hdst]
    rw [if_neg hflags] at h ⊢
    by_cases href : flags &&& 1 ≠ 0
    · rw [if_pos href] at h
      cases h
    rw [if_neg href] at h ⊢
    cases h
    by_cases hfull : size ≤ dst.length
    · rw [if_pos hfull, take_foldl_write hfull, take_of_length_le hdst]
    · rw [if_neg hfull, foldl_cons, foldl_nil, Entity.write, take_of_length_le (by
        rw [length_append, length_singleton]
        omega)]
  | flags, b :: c :: src, dst, es, h, hdst => by
    rw [readEntities] at h
    rw [decompressLoop]
    by_cases hflags : flags &&& 0xFF00 = 0
    · rw [if_pos hflags] at h ⊢
      by_cases hfull : dst.length < size
      · rw [if_pos hfull]
        exact decompressLoop_eq h hdst
      · rw [if_neg hfull, take_foldl_write (not_lt.1 hfull), take_of_length_le hdst]
    rw [if_neg hflags] at h ⊢
    by_cases href : flags &&& 1 ≠ 0
    · rw [if_pos href] at h ⊢
      generalize reference (word b c) dst.length = code at h ⊢
      obtain ⟨displacement, length⟩ := code
      dsimp only at h ⊢
      by_cases hvalid : dst.length < displacement
      · rw [if_pos hvalid] at h
        cases h
      rw [if_neg hvalid] at h ⊢
      obtain ⟨es, hes, rfl⟩ := Option.map_eq_some_iff.1 h
      rw [← length_copyBack displacement length dst] at hes
      rw [copyBytes_eq displacement hdst, foldl_cons, Entity.write]
      by_cases hfull : size < dst.length + length
      · rw [decide_eq_true hfull]
        dsimp only
        rw [take_foldl_write (by rw [length_copyBack]; omega)]
      · rw [decide_eq_false hfull, take_of_length_le (by rw [length_copyBack]; omega)]
        exact decompressLoop_eq hes (by rw [length_copyBack]; omega)
    rw [if_neg href] at h ⊢
    obtain ⟨es, hes, rfl⟩ := Option.map_eq_some_iff.1 h
    by_cases hfull : size ≤ dst.length
    · rw [if_pos hfull, take_foldl_write hfull, take_of_length_le hdst]
    · have hlen : (dst ++ [b]).length = dst.length + 1 := by
        rw [length_append, length_singleton]
      rw [if_neg hfull]
      exact decompressLoop_eq (by rw [hlen]; exact hes) (by rw [hlen]; omega)

/-- A chunk that cannot be read is refused, if the destination is large enough. -/
theorem decompressLoop_none : ∀ {flags : ℕ} {src dst : List UInt8},
    readEntities flags src dst.length = none →
      ∃ N, ∀ size, N ≤ size → decompressLoop size flags src dst = none
  | flags, [], dst, h => by
    rw [readEntities] at h
    cases h
  | flags, [b], dst, h => by
    rw [readEntities] at h
    split at h
    · cases h
    split at h
    case isTrue hflags href =>
      refine ⟨0, fun size _ => ?_⟩
      rw [decompressLoop, if_neg hflags, if_pos href]
    · cases h
  | flags, b :: c :: src, dst, h => by
    rw [readEntities] at h
    by_cases hflags : flags &&& 0xFF00 = 0
    · rw [if_pos hflags] at h
      obtain ⟨N, hN⟩ := decompressLoop_none h
      refine ⟨max N (dst.length + 1), fun size hsize => ?_⟩
      rw [decompressLoop, if_pos hflags, if_pos (by omega)]
      exact hN size (by omega)
    rw [if_neg hflags] at h
    by_cases href : flags &&& 1 ≠ 0
    · rw [if_pos href] at h
      cases hcode : reference (word b c) dst.length with
      | mk displacement length =>
        rw [hcode] at h
        dsimp only at h
        by_cases hvalid : dst.length < displacement
        · refine ⟨0, fun size _ => ?_⟩
          rw [decompressLoop, if_neg hflags, if_pos href, hcode]
          exact if_pos hvalid
        rw [if_neg hvalid, Option.map_eq_none_iff, ← length_copyBack displacement length dst] at h
        obtain ⟨N, hN⟩ := decompressLoop_none h
        refine ⟨max N (dst.length + length), fun size hsize => ?_⟩
        rw [decompressLoop, if_neg hflags, if_pos href, hcode]
        dsimp only
        rw [if_neg hvalid, copyBytes_eq displacement (by omega), decide_eq_false (by omega),
          take_of_length_le (by rw [length_copyBack]; omega)]
        exact hN size (by omega)
    have hlen : (dst ++ [b]).length = dst.length + 1 := by
      rw [length_append, length_singleton]
    rw [if_neg href, Option.map_eq_none_iff, ← hlen] at h
    obtain ⟨N, hN⟩ := decompressLoop_none h
    refine ⟨max N (dst.length + 1), fun size hsize => ?_⟩
    rw [decompressLoop, if_neg hflags, if_neg href, if_neg (by omega)]
    exact hN size (by omega)

/-! ### Chunks and the destination -/

/-- A chunk of either kind is written into a destination of `size` bytes. -/
def chunkInto (size header : ℕ) (chunk : List UInt8) : Option (List UInt8) :=
  if header &&& 0x8000 ≠ 0 then lznt1DecompressChunk size chunk else some (chunk.take size)

/-- A chunk is written as far as the destination reaches. -/
theorem chunkInto_some (h : chunkBytes header chunk = some bytes) (size : ℕ) :
    chunkInto size header chunk = some (bytes.take size) := by
  rw [chunkBytes] at h
  rw [chunkInto]
  split at h
  case isTrue hheader =>
    obtain ⟨es, hes, rfl⟩ := Option.map_eq_some_iff.1 h
    rw [if_pos hheader]
    exact decompressLoop_eq hes (Nat.zero_le size)
  case isFalse hheader =>
    cases h
    rw [if_neg hheader]

theorem chunkInto_none (h : chunkBytes header chunk = none) :
    ∃ N, ∀ size, N ≤ size → chunkInto size header chunk = none := by
  rw [chunkBytes] at h
  split at h
  case isTrue hheader =>
    obtain ⟨N, hN⟩ := @decompressLoop_none 0 chunk [] (Option.map_eq_none_iff.1 h)
    refine ⟨N, fun size hsize => ?_⟩
    rw [chunkInto, if_pos hheader]
    exact hN size hsize
  case isFalse => cases h

open PaddedLayout

variable {ps : List (List UInt8)} {lo hi : UInt8}

/-- The pieces behind a chunk. -/
theorem readChunks_cons (hheader : ¬ word lo hi = 0) (hsize : ¬ src.length < chunkSize (word lo hi))
    (hbytes : chunkBytes (word lo hi) (src.take (chunkSize (word lo hi))) = some bytes)
    (h : readChunks (lo :: hi :: src) = some ps) :
    ∃ rest, readChunks (src.drop (chunkSize (word lo hi))) = some rest ∧ ps = bytes :: rest := by
  rw [readChunks, if_neg hheader, if_neg hsize, hbytes] at h
  obtain ⟨rest, hrest, rfl⟩ := Option.map_eq_some_iff.1 h
  exact ⟨rest, hrest, rfl⟩

/-- A turn of the last loop, with a chunk that is in the source. -/
theorem remainingChunks_cons
    (hheader : ¬ word lo hi = 0) (hsize : ¬ src.length < chunkSize (word lo hi)) :
    remainingChunks size offset (lo :: hi :: src) dst =
      if gap 0x1000 (dst.length + offset) ≠ 0 ∧
          size ≤ dst.length + gap 0x1000 (dst.length + offset) then done dst
      else
        let dst := dst ++ replicate (gap 0x1000 (dst.length + offset)) 0
        if size ≤ dst.length then done dst
        else
          match chunkInto (size - dst.length) (word lo hi)
            (src.take (chunkSize (word lo hi))) with
          | none => failed .badCompressionBuffer dst
          | some bytes =>
            remainingChunks size offset (src.drop (chunkSize (word lo hi))) (dst ++ bytes) := by
  rw [remainingChunks, if_neg hheader, if_neg hsize]
  dsimp only
  rw [← gap]
  refine if_congr Iff.rfl rfl (if_congr Iff.rfl rfl ?_)
  rw [chunkInto]
  by_cases hcompressed : word lo hi &&& 0x8000 ≠ 0
  · rw [if_pos hcompressed, if_pos hcompressed]
  · rw [if_neg hcompressed, if_neg hcompressed]

/-- **The last loop writes the layout of the chunks**, as far as the destination reaches. -/
theorem remainingChunks_eq (h : readChunks src = some ps) (dst : List UInt8) :
    remainingChunks size offset src dst = done (fill 0x1000 0 size offset dst ps) := by
  induction src using readChunks.induct generalizing ps dst with
  | case1 lo hi src hheader =>
    rw [readChunks, if_pos hheader] at h
    cases h
    rw [remainingChunks, if_pos hheader, fill]
  | case2 lo hi src hheader hsize =>
    rw [readChunks, if_neg hheader, if_pos hsize] at h
    cases h
  | case3 lo hi src hheader hsize hbytes =>
    rw [readChunks, if_neg hheader, if_neg hsize, hbytes] at h
    cases h
  | case4 lo hi src hheader hsize bytes hbytes ih =>
    obtain ⟨rest, hrest, rfl⟩ := readChunks_cons hheader hsize hbytes h
    rw [remainingChunks_cons hheader hsize, fill]
    split
    · rfl
    dsimp only
    split
    · rfl
    rw [chunkInto_some hbytes]
    exact ih hrest _
  | case5 src hsrc =>
    rw [readChunks] at h
    · cases h
      rw [remainingChunks, fill]
      exact hsrc
    · exact hsrc

/-- A source that cannot be read is refused, if the destination is large enough. -/
theorem remainingChunks_none (h : readChunks src = none) (dst : List UInt8) :
    ∃ N, ∀ size, N ≤ size →
      (remainingChunks size offset src dst).status = .badCompressionBuffer := by
  have hpadded (dst : List UInt8) : (dst ++ replicate (gap 0x1000 (dst.length + offset)) 0).length =
      dst.length + gap 0x1000 (dst.length + offset) := by
    rw [length_append, length_replicate]
  induction src using readChunks.induct generalizing dst with
  | case1 lo hi src hheader =>
    rw [readChunks, if_pos hheader] at h
    cases h
  | case2 lo hi src hheader hshort =>
    refine ⟨0, fun size _ => ?_⟩
    rw [remainingChunks, if_neg hheader, if_pos hshort]
    rfl
  | case3 lo hi src hheader hshort hbytes =>
    obtain ⟨N, hN⟩ := chunkInto_none hbytes
    refine ⟨dst.length + gap 0x1000 (dst.length + offset) + 1 + N, fun size hsize => ?_⟩
    have hlen := hpadded dst
    rw [remainingChunks_cons hheader hshort, if_neg (by omega)]
    rw [if_neg (by omega), hN _ (by omega)]
    rfl
  | case4 lo hi src hheader hshort bytes hbytes ih =>
    rw [readChunks, if_neg hheader, if_neg hshort, hbytes] at h
    obtain ⟨N, hN⟩ := ih (Option.map_eq_none_iff.1 h)
      (dst ++ replicate (gap 0x1000 (dst.length + offset)) 0 ++ bytes)
    refine ⟨dst.length + gap 0x1000 (dst.length + offset) + 1 + bytes.length + N,
      fun size hsize => ?_⟩
    have hlen := hpadded dst
    rw [remainingChunks_cons hheader hshort, if_neg (by omega)]
    rw [if_neg (by omega), chunkInto_some hbytes, take_of_length_le (by omega)]
    exact hN size (by omega)
  | case5 src hsrc =>
    rw [readChunks] at h
    · cases h
    · exact hsrc

theorem ite_drop_take (bytes : List UInt8) (offset size : ℕ) :
    (if offset < bytes.length then (bytes.drop offset).take size else []) =
      (bytes.drop offset).take size := by
  split
  · rfl
  case isFalse h => rw [drop_of_length_le (not_lt.1 h), take_nil]

/-- The chunk that is included partially is cut at both ends. -/
theorem partialChunk_eq
    (hheader : ¬ word lo hi = 0) (hshort : ¬ src.length < chunkSize (word lo hi))
    (hbytes : chunkBytes (word lo hi) (src.take (chunkSize (word lo hi))) = some bytes)
    (hoffset : offset ≠ 0) (hsize : size ≠ 0) :
    partialChunk size true offset (lo :: hi :: src) =
      .ok (src.drop (chunkSize (word lo hi)), ((bytes.take 0x1000).drop offset).take size) := by
  have hchunk := chunkInto_some hbytes 0x1000
  have hlen : (src.take (chunkSize (word lo hi))).length = chunkSize (word lo hi) := by
    rw [length_take, Nat.min_eq_left (not_lt.1 hshort)]
  rw [chunkInto] at hchunk
  rw [partialChunk, if_pos hoffset, if_neg hheader, if_neg hshort, if_neg hsize]
  by_cases hcompressed : word lo hi &&& 0x8000 ≠ 0
  · rw [if_pos hcompressed] at hchunk
    rw [if_pos hcompressed, if_neg (fun h => h rfl), hchunk]
    dsimp only
    rw [ite_drop_take]
  · rw [if_neg hcompressed, Option.some.injEq] at hchunk
    have hcut := ite_drop_take (src.take (chunkSize (word lo hi))) offset size
    rw [hlen] at hcut
    rw [if_neg hcompressed, hcut, ← hchunk, take_of_length_le
      (hlen.le.trans (Nat.succ_le_succ Nat.and_le_right))]

/-- What `lznt1_decompress` does behind its first check. -/
def decompressFrom (size : ℕ) (workspace : Bool) (offset : ℕ) (src : List UInt8) : Output :=
  match skipChunks offset src with
  | .error output => output
  | .ok (offset, src) =>
    match partialChunk size workspace offset src with
    | .error output => output
    | .ok (src, dst) => remainingChunks size offset src dst

theorem decompressFrom_eq (h : readChunks src = some ps) (hwork : workspace = true ∨ offset = 0) :
    decompressFrom size workspace offset src = done (fragment 0x1000 0 size offset ps) := by
  induction src using readChunks.induct generalizing offset ps with
  | case1 lo hi src hheader =>
    have hps := h
    rw [readChunks, if_pos hheader] at hps
    cases hps
    rw [decompressFrom, skipChunks, fragment]
    by_cases hskip : 0x1000 ≤ offset
    · rw [if_pos hskip, if_pos hheader]
    · rw [if_neg hskip]
      dsimp only
      rw [partialChunk]
      by_cases hzero : offset ≠ 0
      · rw [if_pos hzero, if_pos hheader]
      · rw [if_neg hzero]
        exact remainingChunks_eq h []
  | case2 lo hi src hheader hshort =>
    rw [readChunks, if_neg hheader, if_pos hshort] at h
    cases h
  | case3 lo hi src hheader hshort hbytes =>
    rw [readChunks, if_neg hheader, if_neg hshort, hbytes] at h
    cases h
  | case4 lo hi src hheader hshort bytes hbytes ih =>
    obtain ⟨rest, hrest, rfl⟩ := readChunks_cons hheader hshort hbytes h
    rw [decompressFrom, skipChunks, fragment]
    by_cases hskip : 0x1000 ≤ offset
    · rw [if_pos hskip, if_pos hskip, if_neg hheader, if_neg hshort]
      exact ih hrest (hwork.imp_right (by omega))
    · rw [if_neg hskip, if_neg hskip]
      dsimp only
      by_cases hzero : offset = 0
      · rw [hzero]
        exact remainingChunks_eq h []
      · obtain rfl := hwork.resolve_right hzero
        rw [if_neg hzero]
        by_cases hsize : size = 0
        · subst hsize
          rw [partialChunk, if_pos hzero, if_neg hheader, if_neg hshort, if_pos rfl, take_zero,
            fill_zero]
        · rw [partialChunk_eq hheader hshort hbytes hzero hsize]
          exact remainingChunks_eq hrest _
  | case5 src hsrc =>
    have hps := h
    rw [readChunks] at hps
    · cases hps
      rw [decompressFrom, skipChunks]
      · dsimp only
        rw [partialChunk]
        · exact remainingChunks_eq h []
        · exact hsrc
      · exact hsrc
    · exact hsrc

/-- **The decompressor writes a fragment of the layout.** -/
theorem lznt1Decompress_eq (hsrc : 2 ≤ src.length) (h : readChunks src = some ps)
    (hwork : workspace = true ∨ offset = 0) :
    lznt1Decompress size src offset workspace = done (fragment 0x1000 0 size offset ps) := by
  rw [lznt1Decompress, if_neg (by omega)]
  exact decompressFrom_eq h hwork

end Lznt1

end Windivs

/-
# The PNG loader inverts the format

The walk over the chunks collects the header, the palette and the image data of a file; the
image data inflates to the scan lines; each row is rebuilt byte by byte from the bytes to its
left and above, which are those of the picture already.  So the loader accepts every file of a
picture within its limits, and the pixels are the colours of the picture.
-/
import Microkernel.PngFormat
import Microkernel.Png
import Microkernel.InflateCorrect

open BitStream

namespace Microkernel

/-! ## Filters -/

/-- Undoing a filter. -/
theorem unfilter_predict (f : Png.Filter) (a b c v : UInt8) :
    unfilter f.code a b c (v - f.predict a b c) = v := by
  cases f with
  | none => simp [unfilter, Png.Filter.code, Png.Filter.predict]
  | sub => simp [unfilter, Png.Filter.code, Png.Filter.predict]
  | up => simp [unfilter, Png.Filter.code, Png.Filter.predict]
  | average => simp [unfilter, Png.Filter.code, Png.Filter.predict]
  | paeth =>
    have hsame : Png.nearest a b c = paethPredict a b c := rfl
    simp [unfilter, Png.Filter.code, Png.Filter.predict, hsame]

variable {P : Png.Picture} {mem : ImageMem} {st : PngInfo} {y n raw base w : ℕ}

/-! ## Rows -/

/-- Rebuilding a row leaves the other buffers as they are. -/
theorem unfilterRow_frame (filter : UInt8) (bpp raw n : ℕ) (mem : ImageMem) :
    (unfilterRow filter bpp raw n mem).inflateOut = mem.inflateOut ∧
      (unfilterRow filter bpp raw n mem).prevBuf = mem.prevBuf ∧
      (unfilterRow filter bpp raw n mem).pixels = mem.pixels := by
  induction n with
  | zero => exact ⟨rfl, rfl, rfl⟩
  | succ n ih => exact ih

/-- **A row is rebuilt** from its filtered bytes and the row above. -/
theorem unfilterRow_sample (hraw : ∀ i < P.stride, mem.inflateOut (raw + i : ℕ) = P.filtered y i)
    (hprev : ∀ i < P.stride, mem.prevBuf i = P.above y i) (hn : n ≤ P.stride) :
    ∀ i < n, (unfilterRow (P.filter y).code P.colour.samples raw n mem).rowBuf i = P.sample y i := by
  induction n with
  | zero =>
    intro i hi
    omega
  | succ n ih =>
    have ih := ih (by omega)
    obtain ⟨hout, hprev', -⟩ := unfilterRow_frame (P.filter y).code P.colour.samples raw n mem
    -- the three neighbours are bytes of the picture
    have hleft : (if P.colour.samples ≤ n then (unfilterRow (P.filter y).code P.colour.samples raw n
        mem).rowBuf (n - P.colour.samples) else 0) = P.left y n := by
      rw [Png.Picture.left]
      split_ifs with hle
      · have hpos : 0 < P.colour.samples := by cases P.colour <;> decide
        exact ih _ (by omega)
      · rfl
    have hcorner : (if P.colour.samples ≤ n then mem.prevBuf (n - P.colour.samples) else 0) =
        P.corner y n := by
      rw [Png.Picture.corner]
      split_ifs with hle
      · exact hprev _ (by omega)
      · rfl
    intro i hi
    simp only [unfilterRow, Memory.store8, hleft, hout, hprev', hcorner, hprev n (by omega),
      hraw n (by omega)]
    split_ifs with heq
    · rw [heq, Png.Picture.filtered, unfilter_predict]
    · exact ih i (by omega)

/-- Converting a row leaves the other buffers as they are. -/
theorem pngPixels_frame (st : PngInfo) (base n : ℕ) (mem : ImageMem) :
    (pngPixels st base n mem).inflateOut = mem.inflateOut ∧
      (pngPixels st base n mem).rowBuf = mem.rowBuf ∧
      (pngPixels st base n mem).prevBuf = mem.prevBuf := by
  induction n with
  | zero => exact ⟨rfl, rfl, rfl⟩
  | succ n ih => exact ih

theorem pngPixels_pixels (st : PngInfo) (base n : ℕ) (mem : ImageMem) (i : ℕ) :
    (pngPixels st base n mem).pixels i =
      if base ≤ i ∧ i < base + n then pngPixel st mem.rowBuf (i - base) else mem.pixels i := by
  induction n with
  | zero => rw [if_neg (by omega), pngPixels]
  | succ n ih =>
    simp only [pngPixels, (pngPixels_frame st base n mem).2.1, ih]
    by_cases heq : i = base + n
    · rw [if_pos heq, if_pos (by omega), heq, Nat.add_sub_cancel_left]
    · rw [if_neg heq]
      by_cases hin : base ≤ i ∧ i < base + n
      · rw [if_pos hin, if_pos (by omega)]
      · rw [if_neg hin, if_neg (by omega)]

/-- The loader's variables say what the picture is. -/
structure PngInfo.Describes (st : PngInfo) (P : Png.Picture) : Prop where
  w : st.w = P.width
  h : st.h = P.height
  ctype : st.ctype = P.colour.code.toNat
  palette : P.colour = .palette → st.palCount = P.entries.length ∧
    ∀ i < P.entries.length, st.palette i = P.entries.getD i (0, 0, 0)

/-- The colour of a pixel as the number the loader stores. -/
def colourWord (P : Png.Picture) (x y : ℕ) : ℕ :=
  rgb (P.colourAt x y).1 (P.colourAt x y).2.1 (P.colourAt x y).2.2

/-- **A pixel** of a row that holds the samples of the picture. -/
theorem pngPixel_colour {cur : Memory} {x : ℕ} (hst : st.Describes P)
    (hcur : ∀ i < P.stride, cur i = P.sample y i) (hy : y < P.height) (hx : x < P.width) :
    pngPixel st cur x = colourWord P x y := by
  have hstride : P.stride = P.width * P.colour.samples := rfl
  have hctype := hst.ctype
  unfold colourWord Png.Picture.colourAt
  cases hcolour : P.colour with
  | gray =>
    rw [hcolour] at hctype hstride
    simp only [Png.Colour.samples] at hstride
    have hcode : st.ctype = 0 := hctype
    simp only [pngPixel, hcode, if_true, hcur x (by omega)]
  | rgb =>
    rw [hcolour] at hctype hstride
    simp only [Png.Colour.samples] at hstride
    have hcode : st.ctype = 2 := hctype
    simp only [pngPixel, hcode, if_true, hcur (x * 3) (by omega), hcur (x * 3 + 1) (by omega),
      hcur (x * 3 + 2) (by omega)]
    rfl
  | palette =>
    obtain ⟨hcount, hentries⟩ := hst.palette hcolour
    have hlt := P.entry_lt hcolour y hy x hx
    rw [hcolour] at hctype hstride
    simp only [Png.Colour.samples] at hstride
    have hcode : st.ctype = 3 := hctype
    simp only [pngPixel, hcode, hcur x (by omega), hcount, if_pos hlt, hentries _ hlt]
    rfl
  | grayAlpha =>
    rw [hcolour] at hctype hstride
    simp only [Png.Colour.samples] at hstride
    have hcode : st.ctype = 4 := hctype
    simp only [pngPixel, hcode, if_true, hcur (x * 2) (by omega)]
    rfl
  | rgba =>
    rw [hcolour] at hctype hstride
    simp only [Png.Colour.samples] at hstride
    have hcode : st.ctype = 6 := hctype
    simp only [pngPixel, hcode, if_true, hcur (x * 4) (by omega), hcur (x * 4 + 1) (by omega),
      hcur (x * 4 + 2) (by omega)]
    rfl

/-! ## All rows -/

/-- The decompressed data is the scan lines of the picture. -/
def HoldsScanlines (P : Png.Picture) (out : ℤ → UInt8) : Prop :=
  ∀ y < P.height, out (y * (1 + P.stride) : ℕ) = (P.filter y).code ∧
    ∀ i < P.stride, out (y * (1 + P.stride) + 1 + i : ℕ) = P.filtered y i

/-- After the rows above `y`: the row above is kept and the pixels so far are the picture's. -/
structure RowsDone (P : Png.Picture) (y : ℕ) (mem : ImageMem) : Prop where
  scanlines : HoldsScanlines P mem.inflateOut
  prev : ∀ i < P.stride, mem.prevBuf i = P.above y i
  pixels : ∀ y' < y, ∀ x < P.width, mem.pixels (y' * P.width + x) = colourWord P x y'

/-- One row. -/
theorem RowsDone.row (h : RowsDone P y mem) (hst : st.Describes P) (hy : y < P.height) :
    RowsDone P (y + 1) (pngRow st P.width P.colour.samples y mem) := by
  obtain ⟨hfilter, hraw⟩ := h.scanlines y hy
  have hstride : P.width * P.colour.samples = P.stride := rfl
  simp only [pngRow, hstride, hfilter]
  generalize hrow : unfilterRow (P.filter y).code P.colour.samples (y * (1 + P.stride) + 1) P.stride
    mem = row
  obtain ⟨hout, hprev, hpixels⟩ := unfilterRow_frame (P.filter y).code P.colour.samples
    (y * (1 + P.stride) + 1) P.stride mem
  have hsample := unfilterRow_sample hraw h.prev le_rfl
  rw [hrow] at hout hprev hpixels hsample
  obtain ⟨hout', hrow', hprev'⟩ := pngPixels_frame st (y * P.width) P.width row
  refine ⟨?_, ?_, ?_⟩
  · show HoldsScanlines P (pngPixels st (y * P.width) P.width row).inflateOut
    rw [hout', hout]
    exact h.scanlines
  · intro i hi
    show (if i < P.stride then (pngPixels st (y * P.width) P.width row).rowBuf i else _) = _
    rw [if_pos hi, hrow', hsample i hi]
    rfl
  · intro y' hy' x hx
    show (pngPixels st (y * P.width) P.width row).pixels (y' * P.width + x) = _
    rw [pngPixels_pixels]
    rcases Nat.lt_succ_iff_lt_or_eq.mp hy' with hlt | rfl
    · -- an earlier row ends before this one
      have hmul : (y' + 1) * P.width ≤ y * P.width := Nat.mul_le_mul_right _ hlt
      rw [Nat.add_mul] at hmul
      rw [if_neg (by omega), hpixels]
      exact h.pixels y' hlt x hx
    · rw [if_pos (by omega), Nat.add_sub_cancel_left]
      exact pngPixel_colour hst hsample hy hx

/-- **All rows.** -/
theorem RowsDone.rows (h : RowsDone P 0 mem) (hst : st.Describes P) (hy : y ≤ P.height) :
    RowsDone P y (pngRows st P.width P.colour.samples y mem) := by
  induction y with
  | zero => exact h
  | succ y ih => exact (ih (by omega)).row hst (by omega)

/-! ## Scan lines -/

theorem length_scanline (P : Png.Picture) (y : ℕ) : (P.scanline y).length = 1 + P.stride := by
  simp only [Png.Picture.scanline, List.length_cons, List.length_map, List.length_range]
  omega

/-- Lines of one length, put one after the other. -/
theorem length_flatMap_range {f : ℕ → List UInt8} {l : ℕ} (hf : ∀ y, (f y).length = l) (h : ℕ) :
    ((List.range h).flatMap f).length = h * l := by
  induction h with
  | zero => simp
  | succ h ih =>
    rw [List.range_succ, List.flatMap_append, List.length_append, ih, List.flatMap_cons,
      List.flatMap_nil, List.append_nil, hf, Nat.succ_mul]

/-- A byte of a line is found at the start of the line and its place in it. -/
theorem getD_flatMap_range {f : ℕ → List UInt8} {l h y i : ℕ} (hf : ∀ y, (f y).length = l)
    (hy : y < h) (hi : i < l) : ((List.range h).flatMap f).getD (y * l + i) 0 = (f y).getD i 0 := by
  induction h with
  | zero => omega
  | succ h ih =>
    have hlen := length_flatMap_range hf h
    rw [List.range_succ, List.flatMap_append, List.flatMap_cons, List.flatMap_nil, List.append_nil]
    rcases Nat.lt_succ_iff_lt_or_eq.mp hy with hlt | rfl
    · have hmul : (y + 1) * l ≤ h * l := Nat.mul_le_mul_right _ hlt
      rw [Nat.add_mul, Nat.one_mul] at hmul
      rw [List.getD_append _ _ _ _ (by omega)]
      exact ih hlt
    · rw [List.getD_append_right _ _ _ _ (by omega), hlen, Nat.add_sub_cancel_left]

theorem length_scanlines (P : Png.Picture) : P.scanlines.length = P.height * (1 + P.stride) :=
  length_flatMap_range (length_scanline P) P.height

/-- The scan lines at the start of the output. -/
theorem holdsScanlines_writeBytes (P : Png.Picture) (out : ℤ → UInt8) :
    HoldsScanlines P (writeBytes out P.scanlines) := by
  intro y hy
  have hlen := length_scanlines P
  have hmul : (y + 1) * (1 + P.stride) ≤ P.height * (1 + P.stride) := Nat.mul_le_mul_right _ hy
  rw [Nat.add_mul, Nat.one_mul] at hmul
  have hget : ∀ i < 1 + P.stride, writeBytes out P.scanlines (y * (1 + P.stride) + i : ℕ) =
      (P.scanline y).getD i 0 := by
    intro i hi
    rw [writeBytes, if_pos (by omega), Int.toNat_natCast]
    exact getD_flatMap_range (length_scanline P) hy hi
  refine ⟨hget 0 (by omega), fun i hi => ?_⟩
  have h := hget (1 + i) (by omega)
  rw [Nat.add_comm 1 i, ← Nat.add_assoc] at h
  rw [Nat.add_right_comm, h, Png.Picture.scanline, List.getD_cons_succ,
    List.getD_eq_getElem _ _ (by simpa using hi)]
  simp

/-! ## Chunks -/

theorem rd32be_bigEndian {v : ℕ} (hv : v < 2 ^ 32) (pre post : List UInt8) :
    rd32be (pre ++ (Png.bigEndian v ++ post)) pre.length = v := by
  have hget : ∀ i < 4, (pre ++ (Png.bigEndian v ++ post)).getD (pre.length + i) 0 =
      (Png.bigEndian v).getD i 0 := by
    intro i hi
    have hlen : (Png.bigEndian v).length = 4 := rfl
    rw [List.getD_append_right _ _ _ _ (Nat.le_add_right _ _), Nat.add_sub_cancel_left,
      List.getD_append _ _ _ _ (by omega)]
  have h0 := hget 0 (by omega)
  rw [Nat.add_zero] at h0
  rw [rd32be, h0, hget 1 (by omega), hget 2 (by omega), hget 3 (by omega)]
  simp only [Png.bigEndian, List.getD_cons_zero, List.getD_cons_succ, UInt8.toNat_ofNat']
  omega

/-- What a chunk between the header and the end does to the loader's variables. -/
def absorb (st : PngInfo) (c : Png.Chunk) : PngInfo :=
  if c.tag = tagPLTE then pngPalette c.data c.data.length st
  else if c.tag = tagIDAT then pngData c.data c.data.length st
  else st

/-- The palette chunk is read up to its end only. -/
theorem pngPalette_append (data post : List UInt8) (st : PngInfo) :
    pngPalette (data ++ post) data.length st = pngPalette data data.length st := by
  have hentries : ∀ i < min (data.length / 3) 256, ∀ k < 3,
      (data ++ post).getD (i * 3 + k) 0 = data.getD (i * 3 + k) 0 := by
    intro i hi k hk
    rw [List.getD_append _ _ _ _ (by omega)]
  simp only [pngPalette]
  congr 1
  funext i
  split_ifs with hi
  · have h0 := hentries i hi 0 (by omega)
    rw [Nat.add_zero] at h0
    rw [h0, hentries i hi 1 (by omega), hentries i hi 2 (by omega)]
  · rfl

theorem pngData_append (data post : List UInt8) (st : PngInfo) :
    pngData (data ++ post) data.length st = pngData data data.length st := by
  rw [pngData, pngData, List.take_left' rfl, List.take_length]

variable {c : Png.Chunk} {pre post : List UInt8}

theorem length_chunk (c : Png.Chunk) : c.bytes.length = 12 + c.data.length := by
  have hlen : (Png.bigEndian c.data.length).length = 4 := rfl
  simp only [Png.Chunk.bytes, List.length_append, c.tag_length, c.crc_length, hlen]
  omega

/-- The parts of a chunk that stands at `pre.length`. -/
theorem chunk_parts (hlen : (pre ++ (c.bytes ++ post)).length < 2 ^ 32) :
    rd32be (pre ++ (c.bytes ++ post)) pre.length = c.data.length ∧
      ((pre ++ (c.bytes ++ post)).drop (pre.length + 4)).take 4 = c.tag ∧
      (pre ++ (c.bytes ++ post)).drop (pre.length + 8) = c.data ++ (c.crc ++ post) := by
  have hfour : (Png.bigEndian c.data.length).length = 4 := rfl
  have hbytes : c.bytes ++ post = Png.bigEndian c.data.length ++ (c.tag ++ (c.data ++ (c.crc ++ post))) := by
    simp only [Png.Chunk.bytes, List.append_assoc]
  have hdata : c.data.length < 2 ^ 32 := by
    rw [List.length_append, List.length_append, length_chunk] at hlen
    omega
  rw [hbytes]
  refine ⟨rd32be_bigEndian hdata pre _, ?_, ?_⟩
  · rw [← List.drop_drop, List.drop_left' rfl, List.drop_left' hfour, List.take_left' c.tag_length]
  · have hsplit : pre.length + 8 = pre.length + (4 + 4) := rfl
    rw [hsplit, ← List.drop_drop, List.drop_left' rfl, ← List.drop_drop, List.drop_left' hfour,
      List.drop_left' c.tag_length]

/-- The place after a chunk is inside the file and has not wrapped around. -/
theorem chunk_end (hlen : (pre ++ (c.bytes ++ post)).length < 2 ^ 32) :
    (pre.length + 12 + c.data.length) % 2 ^ 32 = (pre ++ c.bytes).length ∧
      ¬ (pre ++ (c.bytes ++ post)).length < (pre.length + 12) % 2 ^ 32 ∧
      ¬ (pre ++ (c.bytes ++ post)).length < (pre ++ c.bytes).length := by
  have hchunk := length_chunk c
  simp only [List.length_append] at hlen ⊢
  refine ⟨?_, ?_, by omega⟩
  · rw [Nat.mod_eq_of_lt (by omega)]
    omega
  · rw [Nat.mod_eq_of_lt (by omega)]
    omega

/-- **A chunk between the header and the end.** -/
theorem pngChunk_between (hlen : (pre ++ (c.bytes ++ post)).length < 2 ^ 32)
    (hheader : c.tag ≠ tagIHDR) (hend : c.tag ≠ tagIEND) :
    pngChunk (pre ++ (c.bytes ++ post)) pre.length st = .next (pre ++ c.bytes).length (absorb st c) := by
  obtain ⟨hclen, htag, hcdata⟩ := @chunk_parts c pre post hlen
  obtain ⟨hnext, hroom, hinside⟩ := @chunk_end c pre post hlen
  simp only [pngChunk, hclen, htag, hcdata, hnext]
  rw [if_neg hroom, if_neg hinside, if_neg (fun h => hheader h.1), absorb]
  split_ifs with hplte hidat
  · rw [pngPalette_append]
  · rw [pngData_append]
  · rfl

theorem pngChunk_end (hlen : (pre ++ (c.bytes ++ post)).length < 2 ^ 32) (htag' : c.tag = tagIEND) :
    pngChunk (pre ++ (c.bytes ++ post)) pre.length st = .stop st := by
  obtain ⟨hclen, htag, -⟩ := @chunk_parts c pre post hlen
  obtain ⟨hnext, hroom, hinside⟩ := @chunk_end c pre post hlen
  have hheader : ¬ (tagIEND = tagIHDR ∧ 13 ≤ c.data.length) := fun h => absurd h.1 (by decide)
  simp only [pngChunk, hclen, htag, hnext, htag']
  rw [if_neg hroom, if_neg hinside, if_neg hheader, if_neg (by decide), if_neg (by decide),
    if_pos trivial]

/-- The walk over the chunks between the header and the end. -/
theorem pngChunks_between {chunks : List Png.Chunk} {last : Png.Chunk} {fuel : ℕ}
    (hlen : (pre ++ (chunks.flatMap Png.Chunk.bytes ++ (last.bytes ++ post))).length < 2 ^ 32)
    (hbetween : ∀ c ∈ chunks, c.tag ≠ tagIHDR ∧ c.tag ≠ tagIEND) (hlast : last.tag = tagIEND)
    (hfuel : chunks.length < fuel) :
    pngChunks (pre ++ (chunks.flatMap Png.Chunk.bytes ++ (last.bytes ++ post))) fuel pre.length st =
      some (some (chunks.foldl absorb st)) := by
  induction chunks generalizing pre st fuel with
  | nil =>
    obtain ⟨fuel, rfl⟩ : ∃ f, fuel = f + 1 := ⟨fuel - 1, by simp at hfuel; omega⟩
    rw [List.flatMap_nil, List.nil_append] at hlen ⊢
    rw [pngChunks, pngChunk_end hlen hlast]
    rfl
  | cons c chunks ih =>
    obtain ⟨fuel, rfl⟩ : ∃ f, fuel = f + 1 := ⟨fuel - 1, by simp at hfuel; omega⟩
    have hsplit : (c :: chunks).flatMap Png.Chunk.bytes ++ (last.bytes ++ post) =
        c.bytes ++ (chunks.flatMap Png.Chunk.bytes ++ (last.bytes ++ post)) := by
      rw [List.flatMap_cons, List.append_assoc]
    have hmove : pre ++ (c.bytes ++ (chunks.flatMap Png.Chunk.bytes ++ (last.bytes ++ post))) =
        (pre ++ c.bytes) ++ (chunks.flatMap Png.Chunk.bytes ++ (last.bytes ++ post)) := by
      rw [List.append_assoc]
    rw [hsplit] at hlen ⊢
    obtain ⟨hheader, hend⟩ := hbetween c List.mem_cons_self
    rw [pngChunks, pngChunk_between hlen hheader hend]
    simp only
    rw [hmove] at hlen ⊢
    rw [ih hlen (fun c' hc' => hbetween c' (List.mem_cons_of_mem _ hc')) (by simpa using hfuel)]
    rfl

/-! ## What the walk collects -/

theorem absorb_frame (st : PngInfo) (c : Png.Chunk) : (absorb st c).w = st.w ∧ (absorb st c).h = st.h ∧
    (absorb st c).ctype = st.ctype ∧ (absorb st c).gotIhdr = st.gotIhdr := by
  simp only [absorb, pngPalette, pngData]
  split_ifs <;> exact ⟨rfl, rfl, rfl, rfl⟩

theorem foldl_absorb_frame (st : PngInfo) (chunks : List Png.Chunk) :
    (chunks.foldl absorb st).w = st.w ∧ (chunks.foldl absorb st).h = st.h ∧
      (chunks.foldl absorb st).ctype = st.ctype ∧ (chunks.foldl absorb st).gotIhdr = st.gotIhdr := by
  induction chunks generalizing st with
  | nil => exact ⟨rfl, rfl, rfl, rfl⟩
  | cons c chunks ih =>
    obtain ⟨hw, hh, hctype, hgot⟩ := ih (absorb st c)
    obtain ⟨hw', hh', hctype', hgot'⟩ := absorb_frame st c
    exact ⟨hw.trans hw', hh.trans hh', hctype.trans hctype', hgot.trans hgot'⟩

/-- The image data is collected in order. -/
theorem foldl_absorb_idat {chunks : List Png.Chunk} (hle : st.idat.length +
    ((chunks.filter fun c => c.tag = tagIDAT).flatMap Png.Chunk.data).length ≤ idatMax) :
    (chunks.foldl absorb st).idat =
      st.idat ++ (chunks.filter fun c => c.tag = tagIDAT).flatMap Png.Chunk.data := by
  induction chunks generalizing st with
  | nil => simp
  | cons c chunks ih =>
    rw [List.foldl_cons]
    by_cases hidat : c.tag = tagIDAT
    · have hfilter : (c :: chunks).filter (fun c => c.tag = tagIDAT) =
          c :: chunks.filter fun c => c.tag = tagIDAT := List.filter_cons_of_pos (by simpa using hidat)
      rw [hfilter, List.flatMap_cons, List.length_append] at hle
      have hplte : c.tag ≠ tagPLTE := by
        rw [hidat]
        decide
      have hfits : (st.idat.length + c.data.length) % 2 ^ 32 ≤ idatMax :=
        (Nat.mod_le _ _).trans (by omega)
      have hstep : (absorb st c).idat = st.idat ++ c.data := by
        rw [absorb, if_neg hplte, if_pos hidat, pngData, if_pos hfits, List.take_length]
      rw [ih (by rw [hstep, List.length_append]; omega), hstep, hfilter, List.flatMap_cons,
        List.append_assoc]
    · have hfilter : (c :: chunks).filter (fun c => c.tag = tagIDAT) =
          chunks.filter fun c => c.tag = tagIDAT := List.filter_cons_of_neg (by simpa using hidat)
      have hstep : (absorb st c).idat = st.idat := by
        rw [absorb]
        split_ifs <;> rfl
      rw [hfilter] at hle ⊢
      rw [ih (by rw [hstep]; exact hle), hstep]

/-- The palette after the walk is what the palette chunks alone make of it. -/
theorem foldl_absorb_palette {st' : PngInfo} (chunks : List Png.Chunk)
    (hcount : st.palCount = st'.palCount) (hpalette : st.palette = st'.palette) :
    (chunks.foldl absorb st).palCount = ((chunks.filter fun c => c.tag = tagPLTE).foldl
        (fun st c => pngPalette c.data c.data.length st) st').palCount ∧
      (chunks.foldl absorb st).palette = ((chunks.filter fun c => c.tag = tagPLTE).foldl
        (fun st c => pngPalette c.data c.data.length st) st').palette := by
  induction chunks generalizing st st' with
  | nil => exact ⟨hcount, hpalette⟩
  | cons c chunks ih =>
    rw [List.foldl_cons]
    by_cases hplte : c.tag = tagPLTE
    · rw [List.filter_cons_of_pos (by simpa using hplte), List.foldl_cons]
      apply ih
      · rw [absorb, if_pos hplte]
        rfl
      · rw [absorb, if_pos hplte]
        simp only [pngPalette, hpalette]
    · rw [List.filter_cons_of_neg (by simpa using hplte)]
      apply ih
      · rw [absorb, if_neg hplte, pngData]
        split_ifs <;> exact hcount
      · rw [absorb, if_neg hplte, pngData]
        split_ifs <;> exact hpalette

/-- The entries of a palette, three bytes each. -/
theorem getD_entries (entries : List (UInt8 × UInt8 × UInt8)) {i : ℕ} (hi : i < entries.length) :
    let bytes := entries.flatMap fun e => [e.1, e.2.1, e.2.2]
    (bytes.getD (i * 3) 0, bytes.getD (i * 3 + 1) 0, bytes.getD (i * 3 + 2) 0) =
      entries.getD i (0, 0, 0) := by
  induction entries generalizing i with
  | nil => simp at hi
  | cons e entries ih =>
    cases i with
    | zero => rfl
    | succ i =>
      have h := ih (i := i) (by simpa using hi)
      have h0 : (i + 1) * 3 = i * 3 + 3 := by omega
      simp only [List.flatMap_cons, h0, List.getD_cons_succ] at h ⊢
      exact h

theorem length_entries (entries : List (UInt8 × UInt8 × UInt8)) :
    (entries.flatMap fun e => [e.1, e.2.1, e.2.2]).length = entries.length * 3 := by
  induction entries with
  | nil => rfl
  | cons e entries ih =>
    rw [List.flatMap_cons, List.length_append, ih, List.length_cons, List.length_cons,
      List.length_cons, List.length_cons, List.length_nil]
    omega

/-! ## The loader -/

/-- The loader's variables after the header of a picture within its limits. -/
def afterHeader (P : Png.Picture) : PngInfo :=
  { PngInfo.init with
    w := P.width, h := P.height, depth := 8, ctype := P.colour.code.toNat, gotIhdr := true }

theorem pngHeader_picture (hw : P.width ≤ imgMaxW) (hh : P.height ≤ imgMaxH) (post : List UInt8) :
    pngHeader (Png.bigEndian P.width ++ Png.bigEndian P.height ++ [8, P.colour.code, 0, 0, 0] ++ post)
      PngInfo.init = some (afterHeader P) := by
  have hwpos := P.width_pos
  have hhpos := P.height_pos
  unfold imgMaxW at hw
  unfold imgMaxH at hh
  have hsplit : Png.bigEndian P.width ++ Png.bigEndian P.height ++ [8, P.colour.code, 0, 0, 0] ++ post =
      Png.bigEndian P.width ++ (Png.bigEndian P.height ++ ([8, P.colour.code, 0, 0, 0] ++ post)) := by
    simp only [List.append_assoc]
  have hwidth : rd32be (Png.bigEndian P.width ++ Png.bigEndian P.height ++
      [8, P.colour.code, 0, 0, 0] ++ post) 0 = P.width := by
    rw [hsplit]
    exact rd32be_bigEndian (show P.width < 2 ^ 32 by omega) [] _
  have hheight : rd32be (Png.bigEndian P.width ++ Png.bigEndian P.height ++
      [8, P.colour.code, 0, 0, 0] ++ post) 4 = P.height := by
    rw [hsplit]
    exact rd32be_bigEndian (show P.height < 2 ^ 32 by omega) (Png.bigEndian P.width) _
  have hw32 : asInt32 P.width = P.width := if_pos (by omega)
  have hh32 : asInt32 P.height = P.height := if_pos (by omega)
  simp only [pngHeader, hwidth, hheight, hw32, hh32]
  have hdepth : ((Png.bigEndian P.width ++ Png.bigEndian P.height ++
      [8, P.colour.code, 0, 0, 0] ++ post).getD 8 0) = 8 := rfl
  have hctype : ((Png.bigEndian P.width ++ Png.bigEndian P.height ++
      [8, P.colour.code, 0, 0, 0] ++ post).getD 9 0) = P.colour.code := rfl
  have hinterlace : ((Png.bigEndian P.width ++ Png.bigEndian P.height ++
      [8, P.colour.code, 0, 0, 0] ++ post).getD 12 0) = 0 := rfl
  rw [hdepth, hctype, hinterlace, if_neg (by decide), if_neg (by decide), if_neg]
  · rfl
  · have hmaxw : (imgMaxW : ℤ) = 2048 := rfl
    have hmaxh : (imgMaxH : ℤ) = 2048 := rfl
    rintro (h | h | h | h) <;> omega

variable {F : Png.File}

/-- The walk over the chunks of a file. -/
theorem pngChunks_file (hvalid : F.Valid) (hw : F.picture.width ≤ imgMaxW)
    (hh : F.picture.height ≤ imgMaxH) (hsize : F.bytes.length < 2 ^ 32) {fuel : ℕ}
    (hfuel : F.chunks.length + 1 < fuel) :
    pngChunks F.bytes fuel 8 PngInfo.init =
      some (some (F.chunks.foldl absorb (afterHeader F.picture))) := by
  obtain ⟨fuel, rfl⟩ : ∃ f, fuel = f + 1 := ⟨fuel - 1, by omega⟩
  have hbytes : F.bytes = Png.signature ++ (F.header.bytes ++
      (F.chunks.flatMap Png.Chunk.bytes ++ (F.last.bytes ++ F.rest))) := by
    simp only [Png.File.bytes, List.append_assoc]
  have hmove : F.bytes = (Png.signature ++ F.header.bytes) ++
      (F.chunks.flatMap Png.Chunk.bytes ++ (F.last.bytes ++ F.rest)) := by
    simp only [Png.File.bytes, List.append_assoc]
  have hsize' := hsize
  rw [hbytes] at hsize'
  obtain ⟨hclen, htag, hcdata⟩ := @chunk_parts F.header Png.signature _ hsize'
  obtain ⟨hnext, hroom, hinside⟩ := @chunk_end F.header Png.signature _ hsize'
  rw [← hbytes] at hclen htag hcdata hroom hinside
  have hthirteen : F.header.data.length = 13 := by
    rw [hvalid.header_data]
    rfl
  have hstart : Png.signature.length = 8 := rfl
  rw [hstart] at hclen htag hcdata hnext hroom
  have hchunk : pngChunk F.bytes 8 PngInfo.init =
      .next (Png.signature ++ F.header.bytes).length (afterHeader F.picture) := by
    simp only [pngChunk, hclen, htag, hcdata, hnext]
    rw [if_neg hroom, if_neg hinside, if_pos ⟨hvalid.header_tag, by omega⟩, hvalid.header_data,
      pngHeader_picture hw hh]
  rw [pngChunks, hchunk]
  simp only
  rw [hmove] at hsize ⊢
  exact pngChunks_between hsize hvalid.between hvalid.last_tag (by omega)

/-- The walk finds out what the picture is. -/
theorem foldl_absorb_describes (hvalid : F.Valid) :
    (F.chunks.foldl absorb (afterHeader F.picture)).Describes F.picture := by
  obtain ⟨hw, hh, hctype, -⟩ := foldl_absorb_frame (afterHeader F.picture) F.chunks
  refine ⟨hw, hh, hctype, fun hcolour => ?_⟩
  have hplte := hvalid.palette hcolour
  obtain ⟨c, hone, hdata⟩ := List.map_eq_singleton_iff.mp hplte
  have hlen := length_entries F.picture.entries
  have hle := F.picture.entries_le
  obtain ⟨hcount, hpalette⟩ := @foldl_absorb_palette (afterHeader F.picture) (afterHeader F.picture)
    F.chunks rfl rfl
  have hfilter : F.chunks.filter (fun c => c.tag = tagPLTE) = [c] := hone
  rw [hfilter, List.foldl_cons, List.foldl_nil] at hcount hpalette
  have hn : min (F.picture.entries.length * 3 / 3) 256 = F.picture.entries.length := by omega
  rw [hcount, hpalette]
  simp only [pngPalette, hdata, hlen, hn]
  refine ⟨trivial, fun i hi => ?_⟩
  rw [if_pos hi]
  exact getD_entries F.picture.entries hi

/-- The scan lines of a picture within the limits fit into the output buffer. -/
theorem scanlines_le_inflateMax (hw : P.width ≤ imgMaxW) (hh : P.height ≤ imgMaxH) :
    (P.scanlines.length : ℤ) ≤ (inflateMax : ℤ) := by
  have hsamples : P.colour.samples ≤ 4 := by cases P.colour <;> decide
  have hstride : P.stride ≤ 2048 * 4 := Nat.mul_le_mul hw hsamples
  have hraw : P.height * (1 + P.stride) ≤ 2048 * (1 + 2048 * 4) := Nat.mul_le_mul hh (by omega)
  have hmax : (inflateMax : ℤ) = 20971520 := rfl
  rw [length_scanlines]
  omega

/-- The image data inflates to the scan lines. -/
theorem zlibDecompress_scanlines (hvalid : F.Valid) (hw : F.picture.width ≤ imgMaxW)
    (hh : F.picture.height ≤ imgMaxH) (hidat : F.imageData.length ≤ idatMax) :
    ∃ n, ∀ fuel ≥ n, ∀ out, zlibDecompress fuel F.imageData out inflateMax =
      some ((F.picture.scanlines.length : ℤ), writeBytes out F.picture.scanlines) := by
  obtain ⟨cmf, flg, body, hdata, hmethod, S, hS, hbits, houtput⟩ := hvalid.stream
  have hbody : body.length < 2 ^ 32 := by
    rw [hdata, List.length_cons, List.length_cons] at hidat
    unfold idatMax at hidat
    omega
  have hfits : (S.output.length : ℤ) ≤ (inflateMax : ℤ) := by
    rw [houtput]
    exact scanlines_le_inflateMax hw hh
  refine ⟨streamRounds S, fun fuel hfuel out => ?_⟩
  have hinflate := @deflateDecompress_of_stream body out (inflateMax : ℤ) S fuel hbody hS hbits hfits hfuel
  rw [houtput] at hinflate
  rw [hdata, zlibDecompress, if_neg (by simp), if_neg (by simpa using hmethod)]
  exact hinflate

theorem pngBpp_code (colour : Png.Colour) : pngBpp colour.code.toNat = some colour.samples := by
  cases colour <;> rfl

/-- **The loader inverts the format.**  Every file of a picture within the loader's limits, with
its image data split into chunks in any way, is accepted, and each pixel has its colour. -/
theorem imageLoadPng_file (F : Png.File) (img : Image) (mem : ImageMem) (hvalid : F.Valid)
    (hw : F.picture.width ≤ imgMaxW) (hh : F.picture.height ≤ imgMaxH)
    (hidat : F.imageData.length ≤ idatMax) (hsize : F.bytes.length < 2 ^ 32) :
    ∃ n, ∀ fuel ≥ n, ∃ mem', imageLoadPng fuel F.bytes img mem =
        some (true, ⟨F.picture.width, F.picture.height, true⟩, mem') ∧
      ∀ y < F.picture.height, ∀ x < F.picture.width,
        mem'.pixels (y * F.picture.width + x) = colourWord F.picture x y := by
  obtain ⟨n, hinflate⟩ := zlibDecompress_scanlines hvalid hw hh hidat
  refine ⟨n + F.chunks.length + 2, fun fuel hfuel => ?_⟩
  have hinflate := hinflate fuel (by omega) mem.inflateOut
  have hdescribes := foldl_absorb_describes hvalid
  obtain ⟨-, -, -, hgot⟩ := foldl_absorb_frame (afterHeader F.picture) F.chunks
  have hdata : (F.chunks.foldl absorb (afterHeader F.picture)).idat = F.imageData := by
    have h := @foldl_absorb_idat (afterHeader F.picture) F.chunks (by
      rw [show (afterHeader F.picture).idat = [] from rfl, List.length_nil, Nat.zero_add]
      exact hidat)
    exact h
  have hchunks := pngChunks_file hvalid hw hh hsize (show F.chunks.length + 1 < fuel by omega)
  generalize F.chunks.foldl absorb (afterHeader F.picture) = st at hdescribes hgot hdata hchunks
  have hnonempty : F.imageData.length ≠ 0 := by
    obtain ⟨cmf, flg, body, h, -⟩ := hvalid.stream
    rw [h]
    simp
  have hsig : F.bytes.take 8 = pngSig := rfl
  have hlong : ¬ F.bytes.length < 8 := by
    have hlen := List.length_take_le 8 F.bytes
    have height : (F.bytes.take 8).length = 8 := by rw [hsig]; rfl
    rw [List.length_take] at height
    omega
  have hraw : st.h * (1 + st.w * (F.picture.colour.samples : ℤ)) = (F.picture.scanlines.length : ℤ) := by
    rw [hdescribes.h, hdescribes.w, length_scanlines, Png.Picture.stride]
    push_cast
    rfl
  have hroom := not_lt.mpr (scanlines_le_inflateMax hw hh)
  have hwn : st.w.toNat = F.picture.width := by rw [hdescribes.w, Int.toNat_natCast]
  have hhn : st.h.toNat = F.picture.height := by rw [hdescribes.h, Int.toNat_natCast]
  -- before the first row the row above is all zeros
  have hstart : RowsDone F.picture 0 { mem with
      inflateOut := writeBytes mem.inflateOut F.picture.scanlines
      prevBuf := fun i => if i < F.picture.width * F.picture.colour.samples then 0 else mem.prevBuf i } := by
    refine ⟨holdsScanlines_writeBytes F.picture mem.inflateOut, fun i hi => ?_, fun y' hy' => ?_⟩
    · exact if_pos hi
    · omega
  have hdone := hstart.rows hdescribes le_rfl
  refine ⟨_, ?_, hdone.pixels⟩
  rw [imageLoadPng, if_neg (by rintro (h | h); exacts [hlong h, h hsig]), hchunks]
  simp only [pngFinish]
  rw [hgot, hdata, if_neg (by simp [afterHeader, hnonempty]), hdescribes.ctype, pngBpp_code]
  simp only [hraw, if_neg hroom, hinflate, hwn, hhn]
  rw [if_neg (by omega), if_neg (by omega), hdescribes.w, hdescribes.h]

/-- A picture of two by two gray pixels. -/
def tinyPicture : Png.Picture where
  width := 2
  height := 2
  colour := .gray
  entries := []
  sample := fun y x => UInt8.ofNat (50 * y + 3 * x + 5)
  filter := fun y => if y = 0 then .sub else .paeth
  width_pos := by decide
  height_pos := by decide
  entries_le := by decide
  entry_lt := by decide

/-- Its scan lines in one stored block. -/
def tinyStream : Deflate.Stream where
  blocks := []
  last := .stored [false, false, false, false, false] tinyPicture.scanlines

/-- Its file, with the image data in two chunks and a chunk of text between them. -/
def tinyFile : Png.File where
  picture := tinyPicture
  header := ⟨Png.headerTag, [0, 0, 0, 2, 0, 0, 0, 2, 8, 0, 0, 0, 0], [0, 0, 0, 0], rfl, rfl⟩
  chunks :=
    [⟨Png.dataTag, [0x78, 0x01, 1, 6], [0, 0, 0, 0], rfl, rfl⟩,
     ⟨[0x74, 0x45, 0x58, 0x74], [0x68, 0x69], [0, 0, 0, 0], rfl, rfl⟩,
     ⟨Png.dataTag, [0, 249, 255] ++ tinyPicture.scanlines ++ [0, 0, 0, 0], [0, 0, 0, 0], rfl, rfl⟩]
  last := ⟨Png.endTag, [], [0, 0, 0, 0], rfl, rfl⟩
  rest := []

theorem tinyFile_valid : tinyFile.Valid where
  header_tag := rfl
  header_data := by decide
  last_tag := rfl
  between := by decide
  palette := by
    intro h
    exact absurd h (by decide)
  stream := by
    refine ⟨0x78, 0x01, [1, 6, 0, 249, 255] ++ tinyPicture.scanlines ++ [0, 0, 0, 0], ?_, ?_,
      tinyStream, ⟨by decide, by decide, by decide⟩, ?_, rfl⟩
    · decide
    · decide
    · decide

/-- The two by two picture is loaded. -/
theorem imageLoadPng_tinyFile :
    ∃ n, ∀ fuel ≥ n, ∃ mem', imageLoadPng fuel tinyFile.bytes ⟨0, 0, false⟩
        ⟨fun _ => 0, fun _ => 0, fun _ => 0, fun _ => 0⟩ = some (true, ⟨2, 2, true⟩, mem') ∧
      ∀ y < 2, ∀ x < 2, mem'.pixels (y * 2 + x) = colourWord tinyPicture x y :=
  imageLoadPng_file tinyFile _ _ tinyFile_valid (by decide) (by decide) (by decide)
    (by decide)

end Microkernel

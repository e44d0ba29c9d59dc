/-
# The PNG loader

`image_load_png`: the walk over the chunks of a file, the decompression of the collected image
data, the undoing of the row filters and the conversion of each row to pixels.  The buffers that
keep their contents from call to call are a state; sizes and positions are `uint32_t`.
-/
import Microkernel.ByteMemory
import Microkernel.Inflate

namespace Microkernel

def imgMaxW : ℕ := 2048

def imgMaxH : ℕ := 2048

/-- `sizeof(idat_buf)`. -/
def idatMax : ℕ := 8 * 1024 * 1024

/-- `sizeof(inflate_out)`. -/
def inflateMax : ℕ := 20 * 1024 * 1024

def rd32be (d : List UInt8) (p : ℕ) : ℕ :=
  (d.getD p 0).toNat * 2 ^ 24 + (d.getD (p + 1) 0).toNat * 2 ^ 16 + (d.getD (p + 2) 0).toNat * 2 ^ 8 +
    (d.getD (p + 3) 0).toNat

/-- A `uint32_t` stored in an `int`. -/
def asInt32 (v : ℕ) : ℤ := if v < 2 ^ 31 then (v : ℤ) else (v : ℤ) - 2 ^ 32

def pngSig : List UInt8 := [137, 80, 78, 71, 13, 10, 26, 10]

def tagIHDR : List UInt8 := [0x49, 0x48, 0x44, 0x52]

def tagPLTE : List UInt8 := [0x50, 0x4C, 0x54, 0x45]

def tagIDAT : List UInt8 := [0x49, 0x44, 0x41, 0x54]

def tagIEND : List UInt8 := [0x49, 0x45, 0x4E, 0x44]

/-! ## Chunks -/

/-- The variables of the walk over the chunks. -/
structure PngInfo where
  w : ℤ
  h : ℤ
  depth : ℕ
  ctype : ℕ
  palette : ℕ → UInt8 × UInt8 × UInt8
  palCount : ℕ
  idat : List UInt8
  gotIhdr : Bool

def PngInfo.init : PngInfo := ⟨0, 0, 0, 0, fun _ => (0, 0, 0), 0, [], false⟩

/-- What one chunk leads to: the loader gives up, the walk ends, or it goes on. -/
inductive ChunkOutcome
  | reject
  | stop (st : PngInfo)
  | next (pos : ℕ) (st : PngInfo)

/-- The header chunk. -/
def pngHeader (cdata : List UInt8) (st : PngInfo) : Option PngInfo :=
  let st := { st with
    w := asInt32 (rd32be cdata 0)
    h := asInt32 (rd32be cdata 4)
    depth := (cdata.getD 8 0).toNat
    ctype := (cdata.getD 9 0).toNat }
  if cdata.getD 12 0 ≠ 0 then none
  else if st.depth ≠ 8 then none
  else if st.w ≤ 0 ∨ st.h ≤ 0 ∨ (imgMaxW : ℤ) < st.w ∨ (imgMaxH : ℤ) < st.h then none
  else some { st with gotIhdr := true }

/-- The palette chunk: at most 256 entries. -/
def pngPalette (cdata : List UInt8) (clen : ℕ) (st : PngInfo) : PngInfo :=
  let n := min (clen / 3) 256
  { st with
    palCount := n
    palette := fun i =>
      if i < n then (cdata.getD (i * 3) 0, cdata.getD (i * 3 + 1) 0, cdata.getD (i * 3 + 2) 0)
      else st.palette i }

/-- A chunk of image data; one that does not fit is left out. -/
def pngData (cdata : List UInt8) (clen : ℕ) (st : PngInfo) : PngInfo :=
  if (st.idat.length + clen) % 2 ^ 32 ≤ idatMax then { st with idat := st.idat ++ cdata.take clen } else st

/-- One round of the walk, with the test of its loop. -/
def pngChunk (data : List UInt8) (pos : ℕ) (st : PngInfo) : ChunkOutcome :=
  let clen := rd32be data pos
  let tag := (data.drop (pos + 4)).take 4
  let cdata := data.drop (pos + 8)
  let next := (pos + 12 + clen) % 2 ^ 32
  if data.length < (pos + 12) % 2 ^ 32 then .stop st
  else if data.length < next then .stop st
  else if tag = tagIHDR ∧ 13 ≤ clen then
    match pngHeader cdata st with
    | none => .reject
    | some st => .next next st
  else if tag = tagPLTE then .next next (pngPalette cdata clen st)
  else if tag = tagIDAT then .next next (pngData cdata clen st)
  else if tag = tagIEND then .stop st
  else .next next st

/-- The walk over the chunks; `some none` when the loader gives up. -/
def pngChunks (data : List UInt8) : ℕ → ℕ → PngInfo → Option (Option PngInfo)
  | 0, _, _ => none
  | fuel + 1, pos, st =>
    match pngChunk data pos st with
    | .reject => some none
    | .stop st => some (some st)
    | .next pos st => pngChunks data fuel pos st

/-! ## Rows -/

def paethPredict (a b c : UInt8) : UInt8 :=
  let p : ℤ := (a.toNat : ℤ) + b.toNat - c.toNat
  let pa := |p - a.toNat|
  let pb := |p - b.toNat|
  let pc := |p - c.toNat|
  if pa ≤ pb ∧ pa ≤ pc then a else if pb ≤ pc then b else c

/-- The byte for which a filter left `r`; `a`, `b` and `c` are the bytes to the left, above, and
above to the left. -/
def unfilter (filter a b c r : UInt8) : UInt8 :=
  if filter = 1 then r + a
  else if filter = 2 then r + b
  else if filter = 3 then r + UInt8.ofNat ((a.toNat + b.toNat) / 2)
  else if filter = 4 then r + paethPredict a b c
  else r

/-- The static buffers of the loader. -/
structure ImageMem where
  inflateOut : ℤ → UInt8
  rowBuf : Memory
  prevBuf : Memory
  pixels : ℕ → ℕ

/-- The first `n` bytes of the row whose data begins at `raw`. -/
def unfilterRow (filter : UInt8) (bpp raw : ℕ) : ℕ → ImageMem → ImageMem
  | 0, mem => mem
  | x + 1, mem =>
    let mem := unfilterRow filter bpp raw x mem
    let a := if bpp ≤ x then mem.rowBuf (x - bpp) else 0
    let c := if bpp ≤ x then mem.prevBuf (x - bpp) else 0
    let v := unfilter filter a (mem.prevBuf x) c (mem.inflateOut (raw + x : ℕ))
    { mem with rowBuf := mem.rowBuf.store8 x v }

def rgb (r g b : UInt8) : ℕ := r.toNat * 2 ^ 16 + g.toNat * 2 ^ 8 + b.toNat

/-- The pixel of a row at `x`. -/
def pngPixel (st : PngInfo) (cur : Memory) (x : ℕ) : ℕ :=
  if st.ctype = 0 then rgb (cur x) (cur x) (cur x)
  else if st.ctype = 2 then rgb (cur (x * 3)) (cur (x * 3 + 1)) (cur (x * 3 + 2))
  else if st.ctype = 3 then
    if (cur x).toNat < st.palCount then
      rgb (st.palette (cur x).toNat).1 (st.palette (cur x).toNat).2.1 (st.palette (cur x).toNat).2.2
    else 0
  else if st.ctype = 4 then rgb (cur (x * 2)) (cur (x * 2)) (cur (x * 2))
  else if st.ctype = 6 then rgb (cur (x * 4)) (cur (x * 4 + 1)) (cur (x * 4 + 2))
  else 0

/-- The first `n` pixels of a row that begins at `base`. -/
def pngPixels (st : PngInfo) (base : ℕ) : ℕ → ImageMem → ImageMem
  | 0, mem => mem
  | x + 1, mem =>
    let mem := pngPixels st base x mem
    let v := pngPixel st mem.rowBuf x
    { mem with pixels := fun i => if i = base + x then v else mem.pixels i }

/-- The row `y` of the decompressed data. -/
def pngRow (st : PngInfo) (w bpp y : ℕ) (mem : ImageMem) : ImageMem :=
  let stride := w * bpp
  let rp := y * (1 + stride)
  let mem := unfilterRow (mem.inflateOut rp) bpp (rp + 1) stride mem
  let mem := pngPixels st (y * w) w mem
  { mem with prevBuf := fun i => if i < stride then mem.rowBuf i else mem.prevBuf i }

/-- The rows above `y`. -/
def pngRows (st : PngInfo) (w bpp : ℕ) : ℕ → ImageMem → ImageMem
  | 0, mem => mem
  | y + 1, mem => pngRow st w bpp y (pngRows st w bpp y mem)

/-! ## The loader -/

/-- `image_t`, whose pixels are those of the static buffer. -/
structure Image where
  width : ℤ
  height : ℤ
  valid : Bool

/-- Bytes of a pixel. -/
def pngBpp (ctype : ℕ) : Option ℕ :=
  if ctype = 0 then some 1
  else if ctype = 2 then some 3
  else if ctype = 3 then some 1
  else if ctype = 4 then some 2
  else if ctype = 6 then some 4
  else none

/-- What follows the walk over the chunks. -/
def pngFinish (fuel : ℕ) (st : PngInfo) (img : Image) (mem : ImageMem) :
    Option (Bool × Image × ImageMem) :=
  if st.gotIhdr = false ∨ st.idat.length = 0 then some (false, img, mem)
  else
    match pngBpp st.ctype with
    | none => some (false, img, mem)
    | some bpp =>
      let rawSize : ℤ := st.h * (1 + st.w * bpp)
      if (inflateMax : ℤ) < rawSize then some (false, img, mem)
      else
        match zlibDecompress fuel st.idat mem.inflateOut inflateMax with
        | none => none
        | some (dlen, out) =>
          let mem := { mem with inflateOut := out }
          if dlen < 0 then some (false, img, mem)
          else if dlen < rawSize then some (false, img, mem)
          else
            let stride := st.w.toNat * bpp
            let mem := { mem with prevBuf := fun i => if i < stride then 0 else mem.prevBuf i }
            some (true, ⟨st.w, st.h, true⟩, pngRows st st.w.toNat bpp st.h.toNat mem)

/-- The value returned, the image and the buffers after it. -/
def imageLoadPng (fuel : ℕ) (data : List UInt8) (img : Image) (mem : ImageMem) :
    Option (Bool × Image × ImageMem) :=
  if data.length < 8 ∨ data.take 8 ≠ pngSig then some (false, img, mem)
  else
    match pngChunks data fuel 8 PngInfo.init with
    | none => none
    | some none => some (false, img, mem)
    | some (some st) => pngFinish fuel st img mem

end Microkernel

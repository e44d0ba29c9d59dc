/-
# The image loader

`image_load` with `image_load_bmp` and `image_load_tga`.  All decoders write into one static array
of pixels; an image that is small enough is then copied into a slot of its own.

A read of the file is at a distance from `data`, which wraps around as pointers do; a read outside of
the file is a fault, and so is a store outside of the array of pixels.
-/
import Microkernel.Buffers
import Microkernel.Fat16Names
import Microkernel.Png

namespace Microkernel

/-! ## Bytes and pixels -/

/-- `data[i]`. -/
def byteAt (data : List UInt8) (i : ℕ) : Access UInt8 :=
  match data[u32 i]? with
  | some v => .ok v
  | none => .error .read

def rd16le (data : List UInt8) (p : ℕ) : Access ℕ :=
  (byteAt data p).bind fun a => (byteAt data (p + 1)).map fun b => a.toNat + b.toNat * 2 ^ 8

def rd32le (data : List UInt8) (p : ℕ) : Access ℕ :=
  (rd16le data p).bind fun a => (rd16le data (p + 2)).map fun b => a + b * 2 ^ 16

/-- `(p[2] << 16) | (p[1] << 8) | p[0]`. -/
def pixelAt (data : List UInt8) (p : ℕ) : Access ℕ :=
  (byteAt data (p + 2)).bind fun r =>
    (byteAt data (p + 1)).bind fun g => (byteAt data p).map fun b => rgb r g b

/-- `img->pixels[i] = v`. -/
def storePixel (pixels : ℕ → ℕ) (i : ℤ) (v : ℕ) : Access (ℕ → ℕ) :=
  if 0 ≤ i ∧ i < (imgMaxW * imgMaxH : ℕ) then .ok (Function.update pixels i.toNat v)
  else .error .write

/-! ## BMP -/

/-- The fields that `image_load_bmp` reads. -/
structure BmpHeader where
  offset : ℕ
  w : ℤ
  h : ℤ
  bpp : ℕ
  comp : ℕ
  deriving DecidableEq

def readBmpHeader (data : List UInt8) : Access BmpHeader :=
  (rd32le data 10).bind fun offset => (rd32le data 18).bind fun w => (rd32le data 22).bind fun h =>
    (rd16le data 28).bind fun bpp => (rd32le data 30).map fun comp =>
      ⟨offset, asInt32 w, asInt32 h, bpp, comp⟩

namespace BmpHeader

variable (hd : BmpHeader)

def flip : Bool := 0 < hd.h

/-- `h` after the change of its sign; the least number is its own negative. -/
def height : ℤ := if hd.h = -2 ^ 31 then hd.h else |hd.h|

/-- The checks of the header. -/
def Accepted : Prop :=
  (hd.comp = 0 ∨ hd.comp = 3) ∧ (hd.bpp = 24 ∨ hd.bpp = 32) ∧ 0 < hd.w ∧ hd.w ≤ imgMaxW ∧
    hd.height ≤ imgMaxH

instance : Decidable hd.Accepted := inferInstanceAs (Decidable (_ ∧ _))

def width : ℕ := hd.w.toNat

def bytesPp : ℕ := hd.bpp / 8

/-- `row_bytes`: rows are padded to four bytes. -/
def rowBytes : ℕ := (hd.width * hd.bpp / 8 + 3) / 4 * 4

def srcY (y : ℕ) : ℕ := if hd.flip then hd.height.toNat - 1 - y else y

/-- The place of a row in the file. -/
def rowAt (y : ℕ) : ℕ := u32 (hd.offset + hd.srcY y * hd.rowBytes)

/-- The test of the loop over the rows. -/
def RowFits (size y : ℕ) : Prop := u32 (hd.rowAt y + hd.width * hd.bytesPp) ≤ size

instance (size y : ℕ) : Decidable (hd.RowFits size y) := inferInstanceAs (Decidable (_ ≤ _))

end BmpHeader

/-- The first `n` pixels of a row that is at `row` in the file and at `base` in the array. -/
def bmpRow (data : List UInt8) (bytesPp row base : ℕ) : ℕ → (ℕ → ℕ) → Access (ℕ → ℕ)
  | 0, pixels => .ok pixels
  | x + 1, pixels =>
    (bmpRow data bytesPp row base x pixels).bind fun pixels =>
      (pixelAt data (row + x * bytesPp)).bind fun v => storePixel pixels (base + x : ℕ) v

/-- The rows from `y` on, of which there are `k`. -/
def bmpRows (data : List UInt8) (hd : BmpHeader) : ℕ → ℕ → (ℕ → ℕ) → Access (ℕ → ℕ)
  | 0, _, pixels => .ok pixels
  | k + 1, y, pixels =>
    if hd.RowFits data.length y then
      (bmpRow data hd.bytesPp (hd.rowAt y) (y * hd.width) hd.width pixels).bind
        (bmpRows data hd k (y + 1))
    else .ok pixels

/-- The value returned, the image and the pixels after it. -/
def imageLoadBmp (data : List UInt8) (img : Image) (pixels : ℕ → ℕ) :
    Access (Bool × Image × (ℕ → ℕ)) :=
  if data.length < 54 then .ok (false, img, pixels)
  else
    (byteAt data 0).bind fun c₀ => (byteAt data 1).bind fun c₁ =>
      if c₀ ≠ 0x42 ∨ c₁ ≠ 0x4D then .ok (false, img, pixels)
      else
        (readBmpHeader data).bind fun hd =>
          if hd.Accepted then
            (bmpRows data hd hd.height.toNat 0 pixels).map fun pixels =>
              (true, ⟨hd.w, hd.height, true⟩, pixels)
          else .ok (false, img, pixels)

/-! ## TGA -/

/-- The fields that `image_load_tga` reads. -/
structure TgaHeader where
  idLen : ℕ
  imgType : ℕ
  w : ℕ
  h : ℕ
  bpp : ℕ
  desc : UInt8
  deriving DecidableEq

def readTgaHeader (data : List UInt8) : Access TgaHeader :=
  (byteAt data 0).bind fun idLen => (byteAt data 2).bind fun imgType => (rd16le data 12).bind fun w =>
    (rd16le data 14).bind fun h => (byteAt data 16).bind fun bpp => (byteAt data 17).map fun desc =>
      ⟨idLen.toNat, imgType.toNat, w, h, bpp.toNat, desc⟩

namespace TgaHeader

variable (hd : TgaHeader)

/-- The checks of the header. -/
def Accepted : Prop :=
  (hd.w ≠ 0 ∧ hd.h ≠ 0 ∧ hd.w ≤ imgMaxW ∧ hd.h ≤ imgMaxH) ∧ (hd.imgType = 2 ∨ hd.imgType = 10) ∧
    (hd.bpp = 24 ∨ hd.bpp = 32)

instance : Decidable hd.Accepted := inferInstanceAs (Decidable (_ ∧ _))

def topOrigin : Bool := hd.desc &&& 0x20 ≠ 0

def bytesPp : ℕ := hd.bpp / 8

/-- `src`, from `data` on. -/
def src : ℕ := 18 + hd.idLen

/-- `src_left`. -/
def srcLeft (size : ℕ) : ℕ := (size + 2 ^ 32 - 18 - hd.idLen) % 2 ^ 32

/-- The row that is flipped, unless the first row is at the top. -/
def flipY (y : ℤ) : ℤ := if hd.topOrigin then y else hd.h - 1 - y

/-- The place in the array of the pixel that comes as number `px`. -/
def place (px : ℕ) : ℤ := hd.flipY (px / hd.w : ℕ) * hd.w + (px % hd.w : ℕ)

end TgaHeader

/-- The first `n` pixels of the row `y` of an image that is not compressed; `false` when the function
has returned. -/
def tgaRow (data : List UInt8) (hd : TgaHeader) (y : ℕ) : ℕ → (ℕ → ℕ) → Access (Bool × (ℕ → ℕ))
  | 0, pixels => .ok (true, pixels)
  | x + 1, pixels =>
    (tgaRow data hd y x pixels).bind fun r =>
      let off := ((hd.flipY y).toNat * hd.w + x) * hd.bytesPp
      if r.1 = false then .ok r
      else if hd.srcLeft data.length < u32 (off + hd.bytesPp) then .ok (false, r.2)
      else
        (pixelAt data (hd.src + off)).bind fun v =>
          (storePixel r.2 (y * hd.w + x : ℕ) v).map fun pixels => (true, pixels)

/-- The first `n` rows. -/
def tgaRows (data : List UInt8) (hd : TgaHeader) : ℕ → (ℕ → ℕ) → Access (Bool × (ℕ → ℕ))
  | 0, pixels => .ok (true, pixels)
  | y + 1, pixels =>
    (tgaRows data hd y pixels).bind fun r => if r.1 = false then .ok r else tgaRow data hd y hd.w r.2

/-- The variables of the loop over the packets. -/
structure TgaCursor where
  px : ℕ
  si : ℕ
  pixels : ℕ → ℕ

/-- `img->pixels[y * w + (px % w)] = col; px++`. -/
def TgaCursor.put (hd : TgaHeader) (c : TgaCursor) (col : ℕ) : Access TgaCursor :=
  (storePixel c.pixels (hd.place c.px) col).map fun pixels => { c with px := c.px + 1, pixels := pixels }

/-- The loop of a run-length packet. -/
def tgaRun (hd : TgaHeader) (col : ℕ) : ℕ → TgaCursor → Access TgaCursor
  | 0, c => .ok c
  | n + 1, c => if c.px < hd.w * hd.h then (c.put hd col).bind (tgaRun hd col n) else .ok c

/-- The loop of a raw packet. -/
def tgaRaw (data : List UInt8) (hd : TgaHeader) : ℕ → TgaCursor → Access TgaCursor
  | 0, c => .ok c
  | n + 1, c =>
    if c.px < hd.w * hd.h then
      if hd.srcLeft data.length < u32 (c.si + hd.bytesPp) then .ok c
      else
        (pixelAt data (hd.src + c.si)).bind fun col =>
          ({ c with si := c.si + hd.bytesPp }.put hd col).bind (tgaRaw data hd n)
    else .ok c

/-- The loop over the packets.  Each round reads a byte of the file, so as many rounds as the file has
bytes, and one to end, are enough; one more is a fault. -/
def tgaPackets (data : List UInt8) (hd : TgaHeader) : ℕ → TgaCursor → Access TgaCursor
  | 0, _ => .error .read
  | k + 1, c =>
    if c.px < hd.w * hd.h ∧ c.si < hd.srcLeft data.length then
      (byteAt data (hd.src + c.si)).bind fun hdr =>
        let count := hdr.toNat % 128 + 1
        let c := { c with si := c.si + 1 }
        if 128 ≤ hdr.toNat then
          if hd.srcLeft data.length < u32 (c.si + hd.bytesPp) then .ok c
          else
            (pixelAt data (hd.src + c.si)).bind fun col =>
              (tgaRun hd col count { c with si := c.si + hd.bytesPp }).bind (tgaPackets data hd k)
        else (tgaRaw data hd count c).bind (tgaPackets data hd k)
    else .ok c

/-- The value returned, the image and the pixels after it. -/
def imageLoadTga (data : List UInt8) (img : Image) (pixels : ℕ → ℕ) :
    Access (Bool × Image × (ℕ → ℕ)) :=
  if data.length < 18 then .ok (false, img, pixels)
  else
    (readTgaHeader data).bind fun hd =>
      if hd.Accepted then
        let img : Image := ⟨hd.w, hd.h, true⟩
        if hd.imgType = 2 then (tgaRows data hd hd.h pixels).map fun r => (true, img, r.2)
        else (tgaPackets data hd (data.length + 1) ⟨0, 0, pixels⟩).map fun c => (true, img, c.pixels)
      else .ok (false, img, pixels)

/-! ## The loader for any format -/

/-- `IMG_SLOTS` and `IMG_SLOT_SIZE`. -/
def imgSlots : ℕ := 4
def imgSlotSize : ℕ := 512 * 512

/-- `ends_with`. -/
def endsWith (s suf : List UInt8) : Bool :=
  suf.length ≤ s.length && equalsIgnoringCase (s.drop (s.length - suf.length)) suf

inductive ImageFormat
  | png
  | bmp
  | tga
  deriving DecidableEq

/-- `.bmp`, `.tga` and `.png`. -/
def suffixBmp : List UInt8 := [0x2E, 0x62, 0x6D, 0x70]
def suffixTga : List UInt8 := [0x2E, 0x74, 0x67, 0x61]
def suffixPng : List UInt8 := [0x2E, 0x70, 0x6E, 0x67]

/-- The loader that `image_load` calls, by the first bytes and then by the name, which may be missing. -/
def imageFormat (data : List UInt8) (name : Option (List UInt8)) : ImageFormat :=
  if 8 ≤ data.length ∧ data.take 8 = pngSig then .png
  else if 2 ≤ data.length ∧ data.take 2 = [0x42, 0x4D] then .bmp
  else if name.any fun s => endsWith s suffixBmp then .bmp
  else if name.any fun s => endsWith s suffixTga then .tga
  else if name.any fun s => endsWith s suffixPng then .png
  else .tga

/-- Where the pixels of an image are. -/
inductive PixelPlace
  | shared
  | slot (k : ℕ)

/-- `image_t`. -/
structure LoadedImage extends Image where
  place : PixelPlace

/-- The static variables of the loader. -/
structure ImageState where
  mem : ImageMem
  pool : ℕ → ℕ → ℕ
  nextSlot : ℕ

/-- The pixels of an image. -/
def LoadedImage.pixel (img : LoadedImage) (s : ImageState) (i : ℕ) : ℕ :=
  match img.place with
  | .shared => s.mem.pixels i
  | .slot k => s.pool k i

/-- The call of the loader for the format. -/
def imageDecode (fuel : ℕ) (data : List UInt8) (name : Option (List UInt8)) (img : Image)
    (mem : ImageMem) : Option (Access (Bool × Image × ImageMem)) :=
  match imageFormat data name with
  | .png => (imageLoadPng fuel data img mem).map .ok
  | .bmp => some ((imageLoadBmp data img mem.pixels).map fun r =>
      (r.1, r.2.1, { mem with pixels := r.2.2 }))
  | .tga => some ((imageLoadTga data img mem.pixels).map fun r =>
      (r.1, r.2.1, { mem with pixels := r.2.2 }))

/-- What follows: an image that fits is copied into a slot. -/
def imageKeep (place : PixelPlace) (s : ImageState) (r : Bool × Image × ImageMem) :
    Bool × LoadedImage × ImageState :=
  let s := { s with mem := r.2.2 }
  if r.1 ∧ r.2.1.valid then
    let npx := r.2.1.width * r.2.1.height
    if npx ≤ imgSlotSize then
      (r.1, ⟨r.2.1, .slot s.nextSlot⟩,
        { s with
          pool := Function.update s.pool s.nextSlot fun i =>
            if (i : ℤ) < npx then s.mem.pixels i else s.pool s.nextSlot i
          nextSlot := (s.nextSlot + 1) % imgSlots })
    else (r.1, ⟨r.2.1, .shared⟩, s)
  else (r.1, ⟨r.2.1, place⟩, s)

/-- `image_load`; the result is `none` when it does not return. -/
def imageLoad (fuel : ℕ) (data : List UInt8) (name : Option (List UInt8)) (img : LoadedImage)
    (s : ImageState) : Option (Access (Bool × LoadedImage × ImageState)) :=
  (imageDecode fuel data name { img.toImage with valid := false } s.mem).map fun r =>
    r.map (imageKeep img.place s)

end Microkernel

/-
# The PNG format

Pictures with eight bits to a sample and their files: the filters that a row may be written
with, the scan lines, and the chunks between which the compressed scan lines may be split.
Nothing here is about a decoder.
-/
import Microkernel.Deflate

open BitStream

namespace Png

/-! ## Pictures -/

inductive Colour
  | gray
  | rgb
  | palette
  | grayAlpha
  | rgba
  deriving DecidableEq

/-- The number a colour type is written as. -/
def Colour.code : Colour → UInt8
  | gray => 0
  | rgb => 2
  | palette => 3
  | grayAlpha => 4
  | rgba => 6

/-- Samples, each a byte, of one pixel. -/
def Colour.samples : Colour → ℕ
  | gray => 1
  | rgb => 3
  | palette => 1
  | grayAlpha => 2
  | rgba => 4

inductive Filter
  | none
  | sub
  | up
  | average
  | paeth

def Filter.code : Filter → UInt8
  | none => 0
  | sub => 1
  | up => 2
  | average => 3
  | paeth => 4

/-- The byte next to `a + b - c`, the first of them in this order. -/
def nearest (a b c : UInt8) : UInt8 :=
  let far := fun x : UInt8 => |(a.toNat : ℤ) + b.toNat - c.toNat - x.toNat|
  if far a ≤ far b ∧ far a ≤ far c then a else if far b ≤ far c then b else c

/-- What a filter takes away from a byte, given those to the left, above, and above to the left. -/
def Filter.predict (a b c : UInt8) : Filter → UInt8
  | none => 0
  | sub => a
  | up => b
  | average => UInt8.ofNat ((a.toNat + b.toNat) / 2)
  | paeth => nearest a b c

/-- A picture and the filter of each of its rows. -/
structure Picture where
  width : ℕ
  height : ℕ
  colour : Colour
  entries : List (UInt8 × UInt8 × UInt8)
  sample : ℕ → ℕ → UInt8
  filter : ℕ → Filter
  width_pos : 0 < width
  height_pos : 0 < height
  entries_le : entries.length ≤ 256
  entry_lt : colour = .palette → ∀ y < height, ∀ x < width, (sample y x).toNat < entries.length

namespace Picture

variable (P : Picture)

/-- Bytes of a row. -/
def stride : ℕ := P.width * P.colour.samples

/-- The byte of the pixel to the left. -/
def left (y i : ℕ) : UInt8 := if P.colour.samples ≤ i then P.sample y (i - P.colour.samples) else 0

/-- The byte of the pixel above. -/
def above (y i : ℕ) : UInt8 := if y = 0 then 0 else P.sample (y - 1) i

/-- The byte of the pixel above to the left. -/
def corner (y i : ℕ) : UInt8 := if P.colour.samples ≤ i then P.above y (i - P.colour.samples) else 0

/-- A byte after its row's filter. -/
def filtered (y i : ℕ) : UInt8 :=
  P.sample y i - (P.filter y).predict (P.left y i) (P.above y i) (P.corner y i)

def scanline (y : ℕ) : List UInt8 := (P.filter y).code :: (List.range P.stride).map (P.filtered y)

def scanlines : List UInt8 := (List.range P.height).flatMap P.scanline

/-- The red, green and blue of a pixel. -/
def colourAt (x y : ℕ) : UInt8 × UInt8 × UInt8 :=
  match P.colour with
  | .gray => (P.sample y x, P.sample y x, P.sample y x)
  | .rgb => (P.sample y (x * 3), P.sample y (x * 3 + 1), P.sample y (x * 3 + 2))
  | .palette => P.entries.getD (P.sample y x).toNat (0, 0, 0)
  | .grayAlpha => (P.sample y (x * 2), P.sample y (x * 2), P.sample y (x * 2))
  | .rgba => (P.sample y (x * 4), P.sample y (x * 4 + 1), P.sample y (x * 4 + 2))

end Picture

/-! ## Files -/

/-- A number as four bytes, the most significant first. -/
def bigEndian (v : ℕ) : List UInt8 :=
  [UInt8.ofNat (v / 2 ^ 24), UInt8.ofNat (v / 2 ^ 16), UInt8.ofNat (v / 2 ^ 8), UInt8.ofNat v]

/-- A chunk with its check sum. -/
structure Chunk where
  tag : List UInt8
  data : List UInt8
  crc : List UInt8
  tag_length : tag.length = 4
  crc_length : crc.length = 4

def Chunk.bytes (c : Chunk) : List UInt8 := bigEndian c.data.length ++ c.tag ++ c.data ++ c.crc

def signature : List UInt8 := [137, 80, 78, 71, 13, 10, 26, 10]

def headerTag : List UInt8 := [0x49, 0x48, 0x44, 0x52]

def paletteTag : List UInt8 := [0x50, 0x4C, 0x54, 0x45]

def dataTag : List UInt8 := [0x49, 0x44, 0x41, 0x54]

def endTag : List UInt8 := [0x49, 0x45, 0x4E, 0x44]

/-- A file: the chunks between the header and the end, and whatever follows the end. -/
structure File where
  picture : Picture
  header : Chunk
  chunks : List Chunk
  last : Chunk
  rest : List UInt8

namespace File

variable (F : File)

def bytes : List UInt8 :=
  signature ++ F.header.bytes ++ F.chunks.flatMap Chunk.bytes ++ F.last.bytes ++ F.rest

/-- The image data, put together from its chunks. -/
def imageData : List UInt8 := (F.chunks.filter fun c => c.tag = dataTag).flatMap Chunk.data

/-- A file of its picture: the header has its size and colour type, the image data is a zlib
stream of its scan lines, and a picture with a palette has it in one chunk. -/
structure Valid : Prop where
  header_tag : F.header.tag = headerTag
  header_data : F.header.data = bigEndian F.picture.width ++ bigEndian F.picture.height ++
    [8, F.picture.colour.code, 0, 0, 0]
  last_tag : F.last.tag = endTag
  between : ∀ c ∈ F.chunks, c.tag ≠ headerTag ∧ c.tag ≠ endTag
  palette : F.picture.colour = .palette → (F.chunks.filter fun c => c.tag = paletteTag).map Chunk.data =
    [F.picture.entries.flatMap fun e => [e.1, e.2.1, e.2.2]]
  stream : ∃ cmf flg body, F.imageData = cmf :: flg :: body ∧ cmf.toNat % 16 = 8 ∧
    ∃ S : Deflate.Stream, S.Valid ∧ S.bits <+: bytesBits body ∧ S.output = F.picture.scanlines

end File

end Png

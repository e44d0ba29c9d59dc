/-
# FAT16: directory slots and names

The 32-byte slots of a directory and the name helpers of `src/fat16.c`: short (8.3) names, the
slots of a long name and the pieces of a path.  A C string is the list of its bytes before the
terminating zero; `filename` and `dir_path` are arrays of 128 and 256 bytes in the source, which
longer strings would overrun.
-/
import Microkernel.Fat16
import Microkernel.Indices

namespace Microkernel

/-! ## Slots -/

/-- A slot of a directory. -/
abbrev DirSlot := Fin 32 → UInt8

/-- The slot at an offset of a sector. -/
def slotOf (buf : Memory) (off : ℕ) : DirSlot := fun k => buf (off + k)

/-- Store a slot at an offset of a sector. -/
def storeSlot (buf : Memory) (off : ℕ) (s : DirSlot) : Memory :=
  fun a => if h : off ≤ a ∧ a < off + 32 then s ⟨a - off, by omega⟩ else buf a

namespace DirSlot

variable (s : DirSlot)

/-- `name` followed by `ext`. -/
def name11 : List UInt8 := List.ofFn fun k : Fin 11 => s (k.castLE (by decide))

/-- `attr`. -/
def attr : UInt8 := s 11

/-- `cluster_lo`. -/
def clusterLo : ℕ := (s 26).toNat + 2 ^ 8 * (s 27).toNat

/-- `file_size`. -/
def fileSize : ℕ :=
  (s 28).toNat + 2 ^ 8 * (s 29).toNat + 2 ^ 16 * (s 30).toNat + 2 ^ 24 * (s 31).toNat

/-- The first byte marks the end of the directory. -/
def isEnd : Bool := s 0 == 0x00

/-- The first byte marks a deleted entry. -/
def isDeleted : Bool := s 0 == 0xE5

/-- The slot may be used for a new entry. -/
def isFree : Bool := s.isEnd || s.isDeleted

/-- A piece of a long name. -/
def isLfn : Bool := s.attr == 0x0F

/-- `attr & FAT_ATTR_VOLUME`. -/
def isVolume : Bool := s.attr &&& 0x08 != 0

/-- `attr & FAT_ATTR_DIR`. -/
def isDir : Bool := s.attr &&& 0x10 != 0

/-- The slot is one of an entry: neither free, nor a piece of a long name, nor the label. -/
def isEntry : Bool := !s.isFree && !s.isLfn && !s.isVolume

/-- The entries `.` and `..` that `fat16_mkdir` makes. -/
def isDot : Bool :=
  s.name11 == 0x2E :: List.replicate 10 0x20 || s.name11 == 0x2E :: 0x2E :: List.replicate 9 0x20

/-- The first byte set to `0xE5`. -/
def deleted : DirSlot := fun k => if k = 0 then 0xE5 else s k

/-- A short entry: name, attributes, first cluster and size; the other fields are zero. -/
def ofEntry (name : List UInt8) (attr : UInt8) (cluster size : ℕ) : DirSlot := fun k =>
  if (k : ℕ) < 11 then name.getD k 0x20
  else if k = 11 then attr
  else if k = 26 then UInt8.ofNat cluster
  else if k = 27 then UInt8.ofNat (cluster / 2 ^ 8)
  else if k = 28 then UInt8.ofNat size
  else if k = 29 then UInt8.ofNat (size / 2 ^ 8)
  else if k = 30 then UInt8.ofNat (size / 2 ^ 16)
  else if k = 31 then UInt8.ofNat (size / 2 ^ 24)
  else 0

end DirSlot

/-! ## Short names -/

/-- `tolower`. -/
def toLower (c : UInt8) : UInt8 := if 0x41 ≤ c ∧ c ≤ 0x5A then c + 32 else c

/-- The bytes cut to `n` and filled up with blanks. -/
def padTo (n : ℕ) (bytes : List UInt8) : List UInt8 :=
  bytes.take n ++ List.replicate (n - bytes.length) 0x20

/-- The part of a name before its last dot, and the part after it if there is a dot. -/
def splitDot (name : List UInt8) : List UInt8 × Option (List UInt8) :=
  let ext := name.rtakeWhile (· != 0x2E)
  if ext.length = name.length then (name, none)
  else (name.take (name.length - ext.length - 1), some ext)

/-- The text of a short name, before letters are changed. -/
def text83 (name11 : List UInt8) : List UInt8 :=
  let base := (name11.take 8).takeWhile (· != 0x20)
  let ext := (name11.drop 8).takeWhile (· != 0x20)
  if ext = [] then base else base ++ 0x2E :: ext

/-- `decode_83_name`. -/
def decode83Name (name11 : List UInt8) : List UInt8 := (text83 name11).map toLower

/-- `encode_83_name`. -/
def encode83Name (filename : List UInt8) : List UInt8 :=
  let (base, ext) := splitDot filename
  padTo 8 (base.map toUpper) ++ padTo 3 ((ext.getD []).map toUpper)

/-- The two strings are equal ignoring case. -/
def equalsIgnoringCase (a b : List UInt8) : Bool := a.map toLower == b.map toLower

/-- `strcasecmp83`. -/
def strcasecmp83 (name11 filename : List UInt8) : Bool :=
  equalsIgnoringCase ((text83 name11).map toLower) filename

/-- `lfn_checksum`. -/
def lfnChecksum (name11 : List UInt8) : UInt8 :=
  name11.foldl
    (fun sum c => (if sum &&& 1 = 0 then (0 : UInt8) else 0x80) + (sum >>> (1 : UInt8)) + c) 0

/-- A character that a short name does not have. -/
def isLongChar (c : UInt8) : Bool :=
  (0x61 ≤ c && c ≤ 0x7A) || c == 0x20 || c == 0x2B || c == 0x2C || c == 0x3B || c == 0x3D ||
    c == 0x5B || c == 0x5D

/-- `needs_lfn`. -/
def needsLfn (name : List UInt8) : Bool :=
  let (base, ext) := splitDot name
  name.any isLongChar || decide (1 < name.count 0x2E) || decide (8 < base.length) ||
    decide (3 < (ext.getD []).length) || decide (base.length = 0)

/-- The decimal suffix of `generate_short_name`. -/
def seqDigits (seq : ℕ) : List UInt8 :=
  if seq < 10 then [UInt8.ofNat (0x30 + seq)]
  else [UInt8.ofNat (0x30 + seq / 10), UInt8.ofNat (0x30 + seq % 10)]

/-- `generate_short_name`: up to six characters of the name, a tilde and the number; a second
digit that does not fit is left out. -/
def generateShortName (longname : List UInt8) (seq : ℕ) : List UInt8 :=
  let (base, ext) := splitDot longname
  let chars := ((base.filter fun c => c != 0x20 && c != 0x2E).take 6).map toUpper
  let chars := if chars = [] then [0x5F] else chars
  padTo 8 (chars ++ 0x7E :: seqDigits seq) ++ padTo 3 ((ext.getD []).map toUpper)

/-- The `check_name` of the search for a free number: 32 is added to each character. -/
def checkName (name11 : List UInt8) : List UInt8 :=
  let base := (name11.take 8).takeWhile (· != 0x20)
  let ext := (name11.drop 8).takeWhile (· != 0x20)
  let text := base.map (· + 32) ++ (if ext = [] then [] else 0x2E :: ext.map (· + 32))
  text.takeWhile (· != 0)

/-! ## Long names -/

/-- Where the 13 characters of a long-name slot lie; the other byte of each is the high byte. -/
def lfnOffsets : List (Fin 32) := [1, 3, 5, 7, 9, 14, 16, 18, 20, 22, 24, 28, 30]

/-- `lfn_extract_chars`. -/
def lfnExtractChars (s : DirSlot) : List UInt8 := lfnOffsets.map s

/-- Character `i` of a long name as its slots hold it, low and high byte. -/
def lfnChar (longname : List UInt8) (i : ℕ) : UInt8 × UInt8 :=
  match longname[i]? with
  | some c => (c, 0)
  | none => if i = longname.length then (0, 0) else (0xFF, 0xFF)

/-- The slot with number `seq` of a long name. -/
def lfnSlot (longname : List UInt8) (checksum : UInt8) (seq : ℕ) (last : Bool) : DirSlot := fun k =>
  let char (i : ℕ) : UInt8 × UInt8 := lfnChar longname ((seq - 1) * 13 + i)
  if k = 0 then UInt8.ofNat seq ||| (if last then 0x40 else 0)
  else if k = 11 then 0x0F
  else if k = 12 then 0
  else if k = 13 then checksum
  else if k = 26 ∨ k = 27 then 0
  else if (k : ℕ) < 11 then
    if (k : ℕ) % 2 = 1 then (char ((k - 1) / 2)).1 else (char ((k - 1) / 2)).2
  else if (k : ℕ) < 26 then
    if (k : ℕ) % 2 = 0 then (char (5 + (k - 14) / 2)).1 else (char (5 + (k - 14) / 2)).2
  else
    if (k : ℕ) % 2 = 0 then (char (11 + (k - 28) / 2)).1 else (char (11 + (k - 28) / 2)).2

/-- The number of slots of a long name. -/
def lfnCount (longname : List UInt8) : ℕ := (longname.length + 12) / 13

/-- `build_lfn_entries` with room for 20 slots: the last piece comes first; `[]` if there is no
piece or there are too many. -/
def buildLfnEntries (longname : List UInt8) (checksum : UInt8) : List DirSlot :=
  let count := lfnCount longname
  if 20 < count then []
  else (List.range count).map fun n => lfnSlot longname checksum (count - n) (n == 0)

/-- What a reader does with a long-name slot; `none` is `collecting_lfn = false`, where the
buffer does not matter. -/
def collectLfn (buf : Option Memory) (s : DirSlot) : Option Memory :=
  let buf := if s 0 &&& 0x40 ≠ 0 then some (fun _ => 0) else buf
  let seq := (s 0 &&& 0x1F).toNat
  buf.map fun b =>
    if 1 ≤ seq ∧ seq ≤ 20 then
      let base := (seq - 1) * 13
      b.storeBytes base
        (((lfnExtractChars s).takeWhile fun c => c != 0 && c != 0xFF).take (127 - base))
    else b

/-- The string in the buffer. -/
def lfnString (buf : Memory) : List UInt8 :=
  ((List.range 127).map buf).takeWhile fun c => c != 0 && c != 0xFF

/-- The long name that goes with an entry: empty if none was collected. -/
def longName : Option Memory → List UInt8
  | none => []
  | some buf => lfnString buf

/-! ## Paths -/

/-- `split_path`. -/
def splitPath (path : List UInt8) : List UInt8 × List UInt8 :=
  let file := path.rtakeWhile (· != 0x2F)
  if path.length ≤ file.length + 1 then ([0x2F], file)
  else (path.take (path.length - file.length - 1), file)

/-- The loop that cuts the next component off, at most 127 bytes, and what is left after it. -/
def nextComponent (p : List UInt8) : List UInt8 × List UInt8 :=
  let component := (p.takeWhile (· != 0x2F)).take 127
  let rest := p.drop component.length
  (component, if rest.head? = some 0x2F then rest.tail else rest)

/-- The components that are looked up in turn; each round uses up at least one byte. -/
def componentsLoop : ℕ → List UInt8 → List (List UInt8)
  | 0, _ => []
  | n + 1, p =>
    if p = [] then []
    else
      let (component, rest) := nextComponent p
      if component = [] then componentsLoop n rest else component :: componentsLoop n rest

/-- The components of a path. -/
def components (path : List UInt8) : List (List UInt8) :=
  componentsLoop path.length (if path.head? = some 0x2F then path.tail else path)

end Microkernel

/-
# The inflate decoder

The decompressor of the image loader: a bit reader over a byte string, Huffman trees kept as an
array of child pairs, the decoding of one compressed block, and the loop over the blocks of a
stream.  The output buffer is the memory around its first byte, so that a copy from before the
buffer reads what stands there.  Loops without a bound take fuel and give `none` when it ends.
-/
import Mathlib

namespace Microkernel

/-! ## The bit reader -/

/-- `bits_t`: the bytes, the place of the next one, and `cnt` bits fetched but not yet read. -/
structure Bits where
  src : List UInt8
  pos : ℕ
  buf : ℕ
  cnt : ℕ

def bitsInit (src : List UInt8) : Bits := ⟨src, 0, 0, 0⟩

/-- The body of the refill loop: the next byte, or zero after the last one. -/
def Bits.fetch (b : Bits) : Bits :=
  { b with
    pos := if b.pos < b.src.length then b.pos + 1 else b.pos
    buf := b.buf ||| ((b.src.getD b.pos 0).toNat <<< b.cnt)
    cnt := b.cnt + 8 }

/-- The refill loop for `n` bits; each round adds eight, so `n` rounds are always enough. -/
def Bits.fill (n : ℕ) : ℕ → Bits → Bits
  | 0, b => b
  | k + 1, b => if b.cnt < n then Bits.fill n k b.fetch else b

def bitsRead (b : Bits) (n : ℕ) : ℕ × Bits :=
  let b := b.fill n n
  (b.buf % 2 ^ n, { b with buf := b.buf >>> n, cnt := b.cnt - n })

/-! ## Huffman trees -/

def htMax : ℕ := 8192

/-- A child that is at least 0 is a node, `-1` is no child, and below that it is a symbol. -/
structure HTree where
  ch : ℕ → Bool → ℤ
  n : ℕ

def htEmpty : ℤ := -1

def htLeaf (sym : ℕ) : ℤ := -(sym : ℤ) - 2

def htSym (child : ℤ) : ℤ := -child - 2

def htInit : HTree := ⟨fun _ _ => htEmpty, 1⟩

/-- `t->ch[node][bit] = v`. -/
def HTree.set (t : HTree) (node : ℕ) (bit : Bool) (v : ℤ) : HTree :=
  { t with ch := fun k b => if k = node ∧ b = bit then v else t.ch k b }

/-- A new node without children. -/
def HTree.grow (t : HTree) : HTree :=
  ⟨fun k b => if k = t.n then htEmpty else t.ch k b, t.n + 1⟩

/-- `ht_insert` at a node, with `i` more bits after the current one. -/
def htInsertFrom (code sym : ℕ) : ℕ → HTree → ℕ → HTree
  | 0, t, node => t.set node (code.testBit 0) (htLeaf sym)
  | i + 1, t, node =>
    let bit := code.testBit (i + 1)
    if t.ch node bit < 0 then
      -- a full tree is left with the counter moved on
      if htMax ≤ t.n then { t with n := t.n + 1 }
      else htInsertFrom code sym i (t.grow.set node bit t.n) t.n
    else htInsertFrom code sym i t (t.ch node bit).toNat

def htInsert (t : HTree) (code len sym : ℕ) : HTree := htInsertFrom code sym (len - 1) t 0

/-- `ht_decode` at a node, with `depth` more levels to go. -/
def htDecodeFrom (t : HTree) : ℕ → ℕ → Bits → ℤ × Bits
  | 0, _, b => (-1, b)
  | depth + 1, node, b =>
    let r := bitsRead b 1
    let child := t.ch node (r.1 == 1)
    if child = htEmpty then (-1, r.2)
    else if child < htEmpty then (htSym child, r.2)
    else htDecodeFrom t depth child.toNat r.2

def htDecode (t : HTree) (b : Bits) : ℤ × Bits := htDecodeFrom t 16 0 b

/-- `bl_count`: how many symbols have a code of each length. -/
def blCount (lens : List ℕ) (bits : ℕ) : ℕ := lens.countP fun l => l = bits ∧ 0 < l ∧ l ≤ 15

/-- `next_code` before any symbol is inserted. -/
def nextCode (lens : List ℕ) : ℕ → ℕ
  | 0 => 0
  | bits + 1 => (nextCode lens bits + blCount lens bits) * 2

/-- The insertion loop of `ht_build` from symbol `i` on. -/
def htBuildFrom : List ℕ → ℕ → (ℕ → ℕ) → HTree → HTree
  | [], _, _, t => t
  | l :: lens, i, next, t =>
    if 0 < l then
      htBuildFrom lens (i + 1) (fun b => if b = l then next b + 1 else next b)
        (htInsert t (next l) l i)
    else htBuildFrom lens (i + 1) next t

def htBuild (lens : List ℕ) : HTree := htBuildFrom lens 0 (nextCode lens) htInit

def fixedLitLens : List ℕ :=
  List.replicate 144 8 ++ List.replicate 112 9 ++ List.replicate 24 7 ++ List.replicate 8 8

def fixedDistLens : List ℕ := List.replicate 32 5

def fixedLit : HTree := htBuild fixedLitLens

def fixedDist : HTree := htBuild fixedDistLens

/-! ## Compressed blocks -/

def lenBase : List ℕ :=
  [3, 4, 5, 6, 7, 8, 9, 10, 11, 13, 15, 17, 19, 23, 27, 31,
   35, 43, 51, 59, 67, 83, 99, 115, 131, 163, 195, 227, 258]

def lenExtra : List ℕ :=
  [0, 0, 0, 0, 0, 0, 0, 0, 1, 1, 1, 1, 2, 2, 2, 2,
   3, 3, 3, 3, 4, 4, 4, 4, 5, 5, 5, 5, 0]

def distBase : List ℕ :=
  [1, 2, 3, 4, 5, 7, 9, 13, 17, 25, 33, 49, 65, 97, 129, 193,
   257, 385, 513, 769, 1025, 1537, 2049, 3073,
   4097, 6145, 8193, 12289, 16385, 24577]

def distExtra : List ℕ :=
  [0, 0, 0, 0, 1, 1, 2, 2, 3, 3, 4, 4, 5, 5, 6, 6,
   7, 7, 8, 8, 9, 9, 10, 10, 11, 11, 12, 12, 13, 13]

/-- The reader, the memory around `out`, and the number of bytes written. -/
structure Inflater where
  bits : Bits
  out : ℤ → UInt8
  opos : ℕ

/-- `out[opos++] = v`, when there is room. -/
def Inflater.put (omax : ℤ) (s : Inflater) (v : UInt8) : Inflater :=
  if (s.opos : ℤ) < omax then
    { s with out := fun x => if x = s.opos then v else s.out x, opos := s.opos + 1 }
  else s

/-- The copy loop of a length and distance pair. -/
def Inflater.copy (omax : ℤ) (distance : ℕ) : ℕ → Inflater → Inflater
  | 0, s => s
  | length + 1, s =>
    Inflater.copy omax distance length (s.put omax (s.out ((s.opos : ℤ) - distance)))

/-- What a symbol above 256 stands for. -/
structure Pair where
  length : ℕ
  distance : ℕ

/-- The length and distance of a symbol above 256; `none` when the distance is no valid symbol. -/
def readPair (dt : HTree) (li : ℕ) (b : Bits) : Option Pair × Bits :=
  let extra := bitsRead b (lenExtra.getD li 0)
  let di := htDecode dt extra.2
  if di.1 < 0 ∨ 29 < di.1 then (none, di.2)
  else
    let far := bitsRead di.2 (distExtra.getD di.1.toNat 0)
    (some ⟨lenBase.getD li 0 + extra.1, distBase.getD di.1.toNat 0 + far.1⟩, far.2)

/-- One round of `decode_block`: on with the next symbol, or the value it returns. -/
def decodeSymbol (lt dt : HTree) (omax : ℤ) (s : Inflater) : Inflater ⊕ (ℤ × Inflater) :=
  let sym := htDecode lt s.bits
  let s := { s with bits := sym.2 }
  if sym.1 < 0 ∨ 285 < sym.1 then .inr (-1, s)
  else if sym.1 < 256 then .inl (s.put omax (UInt8.ofNat sym.1.toNat))
  else if sym.1 = 256 then .inr (s.opos, s)
  else
    match readPair dt (sym.1.toNat - 257) s.bits with
    | (none, b) => .inr (-1, { s with bits := b })
    | (some p, b) => .inl (Inflater.copy omax p.distance p.length { s with bits := b })

def decodeBlock (lt dt : HTree) (omax : ℤ) : ℕ → Inflater → Option (ℤ × Inflater)
  | 0, _ => none
  | fuel + 1, s =>
    match decodeSymbol lt dt omax s with
    | .inl s => decodeBlock lt dt omax fuel s
    | .inr r => some r

/-! ## The tables of a dynamic block -/

def clOrder : List ℕ := [16, 17, 18, 0, 8, 7, 9, 6, 10, 5, 11, 4, 12, 3, 13, 2, 14, 1, 15]

/-- The lengths of the code length code, three bits each, in the order of `clOrder`. -/
def readClLens : List ℕ → List ℕ → Bits → List ℕ × Bits
  | [], lens, b => (lens, b)
  | i :: order, lens, b =>
    let r := bitsRead b 3
    readClLens order (lens.set i r.1) r.2

/-- One round of the loop that reads `total` code lengths; `lens` are those read so far. -/
def readLens (cl : HTree) (total : ℕ) (lens : List ℕ) (b : Bits) : Option (List ℕ) × Bits :=
  let sym := htDecode cl b
  if sym.1 < 0 then (none, sym.2)
  else if sym.1 < 16 then (some (lens ++ [sym.1.toNat]), sym.2)
  else if sym.1 = 16 then
    let rep := bitsRead sym.2 2
    (some (lens ++ List.replicate (min (rep.1 + 3) (total - lens.length)) (lens.getLastD 0)), rep.2)
  else if sym.1 = 17 then
    let rep := bitsRead sym.2 3
    (some (lens ++ List.replicate (min (rep.1 + 3) (total - lens.length)) 0), rep.2)
  else if sym.1 = 18 then
    let rep := bitsRead sym.2 7
    (some (lens ++ List.replicate (min (rep.1 + 11) (total - lens.length)) 0), rep.2)
  else (none, sym.2)

/-- The whole loop; every round adds a length, so `total` rounds are always enough. -/
def readAllLens (cl : HTree) (total : ℕ) : ℕ → List ℕ → Bits → Option (List ℕ) × Bits
  | 0, lens, b => (some lens, b)
  | k + 1, lens, b =>
    if lens.length < total then
      match readLens cl total lens b with
      | (none, b) => (none, b)
      | (some lens, b) => readAllLens cl total k lens b
    else (some lens, b)

/-- The two trees of a dynamic block; `none` when its code lengths cannot be read. -/
def readTrees (b : Bits) : Option (HTree × HTree) × Bits :=
  let hlit := bitsRead b 5
  let hdist := bitsRead hlit.2 5
  let hclen := bitsRead hdist.2 4
  let cl := readClLens (clOrder.take (hclen.1 + 4)) (List.replicate 19 0) hclen.2
  let total := hlit.1 + 257 + (hdist.1 + 1)
  match readAllLens (htBuild cl.1) total total [] cl.2 with
  | (none, b) => (none, b)
  | (some lens, b) => (some (htBuild (lens.take (hlit.1 + 257)), htBuild (lens.drop (hlit.1 + 257))), b)

/-! ## The blocks of a stream -/

/-- The loop over the bytes of a stored block. -/
def copyStored (omax : ℤ) : ℕ → Inflater → Inflater
  | 0, s => s
  | len + 1, s =>
    if (s.opos : ℤ) < omax then
      let v := s.bits.src.getD s.bits.pos 0
      let pos := if s.bits.pos < s.bits.src.length then s.bits.pos + 1 else s.bits.pos
      copyStored omax len ({ s with bits := { s.bits with pos := pos } }.put omax v)
    else s

/-- A stored block; the position is a `uint32_t`. -/
def storedBlock (omax : ℤ) (s : Inflater) : Option Inflater :=
  let b := { s.bits with buf := 0, cnt := 0 }
  if b.src.length < (b.pos + 4) % 2 ^ 32 then none
  else
    let len := (b.src.getD b.pos 0).toNat + (b.src.getD ((b.pos + 1) % 2 ^ 32) 0).toNat * 256
    some (copyStored omax len { s with bits := { b with pos := (b.pos + 4) % 2 ^ 32 } })

/-- The result of `decode_block` in the loop over the blocks: a negative value ends it. -/
def afterBlock (bfinal : ℕ) (r : ℤ × Inflater) : Inflater ⊕ (ℤ × Inflater) :=
  if r.1 < 0 then .inr (-1, r.2)
  else if bfinal = 0 then .inl r.2
  else .inr (r.2.opos, r.2)

/-- One round of `deflate_decompress`: on with the next block, or the value it returns. -/
def inflateBlock (fuel : ℕ) (omax : ℤ) (s : Inflater) : Option (Inflater ⊕ (ℤ × Inflater)) :=
  let bfinal := bitsRead s.bits 1
  let btype := bitsRead bfinal.2 2
  let s := { s with bits := btype.2 }
  if btype.1 = 0 then
    match storedBlock omax s with
    | none => some (.inr (-1, s))
    | some s => some (afterBlock bfinal.1 (s.opos, s))
  else if btype.1 = 1 then (decodeBlock fixedLit fixedDist omax fuel s).map (afterBlock bfinal.1)
  else if btype.1 = 2 then
    match readTrees s.bits with
    | (none, b) => some (.inr (-1, { s with bits := b }))
    | (some (lt, dt), b) =>
      (decodeBlock lt dt omax fuel { s with bits := b }).map (afterBlock bfinal.1)
  else some (.inr (-1, s))

/-- The loop over the blocks. -/
def inflateBlocks (inner : ℕ) (omax : ℤ) : ℕ → Inflater → Option (ℤ × Inflater)
  | 0, _ => none
  | fuel + 1, s =>
    match inflateBlock inner omax s with
    | none => none
    | some (.inl s) => inflateBlocks inner omax fuel s
    | some (.inr r) => some r

/-- The value returned and the output memory after it. -/
def deflateDecompress (fuel : ℕ) (src : List UInt8) (out : ℤ → UInt8) (omax : ℤ) :
    Option (ℤ × (ℤ → UInt8)) :=
  (inflateBlocks fuel omax fuel ⟨bitsInit src, out, 0⟩).map fun r => (r.1, r.2.out)

/-- The two bytes of the zlib header are checked and left out. -/
def zlibDecompress (fuel : ℕ) (src : List UInt8) (out : ℤ → UInt8) (omax : ℤ) :
    Option (ℤ × (ℤ → UInt8)) :=
  if src.length < 2 then some (-1, out)
  else if (src.getD 0 0).toNat % 16 ≠ 8 then some (-1, out)
  else deflateDecompress fuel (src.drop 2) out omax

end Microkernel

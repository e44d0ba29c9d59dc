/-
# The deflate format

RFC 1951 as a set of streams: what a stream is made of, the bits it is written with, and the
bytes it stands for.  Codes are written with their most significant bit first and every other
number with its least significant bit first.  Nothing here is about a decoder.
-/
import Microkernel.PrefixCode

open BitStream PrefixCode

namespace Deflate

/-! ## Literals and copies -/

/-- The number of extra bits and the first length of the length codes 257 to 285. -/
def lengthRows : List (ℕ × ℕ) :=
  [(0, 3), (0, 4), (0, 5), (0, 6), (0, 7), (0, 8), (0, 9), (0, 10),
   (1, 11), (1, 13), (1, 15), (1, 17), (2, 19), (2, 23), (2, 27), (2, 31),
   (3, 35), (3, 43), (3, 51), (3, 59), (4, 67), (4, 83), (4, 99), (4, 115),
   (5, 131), (5, 163), (5, 195), (5, 227), (0, 258)]

/-- The number of extra bits and the first distance of the distance codes 0 to 29. -/
def distanceRows : List (ℕ × ℕ) :=
  [(0, 1), (0, 2), (0, 3), (0, 4), (1, 5), (1, 7), (2, 9), (2, 13), (3, 17), (3, 25),
   (4, 33), (4, 49), (5, 65), (5, 97), (6, 129), (6, 193), (7, 257), (7, 385),
   (8, 513), (8, 769), (9, 1025), (9, 1537), (10, 2049), (10, 3073), (11, 4097), (11, 6145),
   (12, 8193), (12, 12289), (13, 16385), (13, 24577)]

/-- The code lengths of the two alphabets of a compressed block. -/
structure Tables where
  lit : List ℕ
  dist : List ℕ

/-- An element of a compressed block: a byte, or a copy given by the numbers of its length and
distance codes and the values of their extra bits. -/
inductive Token
  | literal (byte : UInt8)
  | copy (code extra dcode dextra : ℕ)

/-- `n` more bytes, each the one `d` places before it. -/
def copyBack (d : ℕ) : ℕ → List UInt8 → List UInt8
  | 0, out => out
  | n + 1, out => copyBack d n (out ++ [out.getD (out.length - d) 0])

namespace Token

def bits (T : Tables) : Token → List Bool
  | literal byte => codeword T.lit byte.toNat
  | copy code extra dcode dextra =>
    codeword T.lit (257 + code) ++ lowFirst (lengthRows.getD code (0, 0)).1 extra ++
      codeword T.dist dcode ++ lowFirst (distanceRows.getD dcode (0, 0)).1 dextra

/-- A token that may stand after `done` bytes: its codes exist, and a copy does not reach back
before the first byte. -/
def Valid (T : Tables) (done : ℕ) : Token → Prop
  | literal byte => Used T.lit byte.toNat
  | copy code extra dcode dextra =>
    (code < 29 ∧ Used T.lit (257 + code) ∧ extra < 2 ^ (lengthRows.getD code (0, 0)).1) ∧
    (dcode < 30 ∧ Used T.dist dcode ∧ dextra < 2 ^ (distanceRows.getD dcode (0, 0)).1) ∧
    (distanceRows.getD dcode (0, 0)).2 + dextra ≤ done

/-- The bytes up to and with those of a token. -/
def expand (out : List UInt8) : Token → List UInt8
  | literal byte => out ++ [byte]
  | copy code extra dcode dextra =>
    copyBack ((distanceRows.getD dcode (0, 0)).2 + dextra)
      ((lengthRows.getD code (0, 0)).2 + extra) out

instance (T : Tables) (done : ℕ) : (t : Token) → Decidable (t.Valid T done)
  | literal _ => inferInstanceAs (Decidable (Used _ _))
  | copy _ _ _ _ => inferInstanceAs (Decidable ((_ ∧ _ ∧ _) ∧ (_ ∧ _ ∧ _) ∧ _))

end Token

/-- Tokens that may follow each other after the bytes `out`. -/
def TokensValid (T : Tables) : List UInt8 → List Token → Prop
  | _, [] => True
  | out, t :: ts => t.Valid T out.length ∧ TokensValid T (t.expand out) ts

/-! ## The tables of a compressed block -/

/-- The code lengths that a block without tables of its own uses. -/
def fixedTables : Tables where
  lit := (List.range 288).map fun i => if i < 144 then 8 else if i < 256 then 9 else if i < 280 then 7 else 8
  dist := (List.range 32).map fun _ => 5

/-- The order in which the lengths of the code length code are written. -/
def order : List ℕ := [16, 17, 18, 0, 8, 7, 9, 6, 10, 5, 11, 4, 12, 3, 13, 2, 14, 1, 15]

/-- A piece of the sequence of code lengths: one length, the length before it again, or zeros. -/
inductive Item
  | one (l : ℕ)
  | again (n : ℕ)
  | zeros (n : ℕ)
  | manyZeros (n : ℕ)

namespace Item

/-- The symbol of the code length code that an item is written with. -/
def symbol : Item → ℕ
  | one l => l
  | again _ => 16
  | zeros _ => 17
  | manyZeros _ => 18

def bits (cl : List ℕ) : Item → List Bool
  | one l => codeword cl l
  | again n => codeword cl 16 ++ lowFirst 2 (n - 3)
  | zeros n => codeword cl 17 ++ lowFirst 3 (n - 3)
  | manyZeros n => codeword cl 18 ++ lowFirst 7 (n - 11)

def Valid (cl lens : List ℕ) : Item → Prop
  | one l => l ≤ 15 ∧ Used cl l
  | again n => lens ≠ [] ∧ 3 ≤ n ∧ n ≤ 6 ∧ Used cl 16
  | zeros n => 3 ≤ n ∧ n ≤ 10 ∧ Used cl 17
  | manyZeros n => 11 ≤ n ∧ n ≤ 138 ∧ Used cl 18

/-- The code lengths up to and with those of an item. -/
def expand (lens : List ℕ) : Item → List ℕ
  | one l => lens ++ [l]
  | again n => lens ++ List.replicate n (lens.getLastD 0)
  | zeros n => lens ++ List.replicate n 0
  | manyZeros n => lens ++ List.replicate n 0

end Item

/-- Items that may follow each other after the lengths `lens`. -/
def ItemsValid (cl : List ℕ) : List ℕ → List Item → Prop
  | _, [] => True
  | lens, i :: items => i.Valid cl lens ∧ ItemsValid cl (i.expand lens) items

/-- The description of the tables of a dynamic block. -/
structure Header where
  hlit : ℕ
  hdist : ℕ
  hclen : ℕ
  cl : List ℕ
  items : List Item

namespace Header

variable (h : Header)

/-- The code lengths of both alphabets, one after the other. -/
def lens : List ℕ := h.items.foldl Item.expand []

def tables : Tables := ⟨h.lens.take h.hlit, h.lens.drop h.hlit⟩

def bits : List Bool :=
  lowFirst 5 (h.hlit - 257) ++ lowFirst 5 (h.hdist - 1) ++ lowFirst 4 (h.hclen - 4) ++
    (order.take h.hclen).flatMap (fun i => lowFirst 3 (h.cl.getD i 0)) ++
    h.items.flatMap (Item.bits h.cl)

structure Valid : Prop where
  hlit : 257 ≤ h.hlit ∧ h.hlit ≤ 286
  hdist : 1 ≤ h.hdist ∧ h.hdist ≤ 32
  hclen : 4 ≤ h.hclen ∧ h.hclen ≤ 19
  cl_length : h.cl.length = 19
  cl_rest : ∀ i ∈ order.drop h.hclen, h.cl.getD i 0 = 0
  cl_fits : Fits h.cl 7
  items : ItemsValid h.cl [] h.items
  length : h.lens.length = h.hlit + h.hdist
  lit_fits : Fits h.tables.lit 15
  dist_fits : Fits h.tables.dist 15

end Header

/-! ## Blocks and streams -/

/-- A block; a stored one has bits of padding up to the next byte. -/
inductive Block
  | stored (pad : List Bool) (data : List UInt8)
  | fixed (ts : List Token)
  | dynamic (h : Header) (ts : List Token)

/-- The tokens of a compressed block and the mark of its end. -/
def tokensBits (T : Tables) (ts : List Token) : List Bool :=
  ts.flatMap (Token.bits T) ++ codeword T.lit 256

namespace Block

/-- The bits of a block after its first one, which says whether it is the last. -/
def bits : Block → List Bool
  | stored pad data =>
    lowFirst 2 0 ++ pad ++ lowFirst 16 data.length ++ lowFirst 16 (2 ^ 16 - 1 - data.length) ++
      bytesBits data
  | fixed ts => lowFirst 2 1 ++ tokensBits fixedTables ts
  | dynamic h ts => lowFirst 2 2 ++ h.bits ++ tokensBits h.tables ts

/-- A block that may begin at bit `p` after the bytes `out`. -/
def Valid (p : ℕ) (out : List UInt8) : Block → Prop
  | stored pad data => pad.length < 8 ∧ (p + 3 + pad.length) % 8 = 0 ∧ data.length < 2 ^ 16
  | fixed ts => TokensValid fixedTables out ts
  | dynamic h ts => h.Valid ∧ Used h.tables.lit 256 ∧ TokensValid h.tables out ts

/-- The bytes up to and with those of a block. -/
def expand (out : List UInt8) : Block → List UInt8
  | stored _ data => out ++ data
  | fixed ts => ts.foldl Token.expand out
  | dynamic _ ts => ts.foldl Token.expand out

end Block

/-- The blocks of a stream: some that are not the last, and the last one. -/
structure Stream where
  blocks : List Block
  last : Block

/-- The bits of a stream's blocks. -/
def blocksBits (last : Block) : List Block → List Bool
  | [] => true :: last.bits
  | b :: bs => false :: b.bits ++ blocksBits last bs

/-- Blocks that may begin at bit `p` after the bytes `out`. -/
def BlocksValid (last : Block) : ℕ → List UInt8 → List Block → Prop
  | p, out, [] => last.Valid p out
  | p, out, b :: bs => b.Valid p out ∧ BlocksValid last (p + 1 + b.bits.length) (b.expand out) bs

namespace Stream

variable (S : Stream)

def bits : List Bool := blocksBits S.last S.blocks

def Valid : Prop := BlocksValid S.last 0 [] S.blocks

/-- The bytes that a stream stands for. -/
def output : List UInt8 := S.last.expand (S.blocks.foldl Block.expand [])

end Stream

/-! ## Lengths only grow -/

theorem copyBack_length (d n : ℕ) (out : List UInt8) :
    (copyBack d n out).length = out.length + n := by
  induction n generalizing out with
  | zero => rfl
  | succ n ih =>
    rw [copyBack, ih, List.length_append]
    simp only [List.length_singleton]
    omega

theorem Token.length_le_expand (out : List UInt8) (t : Token) : out.length ≤ (t.expand out).length := by
  cases t with
  | literal byte => simp [Token.expand]
  | copy code extra dcode dextra =>
    rw [Token.expand, copyBack_length]
    omega

theorem length_le_foldl_expand (out : List UInt8) (ts : List Token) :
    out.length ≤ (ts.foldl Token.expand out).length := by
  induction ts generalizing out with
  | nil => exact le_rfl
  | cons t ts ih => exact (t.length_le_expand out).trans (ih _)

theorem Block.length_le_expand (out : List UInt8) (b : Block) : out.length ≤ (b.expand out).length := by
  cases b with
  | stored pad data => simp [Block.expand]
  | fixed ts => exact length_le_foldl_expand out ts
  | dynamic h ts => exact length_le_foldl_expand out ts

theorem length_le_blocks (out : List UInt8) (bs : List Block) :
    out.length ≤ (bs.foldl Block.expand out).length := by
  induction bs generalizing out with
  | nil => exact le_rfl
  | cons b bs ih => exact (b.length_le_expand out).trans (ih _)

theorem Item.expand_length (lens : List ℕ) (i : Item) : lens.length ≤ (i.expand lens).length := by
  cases i <;> simp [Item.expand]

theorem length_le_items (lens : List ℕ) (items : List Item) :
    lens.length ≤ (items.foldl Item.expand lens).length := by
  induction items generalizing lens with
  | nil => exact le_rfl
  | cons i items ih => exact (i.expand_length lens).trans (ih _)

end Deflate

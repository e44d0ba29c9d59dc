/-
# Formatting into a buffer

`ksnprintf` in `src/procfs.c`.  The bytes written so far are a list, whose length is `pos`; the test
`pos < max - 1` before each of them is one against the room for text, `max - 1` or nothing.  A
string is the list of its bytes before the terminator; a word on the argument list is read as the
conversion says.
-/
import Microkernel.CutText

open CutText

namespace Microkernel

def percent : UInt8 := 0x25

def minus : UInt8 := 0x2D

/-- An argument of `ksnprintf`. -/
inductive FormatArg
  | str (s : List UInt8)
  | word (w : UInt32)
  deriving DecidableEq

/-- A character of a format that is copied, or a conversion with its argument. -/
inductive FormatPiece
  | char (c : UInt8)
  | str (s : List UInt8)
  | signed (v : Int32)
  | unsigned (w : UInt32)
  | hex (w : UInt32)
  deriving DecidableEq

/-- The conversions that take an argument. -/
inductive Conversion
  | s
  | d
  | u
  | x
  | c
  deriving DecidableEq

/-- The conversion that a character behind a percent sign is. -/
def conversionOf (k : UInt8) : Option Conversion :=
  if k = 0x73 then some .s
  else if k = 0x64 then some .d
  else if k = 0x75 then some .u
  else if k = 0x78 then some .x
  else if k = 0x63 then some .c
  else none

/-- The character behind a percent sign with what it takes of the arguments; a character that is no
conversion is copied. -/
def takePiece (k : UInt8) (args : List FormatArg) : Option (FormatPiece × List FormatArg) :=
  match conversionOf k, args with
  | none, args => some (.char k, args)
  | some .s, .str s :: args => some (.str s, args)
  | some .d, .word w :: args => some (.signed w.toInt32, args)
  | some .u, .word w :: args => some (.unsigned w, args)
  | some .x, .word w :: args => some (.hex w, args)
  | some .c, .word w :: args => some (.char w.toUInt8, args)
  | some _, _ => none

/-! ## The code -/

section

variable (room : ℕ)

/-- `sn_puts`. -/
def snPuts (out s : List UInt8) : List UInt8 := puts room out s

/-- `'0' + val % 10` and `hex[val & 0xF]`. -/
def digitChar (d : ℕ) : UInt8 := UInt8.ofNat (if d < 10 then 0x30 + d else 0x61 + (d - 10))

/-- The loop that fills `tmp` with the digits of a positive value, the last one first; `none` if
they do not fit in it. -/
def digitLoop (base : ℕ) : ℕ → ℕ → Option (List UInt8)
  | _, 0 => some []
  | 0, _ + 1 => none
  | size + 1, val + 1 =>
    (digitLoop base size ((val + 1) / base)).map (digitChar ((val + 1) % base) :: ·)

/-- The digits of a value, written from the last in `tmp` to the first. -/
def snDigits (base size : ℕ) (out : List UInt8) (val : ℕ) : Option (List UInt8) :=
  (if val = 0 then some [digitChar 0] else digitLoop base size val).map fun tmp =>
    snPuts room out tmp.reverse

/-- `sn_putd`.  The loop over the digits runs as long as the value is positive. -/
def snPutd (out : List UInt8) (val : Int32) : Option (List UInt8) :=
  let out := if val < 0 then put room out minus else out
  let val := if val < 0 then -val else val
  if val < 0 then some out else snDigits room 10 12 out val.toInt.toNat

/-- `sn_putu`. -/
def snPutu (out : List UInt8) (val : UInt32) : Option (List UInt8) :=
  snDigits room 10 12 out val.toNat

/-- `sn_putx`. -/
def snPutx (out : List UInt8) (val : UInt32) : Option (List UInt8) :=
  snDigits room 16 9 out val.toNat

/-- What the switch of `ksnprintf` calls. -/
def FormatPiece.put (out : List UInt8) : FormatPiece → Option (List UInt8)
  | .char c => some (CutText.put room out c)
  | .str s => some (snPuts room out s)
  | .signed v => snPutd room out v
  | .unsigned w => snPutu room out w
  | .hex w => snPutx room out w

/-- The loop of `ksnprintf` over the format. -/
def ksnprintfLoop : List UInt8 → List FormatArg → List UInt8 → Option (List UInt8)
  | [], _, out => some out
  | c :: fmt, args, out =>
    if out.length < room then
      if c = percent then
        match fmt with
        | [] => some out
        | k :: fmt =>
          (takePiece k args).bind fun (piece, args) =>
            (piece.put room out).bind fun out => ksnprintfLoop fmt args out
      else ksnprintfLoop fmt args (out ++ [c])
    else some out

end

/-- `ksnprintf`: its result and the bytes it leaves at the beginning of the buffer; `none` if the
arguments are not those that the format asks for. -/
def ksnprintf (max : ℤ) (fmt : List UInt8) (args : List FormatArg) : Option (ℤ × List UInt8) :=
  (ksnprintfLoop (max - 1).toNat fmt args []).map fun out => (out.length, out ++ [0])

/-! ## The reference -/

/-- The digits of a number. -/
def numeral (base n : ℕ) : List UInt8 :=
  if n = 0 then [digitChar 0] else ((Nat.digits base n).map digitChar).reverse

/-- A number in decimal, with its sign. -/
def signedDecimal (z : ℤ) : List UInt8 :=
  if z < 0 then minus :: numeral 10 z.natAbs else numeral 10 z.natAbs

/-- The text that a piece stands for. -/
def FormatPiece.text : FormatPiece → List UInt8
  | .char c => [c]
  | .str s => s
  | .signed v => signedDecimal v.toInt
  | .unsigned w => numeral 10 w.toNat
  | .hex w => numeral 16 w.toNat

/-- The pieces of a format with the arguments that match it. -/
def formatPieces : List UInt8 → List FormatArg → Option (List FormatPiece)
  | [], args => if args = [] then some [] else none
  | c :: fmt, args =>
    if c = percent then
      match fmt with
      | [] => if args = [] then some [] else none
      | k :: fmt =>
        (takePiece k args).bind fun (piece, args) => (formatPieces fmt args).map (piece :: ·)
    else (formatPieces fmt args).map (.char c :: ·)

/-- The text of a format with its arguments. -/
def formatText (pieces : List FormatPiece) : List UInt8 := pieces.flatMap FormatPiece.text

/-! ## Digits -/

variable {room : ℕ} {t : List UInt8}

/-- The loop over the digits has room for them. -/
theorem digitLoop_eq {base size val : ℕ} (hbase : 1 < base) (hval : val < base ^ size) :
    digitLoop base size val = some ((Nat.digits base val).map digitChar) := by
  induction size generalizing val with
  | zero =>
    rw [pow_zero, Nat.lt_one_iff] at hval
    rw [hval, Nat.digits_zero]
    rfl
  | succ size ih =>
    cases val with
    | zero =>
      rw [Nat.digits_zero]
      rfl
    | succ val =>
      have hdiv : (val + 1) / base < base ^ size := by
        rw [Nat.div_lt_iff_lt_mul (by omega)]
        exact hval
      rw [digitLoop, ih hdiv, Nat.digits_def' hbase val.succ_pos]
      rfl

theorem snDigits_take {base size val : ℕ} (hbase : 1 < base) (hval : val < base ^ size)
    (t : List UInt8) :
    snDigits room base size (t.take room) val = some ((t ++ numeral base val).take room) := by
  unfold snDigits numeral snPuts
  split_ifs with h
  · rw [Option.map_some, puts_take]
    rfl
  · rw [digitLoop_eq hbase hval, Option.map_some, puts_take]

/-! ## The pieces -/

/-- The text that the code writes for a piece: the least number is not negated, so the loop over its
digits does not run. -/
def FormatPiece.written : FormatPiece → List UInt8
  | .signed v => if v = Int32.minValue then [minus] else signedDecimal v.toInt
  | p => p.text

theorem snPutd_take (t : List UInt8) (v : Int32) :
    snPutd room (t.take room) v = some ((t ++ (FormatPiece.signed v).written).take room) := by
  have hlow := v.le_toInt
  have hhigh := v.toInt_lt
  have hzero : v < 0 ↔ v.toInt < 0 := Int32.lt_iff_toInt_lt
  unfold snPutd FormatPiece.written
  dsimp only
  by_cases hmin : v = Int32.minValue
  · rw [hmin, if_pos (by decide), if_pos (by decide), if_pos (by decide), put_take]
  · have hne : v.toInt ≠ -2 ^ 31 := fun heq => hmin (Int32.toInt_inj.mp heq)
    rw [if_neg hmin]
    unfold signedDecimal
    by_cases hneg : v < 0
    · have hnegated : (-v).toInt = -v.toInt := by
        rw [Int32.toInt_neg]
        exact Int.bmod_eq_of_le (by omega) (by omega)
      have hpos : ¬ -v < 0 := by
        rw [Int32.lt_iff_toInt_lt, hnegated]
        have hless := hzero.mp hneg
        exact not_lt.mpr (by omega : (0 : ℤ) ≤ -v.toInt)
      have habs : (-v.toInt).toNat = v.toInt.natAbs := by
        have hless := hzero.mp hneg
        omega
      rw [if_pos hneg, if_pos hneg, if_neg hpos, if_pos (hzero.mp hneg), put_take, hnegated, habs,
        snDigits_take (by decide) (lt_of_le_of_lt (by omega : _ ≤ 2 ^ 31) (by decide)),
        List.append_assoc]
      rfl
    · have hless := hzero.not.mp hneg
      have habs : v.toInt.toNat = v.toInt.natAbs := by omega
      rw [if_neg hneg, if_neg hneg, if_neg hneg, if_neg hless, habs,
        snDigits_take (by decide) (lt_of_le_of_lt (by omega : _ ≤ 2 ^ 31) (by decide))]

/-- **What a piece puts into the buffer**: its text, cut to what fits. -/
theorem FormatPiece.put_take (p : FormatPiece) (t : List UInt8) :
    p.put room (t.take room) = some ((t ++ p.written).take room) := by
  cases p with
  | char c => exact congrArg some (CutText.put_take t c)
  | str s => exact congrArg some (puts_take t s)
  | signed v => exact snPutd_take t v
  | unsigned w => exact snDigits_take (by decide) (lt_of_lt_of_le w.toNat_lt (by decide)) t
  | hex w => exact snDigits_take (by decide) (lt_of_lt_of_le w.toNat_lt (by decide)) t

/-! ## The loop over the format -/

/-- What `ksnprintf` would write with room for everything. -/
def writtenText (pieces : List FormatPiece) : List UInt8 := pieces.flatMap FormatPiece.written

/-- **The loop puts the pieces one after the other**, by induction on the format. -/
theorem ksnprintfLoop_take {fmt : List UInt8} {args : List FormatArg} {pieces : List FormatPiece}
    (h : formatPieces fmt args = some pieces) (t : List UInt8) :
    ksnprintfLoop room fmt args (t.take room) = some ((t ++ writtenText pieces).take room) := by
  induction hlen : fmt.length using Nat.strong_induction_on generalizing fmt args pieces t with
  | _ n ih =>
    cases fmt with
    | nil =>
      rw [formatPieces] at h
      split_ifs at h
      cases h
      rw [ksnprintfLoop, writtenText, List.flatMap_nil, List.append_nil]
    | cons c fmt =>
      rw [List.length_cons] at hlen
      by_cases hroom : t.length < room
      · unfold ksnprintfLoop
        rw [if_pos ((length_take_lt_iff t).mpr hroom)]
        unfold formatPieces at h
        by_cases hc : c = percent
        · rw [if_pos hc] at h ⊢
          cases fmt with
          | nil =>
            dsimp only at h ⊢
            split_ifs at h
            cases h
            rw [writtenText, List.flatMap_nil, List.append_nil]
          | cons k fmt =>
            obtain ⟨⟨piece, args'⟩, htake, hrest⟩ := Option.bind_eq_some_iff.mp h
            obtain ⟨others, hothers, rfl⟩ := Option.map_eq_some_iff.mp hrest
            rw [List.length_cons] at hlen
            dsimp only
            rw [htake, Option.bind_some]
            dsimp only
            rw [piece.put_take, Option.bind_some, ih _ (by omega) hothers _ rfl, List.append_assoc]
            rfl
        · rw [if_neg hc] at h ⊢
          obtain ⟨others, hothers, rfl⟩ := Option.map_eq_some_iff.mp h
          rw [take_append_singleton hroom, ih _ (by omega) hothers _ rfl, List.append_assoc]
          rfl
      · unfold ksnprintfLoop
        rw [if_neg ((length_take_lt_iff t).not.mpr hroom), take_append_of_full hroom]

theorem ksnprintf_eq {fmt : List UInt8} {args : List FormatArg} {pieces : List FormatPiece}
    (h : formatPieces fmt args = some pieces) (max : ℤ) :
    ksnprintf max fmt args =
      some ((((writtenText pieces).take (max - 1).toNat).length : ℤ),
        (writtenText pieces).take (max - 1).toNat ++ [0]) := by
  unfold ksnprintf
  have hloop : ksnprintfLoop (max - 1).toNat fmt args (([] : List UInt8).take (max - 1).toNat) =
      some (([] ++ writtenText pieces).take (max - 1).toNat) := ksnprintfLoop_take h []
  rw [List.take_nil, List.nil_append] at hloop
  rw [hloop, Option.map_some]

/-! ## What is written and what should be -/

theorem numeral_length_pos (base n : ℕ) : 0 < (numeral base n).length := by
  unfold numeral
  split_ifs with h
  · exact Nat.one_pos
  · rw [List.length_reverse, List.length_map, List.length_pos_iff]
    exact Nat.digits_ne_nil_iff_ne_zero.mpr h

/-- Only the least number is not written as it should be, and then something is missing. -/
theorem FormatPiece.written_eq_or (p : FormatPiece) :
    p.written = p.text ∨ p = .signed Int32.minValue ∧ p.written.length < p.text.length := by
  cases p with
  | signed v =>
    have hwritten : (signed v).written = if v = Int32.minValue then [minus] else signedDecimal v.toInt :=
      rfl
    rw [hwritten]
    by_cases hmin : v = Int32.minValue
    · right
      rw [if_pos hmin]
      refine ⟨congrArg _ hmin, ?_⟩
      have hpos := numeral_length_pos 10 v.toInt.natAbs
      have hneg : v.toInt < 0 := by
        rw [hmin]
        decide
      have htext : (signed v).text = minus :: numeral 10 v.toInt.natAbs := if_pos hneg
      rw [htext, List.length_cons, List.length_cons, List.length_nil]
      omega
    · left
      rw [if_neg hmin]
      rfl
  | char c => exact Or.inl rfl
  | str s => exact Or.inl rfl
  | unsigned w => exact Or.inl rfl
  | hex w => exact Or.inl rfl

theorem length_writtenText_le (pieces : List FormatPiece) :
    (writtenText pieces).length ≤ (formatText pieces).length := by
  induction pieces with
  | nil => exact le_refl _
  | cons p pieces ih =>
    have hle : p.written.length ≤ p.text.length := by
      rcases p.written_eq_or with heq | ⟨-, hlt⟩
      · rw [heq]
      · exact hlt.le
    unfold writtenText formatText at ih ⊢
    rw [List.flatMap_cons, List.flatMap_cons, List.length_append, List.length_append]
    omega

theorem writtenText_eq_iff (pieces : List FormatPiece) :
    writtenText pieces = formatText pieces ↔ ∀ p ∈ pieces, p ≠ .signed Int32.minValue := by
  induction pieces with
  | nil => simp [writtenText, formatText]
  | cons p pieces ih =>
    rw [List.forall_mem_cons, ← ih]
    have hle := length_writtenText_le pieces
    unfold writtenText formatText at hle ⊢
    rw [List.flatMap_cons, List.flatMap_cons]
    rcases p.written_eq_or with heq | ⟨hmin, hlt⟩
    · rw [heq, List.append_cancel_left_eq]
      refine ⟨fun h => ⟨?_, h⟩, And.right⟩
      rintro rfl
      exact absurd (congrArg List.length heq) (by decide)
    · refine ⟨fun h => ?_, fun h => absurd hmin h.1⟩
      have hlen := congrArg List.length h
      rw [List.length_append, List.length_append] at hlen
      omega

/-- `ksnprintf` writes at most `max` bytes, these are what fits of the text with a terminator behind
it, and the result is the length without the terminator. -/
def FormatsInto (max : ℤ) (fmt : List UInt8) (args : List FormatArg) (text : List UInt8) : Prop :=
  ∃ out : List UInt8, ksnprintf max fmt args = some ((out.length : ℤ), out ++ [0]) ∧
    ((out ++ [0]).length : ℤ) ≤ max ∧ out = text.take (max - 1).toNat

theorem formatsInto_written {fmt : List UInt8} {args : List FormatArg} {pieces : List FormatPiece}
    (h : formatPieces fmt args = some pieces) {max : ℤ} (hmax : 1 ≤ max) :
    FormatsInto max fmt args (writtenText pieces) := by
  refine ⟨_, ksnprintf_eq h max, ?_, rfl⟩
  rw [List.length_append, List.length_singleton, List.length_take]
  omega

/-- Two texts that are formatted by the same call are the same. -/
theorem FormatsInto.unique {fmt : List UInt8} {args : List FormatArg} {text text' : List UInt8}
    (h : ∀ max ≥ 1, FormatsInto max fmt args text)
    (h' : ∀ max ≥ 1, FormatsInto max fmt args text') : text = text' := by
  have hroom : (1 : ℤ) ≤ text.length + text'.length + 1 := by omega
  obtain ⟨out, hout, -, rfl⟩ := h _ hroom
  obtain ⟨out', hout', -, rfl⟩ := h' _ hroom
  have heq := congrArg Prod.snd (Option.some.inj (hout.symm.trans hout'))
  rw [List.take_of_length_le (by omega), List.take_of_length_le (by omega)] at heq
  exact List.append_cancel_right heq

/-- **`ksnprintf` formats as it should** with every room exactly if no `%d` gets the least
number. -/
theorem formatsInto_iff {fmt : List UInt8} {args : List FormatArg} {pieces : List FormatPiece}
    (h : formatPieces fmt args = some pieces) :
    (∀ max ≥ 1, FormatsInto max fmt args (formatText pieces)) ↔
      ∀ p ∈ pieces, p ≠ .signed Int32.minValue := by
  rw [← writtenText_eq_iff]
  constructor
  · intro hall
    exact FormatsInto.unique (fun _ hmax => formatsInto_written h hmax) hall
  · intro heq max hmax
    rw [← heq]
    exact formatsInto_written h hmax

end Microkernel

/-
# The text terminal

`src/vga.c`.  The words of the video memory are numbered from its start, and a write is not held
back by the size of the screen.  `uint8_t` variables are numbers that are cut to eight bits when they
are assigned; the hook is a function on the state it works on, and a string is the list of its bytes
before the terminator.
-/
import Microkernel.Keyboard
import Microkernel.Ksnprintf
import Microkernel.TextWindow

namespace Microkernel

/-- `VGA_WIDTH`. -/
def vgaWidth : ℕ := 80

/-- `VGA_HEIGHT`. -/
def vgaHeight : ℕ := 25

def carriageReturn : UInt8 := 0x0D

/-- The static variables of `vga.c`, the video memory and the cursor registers 14 and 15 of the
controller. -/
structure Terminal (η : Type*) where
  vgaBuffer : ℕ → UInt16
  termRow : ℕ
  termCol : ℕ
  termColor : UInt8
  cursorHigh : ℕ
  cursorLow : ℕ
  outputHook : Option (UInt8 → η → η)
  hooked : η

/-- `vga_entry`. -/
def vgaEntry (c color : UInt8) : UInt16 := c.toUInt16 ||| (color.toUInt16 <<< 8)

namespace Terminal

variable {η : Type*}

/-- `terminal_set_hook`. -/
def setHook (hook : Option (UInt8 → η → η)) (t : Terminal η) : Terminal η :=
  { t with outputHook := hook }

/-- Assign the cursor. -/
def moveTo (row col : ℕ) (t : Terminal η) : Terminal η := { t with termRow := row, termCol := col }

/-- A blank in the current color. -/
def blankEntry (t : Terminal η) : UInt16 := vgaEntry blank t.termColor

/-- The inner loop of `scroll`: a row becomes the one below. -/
def moveRow (y : ℕ) (buffer : ℕ → UInt16) : ℕ → UInt16 :=
  (List.range vgaWidth).foldl (fun buffer x =>
    Function.update buffer (y * vgaWidth + x) (buffer ((y + 1) * vgaWidth + x))) buffer

/-- `scroll`. -/
def scroll (t : Terminal η) : Terminal η :=
  let moved := (List.range (vgaHeight - 1)).foldl (fun buffer y => moveRow y buffer) t.vgaBuffer
  { t with
    vgaBuffer := (List.range vgaWidth).foldl (fun buffer x =>
      Function.update buffer ((vgaHeight - 1) * vgaWidth + x) t.blankEntry) moved
    termRow := vgaHeight - 1 }

/-- `update_cursor`. -/
def updateCursor (t : Terminal η) : Terminal η :=
  let pos := t.termRow * vgaWidth + t.termCol
  { t with cursorHigh := pos / 256 % 256, cursorLow := pos % 256 }

/-- The loop of `terminal_clear`. -/
@[irreducible] def clearBuffer (entry : UInt16) (buffer : ℕ → UInt16) : ℕ → UInt16 :=
  (List.range (vgaWidth * vgaHeight)).foldl (fun buffer i => Function.update buffer i entry) buffer

/-- `terminal_clear`. -/
def clear (t : Terminal η) : Terminal η :=
  updateCursor (Terminal.moveTo 0 0 { t with vgaBuffer := clearBuffer t.blankEntry t.vgaBuffer })

/-- `terminal_init`. -/
def init (t : Terminal η) : Terminal η := clear (Terminal.moveTo 0 0 { t with termColor := 7 })

/-- `terminal_setcolor`. -/
def setColor (color : UInt8) (t : Terminal η) : Terminal η := { t with termColor := color }

/-- Store at the cursor. -/
def store (entry : UInt16) (t : Terminal η) : Terminal η :=
  { t with vgaBuffer := Function.update t.vgaBuffer (t.termRow * vgaWidth + t.termCol) entry }

/-- The call of the hook in `terminal_putchar`. -/
def callHook (c : UInt8) (t : Terminal η) : Terminal η :=
  match t.outputHook with
  | some hook => { t with hooked := hook c t.hooked }
  | none => t

/-- The choice by the character in `terminal_putchar`. -/
def place (c : UInt8) (t : Terminal η) : Terminal η :=
  if c = newline then t.moveTo ((t.termRow + 1) % 256) 0
  else if c = tab then t.moveTo t.termRow ((t.termCol + 8) / 8 * 8 % 256)
  else if c = carriageReturn then t.moveTo t.termRow 0
  else (t.store (vgaEntry c t.termColor)).moveTo t.termRow ((t.termCol + 1) % 256)

/-- The end of a row in `terminal_putchar`. -/
def endRow (t : Terminal η) : Terminal η :=
  if vgaWidth ≤ t.termCol then t.moveTo ((t.termRow + 1) % 256) 0 else t

/-- The end of the screen in `terminal_putchar`. -/
def endScreen (t : Terminal η) : Terminal η := if vgaHeight ≤ t.termRow then scroll t else t

/-- `terminal_putchar`. -/
def putchar (c : UInt8) (t : Terminal η) : Terminal η :=
  updateCursor (endScreen (endRow (place c (callHook c t))))

/-- `terminal_backspace`. -/
def backspace (t : Terminal η) : Terminal η :=
  let t :=
    if 0 < t.termCol then t.moveTo t.termRow (t.termCol - 1)
    else if 0 < t.termRow then t.moveTo (t.termRow - 1) (vgaWidth - 1)
    else t
  updateCursor (t.store t.blankEntry)

/-- `terminal_print`. -/
def print (str : List UInt8) (t : Terminal η) : Terminal η := str.foldl (fun t c => putchar c t) t

/-- `terminal_print_colored`. -/
def printColored (str : List UInt8) (color : UInt8) (t : Terminal η) : Terminal η :=
  setColor t.termColor (print str (setColor color t))

/-- `terminal_set_cursor`.  The assignments cut the numbers to `uint8_t`. -/
def setCursor (row col : ℤ) (t : Terminal η) : Terminal η :=
  updateCursor (t.moveTo (row % 256).toNat (col % 256).toNat)

/-- `terminal_get_cursor`. -/
def getCursor (t : Terminal η) : ℤ × ℤ := (t.termRow, t.termCol)

/-- `terminal_print_at`. -/
def printAt (row col : ℤ) (str : List UInt8) (color : UInt8) (t : Terminal η) : Terminal η :=
  let printed := print str (setColor color (t.moveTo (row % 256).toNat (col % 256).toNat))
  updateCursor ((setColor t.termColor printed).moveTo t.termRow t.termCol)

end Terminal

/-! ## Numbers and formats -/

/-- The characters of the string `hex`. -/
def upperHex (d : ℕ) : UInt8 := UInt8.ofNat (if d < 10 then 0x30 + d else 0x41 + (d - 10))

namespace Terminal

variable {η : Type*}

/-- The loop of `terminal_print_hex`. -/
def printNibbles (value : UInt32) (t : Terminal η) : Terminal η :=
  [28, 24, 20, 16, 12, 8, 4, 0].foldl (fun t i => putchar (upperHex (value.toNat / 2 ^ i % 16)) t) t

/-- `terminal_print_hex`. -/
def printHex (value : UInt32) (t : Terminal η) : Terminal η :=
  printNibbles value (print [0x30, 0x78] t)

/-- `terminal_print_dec` and `terminal_print_dec64`, which have `size` bytes for the digits; `none` if
these are not enough. -/
def printDigits (size value : ℕ) (t : Terminal η) : Option (Terminal η) :=
  if value = 0 then some (putchar 0x30 t)
  else (digitLoop 10 size value).map fun buf => print buf.reverse t

def printDec (value : UInt32) (t : Terminal η) : Option (Terminal η) := printDigits 12 value.toNat t

def printDec64 (value : UInt64) (t : Terminal η) : Option (Terminal η) :=
  printDigits 21 value.toNat t

/-- `%d` of `kprintf`. -/
def printInt (v : Int32) (t : Terminal η) : Option (Terminal η) :=
  if v < 0 then printDec (-v).toUInt32 (putchar minus t) else printDec v.toUInt32 t

/-- The switch of `kprintf` for the character behind a percent sign; `none` if the next argument is
not what it asks for. -/
def printConversion (k : UInt8) : List FormatArg → Terminal η → Option (Terminal η × List FormatArg)
  | args, t =>
    match conversionOf k, args with
    | some .s, .str s :: args => some (print s t, args)
    | some .d, .word w :: args => (printInt w.toInt32 t).map (·, args)
    | some .u, .word w :: args => (printDec w t).map (·, args)
    | some .x, .word w :: args => some (printHex w t, args)
    | some .c, .word w :: args => some (putchar w.toUInt8 t, args)
    | none, args =>
      if k = percent then some (putchar percent t, args)
      else some (putchar k (putchar percent t), args)
    | some _, _ => none

/-- `kprintf`.  Behind a percent sign at its end the format is read on: there is no result. -/
def kprintf : List UInt8 → List FormatArg → Terminal η → Option (Terminal η)
  | [], _, t => some t
  | c :: fmt, args, t =>
    if c = percent then
      match fmt with
      | [] => none
      | k :: fmt => (printConversion k args t).bind fun (t, args) => kprintf fmt args t
    else kprintf fmt args (putchar c t)

end Terminal

end Microkernel

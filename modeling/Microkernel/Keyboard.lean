/-
# Characters and keys

The key codes of `include/keyboard.h`, and the characters that the input loops test for.
-/
import Mathlib

namespace Microkernel

def newline : UInt8 := 0x0A

def backspace : UInt8 := 0x08

def tab : UInt8 := 0x09

def blank : UInt8 := 0x20

def keyUp : UInt8 := 0x80

def keyDown : UInt8 := 0x81

def keyLeft : UInt8 := 0x82

def keyRight : UInt8 := 0x83

def keyHome : UInt8 := 0x84

def keyEnd : UInt8 := 0x85

def keyPgup : UInt8 := 0x86

def keyPgdown : UInt8 := 0x87

def keyDelete : UInt8 := 0x88

def keyInsert : UInt8 := 0x89

def keyF1 : UInt8 := 0x90

def keyF11 : UInt8 := 0x9A

def keyF12 : UInt8 := 0x9B

/-- The codes from `KEY_UP` to `KEY_F12`. -/
def IsSpecialKey (c : UInt8) : Prop := keyUp ≤ c ∧ c ≤ keyF12

/-- `c >= 32 && c != 127`. -/
def isPrintable (c : UInt8) : Bool := 32 ≤ c && c != 127

/-- A special key passes the test for a character that can be printed. -/
theorem IsSpecialKey.isPrintable {c : UInt8} (h : IsSpecialKey c) : isPrintable c = true := by
  have hlow : (0x80 : UInt8) ≤ c := h.1
  have hle : (32 : UInt8) ≤ c := UInt8.le_trans (by decide : (32 : UInt8) ≤ 0x80) hlow
  have hne : c ≠ 127 := by
    rintro rfl
    exact absurd hlow (by decide)
  exact Bool.and_eq_true_iff.mpr ⟨decide_eq_true hle, bne_iff_ne.mpr hne⟩

end Microkernel

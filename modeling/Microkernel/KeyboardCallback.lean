/-
# The keyboard interrupt

`keyboard_callback` of `keyboard.c`: a scancode changes the modifiers, or puts one character into
the ring.  No scancode puts a zero, so a zero from `keyboard_trychar` says that there is no key, as
`include/keyboard.h` has it.
-/
import Microkernel.Keyboard
import Microkernel.KeyboardRing

namespace Microkernel

/-- The modifier states, and `extended` of `keyboard_callback`. -/
structure Modifiers where
  extended : Bool
  shiftHeld : Bool
  ctrlHeld : Bool
  altHeld : Bool
  capsLock : Bool

/-- The modifiers at the start. -/
def Modifiers.start : Modifiers := ⟨false, false, false, false, false⟩

/-- `scancode_lower`; the rest of its 128 entries are zero. -/
def scancodeLower : List UInt8 :=
  [0, 27, 0x31, 0x32, 0x33, 0x34, 0x35, 0x36, 0x37, 0x38, 0x39, 0x30, 0x2D, 0x3D, 0x08,
   0x09, 0x71, 0x77, 0x65, 0x72, 0x74, 0x79, 0x75, 0x69, 0x6F, 0x70, 0x5B, 0x5D, 0x0A,
   0, 0x61, 0x73, 0x64, 0x66, 0x67, 0x68, 0x6A, 0x6B, 0x6C, 0x3B, 0x27, 0x60,
   0, 0x23, 0x7A, 0x78, 0x63, 0x76, 0x62, 0x6E, 0x6D, 0x2C, 0x2E, 0x2F, 0,
   0x2A, 0, 0x20, 0,
   0, 0, 0, 0, 0, 0, 0, 0, 0, 0,
   0, 0,
   0x37, 0x38, 0x39, 0x2D, 0x34, 0x35, 0x36, 0x2B, 0x31, 0x32, 0x33, 0x30, 0x2E,
   0, 0, 0x5C, 0, 0]

/-- `scancode_upper`. -/
def scancodeUpper : List UInt8 :=
  [0, 27, 0x21, 0x22, 0x9C, 0x24, 0x25, 0x5E, 0x26, 0x2A, 0x28, 0x29, 0x5F, 0x2B, 0x08,
   0x09, 0x51, 0x57, 0x45, 0x52, 0x54, 0x59, 0x55, 0x49, 0x4F, 0x50, 0x7B, 0x7D, 0x0A,
   0, 0x41, 0x53, 0x44, 0x46, 0x47, 0x48, 0x4A, 0x4B, 0x4C, 0x3A, 0x40, 0x7E,
   0, 0x7E, 0x5A, 0x58, 0x43, 0x56, 0x42, 0x4E, 0x4D, 0x3C, 0x3E, 0x3F, 0,
   0x2A, 0, 0x20, 0,
   0, 0, 0, 0, 0, 0, 0, 0, 0, 0,
   0, 0,
   0x37, 0x38, 0x39, 0x2D, 0x34, 0x35, 0x36, 0x2B, 0x31, 0x32, 0x33, 0x30, 0x2E,
   0, 0, 0x7C, 0, 0]

/-- The keys behind the prefix 0xE0. -/
def extendedKey (sc : UInt8) : Option UInt8 :=
  if sc = 0x48 then some keyUp
  else if sc = 0x50 then some keyDown
  else if sc = 0x4B then some keyLeft
  else if sc = 0x4D then some keyRight
  else if sc = 0x47 then some keyHome
  else if sc = 0x4F then some keyEnd
  else if sc = 0x49 then some keyPgup
  else if sc = 0x51 then some keyPgdown
  else if sc = 0x53 then some keyDelete
  else if sc = 0x52 then some keyInsert
  else none

/-- `c >= 'a' && c <= 'z'`. -/
def isLowercase (c : UInt8) : Bool := 0x61 ≤ c && c ≤ 0x7A

/-- A key that is released. -/
def Modifiers.release (m : Modifiers) (released : UInt8) : Modifiers :=
  { m with
    shiftHeld := if released = 0x2A ∨ released = 0x36 then false else m.shiftHeld
    ctrlHeld := if released = 0x1D then false else m.ctrlHeld
    altHeld := if released = 0x38 then false else m.altHeld }

/-- The character of a normal key; zero if it has none. -/
def Modifiers.charOf (m : Modifiers) (sc : UInt8) : UInt8 :=
  let lower := scancodeLower.getD sc.toNat 0
  let upper := if isLowercase lower then m.shiftHeld ^^ m.capsLock else m.shiftHeld
  if upper then scancodeUpper.getD sc.toNat 0 else lower

/-- The end of `keyboard_callback`: function keys, keys with Ctrl, and the others. -/
def pressedKey (m : Modifiers) (sc : UInt8) : Option UInt8 :=
  let lower := scancodeLower.getD sc.toNat 0
  if 0x3B ≤ sc ∧ sc ≤ 0x44 then some (keyF1 + (sc - 0x3B))
  else if sc = 0x57 then some keyF11
  else if sc = 0x58 then some keyF12
  else if m.ctrlHeld ∧ sc < 128 ∧ isLowercase lower then some (lower - 0x61 + 1)
  else if m.ctrlHeld ∧ sc < 128 ∧ lower = 0x6C - 0x61 + 1 + 0x61 - 1 then some 12
  else if 128 ≤ sc then none
  else if m.charOf sc ≠ 0 then some (m.charOf sc)
  else none

/-- `keyboard_callback`: the modifiers after the scancode, and the character that it hands to
`buf_put`. -/
def keyboardCallback (m : Modifiers) (sc : UInt8) : Modifiers × Option UInt8 :=
  if sc = 0xE0 then ({ m with extended := true }, none)
  else if m.extended then ({ m with extended := false }, extendedKey sc)
  else if sc &&& 0x80 ≠ 0 then (m.release (sc &&& 0x7F), none)
  else if sc = 0x2A ∨ sc = 0x36 then ({ m with shiftHeld := true }, none)
  else if sc = 0x1D then ({ m with ctrlHeld := true }, none)
  else if sc = 0x38 then ({ m with altHeld := true }, none)
  else if sc = 0x3A then ({ m with capsLock := !m.capsLock }, none)
  else (m, pressedKey m sc)

/-- The characters that the interrupts of these scancodes hand to `buf_put`. -/
def typed (m : Modifiers) : List UInt8 → List UInt8
  | [] => []
  | sc :: scs => (keyboardCallback m sc).2.toList ++ typed (keyboardCallback m sc).1 scs

/-- The characters with which `buf_put` is called, in their order. -/
def offered (es : List KeyEvent) : List UInt8 :=
  es.filterMap fun
    | .full c => some c
    | .room c => some c
    | _ => none

variable {m : Modifiers} {sc c : UInt8} {scs : List UInt8} {s : KeyMachine} {es : List KeyEvent}

/-! ## No scancode puts a zero -/

theorem extendedKey_ne_zero (h : extendedKey sc = some c) : c ≠ 0 := by
  unfold extendedKey at h
  split_ifs at h <;> cases h <;> decide

/-- The key codes of the function keys. -/
theorem functionKey_ne_zero (hlow : 0x3B ≤ sc) (hhigh : sc ≤ 0x44) : keyF1 + (sc - 0x3B) ≠ 0 := by
  revert sc
  decide +kernel

/-- Ctrl and a letter. -/
theorem ctrlKey_ne_zero (h : isLowercase c = true) : c - 0x61 + 1 ≠ 0 := by
  revert c
  decide +kernel

theorem pressedKey_ne_zero (h : pressedKey m sc = some c) : c ≠ 0 := by
  simp only [pressedKey] at h
  split_ifs at h with hfunction hf11 hf12 hctrl hclear hhigh hchar
  · cases h
    exact functionKey_ne_zero hfunction.1 hfunction.2
  · cases h
    decide
  · cases h
    decide
  · cases h
    exact ctrlKey_ne_zero hctrl.2.2
  · cases h
    decide
  · cases h
    exact hchar

theorem keyboardCallback_ne_zero (h : (keyboardCallback m sc).2 = some c) : c ≠ 0 := by
  unfold keyboardCallback at h
  split_ifs at h
  · exact extendedKey_ne_zero h
  · exact pressedKey_ne_zero h

theorem typed_ne_zero (h : c ∈ typed m scs) : c ≠ 0 := by
  induction scs generalizing m with
  | nil => exact absurd h List.not_mem_nil
  | cons sc scs ih =>
    rcases List.mem_append.mp h with hc | hc
    · exact keyboardCallback_ne_zero (Option.mem_toList.mp hc)
    · exact ih hc

/-! ## A zero says that there is no key -/

theorem offered_of_admitted (h : c ∈ admitted es) : c ∈ offered es := by
  obtain ⟨e, he, hc⟩ := List.mem_filterMap.mp h
  refine List.mem_filterMap.mpr ⟨e, he, ?_⟩
  cases e <;> first | exact hc | cases hc

/-- A pending character was offered to `buf_put`. -/
theorem offered_of_pending (h : Run KeyStep .start es s) (hc : c ∈ s.ring.pending) :
    c ∈ offered es := by
  apply offered_of_admitted
  have hfifo : acceptedChars es = readChars es ++ s.ring.pending := QueueStep.run_fifo (queueRun h)
  have hin : admitted es = acceptedChars es ++ s.put.inHand := run_inHand h
  rw [hin, hfifo]
  exact List.mem_append_left _ (List.mem_append_right _ hc)

/-- **`keyboard_trychar` returns zero exactly if nothing is pending**, when the characters come
from the keyboard. -/
theorem keyboardTrychar_eq_zero_iff (h : Run KeyStep .start es s)
    (htyped : offered es = typed .start scs) :
    s.ring.keyboardTrychar.1 = 0 ↔ s.ring.pending = [] := by
  have hs := ok_of_run h
  rw [hs.pending_eq_nil_iff]
  by_cases hne : s.ring.keyHead = s.ring.keyTail
  · have hkey : s.ring.keyboardHaskey = false := bne_eq_false_iff_eq.mpr hne
    rw [KeyRing.keyboardTrychar, hkey]
    exact iff_of_true rfl hne
  · -- The character at `key_tail` came from the keyboard.
    have hkey : s.ring.keyboardHaskey = true := KeyRing.keyboardHaskey_iff.mpr hne
    have hfirst : s.ring.keyBuffer s.ring.keyTail ∈ s.ring.pending := by
      rw [hs.pending_of_ne hne]
      exact List.mem_cons_self
    have hoffered := offered_of_pending h hfirst
    rw [htyped] at hoffered
    rw [KeyRing.keyboardTrychar, hkey]
    exact iff_of_false (typed_ne_zero hoffered) hne

end Microkernel

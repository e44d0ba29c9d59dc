/-
# Streams of commands with a length in the header

A stream of words splits into commands when it is a sequence of headers, each followed by
as many words as it announces.  The words and the lengths of headers are arbitrary.
-/
import Mathlib

/-- The words form complete commands; `len` is the number of words a header announces. -/
inductive Framed {α : Type*} (len : α → ℕ) : List α → Prop where
  | nil : Framed len []
  | command {hdr : α} {payload rest : List α} : payload.length = len hdr → Framed len rest →
      Framed len (hdr :: (payload ++ rest))

namespace Framed

variable {α : Type*} {len : α → ℕ} {xs ys payload : List α} {hdr : α}

/-- One complete command. -/
theorem single (h : payload.length = len hdr) : Framed len (hdr :: payload) := by
  have hcommand : Framed len (hdr :: (payload ++ [])) := .command h .nil
  rwa [List.append_nil] at hcommand

/-- **Complete commands after complete commands.** -/
theorem append (hx : Framed len xs) (hy : Framed len ys) : Framed len (xs ++ ys) := by
  induction hx with
  | nil => exact hy
  | @command hdr payload rest hlen _ ih =>
    rw [List.cons_append, List.append_assoc]
    exact .command hlen ih

end Framed

/-
# Text cut to the room there is

A writer that stops when its buffer is full, one letter after the other.  What it has written is
what fits of the whole text.  Nothing here is about a program.
-/
import Mathlib

namespace CutText

variable {α : Type*} {room : ℕ}

/-- A letter is written if there is room. -/
def put (room : ℕ) (out : List α) (c : α) : List α := if out.length < room then out ++ [c] else out

/-- Letters are written as long as there is room. -/
def puts (room : ℕ) : List α → List α → List α
  | out, [] => out
  | out, c :: s => if out.length < room then puts room (out ++ [c]) s else out

/-- There is room behind what fits of a text exactly if all of it fits with a letter more. -/
theorem length_take_lt_iff (t : List α) : (t.take room).length < room ↔ t.length < room := by
  rw [List.length_take]
  omega

theorem take_append_singleton {t : List α} (h : t.length < room) (c : α) :
    t.take room ++ [c] = (t ++ [c]).take room := by
  have hle : (t ++ [c]).length ≤ room := by
    rw [List.length_append]
    exact h
  rw [List.take_of_length_le h.le, List.take_of_length_le hle]

theorem take_append_of_full {t : List α} (h : ¬ t.length < room) (s : List α) :
    (t ++ s).take room = t.take room := List.take_append_of_le_length (not_lt.mp h)

theorem put_take (t : List α) (c : α) : put room (t.take room) c = (t ++ [c]).take room := by
  unfold put
  split_ifs with h
  · exact take_append_singleton ((length_take_lt_iff t).mp h) c
  · exact (take_append_of_full (fun hroom => h ((length_take_lt_iff t).mpr hroom)) [c]).symm

/-- **Each writer cuts its own text as if the whole was written at once and cut.** -/
theorem puts_take (t s : List α) : puts room (t.take room) s = (t ++ s).take room := by
  induction s generalizing t with
  | nil => rw [puts, List.append_nil]
  | cons c s ih =>
    rw [puts]
    split_ifs with h
    · rw [take_append_singleton ((length_take_lt_iff t).mp h), ih, List.append_assoc]
      rfl
    · exact (take_append_of_full (fun hroom => h ((length_take_lt_iff t).mpr hroom)) (c :: s)).symm

/-- What fits behind what fits. -/
theorem take_append_take (t w : List α) :
    t.take room ++ w.take (room - (t.take room).length) = (t ++ w).take room := by
  rw [List.take_append, List.length_take]
  congr 2
  omega

end CutText

/-
# Bounded queues in rings

A bounded queue accepts an entry when it has room for it, and refuses it otherwise; the entries are
taken from the front.  A ring of `size` slots with two indices, of the first entry and of the slot
behind the last one, is a queue with room for `size - 1` entries: one slot stays unused, so that
equal indices say that the queue is empty.  Entries and sizes are arbitrary.
-/
import Microkernel.Runs

variable {α : Type*}

/-! ## Bounded queues -/

/-- What happens to a queue. -/
inductive QueueEvent (α : Type*) where
  | accepted (x : α)
  | refused (x : α)
  | taken (x : α)

/-- The steps of a queue with room for `cap` entries. -/
inductive QueueStep (cap : ℕ) : List α → QueueEvent α → List α → Prop where
  | accepted {q : List α} (x : α) : q.length < cap → QueueStep cap q (.accepted x) (q ++ [x])
  | refused {q : List α} (x : α) : q.length = cap → QueueStep cap q (.refused x) q
  | taken {q : List α} (x : α) : QueueStep cap (x :: q) (.taken x) q

namespace QueueEvent

/-- The entries that were accepted, in their order. -/
def acceptedOf (es : List (QueueEvent α)) : List α :=
  es.filterMap fun
    | .accepted x => some x
    | _ => none

/-- The entries that were taken, in their order. -/
def takenOf (es : List (QueueEvent α)) : List α :=
  es.filterMap fun
    | .taken x => some x
    | _ => none

end QueueEvent

open QueueEvent

namespace QueueStep

variable {cap : ℕ} {q q' : List α} {e : QueueEvent α} {es : List (QueueEvent α)}

theorem length_le (h : QueueStep cap q e q') (hq : q.length ≤ cap) : q'.length ≤ cap := by
  cases h with
  | accepted x hroom =>
    rw [List.length_append, List.length_singleton]
    exact hroom
  | refused => exact hq
  | taken => exact (Nat.le_succ _).trans hq

/-- A queue never holds more than it has room for. -/
theorem run_length_le (h : Run (QueueStep cap) q es q') (hq : q.length ≤ cap) : q'.length ≤ cap := by
  refine h.invariant (I := fun q => q.length ≤ cap) ?_ hq
  intro q e t hstep hle
  exact length_le hstep hle

/-- **First in, first out**: what was there and was accepted is what was taken and is left. -/
theorem run_fifo (h : Run (QueueStep cap) q es q') :
    q ++ acceptedOf es = takenOf es ++ q' := by
  induction h with
  | nil q => exact List.append_nil q
  | @cons q t q' e es hstep _ ih =>
    -- The queue in the middle is what the rest of the run starts with.
    cases hstep with
    | accepted x _ =>
      calc q ++ (x :: acceptedOf es) = q ++ [x] ++ acceptedOf es := by rw [List.append_assoc]; rfl
        _ = takenOf es ++ q' := ih
    | refused x _ => exact ih
    | taken x =>
      calc x :: t ++ acceptedOf es = x :: (t ++ acceptedOf es) := List.cons_append
        _ = x :: (takenOf es ++ q') := by rw [ih]

end QueueStep

/-! ## Rings -/

namespace RingQueue

variable {size head tail i : ℕ} {slots : ℕ → α} {x : α}

/-- The number of entries between the indices. -/
def count (size head tail : ℕ) : ℕ := (head + size - tail) % size

/-- The entries of a ring in their order; `tail` is the index of the first one. -/
def contents (size : ℕ) (slots : ℕ → α) (head tail : ℕ) : List α :=
  (List.range (count size head tail)).map fun i => slots ((tail + i) % size)

/-- Indices wrap at most once. -/
theorem wrap (h : i < 2 * size) : i % size = if i < size then i else i - size := by
  split_ifs with hlt
  · exact Nat.mod_eq_of_lt hlt
  · rw [Nat.mod_eq_sub_mod (by omega), Nat.mod_eq_of_lt (by omega)]

theorem count_eq (hhead : head < size) (htail : tail < size) :
    count size head tail = if tail ≤ head then head - tail else head + size - tail := by
  rw [count, wrap (by omega)]
  split_ifs <;> omega

@[simp] theorem length_contents : (contents size slots head tail).length = count size head tail := by
  simp [contents]

/-- One slot is unused. -/
theorem length_contents_lt (htail : tail < size) : (contents size slots head tail).length < size := by
  rw [length_contents]
  exact Nat.mod_lt _ (by omega)

/-- The ring is empty when its indices are equal. -/
theorem contents_eq_nil_iff (hhead : head < size) (htail : tail < size) :
    contents size slots head tail = [] ↔ head = tail := by
  rw [← List.length_eq_zero_iff, length_contents, count_eq hhead htail]
  split_ifs <;> omega

/-- The ring is full when the next index is that of the first entry. -/
theorem full_iff (hhead : head < size) (htail : tail < size) :
    (head + 1) % size = tail ↔ (contents size slots head tail).length = size - 1 := by
  rw [length_contents, count_eq hhead htail, wrap (by omega)]
  split_ifs <;> omega

/-- The slots of the entries are different from the one behind the last of them. -/
theorem slot_ne_head (hhead : head < size) (htail : tail < size) (hi : i < count size head tail) :
    (tail + i) % size ≠ head := by
  rw [count_eq hhead htail] at hi
  rw [wrap (by split_ifs at hi <;> omega)]
  split_ifs at hi ⊢ <;> omega

/-- Writing behind the last entry changes none of the entries. -/
theorem contents_update (hhead : head < size) (htail : tail < size) :
    contents size (Function.update slots head x) head tail = contents size slots head tail := by
  refine List.map_congr_left fun i hi => ?_
  exact Function.update_of_ne (slot_ne_head hhead htail (List.mem_range.mp hi)) _ _

/-- **Moving the first index on** makes the slot there the last entry. -/
theorem contents_next_head (hhead : head < size) (htail : tail < size)
    (hroom : (head + 1) % size ≠ tail) :
    contents size slots ((head + 1) % size) tail = contents size slots head tail ++ [slots head] := by
  have hnext : (head + 1) % size < size := Nat.mod_lt _ (by omega)
  have hcount : count size ((head + 1) % size) tail = count size head tail + 1 := by
    rw [count_eq hnext htail, count_eq hhead htail]
    -- Without room the count would fall to zero here.
    rw [wrap (by omega)] at hroom ⊢
    split_ifs at hroom ⊢ <;> omega
  have hlast : (tail + count size head tail) % size = head := by
    rw [count_eq hhead htail, wrap (by split_ifs <;> omega)]
    split_ifs <;> omega
  rw [contents, hcount, List.range_succ, List.map_append, List.map_singleton, hlast]
  rfl

/-- **Moving the second index on** takes the first entry. -/
theorem contents_next_tail (hhead : head < size) (htail : tail < size) (hne : head ≠ tail) :
    contents size slots head tail = slots tail :: contents size slots head ((tail + 1) % size) := by
  have hnext : (tail + 1) % size < size := Nat.mod_lt _ (by omega)
  have hcount : count size head tail = count size head ((tail + 1) % size) + 1 := by
    rw [count_eq hhead hnext, count_eq hhead htail, wrap (by omega)]
    split_ifs <;> omega
  rw [contents, hcount, List.range_succ_eq_map, List.map_cons, List.map_map, Nat.add_zero,
    Nat.mod_eq_of_lt htail]
  congr 1
  refine List.map_congr_left fun i _ => ?_
  rw [Function.comp_apply, Nat.mod_add_mod]
  congr 2
  omega

end RingQueue

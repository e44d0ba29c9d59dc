/-
# Buffers

A buffer is memory with a size.  An access that is not inside it is a fault, and so is every
computation that makes it: C says nothing about what follows.  Nothing here is about a data
format.
-/
import Microkernel.ByteMemory

/-- The value of a 32-bit sum or product. -/
def u32 (n : ℕ) : ℕ := n % 2 ^ 32

/-- The value of a 64-bit sum or product. -/
def u64 (n : ℕ) : ℕ := n % 2 ^ 64

/-- An access outside of a buffer. -/
inductive Fault
  | read
  | write
  deriving DecidableEq

/-- The result of a computation that makes accesses. -/
abbrev Access (α : Type) := Except Fault α

namespace Access

variable {α β : Type}

/-- All accesses are inside. -/
def Inside (x : Access α) : Prop := ∃ a, x = .ok a

/-- All stores are inside, up to the first load that is not. -/
def WritesInside (x : Access α) : Prop := x ≠ .error .write

theorem inside_ok (a : α) : Inside (.ok a : Access α) := ⟨a, rfl⟩

theorem not_inside_error (f : Fault) : ¬ Inside (.error f : Access α) := by
  rintro ⟨a, ha⟩
  cases ha

theorem inside_bind {x : Access α} {f : α → Access β} :
    Inside (x.bind f) ↔ ∃ a, x = .ok a ∧ Inside (f a) := by
  constructor
  · rintro ⟨b, hb⟩
    cases x with
    | error e => cases hb
    | ok a => exact ⟨a, rfl, b, hb⟩
  · rintro ⟨a, rfl, hb⟩
    exact hb

theorem inside_map {x : Access α} {f : α → β} : Inside (x.map f) ↔ Inside x := by
  constructor
  · rintro ⟨b, hb⟩
    cases x with
    | error e => cases hb
    | ok a => exact inside_ok a
  · rintro ⟨a, rfl⟩
    exact inside_ok (f a)

@[simp] theorem ok_bind (a : α) (f : α → Access β) : (Except.ok a : Access α).bind f = f a := rfl

/-- A computation with a result is made of computations with results. -/
theorem bind_eq_ok {x : Access α} {f : α → Access β} {b : β} :
    x.bind f = .ok b ↔ ∃ a, x = .ok a ∧ f a = .ok b := by
  constructor
  · intro h
    cases x with
    | error e => cases h
    | ok a => exact ⟨a, rfl, h⟩
  · rintro ⟨a, rfl, h⟩
    exact h

theorem map_eq_ok {x : Access α} {f : α → β} {b : β} :
    x.map f = .ok b ↔ ∃ a, x = .ok a ∧ f a = b := by
  constructor
  · intro h
    cases x with
    | error e => cases h
    | ok a => exact ⟨a, rfl, Except.ok.inj h⟩
  · rintro ⟨a, rfl, rfl⟩
    rfl

end Access

/-- An area of memory and its size. -/
structure Buffer where
  size : ℕ
  mem : Memory

namespace Buffer

variable (b : Buffer)

/-- The number in the `w` bytes from `off` on. -/
def load (off w : ℕ) : Access ℕ :=
  if off + w ≤ b.size then .ok (b.mem.loadLE off w) else .error .read

/-- Store a number in the `w` bytes from `off` on. -/
def store (off v w : ℕ) : Access Buffer :=
  if off + w ≤ b.size then .ok { b with mem := b.mem.storeLE off v w } else .error .write

/-- Copy `n` bytes out; a copy of nothing touches nothing. -/
def bytes (off n : ℕ) : Access (List UInt8) :=
  if n = 0 ∨ off + n ≤ b.size then .ok ((List.range n).map fun i => b.mem (off + i))
  else .error .read

/-- Copy bytes in. -/
def storeBytes (off : ℕ) (bs : List UInt8) : Access Buffer :=
  if bs = [] ∨ off + bs.length ≤ b.size then .ok { b with mem := b.mem.storeBytes off bs }
  else .error .write

/-- Copy the 512 bytes of a sector in. -/
def storeSector (off : ℕ) (sector : Memory) : Access Buffer :=
  if off + 512 ≤ b.size then
    .ok { b with mem := fun x => if off ≤ x ∧ x < off + 512 then sector (x - off) else b.mem x }
  else .error .write

/-- The bytes from `off` on, as they go to a sector. -/
def sectorAt (off : ℕ) : Memory := fun x => b.mem (off + x)

/-- The loop of `memcmp` with a text, from `off` on: it ends at the first byte that differs. -/
def beginsWith (off : ℕ) : List UInt8 → Access Bool
  | [] => .ok true
  | c :: cs => (b.load off 1).bind fun v => if v = c.toNat then beginsWith (off + 1) cs else .ok false

/-! ## When an access is inside -/

theorem load_eq_ok {off w v : ℕ} :
    b.load off w = .ok v ↔ off + w ≤ b.size ∧ b.mem.loadLE off w = v := by
  unfold load
  split_ifs with h
  · simp [h]
  · simp [h]

theorem load_of_le {off w : ℕ} (h : off + w ≤ b.size) :
    b.load off w = .ok (b.mem.loadLE off w) := if_pos h

/-- A computation that begins with a load. -/
theorem inside_load_bind {α : Type} {off w : ℕ} {f : ℕ → Access α} :
    Access.Inside ((b.load off w).bind f) ↔
      off + w ≤ b.size ∧ Access.Inside (f (b.mem.loadLE off w)) := by
  rw [Access.inside_bind]
  constructor
  · rintro ⟨v, hv, hf⟩
    obtain ⟨hle, rfl⟩ := b.load_eq_ok.mp hv
    exact ⟨hle, hf⟩
  · rintro ⟨hle, hf⟩
    exact ⟨_, b.load_of_le hle, hf⟩

/-! ## What a buffer holds -/

/-- The buffer has these bytes from `off` on. -/
def Holds (off : ℕ) (bs : List UInt8) : Prop :=
  off + bs.length ≤ b.size ∧ (List.range bs.length).map (fun i => b.mem (off + i)) = bs

theorem holds_append {off : ℕ} {l l' : List UInt8} :
    b.Holds off (l ++ l') ↔ b.Holds off l ∧ b.Holds (off + l.length) l' := by
  have hsplit : (List.range (l ++ l').length).map (fun i => b.mem (off + i)) =
      (List.range l.length).map (fun i => b.mem (off + i)) ++
        (List.range l'.length).map (fun i => b.mem (off + l.length + i)) := by
    rw [List.length_append, List.range_add, List.map_append, List.map_map]
    congr 1
    apply List.map_congr_left
    intro i _
    rw [Function.comp_apply, Nat.add_assoc]
  unfold Holds
  rw [hsplit, List.length_append]
  constructor
  · rintro ⟨hle, heq⟩
    obtain ⟨h, h'⟩ := List.append_inj heq (by rw [List.length_map, List.length_range])
    exact ⟨⟨by omega, h⟩, by omega, h'⟩
  · rintro ⟨⟨_, h⟩, hle, h'⟩
    exact ⟨by omega, by rw [h, h']⟩

/-- The bytes that a buffer holds are those copied out. -/
theorem bytes_of_holds {off : ℕ} {bs : List UInt8} (h : b.Holds off bs) :
    b.bytes off bs.length = .ok bs := by
  unfold bytes
  rw [if_pos (Or.inr h.1), h.2]

/-- The first byte that a buffer holds is the one loaded. -/
theorem load_of_holds {off : ℕ} {c : UInt8} {bs : List UInt8} (h : b.Holds off (c :: bs)) :
    b.load off 1 = .ok c.toNat := by
  obtain ⟨hle, hbytes⟩ := h
  rw [List.length_cons] at hle hbytes
  rw [List.range_succ_eq_map, List.map_cons] at hbytes
  have hfirst : b.mem off = c := (List.cons.inj hbytes).1
  rw [b.load_of_le (by omega)]
  show Except.ok ((b.mem off).toNat + 2 ^ 8 * 0) = _
  rw [hfirst]
  rfl

end Buffer

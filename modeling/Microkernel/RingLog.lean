/-
# Logs in a ring, and chains with an end mark

A growing log of which only the latest entries are kept, in a ring of slots: entry number
`i` is in slot `i % size`.  And chains of cells with an end mark, which may be empty.
-/
import Mathlib

/-! ## Rings -/

/-- The entries of the log from number `a` on are in the ring. -/
def RingHolds {α : Type*} (ring : ℕ → α) (size : ℕ) (log : List α) (a : ℕ) : Prop :=
  ∀ i (h : i < log.length), a ≤ i → ring (i % size) = log[i]

namespace RingHolds

variable {α : Type*} {ring : ℕ → α} {size a b i n : ℕ} {log : List α} {x : α}

/-- Numbers less than a turn apart have different slots. -/
theorem slot_ne (hlt : i < n) (hturn : n < i + size) : i % size ≠ n % size := by
  intro heq
  have hdvd : size ∣ n - i := (Nat.modEq_iff_dvd' hlt.le).mp heq
  have hle := Nat.le_of_dvd (by omega) hdvd
  omega

/-- **A new entry** overwrites none of the entries kept, if these are less than a turn. -/
theorem push (h : RingHolds ring size log a) (hroom : log.length < a + size) :
    RingHolds (Function.update ring (log.length % size) x) size (log ++ [x]) a := by
  intro i hi ha
  by_cases hlast : i = log.length
  · subst hlast
    rw [Function.update_self, List.getElem_concat_length rfl]
  · rw [List.length_append, List.length_singleton] at hi
    have hlt : i < log.length := by omega
    rw [Function.update_of_ne (slot_ne hlt (by omega)), List.getElem_append_left hlt]
    exact h i hlt ha

/-- Fewer entries kept. -/
theorem advance (h : RingHolds ring size log a) (hab : a ≤ b) : RingHolds ring size log b :=
  fun i hi hb => h i hi (hab.trans hb)

end RingHolds

/-- A counter of `2 ^ 16` values gives the slots of the ring when the size divides it. -/
theorem slot_of_counter {size : ℕ} (hdvd : size ∣ 65536) (n : ℕ) :
    n % 65536 % size = n % size := Nat.mod_mod_of_dvd n hdvd

/-- Two counters differ when one is ahead by less than a turn. -/
theorem counter_ne_iff {a n : ℕ} (hle : a ≤ n) (hturn : n < a + 65536) :
    a % 65536 ≠ n % 65536 ↔ a < n := by
  omega

/-! ## Chains -/

/-- The cells from `c` on in order, up to the end mark. -/
inductive ChainTo (next : ℕ → ℕ) (mark : ℕ) : ℕ → List ℕ → Prop
  | nil : ChainTo next mark mark []
  | cons {c : ℕ} {l : List ℕ} : ChainTo next mark (next c) l → ChainTo next mark c (c :: l)

namespace ChainTo

variable {next next' : ℕ → ℕ} {mark c a : ℕ} {l : List ℕ}

/-- A chain depends on the successors of its cells only. -/
theorem congr (h : ChainTo next mark c l) (heq : ∀ x ∈ l, next' x = next x) :
    ChainTo next' mark c l := by
  induction h with
  | nil => exact .nil
  | @cons c l _ ih =>
    have ih := ih fun x hx => heq x (List.mem_cons_of_mem _ hx)
    rw [← heq c List.mem_cons_self] at ih
    exact .cons ih

/-- A cell of its own in front of a chain. -/
theorem push (h : ChainTo next mark c l) (ha : a ∉ l) :
    ChainTo (Function.update next a c) mark a (a :: l) := by
  have htail : ChainTo (Function.update next a c) mark c l := by
    refine h.congr fun x hx => Function.update_of_ne ?_ _ _
    rintro rfl
    exact ha hx
  refine .cons ?_
  rwa [Function.update_self]

/-- The first cell of a chain, and the rest. -/
theorem uncons (h : ChainTo next mark c (a :: l)) : c = a ∧ ChainTo next mark (next a) l := by
  cases h with
  | cons h => exact ⟨rfl, h⟩

end ChainTo

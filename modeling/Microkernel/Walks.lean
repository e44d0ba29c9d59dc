/-
# Walks

A walk goes on from each place to the one that a partial function gives, until there is none.
Among finitely many places it ends exactly if it comes to no place twice.  Nothing here is about
one kind of place.
-/
import Mathlib

namespace Walk

variable {α : Type*} (f : α → Option α)

/-- The place after `n` steps, if the walk gets there. -/
def place (a : α) : ℕ → Option α
  | 0 => some a
  | n + 1 => (place a n).bind f

/-- The walk ends. -/
def Ends (a : α) : Prop := ∃ n, place f a n = none

/-- The walk comes to a place twice. -/
def Recurs (a : α) : Prop := ∃ m n b, m < n ∧ place f a m = some b ∧ place f a n = some b

variable {f} {a b : α} {m n : ℕ}

/-- A walk goes on from the place it has come to. -/
theorem place_add (h : place f a m = some b) (n : ℕ) : place f a (m + n) = place f b n := by
  induction n with
  | zero => exact h
  | succ n ih => rw [Nat.add_succ, place, place, ih]

/-- The first step of a walk and the rest of it. -/
theorem place_succ (a : α) (n : ℕ) : place f a (n + 1) = (f a).bind fun b => place f b n := by
  induction n with
  | zero =>
    rw [place, place, Option.bind_some]
    cases f a <;> rfl
  | succ n ih =>
    rw [place, ih]
    cases f a <;> rfl

/-- A walk that has ended stays so. -/
theorem place_none (h : place f a m = none) (hle : m ≤ n) : place f a n = none := by
  induction n with
  | zero =>
    rw [← Nat.le_zero.mp hle]
    exact h
  | succ n ih =>
    rcases Nat.le_or_eq_of_le_succ hle with hle | rfl
    · rw [place, ih hle]
      rfl
    · exact h

/-- A walk that comes back to a place goes round for ever. -/
theorem not_ends_of_recurs (h : Recurs f a) : ¬ Ends f a := by
  obtain ⟨m, n, b, hlt, hm, hn⟩ := h
  have hround : place f b (n - m) = some b := by
    rw [← place_add hm, Nat.add_sub_of_le (le_of_lt hlt), hn]
  have hrounds : ∀ k, place f b (k * (n - m)) = some b := by
    intro k
    induction k with
    | zero =>
      rw [Nat.zero_mul]
      rfl
    | succ k ih => rw [Nat.succ_mul, place_add ih, hround]
  rintro ⟨k, hk⟩
  have hlater := place_add hm (k * (n - m))
  rw [hrounds] at hlater
  have hnone := place_none hk (show k ≤ m + k * (n - m) by
    have hmul := Nat.le_mul_of_pos_right k (show 0 < n - m by omega)
    omega)
  rw [hnone] at hlater
  cases hlater

/-- **A walk among finitely many places ends** exactly if it comes to no place twice. -/
theorem ends_iff {s : Set α} (hs : s.Finite) (hplace : ∀ n b, place f a n = some b → b ∈ s) :
    Ends f a ↔ ¬ Recurs f a := by
  constructor
  · exact fun hends hrecurs => not_ends_of_recurs hrecurs hends
  · intro hrecurs
    by_contra hends
    have hall : ∀ n, ∃ b, place f a n = some b := by
      intro n
      apply Option.ne_none_iff_exists'.mp
      exact fun hnone => hends ⟨n, hnone⟩
    choose g hg using hall
    have hmem : ∀ n, g n ∈ s := fun n => hplace n _ (hg n)
    have hfinite : Finite s := hs
    -- Two of infinitely many steps lead to the same place.
    obtain ⟨m, n, hne, heq⟩ := Finite.exists_ne_map_eq_of_infinite fun n : ℕ => (⟨g n, hmem n⟩ : s)
    have hsame : g m = g n := congrArg Subtype.val heq
    rcases Nat.lt_or_gt_of_ne hne with hlt | hlt
    · apply hrecurs
      exact ⟨m, n, g m, hlt, hg m, by rw [hg n, hsame]⟩
    · apply hrecurs
      exact ⟨n, m, g n, hlt, hg n, by rw [hg m, hsame]⟩

end Walk

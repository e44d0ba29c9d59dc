/-
# Long division by one digit

A number given by its digits is divided digit by digit, the most significant first: each step
divides the remainder so far, followed by the next digit.  With a remainder below the divisor every
step gives one digit, and the digits given make up the quotient.  Nothing here is about one base.
-/
import Mathlib

namespace LongDivision

/-- The number with these digits behind those of `v`, the most significant first. -/
def number (base v : ℕ) (digits : List ℕ) : ℕ := digits.foldl (fun v x => v * base + x) v

/-- The digits of the quotient, and the last remainder; `r` is the remainder so far. -/
def divide (base d : ℕ) : ℕ → List ℕ → List ℕ × ℕ
  | r, [] => ([], r)
  | r, x :: xs =>
    let rest := divide base d ((r * base + x) % d) xs
    ((r * base + x) / d :: rest.1, rest.2)

variable {base d r v x : ℕ} {digits : List ℕ}

theorem number_pair (base a b : ℕ) : number base 0 [a, b] = a * base + b := by
  simp only [number, List.foldl_cons, List.foldl_nil, Nat.zero_mul, Nat.zero_add]

/-- A step with a remainder below the divisor gives one digit. -/
theorem quotient_lt (hr : r < d) (hx : x < base) : (r * base + x) / d < base := by
  rw [Nat.div_lt_iff_lt_mul (Nat.zero_lt_of_lt hr)]
  calc r * base + x < r * base + base := Nat.add_lt_add_left hx _
    _ = (r + 1) * base := (Nat.succ_mul r base).symm
    _ ≤ d * base := Nat.mul_le_mul_right base hr
    _ = base * d := Nat.mul_comm d base

/-- Every digit of the quotient is one. -/
theorem divide_digit_lt (hr : r < d) (hdigits : ∀ x ∈ digits, x < base) :
    ∀ q ∈ (divide base d r digits).1, q < base := by
  induction digits generalizing r with
  | nil => exact fun q hq => absurd hq List.not_mem_nil
  | cons x xs ih =>
    intro q hq
    rcases List.mem_cons.mp hq with rfl | hq
    · exact quotient_lt hr (hdigits x List.mem_cons_self)
    · have hnext := Nat.mod_lt (r * base + x) (Nat.zero_lt_of_lt hr)
      exact ih hnext (fun y hy => hdigits y (List.mem_cons_of_mem x hy)) q hq

theorem divide_remainder_lt (hr : r < d) : (divide base d r digits).2 < d := by
  induction digits generalizing r with
  | nil => exact hr
  | cons x xs ih => exact ih (Nat.mod_lt _ (Nat.zero_lt_of_lt hr))

/-- What one step keeps: the number divided so far is its quotient times the divisor, and the
remainder. -/
theorem step_eq : (v * d + r) * base + x =
    (v * base + (r * base + x) / d) * d + (r * base + x) % d := by
  have hstep := Nat.div_add_mod' (r * base + x) d
  calc (v * d + r) * base + x = v * base * d + (r * base + x) := by ring
    _ = v * base * d + ((r * base + x) / d * d + (r * base + x) % d) := by rw [hstep]
    _ = (v * base + (r * base + x) / d) * d + (r * base + x) % d := by ring

/-- **The digits of the quotient and the remainder are exact.** -/
theorem divide_eq : number base (v * d + r) digits =
    number base v (divide base d r digits).1 * d + (divide base d r digits).2 := by
  -- By induction on the digits; `v` is the quotient so far, and grows by a digit in each step.
  induction digits generalizing v r with
  | nil => rfl
  | cons x xs ih =>
    calc number base (v * d + r) (x :: xs) = number base ((v * d + r) * base + x) xs := rfl
      _ = number base ((v * base + (r * base + x) / d) * d + (r * base + x) % d) xs := by
        rw [step_eq]
      _ = _ := ih

/-- **Long division divides.** -/
theorem divide_quotient (hd : 0 < d) :
    number base 0 (divide base d 0 digits).1 = number base 0 digits / d ∧
      (divide base d 0 digits).2 = number base 0 digits % d := by
  have heq := @divide_eq base d 0 0 digits
  have hlt := @divide_remainder_lt base d 0 digits hd
  rw [Nat.zero_mul, Nat.zero_add, Nat.mul_comm, Nat.add_comm] at heq
  obtain ⟨hquot, hrem⟩ := (Nat.div_mod_unique hd).mpr ⟨heq.symm, hlt⟩
  exact ⟨hquot.symm, hrem.symm⟩

end LongDivision

/-
# Numbers as bytes

Numbers written with a given number of bytes, the least significant first, and read back without
and with a sign.  Nothing here is about a data format.
-/
import Mathlib

namespace ByteNumbers

/-- The number with these bytes, the least significant first. -/
def numberOf (bs : List UInt8) : ℕ := Nat.ofDigits 256 (bs.map UInt8.toNat)

/-- The number with these bytes in two's complement. -/
def signedOf (bs : List UInt8) : ℤ :=
  if numberOf bs < 2 ^ (8 * bs.length - 1) then numberOf bs
  else numberOf bs - (2 ^ (8 * bs.length) : ℕ)

/-- The low `n` bytes of a number, the least significant first. -/
def bytesOf : ℕ → ℕ → List UInt8
  | _, 0 => []
  | v, n + 1 => UInt8.ofNat v :: bytesOf (v / 2 ^ 8) n

variable {bs : List UInt8} {v n : ℕ}

@[simp] theorem numberOf_nil : numberOf [] = 0 := rfl

theorem numberOf_cons (c : UInt8) : numberOf (c :: bs) = c.toNat + 2 ^ 8 * numberOf bs := rfl

theorem numberOf_lt (bs : List UInt8) : numberOf bs < 2 ^ (8 * bs.length) := by
  induction bs with
  | nil => exact Nat.one_pos
  | cons c bs ih =>
    have hbyte := c.toNat_lt
    rw [numberOf_cons, List.length_cons, Nat.mul_succ, Nat.add_comm (8 * bs.length), Nat.pow_add]
    omega

@[simp] theorem length_bytesOf : (bytesOf v n).length = n := by
  induction n generalizing v with
  | zero => rfl
  | succ n ih => rw [bytesOf, List.length_cons, ih]

/-- **A number is read back** from enough bytes. -/
theorem numberOf_bytesOf : numberOf (bytesOf v n) = v % 2 ^ (8 * n) := by
  induction n generalizing v with
  | zero => exact (Nat.mod_one v).symm
  | succ n ih =>
    rw [bytesOf, numberOf_cons, ih, UInt8.toNat_ofNat', Nat.mul_succ, Nat.add_comm (8 * n) 8,
      Nat.pow_add, Nat.mod_mul]

/-- A number without a sign is read with one if there is a bit left for it. -/
theorem signedOf_bytesOf (h : v < 2 ^ (8 * n - 1)) : signedOf (bytesOf v n) = v := by
  have hle : 2 ^ (8 * n - 1) ≤ 2 ^ (8 * n) := Nat.pow_le_pow_right (by norm_num) (by omega)
  unfold signedOf
  rw [numberOf_bytesOf, length_bytesOf, Nat.mod_eq_of_lt (by omega), if_pos h]

/-- The bytes one by one. -/
theorem bytesOf_eq_map : bytesOf v n = (List.range n).map fun i => UInt8.ofNat (v >>> (i * 8)) := by
  induction n generalizing v with
  | zero => rfl
  | succ n ih =>
    rw [bytesOf, ih, List.range_succ_eq_map, List.map_cons, List.map_map]
    congr 1
    apply List.map_congr_left
    intro i _
    rw [Function.comp_apply, Nat.shiftRight_eq_div_pow, Nat.shiftRight_eq_div_pow, Nat.div_div_eq_div_mul,
      ← Nat.pow_add, Nat.succ_mul, Nat.add_comm 8]

/-- More than the low bytes does not matter. -/
theorem bytesOf_congr {w : ℕ} (h : v % 2 ^ (8 * n) = w % 2 ^ (8 * n)) : bytesOf v n = bytesOf w n := by
  induction n generalizing v w with
  | zero => rfl
  | succ n ih =>
    rw [Nat.mul_succ, Nat.add_comm (8 * n) 8, Nat.pow_add, Nat.mod_mul, Nat.mod_mul] at h
    have hlow : v % 2 ^ 8 = w % 2 ^ 8 := by omega
    rw [bytesOf, bytesOf, ih (v := v / 2 ^ 8) (w := w / 2 ^ 8) (by omega)]
    congr 1
    apply UInt8.toNat_inj.mp
    rw [UInt8.toNat_ofNat', UInt8.toNat_ofNat']
    exact hlow

/-! ## Numbers inside a list of bytes -/

/-- The number in the `w` bytes from the `i`-th on. -/
def numberAt (bs : List UInt8) (i w : ℕ) : ℕ := numberOf ((bs.drop i).take w)

theorem numberAt_lt (bs : List UInt8) (i w : ℕ) : numberAt bs i w < 2 ^ (8 * w) := by
  apply lt_of_lt_of_le (numberOf_lt _)
  apply Nat.pow_le_pow_right (by norm_num)
  apply Nat.mul_le_mul_left
  exact List.length_take_le _ _

/-- A number behind other bytes. -/
theorem numberAt_append {l f l' : List UInt8} {i w : ℕ} (hi : i = l.length) (hw : w = f.length) :
    numberAt (l ++ (f ++ l')) i w = numberOf f := by
  unfold numberAt
  rw [hi, hw, List.drop_left, List.take_left]

theorem numberAt_append_right {l l' : List UInt8} {i w : ℕ} (hi : l.length ≤ i) :
    numberAt (l ++ l') i w = numberAt l' (i - l.length) w := by
  unfold numberAt
  rw [List.drop_append, List.drop_eq_nil_of_le hi, List.nil_append]

end ByteNumbers

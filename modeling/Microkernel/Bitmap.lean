/-
# Bitmaps

A bitmap stored in 32-bit words, with the set, clear and test operations as they are
written in C, and the number of set bits below a bound.  Nothing here is about the
kernel.
-/
import Mathlib

/-- The words of a bitmap. -/
abbrev Bitmap := ℕ → BitVec 32

namespace Bitmap

variable (b : Bitmap) (p q n : ℕ)

/-- `bitmap[p / 32] |= (1 << (p % 32))`. -/
def set : Bitmap := fun i => if i = p / 32 then b i ||| (1#32 <<< (p % 32)) else b i

/-- `bitmap[p / 32] &= ~(1 << (p % 32))`. -/
def clear : Bitmap := fun i => if i = p / 32 then b i &&& ~~~(1#32 <<< (p % 32)) else b i

/-- `(bitmap[p / 32] >> (p % 32)) & 1`. -/
def test : Bool := (b (p / 32) >>> (p % 32)) &&& 1#32 != 0#32

/-- The number of set bits below `n`. -/
def count : ℕ := Nat.count (fun p => b.test p = true) n

/-! ## Bits -/

theorem test_eq_getLsbD : b.test p = (b (p / 32)).getLsbD (p % 32) := by
  unfold test
  cases hbit : (b (p / 32)).getLsbD (p % 32) with
  | true =>
    refine bne_iff_ne.mpr fun hzero => ?_
    have h₀ := congrArg (fun x : BitVec 32 => x.getLsbD 0) hzero
    simp [hbit] at h₀
  | false =>
    refine Bool.eq_false_iff.mpr fun hne => bne_iff_ne.mp hne ?_
    apply BitVec.eq_of_getLsbD_eq
    intro i hi
    rw [BitVec.getLsbD_and, BitVec.getLsbD_one, BitVec.getLsbD_ushiftRight]
    by_cases hi₀ : i = 0
    · subst hi₀
      simp [hbit]
    · simp [hi₀]

/-- The bit of the mask `1 << k`. -/
theorem getLsbD_one_shiftLeft {i k : ℕ} (hi : i < 32) :
    (1#32 <<< k).getLsbD i = decide (i = k) := by
  rw [BitVec.getLsbD_shiftLeft, BitVec.getLsbD_one]
  by_cases hik : i = k
  · subst hik
    simp [hi]
  · by_cases hlt : i < k
    · simp [hik, hlt]
    · simp [hik, hlt]
      omega

variable {p q n}

@[simp] theorem test_set : (b.set p).test q = (decide (q = p) || b.test q) := by
  rw [test_eq_getLsbD, test_eq_getLsbD]
  unfold set
  by_cases hw : q / 32 = p / 32
  · rw [if_pos hw, BitVec.getLsbD_or, getLsbD_one_shiftLeft (Nat.mod_lt _ (by norm_num)),
      Bool.or_comm]
    congr 1
    apply decide_eq_decide.mpr
    omega
  · rw [if_neg hw]
    have hne : q ≠ p := fun h => hw (by rw [h])
    simp [hne]

@[simp] theorem test_clear : (b.clear p).test q = (!decide (q = p) && b.test q) := by
  rw [test_eq_getLsbD, test_eq_getLsbD]
  unfold clear
  by_cases hw : q / 32 = p / 32
  · rw [if_pos hw, BitVec.getLsbD_and, BitVec.getLsbD_not,
      getLsbD_one_shiftLeft (Nat.mod_lt _ (by norm_num)), Bool.and_comm]
    have hlt : q % 32 < 32 := Nat.mod_lt _ (by norm_num)
    have hiff : (q % 32 = p % 32) ↔ q = p := by omega
    simp [hlt, hiff]
  · rw [if_neg hw]
    have hne : q ≠ p := fun h => hw (by rw [h])
    simp [hne]

/-- A bit that is set and cleared again. -/
theorem clear_set (h : b.test p = false) : (b.set p).clear p = b := by
  rw [test_eq_getLsbD] at h
  funext i
  unfold clear set
  by_cases hi : i = p / 32
  · subst hi
    rw [if_pos rfl, if_pos rfl]
    apply BitVec.eq_of_getLsbD_eq
    intro j hj
    rw [BitVec.getLsbD_and, BitVec.getLsbD_or, BitVec.getLsbD_not,
      getLsbD_one_shiftLeft hj]
    by_cases hjp : j = p % 32
    · subst hjp
      simp [h]
    · simp [hjp, hj]
  · rw [if_neg hi, if_neg hi]

/-! ## The number of set bits -/

theorem count_succ : b.count (n + 1) = b.count n + if b.test n then 1 else 0 :=
  Nat.count_succ _ _

theorem count_le : b.count n ≤ n := Nat.count_le _

/-- Bitmaps with the same bits below the bound have the same number of them. -/
theorem count_congr {c : Bitmap} (h : ∀ p < n, c.test p = b.test p) : c.count n = b.count n := by
  induction n with
  | zero => rfl
  | succ n ih => rw [count_succ, count_succ, ih fun p hp => h p (by omega), h n (by omega)]

theorem count_set (hp : p < n) (h : b.test p = false) : (b.set p).count n = b.count n + 1 := by
  induction n with
  | zero => omega
  | succ n ih =>
    rw [count_succ, count_succ, test_set]
    by_cases hpn : p = n
    · subst hpn
      rw [count_congr b fun q hq => by simp [Nat.ne_of_lt hq], h]
      simp
    · rw [ih (by omega)]
      have hne : ¬ n = p := fun hnp => hpn hnp.symm
      simp only [hne, decide_false, Bool.false_or]
      omega

theorem count_clear (hp : p < n) (h : b.test p = true) :
    (b.clear p).count n + 1 = b.count n := by
  have hclear : (b.clear p).test p = false := by simp
  have hset := count_set (b.clear p) hp hclear
  have hsame : ((b.clear p).set p).count n = b.count n := by
    apply count_congr
    intro q _
    rw [test_set, test_clear]
    by_cases hq : q = p
    · subst hq
      simp [h]
    · simp [hq]
  omega

end Bitmap

/-
# Bitmaps in bytes

A bitmap stored in a list of bytes, with its operations as they are written in C.  A bitmap is
determined by its size and its bits.  Nothing here is about one bitmap.
-/
import Mathlib

namespace ByteBitmap

/-- `1 << (p & 7)`. -/
def mask (p : ℕ) : UInt8 := UInt8.ofNat (1 <<< (p % 8))

/-- `bitmap[p >> 3] & (1 << (p & 7))`. -/
def test (l : List UInt8) (p : ℕ) : Bool := l.getD (p / 8) 0 &&& mask p != 0

/-- `bitmap[p >> 3] |= (1 << (p & 7))`. -/
def set (l : List UInt8) (p : ℕ) : List UInt8 := l.modify (p / 8) (· ||| mask p)

/-- `bitmap[p >> 3] &= ~(1 << (p & 7))`. -/
def clear (l : List UInt8) (p : ℕ) : List UInt8 := l.modify (p / 8) (· &&& ~~~ mask p)

variable {l l' : List UInt8} {p q : ℕ}

@[simp] theorem length_set : (set l p).length = l.length := List.length_modify _ _ _

@[simp] theorem length_clear : (clear l p).length = l.length := List.length_modify _ _ _

/-! ## Bits -/

theorem getD_modify (f : UInt8 → UInt8) {i j : ℕ} :
    (l.modify i f).getD j 0 = if i = j ∧ i < l.length then f (l.getD j 0) else l.getD j 0 := by
  rw [List.getD_eq_getElem?_getD, List.getD_eq_getElem?_getD, List.getElem?_modify]
  by_cases hij : i = j
  · subst hij
    by_cases hi : i < l.length
    · simp [hi]
    · simp [hi]
  · simp [hij]

theorem getLsbD_mask {i : ℕ} (hi : i < 8) : (mask p).toBitVec.getLsbD i = decide (i = p % 8) := by
  unfold mask
  rw [UInt8.toBitVec_ofNat', BitVec.getLsbD_ofNat, Nat.one_shiftLeft, Nat.testBit_two_pow]
  simp [hi, eq_comm]

theorem test_eq_getLsbD : test l p = (l.getD (p / 8) 0).toBitVec.getLsbD (p % 8) := by
  have hlt : p % 8 < 8 := Nat.mod_lt _ (by norm_num)
  unfold test
  cases hbit : (l.getD (p / 8) 0).toBitVec.getLsbD (p % 8) with
  | true =>
    refine bne_iff_ne.mpr fun hzero => ?_
    have hset := congrArg (fun x : UInt8 => x.toBitVec.getLsbD (p % 8)) hzero
    rw [UInt8.toBitVec_and, BitVec.getLsbD_and, hbit, getLsbD_mask hlt] at hset
    simp at hset
  | false =>
    refine Bool.eq_false_iff.mpr fun hne => bne_iff_ne.mp hne ?_
    apply UInt8.toBitVec_inj.mp
    apply BitVec.eq_of_getLsbD_eq
    intro i hi
    rw [UInt8.toBitVec_and, BitVec.getLsbD_and, getLsbD_mask hi]
    by_cases heq : i = p % 8
    · rw [heq, hbit]
      simp
    · simp [heq]

theorem test_set (hp : p / 8 < l.length) : test (set l p) q = (decide (q = p) || test l q) := by
  have hlt : q % 8 < 8 := Nat.mod_lt _ (by norm_num)
  rw [test_eq_getLsbD, test_eq_getLsbD]
  unfold set
  rw [getD_modify]
  by_cases hbyte : p / 8 = q / 8
  · rw [if_pos ⟨hbyte, hp⟩, UInt8.toBitVec_or, BitVec.getLsbD_or, getLsbD_mask hlt, Bool.or_comm]
    congr 1
    apply decide_eq_decide.mpr
    omega
  · have hne : q ≠ p := fun h => hbyte (by rw [h])
    rw [if_neg fun h => hbyte h.1]
    simp [hne]

theorem test_clear : test (clear l p) q = (!decide (q = p) && test l q) := by
  have hlt : q % 8 < 8 := Nat.mod_lt _ (by norm_num)
  rw [test_eq_getLsbD, test_eq_getLsbD]
  unfold clear
  rw [getD_modify]
  split_ifs with hbyte
  · have hiff : q % 8 = p % 8 ↔ q = p := by omega
    rw [UInt8.toBitVec_and, BitVec.getLsbD_and, UInt8.toBitVec_not, BitVec.getLsbD_not, getLsbD_mask hlt,
      Bool.and_comm]
    simp [hlt, hiff]
  · by_cases heq : q = p
    · -- Outside of the list there is no bit.
      subst heq
      rw [List.getD_eq_default _ _ (by omega)]
      simp
    · simp [heq]

/-- **A bitmap is its bits.** -/
theorem ext (hlen : l.length = l'.length) (h : ∀ p, p / 8 < l.length → test l p = test l' p) : l = l' := by
  apply List.ext_getElem hlen
  intro i hi hi'
  apply UInt8.toBitVec_inj.mp
  apply BitVec.eq_of_getLsbD_eq
  intro j hj
  have hbit := h (8 * i + j) (by omega)
  rw [test_eq_getLsbD, test_eq_getLsbD, show (8 * i + j) / 8 = i by omega, show (8 * i + j) % 8 = j by omega,
    List.getD_eq_getElem _ _ hi, List.getD_eq_getElem _ _ hi'] at hbit
  exact hbit

/-! ## Several bits -/

theorem length_foldl_set {ps : List ℕ} : (ps.foldl set l).length = l.length := by
  induction ps generalizing l with
  | nil => rfl
  | cons p ps ih => rw [List.foldl_cons, ih, length_set]

theorem test_foldl_set {ps : List ℕ} (h : ∀ p ∈ ps, p / 8 < l.length) :
    test (ps.foldl set l) q = (decide (q ∈ ps) || test l q) := by
  induction ps generalizing l with
  | nil => simp
  | cons p ps ih =>
    have hp := h p List.mem_cons_self
    rw [List.foldl_cons, ih, test_set hp]
    · by_cases hq : q = p
      · simp [hq]
      · simp [hq]
    · intro r hr
      rw [length_set]
      exact h r (List.mem_cons_of_mem p hr)

theorem length_foldl_clear {ps : List ℕ} : (ps.foldl clear l).length = l.length := by
  induction ps generalizing l with
  | nil => rfl
  | cons p ps ih => rw [List.foldl_cons, ih, length_clear]

theorem test_foldl_clear {ps : List ℕ} :
    test (ps.foldl clear l) q = (!decide (q ∈ ps) && test l q) := by
  induction ps generalizing l with
  | nil => simp
  | cons p ps ih =>
    rw [List.foldl_cons, ih, test_clear]
    by_cases hq : q = p
    · simp [hq]
    · simp [hq]

/-- **Clear bits that are set and cleared again** are as before. -/
theorem foldl_clear_foldl_set {ps : List ℕ} (h : ∀ p ∈ ps, p / 8 < l.length ∧ test l p = false) :
    ps.foldl clear (ps.foldl set l) = l := by
  have hin : ∀ p ∈ ps, p / 8 < l.length := fun p hp => (h p hp).1
  apply ext
  · rw [length_foldl_clear, length_foldl_set]
  · intro q _
    rw [test_foldl_clear, test_foldl_set hin]
    by_cases hq : q ∈ ps
    · simp [hq, (h q hq).2]
    · simp [hq]

end ByteBitmap

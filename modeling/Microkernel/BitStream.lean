/-
# Bit streams

A byte string read bit by bit, the least significant bit of each byte first, as an infinite
stream that goes on with zeros after the last byte; words of bits that a stream holds at a
position; and numbers written with either end first.  Nothing here is about one format.
-/
import Mathlib

namespace BitStream

/-- Bit `i` of a byte string; past its end every bit is zero. -/
def bitOf (src : List UInt8) (i : ℕ) : Bool := (src.getD (i / 8) 0).toNat.testBit (i % 8)

/-- The `n` bits of a number, the least significant first. -/
def lowFirst (n v : ℕ) : List Bool := (List.range n).map v.testBit

/-- The `n` bits of a number, the most significant first. -/
def highFirst : ℕ → ℕ → List Bool
  | 0, _ => []
  | n + 1, v => v.testBit n :: highFirst n v

/-- The bits of a byte string. -/
def bytesBits (bs : List UInt8) : List Bool := bs.flatMap fun b => lowFirst 8 b.toNat

/-- The stream holds the given word at position `p`. -/
def Spells (f : ℕ → Bool) : ℕ → List Bool → Prop
  | _, [] => True
  | p, b :: w => f p = b ∧ Spells f (p + 1) w

/-- The number whose low bits are the `n` bits of the stream from position `p` on. -/
def field (f : ℕ → Bool) (p n : ℕ) : ℕ := Nat.ofBits fun i : Fin n => f (p + i)

variable {f : ℕ → Bool} {p n v : ℕ} {w w' : List Bool}

/-! ## Words -/

@[simp] theorem length_lowFirst : (lowFirst n v).length = n := by simp [lowFirst]

@[simp] theorem length_highFirst : (highFirst n v).length = n := by
  induction n with
  | zero => rfl
  | succ n ih => rw [highFirst, List.length_cons, ih]

@[simp] theorem spells_nil : Spells f p [] := trivial

@[simp] theorem spells_cons {b : Bool} : Spells f p (b :: w) ↔ f p = b ∧ Spells f (p + 1) w := Iff.rfl

@[simp] theorem spells_append :
    Spells f p (w ++ w') ↔ Spells f p w ∧ Spells f (p + w.length) w' := by
  induction w generalizing p with
  | nil => simp
  | cons b w ih =>
    rw [List.cons_append, spells_cons, spells_cons, ih, List.length_cons, and_assoc]
    have hpos : p + 1 + w.length = p + (w.length + 1) := by omega
    rw [hpos]

/-- What a stream spells, place by place. -/
theorem spells_iff : Spells f p w ↔ ∀ i (h : i < w.length), f (p + i) = w.get ⟨i, h⟩ := by
  induction w generalizing p with
  | nil => simp
  | cons b w ih =>
    rw [spells_cons, ih]
    constructor
    · rintro ⟨hb, hw⟩ i hi
      cases i with
      | zero => simpa using hb
      | succ i =>
        have h := hw i (by simpa using hi)
        have hpos : p + 1 + i = p + (i + 1) := by omega
        rw [hpos] at h
        simpa using h
    · intro h
      refine ⟨by simpa using h 0 (by simp), fun i hi => ?_⟩
      have h := h (i + 1) (by simpa using hi)
      have hpos : p + 1 + i = p + (i + 1) := by omega
      rw [hpos]
      simpa using h

/-! ## Numbers -/

theorem field_lt : field f p n < 2 ^ n := Nat.ofBits_lt_two_pow _

theorem testBit_field (i : ℕ) : (field f p n).testBit i = (decide (i < n) && f (p + i)) := by
  by_cases hi : i < n
  · simp [field, hi]
  · simp [field, hi, Nat.testBit_ofBits_ge _ _ (Nat.not_lt.mp hi)]

@[simp] theorem field_zero : field f p 0 = 0 := by
  have h := @field_lt f p 0
  omega

theorem field_one : field f p 1 = (f p).toNat := by
  apply Nat.eq_of_testBit_eq
  intro i
  rw [testBit_field]
  cases i with
  | zero => cases f p <;> simp
  | succ i => cases f p <;> simp [Nat.testBit_succ]

/-- A number written with its low end first is read back as a field. -/
theorem field_of_spells (h : Spells f p (lowFirst n v)) (hv : v < 2 ^ n) : field f p n = v := by
  apply Nat.eq_of_testBit_eq
  intro i
  rw [testBit_field]
  by_cases hi : i < n
  · have h := spells_iff.mp h i (by simpa using hi)
    simpa [hi, lowFirst] using h
  · have hpow : (2 : ℕ) ^ n ≤ 2 ^ i := Nat.pow_le_pow_right (by omega) (by omega)
    simp [hi, Nat.testBit_lt_two_pow (lt_of_lt_of_le hv hpow)]

/-- A field of a stream of zeros is zero. -/
theorem field_eq_zero (h : ∀ i, p ≤ i → f i = false) : field f p n = 0 := by
  apply Nat.eq_of_testBit_eq
  intro i
  rw [testBit_field, h _ (Nat.le_add_right p i)]
  simp

/-! ## Bytes -/

theorem bitOf_of_length_le {src : List UInt8} {i : ℕ} (h : 8 * src.length ≤ i) :
    bitOf src i = false := by
  rw [bitOf, List.getD_eq_default _ _ (by omega)]
  simp

theorem bitOf_cons (b : UInt8) (src : List UInt8) (i : ℕ) :
    bitOf (b :: src) i = if i < 8 then b.toNat.testBit i else bitOf src (i - 8) := by
  by_cases hi : i < 8
  · rw [if_pos hi, bitOf, Nat.div_eq_of_lt hi, Nat.mod_eq_of_lt hi]
    rfl
  · obtain ⟨j, rfl⟩ : ∃ j, i = j + 8 := ⟨i - 8, by omega⟩
    rw [if_neg hi, bitOf, bitOf, Nat.add_sub_cancel, Nat.add_div_right _ (by omega),
      Nat.add_mod_right]
    rfl

@[simp] theorem length_bytesBits (bs : List UInt8) : (bytesBits bs).length = 8 * bs.length := by
  induction bs with
  | nil => rfl
  | cons b bs ih =>
    have hcons : bytesBits (b :: bs) = lowFirst 8 b.toNat ++ bytesBits bs := rfl
    rw [hcons, List.length_append, ih, length_lowFirst, List.length_cons]
    omega

theorem spells_congr {g : ℕ → Bool} {q : ℕ} (h : ∀ i < w.length, f (p + i) = g (q + i)) :
    Spells f p w ↔ Spells g q w := by
  rw [spells_iff, spells_iff]
  constructor
  · intro hf i hi
    rw [← h i hi]
    exact hf i hi
  · intro hg i hi
    rw [h i hi]
    exact hg i hi

/-- A byte string spells its own bits. -/
theorem spells_bytesBits (bs : List UInt8) : Spells (bitOf bs) 0 (bytesBits bs) := by
  induction bs with
  | nil => trivial
  | cons b bs ih =>
    have hcons : bytesBits (b :: bs) = lowFirst 8 b.toNat ++ bytesBits bs := rfl
    rw [hcons, spells_append]
    constructor
    · rw [spells_iff]
      intro i hi
      have hi8 : i < 8 := by simpa using hi
      rw [Nat.zero_add, bitOf_cons, if_pos hi8]
      simp [lowFirst]
    · rw [length_lowFirst]
      refine (spells_congr fun i _ => ?_).mp ih
      rw [bitOf_cons, if_neg (by omega)]
      congr 1
      omega

/-- A word that begins the bits of a byte string is spelled by it. -/
theorem spells_of_begins {src : List UInt8} (h : w <+: bytesBits src) : Spells (bitOf src) 0 w := by
  obtain ⟨rest, hrest⟩ := h
  have hall := spells_bytesBits src
  rw [← hrest, spells_append] at hall
  exact hall.1

/-- Two bytes as one number, the low one first. -/
theorem field_two_bytes (src : List UInt8) (k : ℕ) : field (bitOf src) (8 * k) 16 =
    (src.getD k 0).toNat + (src.getD (k + 1) 0).toNat * 256 := by
  apply Nat.eq_of_testBit_eq
  intro i
  have hlow := UInt8.toNat_lt (src.getD k 0)
  have hhigh := UInt8.toNat_lt (src.getD (k + 1) 0)
  have hsum : (src.getD k 0).toNat + (src.getD (k + 1) 0).toNat * 256 =
      2 ^ 8 * (src.getD (k + 1) 0).toNat + (src.getD k 0).toNat := by omega
  rw [testBit_field, hsum, Nat.testBit_two_pow_mul_add _ hlow]
  rcases Nat.lt_or_ge i 8 with hi | hi
  · have hdiv : (8 * k + i) / 8 = k := by omega
    have hmod : (8 * k + i) % 8 = i := by omega
    rw [if_pos hi, bitOf, hdiv, hmod, decide_eq_true (by omega), Bool.true_and]
  · rw [if_neg (by omega)]
    rcases Nat.lt_or_ge i 16 with hi' | hi'
    · have hdiv : (8 * k + i) / 8 = k + 1 := by omega
      have hmod : (8 * k + i) % 8 = i - 8 := by omega
      rw [bitOf, hdiv, hmod, decide_eq_true hi', Bool.true_and]
    · have hpow : (2 : ℕ) ^ 8 ≤ 2 ^ (i - 8) := Nat.pow_le_pow_right (by omega) (by omega)
      rw [Nat.testBit_lt_two_pow (lt_of_lt_of_le hhigh hpow), decide_eq_false (by omega),
        Bool.false_and]

/-- Bytes that a stream spells at a byte boundary are bytes of the string. -/
theorem getD_of_spells {src bs : List UInt8} {q i : ℕ}
    (h : Spells (bitOf src) (8 * q) (bytesBits bs)) (hi : i < bs.length) :
    src.getD (q + i) 0 = bs.getD i 0 := by
  have hbits : ∀ k < 8, (src.getD (q + i) 0).toNat.testBit k = (bs.getD i 0).toNat.testBit k := by
    intro k hk
    have hlen : 8 * i + k < (bytesBits bs).length := by
      rw [length_bytesBits]
      omega
    have hsrc := spells_iff.mp h (8 * i + k) hlen
    have hbs := spells_iff.mp (spells_bytesBits bs) (8 * i + k) hlen
    rw [← hbs] at hsrc
    have hdiv : (8 * q + (8 * i + k)) / 8 = q + i := by omega
    have hmod : (8 * q + (8 * i + k)) % 8 = k := by omega
    have hdiv' : (0 + (8 * i + k)) / 8 = i := by omega
    have hmod' : (0 + (8 * i + k)) % 8 = k := by omega
    rwa [bitOf, bitOf, hdiv, hmod, hdiv', hmod'] at hsrc
  rw [← UInt8.toNat_inj]
  apply Nat.eq_of_testBit_eq
  intro k
  by_cases hk : k < 8
  · exact hbits k hk
  · have hpow : (2 : ℕ) ^ 8 ≤ 2 ^ k := Nat.pow_le_pow_right (by omega) (by omega)
    rw [Nat.testBit_lt_two_pow (lt_of_lt_of_le (UInt8.toNat_lt _) hpow),
      Nat.testBit_lt_two_pow (lt_of_lt_of_le (UInt8.toNat_lt _) hpow)]

end BitStream

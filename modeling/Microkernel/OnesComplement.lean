/-
# One's complement sums

Sums of 16-bit words in which a carry out of the top comes back at the bottom.  Such a sum is the
sum modulo 65535, and it is the largest word exactly when the words are not all zero and their sum
is a multiple of 65535; that is how a message with a checksum in it is verified.  Nothing here is
about a protocol.
-/
import Mathlib

namespace OnesComplement

/-- The sum of two words; the carry is added again. -/
def add (a b : ℕ) : ℕ := (a + b) % 2 ^ 16 + (a + b) / 2 ^ 16

/-- The sum of a list of words. -/
def sum (ws : List ℕ) : ℕ := ws.foldr add 0

/-- The 16-bit words of a message, the most significant byte first; a last odd byte is followed by
zero. -/
def words : List UInt8 → List ℕ
  | [] => []
  | [b] => [256 * b.toNat]
  | b₀ :: b₁ :: bs => (256 * b₀.toNat + b₁.toNat) :: words bs

/-- A message with a checksum in it is right. -/
def Verifies (bs : List UInt8) : Prop := sum (words bs) = 0xFFFF

instance (bs : List UInt8) : Decidable (Verifies bs) := inferInstanceAs (Decidable (_ = _))

/-! ## Sums -/

theorem add_lt {a b : ℕ} (ha : a < 2 ^ 16) (hb : b < 2 ^ 16) : add a b < 2 ^ 16 := by
  unfold add
  omega

theorem add_modEq (a b : ℕ) : add a b ≡ a + b [MOD 65535] := by
  unfold add Nat.ModEq
  omega

theorem add_pos {a b : ℕ} : 0 < add a b ↔ 0 < a + b := by
  unfold add
  omega

theorem sum_cons (w : ℕ) (ws : List ℕ) : sum (w :: ws) = add w (sum ws) := rfl

theorem sum_lt {ws : List ℕ} (h : ∀ w ∈ ws, w < 2 ^ 16) : sum ws < 2 ^ 16 := by
  induction ws with
  | nil => exact Nat.two_pow_pos 16
  | cons w ws ih =>
    rw [sum_cons]
    exact add_lt (h w List.mem_cons_self) (ih fun x hx => h x (List.mem_cons_of_mem _ hx))

/-- **The sum is the sum modulo 65535.** -/
theorem sum_modEq (ws : List ℕ) : sum ws ≡ ws.sum [MOD 65535] := by
  induction ws with
  | nil => rfl
  | cons w ws ih =>
    rw [sum_cons, List.sum_cons]
    exact (add_modEq w (sum ws)).trans (ih.add_left w)

theorem sum_pos {ws : List ℕ} : 0 < sum ws ↔ 0 < ws.sum := by
  induction ws with
  | nil => rfl
  | cons w ws ih =>
    rw [sum_cons, List.sum_cons, add_pos]
    omega

/-- A word that is the sum of something is the largest word when the sum is a multiple. -/
theorem eq_max_iff {s t : ℕ} (hlt : s < 2 ^ 16) (hmod : s ≡ t [MOD 65535]) (hpos : 0 < s ↔ 0 < t) :
    s = 0xFFFF ↔ 0 < t ∧ 65535 ∣ t := by
  rw [← Nat.modEq_zero_iff_dvd]
  unfold Nat.ModEq at hmod ⊢
  constructor
  · rintro rfl
    exact ⟨hpos.mp (by norm_num), by omega⟩
  · rintro ⟨ht, hzero⟩
    have hs := hpos.mpr ht
    omega

/-! ## Words -/

theorem words_lt (bs : List UInt8) : ∀ w ∈ words bs, w < 2 ^ 16 := by
  induction bs using words.induct with
  | case1 => exact fun w hw => absurd hw List.not_mem_nil
  | case2 b =>
    intro w hw
    have hb := b.toNat_lt
    rw [words, List.mem_singleton] at hw
    omega
  | case3 b₀ b₁ bs ih =>
    intro w hw
    have h₀ := b₀.toNat_lt
    have h₁ := b₁.toNat_lt
    rw [words, List.mem_cons] at hw
    rcases hw with rfl | hw
    · omega
    · exact ih w hw

/-- **A message is right** when its words are not all zero and their sum is a multiple of
65535. -/
theorem verifies_iff (bs : List UInt8) :
    Verifies bs ↔ 0 < (words bs).sum ∧ 65535 ∣ (words bs).sum :=
  eq_max_iff (sum_lt (words_lt bs)) (sum_modEq _) sum_pos

end OnesComplement

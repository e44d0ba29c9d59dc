/-
# Byte-addressed memory

Memory as a function from addresses to bytes, with 32-bit little-endian words that
may lie at any address, and the loop of `memset`.  A store changes the bytes it writes
and no others; everything else about words follows from that.  Nothing here is about
the kernel.
-/
import Mathlib

/-- The contents of memory: a byte at every address. -/
abbrev Memory := ℕ → UInt8

namespace Memory

variable (m : Memory)

/-- Store one byte. -/
def store8 (a : ℕ) (v : UInt8) : Memory := fun x => if x = a then v else m x

/-- The 32-bit word at the bytes `a`, …, `a + 3`, least significant byte first. -/
def load32 (a : ℕ) : ℕ :=
  (m a).toNat + 2 ^ 8 * (m (a + 1)).toNat + 2 ^ 16 * (m (a + 2)).toNat
    + 2 ^ 24 * (m (a + 3)).toNat

/-- The number in the `w` bytes from `a` on, least significant byte first. -/
def loadLE (a : ℕ) : ℕ → ℕ
  | 0 => 0
  | w + 1 => (m a).toNat + 2 ^ 8 * loadLE (a + 1) w

/-- Store `v`, modulo `2 ^ (8 * w)`, in the `w` bytes from `a` on, least significant byte
first. -/
def storeLE (m : Memory) (a v : ℕ) : ℕ → Memory
  | 0 => m
  | w + 1 => storeLE (m.store8 a (UInt8.ofNat v)) (a + 1) (v / 2 ^ 8) w

/-- Store a list of bytes from `a` on. -/
def storeBytes (m : Memory) (a : ℕ) (bs : List UInt8) : Memory :=
  fun x => if a ≤ x then bs.getD (x - a) (m x) else m x

/-- Store `v`, modulo `2 ^ 32`, at the bytes `a`, …, `a + 3`. -/
def store32 (a v : ℕ) : Memory :=
  (((m.store8 a (UInt8.ofNat v)).store8 (a + 1) (UInt8.ofNat (v / 2 ^ 8))).store8 (a + 2)
    (UInt8.ofNat (v / 2 ^ 16))).store8 (a + 3) (UInt8.ofNat (v / 2 ^ 24))

/-- The loop of `memset`: `n` bytes from `a` on become `v`.  The pointer is a 32-bit word
and wraps around. -/
def fill (m : Memory) (a : ℕ) (v : UInt8) : ℕ → Memory
  | 0 => m
  | n + 1 => fill (m.store8 a v) ((a + 1) % 2 ^ 32) v n

/-! ## Bytes -/

@[simp] theorem store8_same (a : ℕ) (v : UInt8) : m.store8 a v a = v := if_pos rfl

theorem store8_of_ne {a x : ℕ} (v : UInt8) (h : x ≠ a) : m.store8 a v x = m x := if_neg h

/-- A word store leaves the bytes outside the word alone. -/
theorem store32_of_outside {a x : ℕ} (v : ℕ) (h : x < a ∨ a + 4 ≤ x) :
    m.store32 a v x = m x := by
  unfold store32
  rw [store8_of_ne _ _ (by omega), store8_of_ne _ _ (by omega), store8_of_ne _ _ (by omega),
    store8_of_ne _ _ (by omega)]

/-- A store leaves the bytes outside alone. -/
theorem storeLE_of_outside {a w x : ℕ} (v : ℕ) (h : x < a ∨ a + w ≤ x) :
    m.storeLE a v w x = m x := by
  induction w generalizing m a v with
  | zero => rfl
  | succ w ih =>
    unfold storeLE
    rw [ih _ _ (by omega), store8_of_ne _ _ (by omega)]

theorem storeBytes_of_outside {a x : ℕ} {bs : List UInt8} (h : x < a ∨ a + bs.length ≤ x) :
    m.storeBytes a bs x = m x := by
  unfold storeBytes
  split_ifs with hx
  · exact List.getD_eq_default _ _ (by omega)
  · rfl

theorem storeBytes_of_inside {a x : ℕ} {bs : List UInt8} (h : x < bs.length) :
    m.storeBytes a bs (a + x) = bs[x] := by
  unfold storeBytes
  rw [if_pos (Nat.le_add_right a x), Nat.add_sub_cancel_left, List.getD_eq_getElem _ _ h]

/-- `memset` leaves the bytes outside its area alone. -/
theorem fill_of_outside {a n x : ℕ} (v : UInt8) (hn : a + n ≤ 2 ^ 32)
    (h : x < a ∨ a + n ≤ x) : m.fill a v n x = m x := by
  induction n generalizing m a with
  | zero => rfl
  | succ n ih =>
    show (m.store8 a v).fill ((a + 1) % 2 ^ 32) v n x = m x
    cases n with
    | zero => exact m.store8_of_ne v (by omega)
    | succ n =>
      rw [Nat.mod_eq_of_lt (by omega), ih _ (by omega) (by omega), store8_of_ne _ _ (by omega)]

/-- A byte that has the value `memset` writes keeps it. -/
theorem fill_of_eq {m : Memory} {a n x : ℕ} {v : UInt8} (h : m x = v) : m.fill a v n x = v := by
  induction n generalizing m a with
  | zero => exact h
  | succ n ih =>
    refine ih ?_
    by_cases hx : x = a
    · rw [hx, store8_same]
    · rw [store8_of_ne _ _ hx, h]

/-- `memset` writes every byte of its area, the part after the wrap-around included. -/
theorem fill_of_inside {a n x : ℕ} (v : UInt8) (ha : a < 2 ^ 32) (hx : x < 2 ^ 32)
    (h : (x + 2 ^ 32 - a) % 2 ^ 32 < n) : m.fill a v n x = v := by
  induction n generalizing m a with
  | zero => omega
  | succ n ih =>
    show (m.store8 a v).fill ((a + 1) % 2 ^ 32) v n x = v
    by_cases hxa : x = a
    · subst hxa
      exact fill_of_eq (store8_same _ _ _)
    · exact ih _ (by omega) (by omega)

/-! ## Words -/

theorem loadLE_lt (a w : ℕ) : m.loadLE a w < 2 ^ (8 * w) := by
  induction w generalizing a with
  | zero => exact Nat.one_pos
  | succ w ih =>
    have hbyte := (m a).toNat_lt
    have hrest := ih (a + 1)
    rw [Nat.mul_succ, Nat.pow_add]
    unfold loadLE
    omega

/-- A number depends on its bytes only. -/
theorem loadLE_congr {m m' : Memory} {a w : ℕ} (h : ∀ x, a ≤ x → x < a + w → m' x = m x) :
    m'.loadLE a w = m.loadLE a w := by
  induction w generalizing a with
  | zero => rfl
  | succ w ih =>
    unfold loadLE
    rw [h a (le_refl a) (by omega), ih fun x h₁ h₂ => h x (by omega) (by omega)]

/-- A number read back is the number stored. -/
@[simp] theorem loadLE_storeLE_same (a v w : ℕ) :
    (m.storeLE a v w).loadLE a w = v % 2 ^ (8 * w) := by
  induction w generalizing m a v with
  | zero => exact (Nat.mod_one v).symm
  | succ w ih =>
    have hfirst : m.storeLE a v (w + 1) a = UInt8.ofNat v := by
      unfold storeLE
      rw [storeLE_of_outside _ _ (by omega), store8_same]
    have hrest : (m.storeLE a v (w + 1)).loadLE (a + 1) w = v / 2 ^ 8 % 2 ^ (8 * w) := ih _ _ _
    rw [loadLE, hfirst, hrest, UInt8.toNat_ofNat', Nat.mul_succ, Nat.add_comm (8 * w) 8, Nat.pow_add,
      Nat.mod_mul]

theorem loadLE_storeLE_of_disjoint {a b w w' : ℕ} (v : ℕ) (h : a + w ≤ b ∨ b + w' ≤ a) :
    (m.storeLE b v w').loadLE a w = m.loadLE a w :=
  loadLE_congr fun _ _ _ => m.storeLE_of_outside v (by omega)

theorem loadLE_storeBytes_of_disjoint {a b w : ℕ} {bs : List UInt8}
    (h : a + w ≤ b ∨ b + bs.length ≤ a) : (m.storeBytes b bs).loadLE a w = m.loadLE a w :=
  loadLE_congr fun _ _ _ => m.storeBytes_of_outside (by omega)

theorem load32_lt (a : ℕ) : m.load32 a < 2 ^ 32 := by
  have h₀ := (m a).toNat_lt
  have h₁ := (m (a + 1)).toNat_lt
  have h₂ := (m (a + 2)).toNat_lt
  have h₃ := (m (a + 3)).toNat_lt
  unfold load32
  omega

/-- A word read back is the word stored. -/
@[simp] theorem load32_store32_same (a v : ℕ) : (m.store32 a v).load32 a = v % 2 ^ 32 := by
  have h₃ : m.store32 a v (a + 3) = UInt8.ofNat (v / 2 ^ 24) := by
    unfold store32
    rw [store8_same]
  have h₂ : m.store32 a v (a + 2) = UInt8.ofNat (v / 2 ^ 16) := by
    unfold store32
    rw [store8_of_ne _ _ (by omega), store8_same]
  have h₁ : m.store32 a v (a + 1) = UInt8.ofNat (v / 2 ^ 8) := by
    unfold store32
    rw [store8_of_ne _ _ (by omega), store8_of_ne _ _ (by omega), store8_same]
  have h₀ : m.store32 a v a = UInt8.ofNat v := by
    unfold store32
    rw [store8_of_ne _ _ (by omega), store8_of_ne _ _ (by omega), store8_of_ne _ _ (by omega),
      store8_same]
  unfold load32
  rw [h₀, h₁, h₂, h₃]
  simp only [UInt8.toNat_ofNat']
  omega

/-- A word depends on its four bytes only. -/
theorem load32_congr {m m' : Memory} {a : ℕ} (h : ∀ x, a ≤ x → x < a + 4 → m' x = m x) :
    m'.load32 a = m.load32 a := by
  unfold load32
  rw [h a (by omega) (by omega), h (a + 1) (by omega) (by omega),
    h (a + 2) (by omega) (by omega), h (a + 3) (by omega) (by omega)]

/-- A word store leaves the words that do not overlap it alone. -/
theorem load32_store32_of_disjoint {a b : ℕ} (v : ℕ) (h : a + 4 ≤ b ∨ b + 4 ≤ a) :
    (m.store32 b v).load32 a = m.load32 a :=
  load32_congr fun _ hx hx' => m.store32_of_outside v (by omega)

/-- A word inside an area cleared by `memset` is 0. -/
theorem load32_fill_zero {m : Memory} {a n x : ℕ} (ha : a < 2 ^ 32) (hx : x + 4 ≤ 2 ^ 32)
    (h : (x + 2 ^ 32 - a) % 2 ^ 32 + 3 < n) (hwrap : (x + 2 ^ 32 - a) % 2 ^ 32 + 4 ≤ 2 ^ 32) :
    (m.fill a 0 n).load32 x = 0 := by
  have hbyte : ∀ i, i < 4 → m.fill a 0 n (x + i) = 0 := by
    intro i hi
    exact m.fill_of_inside 0 ha (by omega) (by omega)
  have h₀ : m.fill a 0 n x = 0 := hbyte 0 (by omega)
  unfold load32
  rw [h₀, hbyte 1 (by omega), hbyte 2 (by omega), hbyte 3 (by omega)]
  rfl

end Memory

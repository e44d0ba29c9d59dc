/-
# What the bit reader reads

The state of the bit reader depends only on how many bits have been read: it keeps fewer than
eight bits ahead, so a reader that has read `p` bits is `readerAt src p`.  Each operation of the
decoder is an equation between readers at positions of the bit stream.
-/
import Microkernel.BitStream
import Microkernel.Inflate

open BitStream

namespace Microkernel

/-- The reader after `p` bits. -/
def readerAt (src : List UInt8) (p : ℕ) : Bits :=
  { src
    pos := min src.length ((p + 7) / 8)
    buf := field (bitOf src) p ((8 - p % 8) % 8)
    cnt := (8 - p % 8) % 8 }

theorem bitsInit_eq (src : List UInt8) : bitsInit src = readerAt src 0 := by
  simp [bitsInit, readerAt]

/-- At a byte boundary no bit is kept ahead. -/
theorem readerAt_byte (src : List UInt8) (k : ℕ) : readerAt src (8 * k) = ⟨src, min src.length k, 0, 0⟩ := by
  have hmod : (8 - 8 * k % 8) % 8 = 0 := by omega
  have hdiv : (8 * k + 7) / 8 = k := by omega
  rw [readerAt, hmod, hdiv, field_zero]

/-- A reader that has fetched the bits up to a byte boundary, `cnt` of them after bit `p`. -/
structure Bits.Holds (b : Bits) (src : List UInt8) (p : ℕ) : Prop where
  src_eq : b.src = src
  pos_eq : b.pos = min src.length ((p + b.cnt) / 8)
  aligned : (p + b.cnt) % 8 = 0
  buf_eq : ∀ i, b.buf.testBit i = (decide (i < b.cnt) && bitOf src (p + i))

variable {src : List UInt8} {p n : ℕ} {b : Bits}

theorem readerAt_holds (src : List UInt8) (p : ℕ) : (readerAt src p).Holds src p where
  src_eq := rfl
  pos_eq := by
    have hdiv : (p + (8 - p % 8) % 8) / 8 = (p + 7) / 8 := by omega
    simp only [readerAt]
    rw [hdiv]
  aligned := by
    simp only [readerAt]
    omega
  buf_eq := testBit_field

/-- A reader with fewer than eight bits ahead is determined by its position. -/
theorem Bits.Holds.eq_readerAt (h : b.Holds src p) (hcnt : b.cnt < 8) : b = readerAt src p := by
  obtain ⟨bsrc, bpos, bbuf, bcnt⟩ := b
  have haligned := h.aligned
  have hpos := h.pos_eq
  simp only at haligned hcnt hpos
  obtain rfl : bsrc = src := h.src_eq
  obtain rfl : bcnt = (8 - p % 8) % 8 := by omega
  have hdiv : (p + (8 - p % 8) % 8) / 8 = (p + 7) / 8 := by omega
  rw [hdiv] at hpos
  have hbuf : bbuf = field (bitOf bsrc) p ((8 - p % 8) % 8) := by
    apply Nat.eq_of_testBit_eq
    intro i
    rw [testBit_field]
    exact h.buf_eq i
  rw [hpos, hbuf, readerAt]

/-- Fetching a byte does not move the reader. -/
theorem Bits.Holds.fetch (h : b.Holds src p) : b.fetch.Holds src p where
  src_eq := h.src_eq
  pos_eq := by
    have hpos := h.pos_eq
    have haligned := h.aligned
    simp only [Bits.fetch, h.src_eq]
    split_ifs with hlt <;> omega
  aligned := by
    have haligned := h.aligned
    simp only [Bits.fetch]
    omega
  buf_eq := by
    intro i
    have haligned := h.aligned
    simp only [Bits.fetch, Nat.testBit_or, Nat.testBit_shiftLeft, h.buf_eq, h.src_eq]
    rcases Nat.lt_or_ge i b.cnt with hi | hi
    · simp [hi, Nat.lt_add_right 8 hi, Nat.not_le.mpr hi]
    · have hnot : ¬ i < b.cnt := Nat.not_lt.mpr hi
      -- the byte fetched is the one with bit `p + b.cnt`, or there is none left
      have hbyte : src.getD b.pos 0 = src.getD ((p + b.cnt) / 8) 0 := by
        rcases Nat.lt_or_ge ((p + b.cnt) / 8) src.length with hlt | hge
        · rw [h.pos_eq, Nat.min_eq_right (Nat.le_of_lt hlt)]
        · rw [List.getD_eq_default _ _ hge, List.getD_eq_default _ _]
          rw [h.pos_eq, Nat.min_eq_left hge]
      rcases Nat.lt_or_ge i (b.cnt + 8) with hi8 | hi8
      · have hdiv : (p + i) / 8 = (p + b.cnt) / 8 := by omega
        have hmod : (p + i) % 8 = i - b.cnt := by omega
        rw [hbyte, bitOf, hdiv, hmod]
        simp [hnot, hi, hi8]
      · have hpow : (2 : ℕ) ^ 8 ≤ 2 ^ (i - b.cnt) := Nat.pow_le_pow_right (by omega) (by omega)
        have hzero := Nat.testBit_lt_two_pow (lt_of_lt_of_le (UInt8.toNat_lt (src.getD b.pos 0)) hpow)
        rw [hzero]
        simp [hnot, Nat.not_lt.mpr hi8]

theorem Bits.Holds.fill (h : b.Holds src p) (k : ℕ) : (b.fill n k).Holds src p := by
  induction k generalizing b with
  | zero => exact h
  | succ k ih =>
    rw [Bits.fill]
    split_ifs with hlt
    · exact ih h.fetch
    · exact h

/-- The refill loop stops with enough bits, and with fewer than eight too many. -/
theorem Bits.fill_cnt (b : Bits) {k : ℕ} (hk : n ≤ b.cnt + k) (hcnt : b.cnt < n + 8) :
    n ≤ (b.fill n k).cnt ∧ (b.fill n k).cnt < n + 8 := by
  induction k generalizing b with
  | zero => exact ⟨hk, hcnt⟩
  | succ k ih =>
    rw [Bits.fill]
    split_ifs with hlt
    · refine ih b.fetch ?_ ?_
      · simp only [Bits.fetch]
        omega
      · simp only [Bits.fetch]
        omega
    · exact ⟨by omega, hcnt⟩

/-- **Reading bits**: the next `n` bits as a number, and the reader `n` bits further on. -/
@[simp] theorem bitsRead_readerAt (src : List UInt8) (p n : ℕ) :
    bitsRead (readerAt src p) n = (field (bitOf src) p n, readerAt src (p + n)) := by
  simp only [bitsRead]
  have hfilled := (readerAt_holds src p).fill (n := n) n
  have hcnt0 : (readerAt src p).cnt < 8 := by
    simp only [readerAt]
    omega
  obtain ⟨hle, hlt⟩ := (readerAt src p).fill_cnt (n := n) (k := n) (by omega) (by omega)
  generalize (readerAt src p).fill n n = b at hfilled hle hlt
  have hval : b.buf % 2 ^ n = field (bitOf src) p n := by
    apply Nat.eq_of_testBit_eq
    intro i
    rw [Nat.testBit_mod_two_pow, hfilled.buf_eq, testBit_field]
    by_cases hi : i < n
    · simp [hi, lt_of_lt_of_le hi hle]
    · simp [hi]
  have hrest : (⟨b.src, b.pos, b.buf >>> n, b.cnt - n⟩ : Bits).Holds src (p + n) := by
    have haligned := hfilled.aligned
    have hpos := hfilled.pos_eq
    have hsum : p + n + (b.cnt - n) = p + b.cnt := by omega
    refine ⟨hfilled.src_eq, ?_, ?_, fun i => ?_⟩
    · simp only [hsum]
      exact hpos
    · simp only [hsum]
      exact haligned
    · simp only [Nat.testBit_shiftRight, hfilled.buf_eq]
      have hassoc : p + (n + i) = p + n + i := by omega
      have hiff : (n + i < b.cnt) ↔ (i < b.cnt - n) := by omega
      simp only [hassoc, hiff]
  have heq := hrest.eq_readerAt (by simp only; omega)
  rw [hval, ← heq]

end Microkernel

/-
# Division of 64-bit numbers

`div64_32` and `mod64_32` of `src/ntfs.c`, which divide a 64-bit number by a 32-bit one with the
divide instruction of the i386.  They are a long division of two 32-bit digits, so the instruction
gets a remainder below the divisor and its quotient fits.
-/
import Microkernel.LongDivision
import Microkernel.Ntfs

namespace Microkernel

open LongDivision

/-- The instruction `divl`: `edx` and `eax` divided by the operand, with the quotient in `eax` and
the remainder in `edx`.  `none` is the divide error, which it raises for a divisor of zero and for a
quotient that has no place in 32 bits. -/
def divl (edx eax d : UInt32) : Option (UInt32 × UInt32) :=
  let n := edx.toNat * 2 ^ 32 + eax.toNat
  if d = 0 then none
  else if 2 ^ 32 ≤ n / d.toNat then none
  else some (UInt32.ofNat (n / d.toNat), UInt32.ofNat (n % d.toNat))

/-- `div64_32`; `none` is the divide error. -/
def div64_32 (n : UInt64) (d : UInt32) : Option UInt64 :=
  if d = 0 then some 0
  else
    let hi := (n >>> 32).toUInt32
    let lo := n.toUInt32
    if hi = 0 then some (lo / d).toUInt64
    -- The remainder of the high half goes into `edx`.
    else (divl (hi % d) lo d).map fun r => (hi / d).toUInt64 <<< 32 ||| r.1.toUInt64

/-- `mod64_32`; `none` is the divide error. -/
def mod64_32 (n : UInt64) (d : UInt32) : Option UInt32 :=
  if d = 0 then some 0
  else
    let hi := (n >>> 32).toUInt32
    let lo := n.toUInt32
    if hi = 0 then some (lo % d)
    else (divl (hi % d) lo d).map fun r => r.2

variable {n : UInt64} {edx eax d : UInt32}

/-! ## The instruction -/

theorem toNat_pos_of_ne (hd : d ≠ 0) : 0 < d.toNat :=
  Nat.pos_of_ne_zero fun h => hd (UInt32.toNat_inj.mp h)

/-- A dividend whose high half is below the divisor raises no divide error. -/
theorem divl_eq (h : edx < d) : divl edx eax d =
    some (UInt32.ofNat ((edx.toNat * 2 ^ 32 + eax.toNat) / d.toNat),
      UInt32.ofNat ((edx.toNat * 2 ^ 32 + eax.toNat) % d.toNat)) := by
  have hlt : edx.toNat < d.toNat := h
  have hne : d ≠ 0 := by
    rintro rfl
    exact absurd hlt (Nat.not_lt_zero _)
  have hquot := quotient_lt hlt eax.toNat_lt
  simp only [divl]
  rw [if_neg hne, if_neg hquot.not_ge]

/-- The instruction raises the divide error for all other dividends. -/
theorem divl_eq_none_iff : divl edx eax d = none ↔ d ≤ edx := by
  constructor
  · intro hnone
    by_contra hlt
    rw [divl_eq (UInt32.not_le.mp hlt)] at hnone
    cases hnone
  · intro hle
    have hle : d.toNat ≤ edx.toNat := hle
    simp only [divl]
    split_ifs with hd hquot
    · rfl
    · rfl
    · refine absurd ?_ hquot
      rw [Nat.le_div_iff_mul_le (toNat_pos_of_ne hd)]
      calc 2 ^ 32 * d.toNat ≤ 2 ^ 32 * edx.toNat := Nat.mul_le_mul_left _ hle
        _ = edx.toNat * 2 ^ 32 := Nat.mul_comm _ _
        _ ≤ edx.toNat * 2 ^ 32 + eax.toNat := Nat.le_add_right _ _

/-! ## The two functions -/

/-- The halves of a number, as its digits. -/
def halves (n : UInt64) : List ℕ := [(n >>> 32).toUInt32.toNat, n.toUInt32.toNat]

theorem toNat_high (n : UInt64) : (n >>> 32).toUInt32.toNat = n.toNat / 2 ^ 32 := by
  have hlt := n.toNat_lt
  rw [UInt64.toNat_toUInt32, UInt64.toNat_shiftRight, Nat.shiftRight_eq_div_pow]
  show n.toNat / 2 ^ 32 % 2 ^ 32 = n.toNat / 2 ^ 32
  omega

theorem number_halves (n : UInt64) : number (2 ^ 32) 0 (halves n) = n.toNat := by
  rw [halves, number_pair, toNat_high, UInt64.toNat_toUInt32]
  exact Nat.div_add_mod' n.toNat (2 ^ 32)

/-- The long division of the halves. -/
theorem divide_halves (n : UInt64) (d : UInt32) : divide (2 ^ 32) d.toNat 0 (halves n) =
    ([((n >>> 32).toUInt32 / d).toNat,
        (((n >>> 32).toUInt32 % d).toNat * 2 ^ 32 + n.toUInt32.toNat) / d.toNat],
      (((n >>> 32).toUInt32 % d).toNat * 2 ^ 32 + n.toUInt32.toNat) % d.toNat) := by
  simp only [halves, divide, Nat.zero_mul, Nat.zero_add, UInt32.toNat_div, UInt32.toNat_mod]

theorem halves_lt (n : UInt64) : ∀ x ∈ halves n, x < 2 ^ 32 := by
  intro x hx
  rcases List.mem_pair.mp hx with rfl | rfl <;> exact UInt32.toNat_lt _

/-- **The instruction gets no quotient that does not fit**, and makes the low digit of the quotient
and the remainder. -/
theorem divl_halves (n : UInt64) (hd : d ≠ 0) :
    ∃ q r, divl ((n >>> 32).toUInt32 % d) n.toUInt32 d = some (q, r) ∧
      ((n >>> 32).toUInt32 / d).toNat * 2 ^ 32 + q.toNat = n.toNat / d.toNat ∧
      r.toNat = n.toNat % d.toNat := by
  have hpos := toNat_pos_of_ne hd
  have hrem : (n >>> 32).toUInt32 % d < d := UInt32.mod_lt _ (UInt32.pos_iff_ne_zero.mpr hd)
  have hdigits := divide_digit_lt hpos (halves_lt n)
  obtain ⟨hquot, hmod⟩ := @divide_quotient (2 ^ 32) d.toNat (halves n) hpos
  rw [number_halves, divide_halves] at hquot hmod
  rw [divide_halves] at hdigits
  -- The second digit of the quotient is the one that the instruction makes.
  have hlow := hdigits _ (List.mem_cons_of_mem _ List.mem_cons_self)
  dsimp only at hquot hmod
  rw [number_pair] at hquot
  refine ⟨_, _, divl_eq hrem, ?_, ?_⟩
  · rw [UInt32.toNat_ofNat', Nat.mod_eq_of_lt hlow, hquot]
  · rw [UInt32.toNat_ofNat', hmod]
    exact Nat.mod_eq_of_lt ((Nat.mod_lt _ hpos).trans d.toNat_lt)

/-- The quotient is put together from its digits. -/
theorem toNat_digits (a b : UInt32) :
    (a.toUInt64 <<< 32 ||| b.toUInt64).toNat = a.toNat * 2 ^ 32 + b.toNat := by
  have ha := a.toNat_lt
  have hshift : a.toNat <<< 32 % 2 ^ 64 = a.toNat <<< 32 := by
    rw [Nat.shiftLeft_eq]
    omega
  rw [UInt64.toNat_or, UInt64.toNat_shiftLeft, UInt32.toNat_toUInt64, UInt32.toNat_toUInt64]
  show a.toNat <<< 32 % 2 ^ 64 ||| b.toNat = a.toNat * 2 ^ 32 + b.toNat
  rw [hshift, ← Nat.shiftLeft_add_eq_or_of_lt b.toNat_lt, Nat.shiftLeft_eq]

/-- Without a high half the number is the low one. -/
theorem toNat_low (h : (n >>> 32).toUInt32 = 0) : n.toUInt32.toNat = n.toNat := by
  have hhigh := congrArg UInt32.toNat h
  rw [toNat_high] at hhigh
  rw [UInt64.toNat_toUInt32]
  exact Nat.mod_eq_of_lt (Nat.lt_of_div_eq_zero (by decide) hhigh)

/-- **`div64_32` divides.** -/
theorem div64_32_eq (n : UInt64) (hd : d ≠ 0) : div64_32 n d = some (n / d.toUInt64) := by
  simp only [div64_32]
  rw [if_neg hd]
  by_cases hhigh : (n >>> 32).toUInt32 = 0
  · rw [if_pos hhigh]
    congr 1
    apply UInt64.toNat_inj.mp
    rw [UInt32.toNat_toUInt64, UInt32.toNat_div, toNat_low hhigh, UInt64.toNat_div,
      UInt32.toNat_toUInt64]
  · obtain ⟨q, r, hdivl, hquot, -⟩ := divl_halves n hd
    rw [if_neg hhigh, hdivl, Option.map_some]
    congr 1
    apply UInt64.toNat_inj.mp
    rw [toNat_digits, hquot, UInt64.toNat_div, UInt32.toNat_toUInt64]

/-- **`mod64_32` gives the remainder.** -/
theorem mod64_32_eq (n : UInt64) (hd : d ≠ 0) :
    mod64_32 n d = some (n % d.toUInt64).toUInt32 := by
  have hlt : n.toNat % d.toNat < 2 ^ 32 := (Nat.mod_lt _ (toNat_pos_of_ne hd)).trans d.toNat_lt
  have hmod : (n % d.toUInt64).toUInt32.toNat = n.toNat % d.toNat := by
    rw [UInt64.toNat_toUInt32, UInt64.toNat_mod, UInt32.toNat_toUInt64, Nat.mod_eq_of_lt hlt]
  simp only [mod64_32]
  rw [if_neg hd]
  by_cases hhigh : (n >>> 32).toUInt32 = 0
  · rw [if_pos hhigh]
    congr 1
    apply UInt32.toNat_inj.mp
    rw [UInt32.toNat_mod, toNat_low hhigh, hmod]
  · obtain ⟨q, r, hdivl, -, hrem⟩ := divl_halves n hd
    rw [if_neg hhigh, hdivl, Option.map_some]
    congr 1
    apply UInt32.toNat_inj.mp
    rw [hrem, hmod]

/-- **Division with a remainder**: no call raises the divide error, the quotient and the remainder
make up the number, and the remainder is below the divisor. -/
theorem div64_mod64_exact (n : UInt64) (hd : d ≠ 0) :
    ∃ q r, div64_32 n d = some q ∧ mod64_32 n d = some r ∧
      n.toNat = q.toNat * d.toNat + r.toNat ∧ r < d := by
  have hpos := toNat_pos_of_ne hd
  have hlt := Nat.mod_lt n.toNat hpos
  have hrem : (n % d.toUInt64).toUInt32.toNat = n.toNat % d.toNat := by
    rw [UInt64.toNat_toUInt32, UInt64.toNat_mod, UInt32.toNat_toUInt64]
    exact Nat.mod_eq_of_lt (hlt.trans d.toNat_lt)
  refine ⟨_, _, div64_32_eq n hd, mod64_32_eq n hd, ?_, ?_⟩
  · rw [hrem, UInt64.toNat_div, UInt32.toNat_toUInt64]
    exact (Nat.div_add_mod' n.toNat d.toNat).symm
  · rw [UInt32.lt_iff_toNat_lt, hrem]
    exact hlt

theorem div64_mod64_exact_large : ∃ q r, div64_32 0xFFFFFFFFFFFFFFFF 3 = some q ∧
    mod64_32 0xFFFFFFFFFFFFFFFF 3 = some r ∧
      (0xFFFFFFFFFFFFFFFF : UInt64).toNat = q.toNat * (3 : UInt32).toNat + r.toNat ∧ r < 3 :=
  div64_mod64_exact 0xFFFFFFFFFFFFFFFF (by decide)

/-! ## The count of clusters -/

/-- `ntfs_mount` counts the clusters with `div64_32`, and never with a divisor of zero. -/
theorem ntfsInfo_totalDataClusters {boot : Memory} {info : NtfsInfo} (h : ntfsInfo boot = some info) :
    (div64_32 (UInt64.ofNat (boot.loadLE 40 8)) (UInt32.ofNat (boot.loadLE 13 1))).map
      (fun q => q.toUInt32.toNat) = some info.totalDataClusters := by
  have hsectors : boot.loadLE 40 8 < 2 ^ 64 := Memory.loadLE_lt boot 40 8
  have hper : boot.loadLE 13 1 < 2 ^ 8 := Memory.loadLE_lt boot 13 1
  unfold ntfsInfo at h
  dsimp only at h
  split_ifs at h with hname hsize hrec
  cases h
  -- The mount has refused a boot sector with no sectors in a cluster.
  simp only [not_or, not_lt, ne_eq, not_not] at hsize
  have htoNat : (UInt32.ofNat (boot.loadLE 13 1)).toNat = boot.loadLE 13 1 := by
    rw [UInt32.toNat_ofNat']
    exact Nat.mod_eq_of_lt (by omega)
  have hne : UInt32.ofNat (boot.loadLE 13 1) ≠ 0 := by
    intro hzero
    rw [hzero] at htoNat
    exact hsize.2.1 (by rw [← htoNat]; rfl)
  rw [div64_32_eq _ hne, Option.map_some, UInt64.toNat_toUInt32, UInt64.toNat_div,
    UInt32.toNat_toUInt64, htoNat, UInt64.toNat_ofNat', Nat.mod_eq_of_lt hsectors]
  rfl

end Microkernel

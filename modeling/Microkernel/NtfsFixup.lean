/-
# NTFS: fixups

`prepare_fixup` in `src/ntfs.c`, which swaps the ends of the sectors of a record with the sequence
number, and how `apply_fixup` swaps them back.
-/
import Microkernel.Ntfs

namespace Microkernel

open Access

/-- The loop of `prepare_fixup`, from the `i`-th sector on. -/
def prepareLoop (uso sv recSize : ℕ) : ℕ → ℕ → Buffer → Access Buffer
  | 0, _, b => .ok b
  | n + 1, i, b =>
    let p := i * 512 - 2
    if p + 2 > recSize then .ok b
    else
      (b.load p 2).bind fun s =>
        (b.store (uso + 2 * i) s 2).bind fun b =>
          (b.store p sv 2).bind fun b => prepareLoop uso sv recSize n (i + 1) b

/-- The sequence number after this one; 0 is left out. -/
def nextSequence (sv : ℕ) : ℕ := if (sv + 1) % 2 ^ 16 = 0 then 1 else (sv + 1) % 2 ^ 16

/-- `prepare_fixup`: the last two bytes of each sector go to the update sequence array. -/
def prepareFixup (b : Buffer) (recSize : ℕ) : Access (Bool × Buffer) :=
  (b.load 4 2).bind fun uso =>
    (b.load 6 2).bind fun usc =>
      if uso + usc * 2 > recSize then .ok (false, b)
      else
        (b.load uso 2).bind fun sv =>
          (b.store uso (nextSequence sv) 2).bind fun b =>
            (prepareLoop uso (nextSequence sv) recSize (usc - 1) 1 b).map fun b => (true, b)

/-! ## Where the array may be -/

/-- The update sequence array of a record of `n` sectors: it is inside the record, after the fields
that say where it is, and apart from the end of each sector. -/
structure SequenceArray (uso n : ℕ) : Prop where
  after : 8 ≤ uso
  inside : uso + 2 * (n + 1) ≤ 512 * n
  apart : ∀ i, 1 ≤ i → i ≤ n → uso + 2 * (n + 1) ≤ i * 512 - 2 ∨ i * 512 ≤ uso

/-- The memory `m'` is `m` with the ends of the sectors from `lo` to `hi` swapped out. -/
structure SwappedOut (uso n sv lo hi : ℕ) (m m' : Memory) : Prop where
  number : m'.loadLE uso 2 = sv
  tail : ∀ i, lo ≤ i → i < hi → m'.loadLE (i * 512 - 2) 2 = sv
  saved : ∀ i, lo ≤ i → i < hi → m'.loadLE (uso + 2 * i) 2 = m.loadLE (i * 512 - 2) 2
  same : ∀ x, x < uso ∨ uso + 2 * (n + 1) ≤ x →
    (∀ i, lo ≤ i → i < hi → x < i * 512 - 2 ∨ i * 512 ≤ x) → m' x = m x

variable {uso n sv lo hi : ℕ} {m m' : Memory}

/-- A number put where another memory has it makes the two equal there. -/
theorem storeLE_loadLE (m m' : Memory) (a w x : ℕ) :
    m'.storeLE a (m.loadLE a w) w x = if a ≤ x ∧ x < a + w then m x else m' x := by
  induction w generalizing m' a with
  | zero =>
    rw [if_neg (by omega)]
    rfl
  | succ w ih =>
    have hbyte := (m a).toNat_lt
    have hlow : UInt8.ofNat (m.loadLE a (w + 1)) = m a := by
      apply UInt8.toNat_inj.mp
      rw [UInt8.toNat_ofNat', Memory.loadLE]
      omega
    have hhigh : m.loadLE a (w + 1) / 2 ^ 8 = m.loadLE (a + 1) w := by
      rw [Memory.loadLE]
      omega
    unfold Memory.storeLE
    rw [hlow, hhigh, ih]
    by_cases hx : x = a
    · rw [if_neg (by omega), if_pos (by omega), hx, Memory.store8_same]
    · rw [Memory.store8_of_ne _ _ hx]
      split_ifs <;> first | rfl | omega

namespace SwappedOut

/-- Nothing is swapped out when the sequence number is stored. -/
theorem start (hsv : sv < 2 ^ 16) : SwappedOut uso n sv 1 1 m (m.storeLE uso sv 2) := by
  constructor
  · rw [Memory.loadLE_storeLE_same]
    exact Nat.mod_eq_of_lt hsv
  · intro i _ hhi
    omega
  · intro i _ hhi
    omega
  · intro x hx _
    exact Memory.storeLE_of_outside _ _ (by omega)

/-- The end of a sector that is not swapped out is there. -/
theorem end_eq (h : SwappedOut uso n sv lo hi m m') (ha : SequenceArray uso n) {i : ℕ} (hi₁ : 1 ≤ i)
    (hn : i ≤ n) (hout : i < lo ∨ hi ≤ i) :
    m'.loadLE (i * 512 - 2) 2 = m.loadLE (i * 512 - 2) 2 := by
  apply Memory.loadLE_congr
  intro x hx hx'
  have hapart := ha.apart i hi₁ hn
  apply h.same x (by omega)
  intro j hj hj'
  -- The ends of two sectors are apart.
  rcases Nat.lt_or_ge j i with hji | hji
  · right
    omega
  · left
    omega

/-- One more sector is swapped out. -/
theorem swap_out (h : SwappedOut uso n sv 1 hi m m') (ha : SequenceArray uso n) (hsv : sv < 2 ^ 16)
    (hhi : 1 ≤ hi) (hn : hi ≤ n) :
    SwappedOut uso n sv 1 (hi + 1) m
      ((m'.storeLE (uso + 2 * hi) (m'.loadLE (hi * 512 - 2) 2) 2).storeLE (hi * 512 - 2) sv 2) := by
  have hapart := ha.apart hi hhi hn
  have hword := m'.loadLE_lt (hi * 512 - 2) 2
  constructor
  · rw [Memory.loadLE_storeLE_of_disjoint _ _ (by omega), Memory.loadLE_storeLE_of_disjoint _ _ (by omega)]
    exact h.number
  · intro i hlo hlt
    have hapart' := ha.apart i hlo (by omega)
    by_cases heq : i = hi
    · rw [heq, Memory.loadLE_storeLE_same]
      exact Nat.mod_eq_of_lt hsv
    · rw [Memory.loadLE_storeLE_of_disjoint _ _ (by omega), Memory.loadLE_storeLE_of_disjoint _ _ (by omega)]
      exact h.tail i hlo (by omega)
  · intro i hlo hlt
    rw [Memory.loadLE_storeLE_of_disjoint _ _ (by omega)]
    by_cases heq : i = hi
    · rw [heq, Memory.loadLE_storeLE_same, Nat.mod_eq_of_lt hword]
      exact h.end_eq ha hhi hn (Or.inr le_rfl)
    · rw [Memory.loadLE_storeLE_of_disjoint _ _ (by omega)]
      exact h.saved i hlo (by omega)
  · intro x hx hout
    have hend := hout hi hhi (by omega)
    rw [Memory.storeLE_of_outside _ _ (by omega), Memory.storeLE_of_outside _ _ (by omega)]
    apply h.same x hx
    intro i hlo hlt
    exact hout i hlo (by omega)

/-- The first sector that is swapped out is swapped back. -/
theorem swap_back (h : SwappedOut uso n sv lo (n + 1) m m') (ha : SequenceArray uso n) (hlo : 1 ≤ lo)
    (hn : lo ≤ n) :
    SwappedOut uso n sv (lo + 1) (n + 1) m
      (m'.storeLE (lo * 512 - 2) (m'.loadLE (uso + 2 * lo) 2) 2) := by
  have hapart := ha.apart lo hlo hn
  rw [h.saved lo le_rfl (by omega)]
  constructor
  · rw [Memory.loadLE_storeLE_of_disjoint _ _ (by omega)]
    exact h.number
  · intro i hi hlt
    rw [Memory.loadLE_storeLE_of_disjoint _ _ (by omega)]
    exact h.tail i (by omega) hlt
  · intro i hi hlt
    rw [Memory.loadLE_storeLE_of_disjoint _ _ (by omega)]
    exact h.saved i (by omega) hlt
  · intro x hx hout
    rw [storeLE_loadLE]
    split_ifs with hin
    · rfl
    · apply h.same x hx
      intro i hi hlt
      by_cases heq : i = lo
      · subst heq
        omega
      · exact hout i (by omega) hlt

end SwappedOut

/-! ## The two loops -/

variable {b : Buffer} {size : ℕ}

/-- `prepare_fixup` swaps out all sectors that are left. -/
theorem prepareLoop_swappedOut (ha : SequenceArray uso n) (hsv : sv < 2 ^ 16) (hsize : 512 * n ≤ size)
    {k : ℕ} : ∀ {i : ℕ} {m₁ : Memory}, 1 ≤ i → i + k = n + 1 → SwappedOut uso n sv 1 i m m₁ →
    ∃ m', prepareLoop uso sv (512 * n) k i ⟨size, m₁⟩ = .ok ⟨size, m'⟩ ∧
      SwappedOut uso n sv 1 (n + 1) m m' := by
  have hinside := ha.inside
  induction k with
  | zero =>
    intro i m₁ hi hk h
    obtain rfl : i = n + 1 := by omega
    exact ⟨m₁, rfl, h⟩
  | succ k ih =>
    intro i m₁ hi hk h
    obtain ⟨m', hrun, hm'⟩ := ih (by omega) (by omega) (h.swap_out ha hsv hi (by omega))
    refine ⟨m', ?_, hm'⟩
    rw [prepareLoop, if_neg (by omega), Buffer.load_of_le _ (by dsimp only; omega), ok_bind]
    unfold Buffer.store
    rw [if_pos (by dsimp only; omega), ok_bind, if_pos (by dsimp only; omega), ok_bind]
    exact hrun

/-- `apply_fixup` swaps back all sectors that are left. -/
theorem fixupLoop_swappedOut (ha : SequenceArray uso n) (hsize : 512 * n ≤ size) {k : ℕ} :
    ∀ {i : ℕ} {m₁ : Memory}, 1 ≤ i → i + k = n + 1 → SwappedOut uso n sv i (n + 1) m m₁ →
    ∃ m', fixupLoop uso sv (512 * n) k i ⟨size, m₁⟩ = .ok (true, ⟨size, m'⟩) ∧
      SwappedOut uso n sv (n + 1) (n + 1) m m' := by
  have hinside := ha.inside
  induction k with
  | zero =>
    intro i m₁ hi hk h
    obtain rfl : i = n + 1 := by omega
    exact ⟨m₁, rfl, h⟩
  | succ k ih =>
    intro i m₁ hi hk h
    obtain ⟨m', hrun, hm'⟩ := ih (by omega) (by omega) (h.swap_back ha hi (by omega))
    refine ⟨m', ?_, hm'⟩
    rw [fixupLoop, if_neg (by omega), Buffer.load_of_le _ (by dsimp only; omega), ok_bind,
      if_neg (not_not_intro (h.tail i le_rfl (by omega))), Buffer.load_of_le _ (by dsimp only; omega), ok_bind]
    unfold Buffer.store
    rw [if_pos (by dsimp only; omega), ok_bind]
    exact hrun

theorem nextSequence_lt (sv : ℕ) : nextSequence sv < 2 ^ 16 := by
  unfold nextSequence
  split_ifs
  · norm_num
  · exact Nat.mod_lt _ (by norm_num)

/-! ## Records -/

/-- A record of `n` sectors in a buffer, with an array of `n + 1` words. -/
structure FixupRecord (b : Buffer) (uso n : ℕ) : Prop where
  offset : b.mem.loadLE 4 2 = uso
  count : b.mem.loadLE 6 2 = n + 1
  array : SequenceArray uso n
  room : 512 * n ≤ b.size

namespace FixupRecord

/-- The ends of the sectors are behind the fields that say where the array is. -/
theorem of_swappedOut (hb : FixupRecord b uso n) (h : SwappedOut uso n sv 1 hi b.mem m') :
    FixupRecord ⟨b.size, m'⟩ uso n := by
  have hafter := hb.array.after
  have hsame : ∀ x, x < 8 → m' x = b.mem x := by
    intro x hx
    apply h.same x (by omega)
    intro i hlo _
    left
    omega
  constructor
  · rw [← hb.offset]
    exact Memory.loadLE_congr fun x _ hx => hsame x (by omega)
  · rw [← hb.count]
    exact Memory.loadLE_congr fun x _ hx => hsame x (by omega)
  · exact hb.array
  · exact hb.room

/-- **`prepare_fixup`** swaps out all sectors, with the next sequence number. -/
theorem prepareFixup_eq (hb : FixupRecord b uso n) :
    ∃ m', prepareFixup b (512 * n) = .ok (true, ⟨b.size, m'⟩) ∧
      SwappedOut uso n (nextSequence (b.mem.loadLE uso 2)) 1 (n + 1) b.mem m' := by
  obtain ⟨hoffset, hcount, ha, hroom⟩ := hb
  have hinside := ha.inside
  have hafter := ha.after
  obtain ⟨m', hrun, hm'⟩ := prepareLoop_swappedOut ha (nextSequence_lt _) hroom (k := n) le_rfl (by omega)
    (SwappedOut.start (m := b.mem) (nextSequence_lt (b.mem.loadLE uso 2)))
  refine ⟨m', ?_, hm'⟩
  unfold prepareFixup
  rw [b.load_of_le (by omega), ok_bind, b.load_of_le (by omega), ok_bind, hoffset, hcount,
    if_neg (by omega), b.load_of_le (by omega), ok_bind]
  unfold Buffer.store
  rw [if_pos (by omega), ok_bind, Nat.add_sub_cancel, hrun]
  rfl

/-- **`apply_fixup`** swaps all sectors back. -/
theorem applyFixup_eq (hb : FixupRecord b uso n) (h : SwappedOut uso n sv 1 (n + 1) m b.mem) :
    ∃ m', applyFixup b (512 * n) = .ok (true, ⟨b.size, m'⟩) ∧
      SwappedOut uso n sv (n + 1) (n + 1) m m' := by
  obtain ⟨hoffset, hcount, ha, hroom⟩ := hb
  have hinside := ha.inside
  have hafter := ha.after
  obtain ⟨m', hrun, hm'⟩ := fixupLoop_swappedOut ha hroom (k := n) le_rfl (by omega) h
  refine ⟨m', ?_, hm'⟩
  unfold applyFixup
  rw [b.load_of_le (by omega), ok_bind, b.load_of_le (by omega), ok_bind, hoffset, hcount,
    if_neg (by omega), b.load_of_le (by omega), ok_bind, h.number, Nat.add_sub_cancel]
  exact hrun

end FixupRecord

/-- **A record is the same after both**, except for the array. -/
theorem applyFixup_prepareFixup (hb : FixupRecord b uso n) :
    ∃ b₁ b₂, prepareFixup b (512 * n) = .ok (true, b₁) ∧ applyFixup b₁ (512 * n) = .ok (true, b₂) ∧
      b₂.size = b.size ∧ ∀ x, x < uso ∨ uso + 2 * (n + 1) ≤ x → b₂.mem x = b.mem x := by
  obtain ⟨m₁, hprepare, hm₁⟩ := hb.prepareFixup_eq
  obtain ⟨m₂, happly, hm₂⟩ := (hb.of_swappedOut hm₁).applyFixup_eq hm₁
  refine ⟨_, _, hprepare, happly, rfl, ?_⟩
  intro x hx
  apply hm₂.same x hx
  intro i hlo hhi
  omega

/-- A record of two sectors with the array behind its header and the last sequence number. -/
def twoSectors : Buffer where
  size := 1024
  mem := fun x => if x = 4 then 48 else if x = 6 then 3 else if x = 48 ∨ x = 49 then 255 else if x < 8 then 0 else 7

/-- The sequence number goes round. -/
theorem applyFixup_prepareFixup_two :
    ∃ b₁ b₂, prepareFixup twoSectors (512 * 2) = .ok (true, b₁) ∧
      applyFixup b₁ (512 * 2) = .ok (true, b₂) ∧
      b₂.size = twoSectors.size ∧ ∀ x, x < 48 ∨ 48 + 2 * (2 + 1) ≤ x → b₂.mem x = twoSectors.mem x := by
  apply applyFixup_prepareFixup
  constructor
  · decide
  · decide
  · exact ⟨by norm_num, by norm_num, fun i hi hn => by omega⟩
  · exact le_rfl

end Microkernel

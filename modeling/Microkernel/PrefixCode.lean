/-
# Canonical prefix codes

A list of code lengths determines a binary code: the symbols in use are ordered by length and,
among equal lengths, by number, and each code is the first word of its length after those of
the symbols before it.  Scaled to one common length `m` the codes are adjacent intervals that
begin at zero, so when the lengths meet the Kraft inequality no code begins another one.
Nothing here is about one format.
-/
import Microkernel.BitStream

open BitStream

namespace PrefixCode

variable (lens : List ℕ)

/-- The length of a symbol's code; zero says that the symbol has none. -/
def len (s : ℕ) : ℕ := lens.getD s 0

/-- Symbols with a code. -/
def Used (s : ℕ) : Prop := len lens s ≠ 0

/-- The order in which codes are given out. -/
def Before (t s : ℕ) : Prop := Used lens t ∧ (len lens t < len lens s ∨ len lens t = len lens s ∧ t < s)

instance (s : ℕ) : Decidable (Used lens s) := inferInstanceAs (Decidable (_ ≠ _))

instance (t s : ℕ) : Decidable (Before lens t s) := inferInstanceAs (Decidable (_ ∧ _))

/-- The share of the words of length `m` that the codes before that of `s` take. -/
def offset (m s : ℕ) : ℕ := ∑ t ∈ Finset.range lens.length with Before lens t s, 2 ^ (m - len lens t)

/-- The code of a symbol as a number of `len s` bits. -/
def value (s : ℕ) : ℕ := offset lens (len lens s) s

/-- The code of a symbol, its most significant bit first. -/
def codeword (s : ℕ) : List Bool := highFirst (len lens s) (value lens s)

/-- The share of the words of length `m` that all codes take. -/
def share (m : ℕ) : ℕ := ∑ t ∈ Finset.range lens.length with Used lens t, 2 ^ (m - len lens t)

/-- Lengths of at most `m` that leave room for all codes: the Kraft inequality. -/
structure Fits (m : ℕ) : Prop where
  le : ∀ l ∈ lens, l ≤ m
  kraft : share lens m ≤ 2 ^ m

/-- The first code of length `b`. -/
def first (b : ℕ) : ℕ :=
  ∑ t ∈ Finset.range lens.length with Used lens t ∧ len lens t < b, 2 ^ (b - len lens t)

/-- How many of the first `n` symbols have a code of length `b`. -/
def rank (b n : ℕ) : ℕ := (lens.take n).count b

variable {lens} {m s t b n : ℕ}

instance (m : ℕ) : Decidable (Fits lens m) :=
  decidable_of_iff ((∀ l ∈ lens, l ≤ m) ∧ share lens m ≤ 2 ^ m)
    ⟨fun h => ⟨h.1, h.2⟩, fun h => ⟨h.le, h.kraft⟩⟩

/-! ## Sums along the list -/

/-- A sum over the symbols is a sum along the list of their lengths. -/
theorem sum_symbols (g : ℕ → ℕ → ℕ) (lens : List ℕ) :
    ∑ t ∈ Finset.range lens.length, g t (len lens t) = (lens.zipIdx.map fun p => g p.2 p.1).sum := by
  induction lens generalizing g with
  | nil => rfl
  | cons l ls ih =>
    rw [List.length_cons, Finset.sum_range_succ', List.zipIdx_cons', List.map_cons, List.sum_cons,
      add_comm, List.map_map]
    congr 1
    exact ih fun t l => g (t + 1) l

theorem share_eq_sum :
    share lens m = (lens.map fun l => if l ≠ 0 then 2 ^ (m - l) else 0).sum := by
  rw [share, Finset.sum_filter]
  refine (sum_symbols (fun _ l => if l ≠ 0 then 2 ^ (m - l) else 0) lens).trans ?_
  have hmap := @List.map_map _ _ _ (fun l => if l ≠ 0 then 2 ^ (m - l) else 0) Prod.fst lens.zipIdx
  rw [List.zipIdx_map_fst] at hmap
  rw [hmap]
  rfl

theorem offset_eq_sum : offset lens m s = (lens.zipIdx.map fun p =>
    if p.1 ≠ 0 ∧ (p.1 < len lens s ∨ p.1 = len lens s ∧ p.2 < s) then 2 ^ (m - p.1) else 0).sum := by
  rw [offset, Finset.sum_filter]
  exact sum_symbols (fun t l =>
    if l ≠ 0 ∧ (l < len lens s ∨ l = len lens s ∧ t < s) then 2 ^ (m - l) else 0) lens

/-- The Kraft inequality, checked along the list of the lengths. -/
theorem fits_of_sum (hle : ∀ l ∈ lens, l ≤ m)
    (hsum : (lens.map fun l => if l ≠ 0 then 2 ^ (m - l) else 0).sum ≤ 2 ^ m) : Fits lens m :=
  ⟨hle, share_eq_sum.trans_le hsum⟩

/-- A code, computed along the list of the lengths. -/
theorem codeword_eq {w : List Bool} (h : highFirst (len lens s) (lens.zipIdx.map fun p =>
    if p.1 ≠ 0 ∧ (p.1 < len lens s ∨ p.1 = len lens s ∧ p.2 < s) then 2 ^ (len lens s - p.1)
    else 0).sum = w) : codeword lens s = w := by
  rw [codeword, value, offset_eq_sum, h]

/-! ## Intervals -/

theorem Used.lt (h : Used lens s) : s < lens.length := by
  by_contra hs
  exact h (List.getD_eq_default _ _ (Nat.not_lt.mp hs))

theorem Fits.len_le (h : Fits lens m) (hs : Used lens s) : len lens s ≤ m := by
  have hmem : len lens s ∈ lens := by
    rw [len, List.getD_eq_getElem _ _ hs.lt]
    exact List.getElem_mem _
  exact h.le _ hmem

theorem Before.le (h : Before lens t s) : len lens t ≤ len lens s := by
  rcases h.2 with h | h <;> omega

/-- Of two symbols in use one comes before the other. -/
theorem before_or_before (ht : Used lens t) (hs : Used lens s) (hne : t ≠ s) :
    Before lens t s ∨ Before lens s t := by
  rcases Nat.lt_trichotomy (len lens t) (len lens s) with h | h | h
  · exact Or.inl ⟨ht, Or.inl h⟩
  · rcases Nat.lt_or_gt_of_ne hne with h' | h'
    · exact Or.inl ⟨ht, Or.inr ⟨h, h'⟩⟩
    · exact Or.inr ⟨hs, Or.inr ⟨h.symm, h'⟩⟩
  · exact Or.inr ⟨hs, Or.inl h⟩

/-- Scaling a code to a longer common length. -/
theorem offset_eq_value_mul (hm : len lens s ≤ m) :
    offset lens m s = value lens s * 2 ^ (m - len lens s) := by
  rw [value, offset, offset, Finset.sum_mul]
  refine Finset.sum_congr rfl fun t ht => ?_
  have hle := (Finset.mem_filter.mp ht).2.le
  rw [← pow_add]
  congr 1
  omega

/-- The interval of a symbol ends before that of a later one begins. -/
theorem offset_add_le_offset (h : Before lens t s) :
    offset lens m t + 2 ^ (m - len lens t) ≤ offset lens m s := by
  have hnot : t ∉ (Finset.range lens.length).filter fun x => Before lens x t := by
    intro hmem
    rcases (Finset.mem_filter.mp hmem).2.2 with h | h <;> omega
  have hsub : insert t ((Finset.range lens.length).filter fun x => Before lens x t) ⊆
      (Finset.range lens.length).filter fun x => Before lens x s := by
    intro x hx
    rcases Finset.mem_insert.mp hx with rfl | hx
    · exact Finset.mem_filter.mpr ⟨Finset.mem_range.mpr h.1.lt, h⟩
    · obtain ⟨hlt, hx⟩ := Finset.mem_filter.mp hx
      refine Finset.mem_filter.mpr ⟨hlt, hx.1, ?_⟩
      rcases hx.2 with hx | hx <;> rcases h.2 with h | h <;> omega
  calc offset lens m t + 2 ^ (m - len lens t)
      = ∑ x ∈ insert t ((Finset.range lens.length).filter fun x => Before lens x t),
          2 ^ (m - len lens x) := by rw [Finset.sum_insert hnot, Nat.add_comm]; rfl
    _ ≤ offset lens m s := Finset.sum_le_sum_of_subset hsub

/-- The interval of a symbol ends inside the share of all codes. -/
theorem offset_add_le_share (h : Used lens s) :
    offset lens m s + 2 ^ (m - len lens s) ≤ share lens m := by
  have hnot : s ∉ (Finset.range lens.length).filter fun x => Before lens x s := by
    intro hmem
    rcases (Finset.mem_filter.mp hmem).2.2 with h | h <;> omega
  have hsub : insert s ((Finset.range lens.length).filter fun x => Before lens x s) ⊆
      (Finset.range lens.length).filter fun x => Used lens x := by
    intro x hx
    rcases Finset.mem_insert.mp hx with rfl | hx
    · exact Finset.mem_filter.mpr ⟨Finset.mem_range.mpr h.lt, h⟩
    · obtain ⟨hlt, hx⟩ := Finset.mem_filter.mp hx
      exact Finset.mem_filter.mpr ⟨hlt, hx.1⟩
  calc offset lens m s + 2 ^ (m - len lens s)
      = ∑ x ∈ insert s ((Finset.range lens.length).filter fun x => Before lens x s),
          2 ^ (m - len lens x) := by rw [Finset.sum_insert hnot, Nat.add_comm]; rfl
    _ ≤ share lens m := Finset.sum_le_sum_of_subset hsub

/-- A code has no more bits than its length. -/
theorem Fits.value_lt (h : Fits lens m) (hs : Used lens s) : value lens s < 2 ^ len lens s := by
  have hle := h.len_le hs
  have hend := (offset_add_le_share (m := m) hs).trans h.kraft
  rw [offset_eq_value_mul hle] at hend
  have hpow : (2 : ℕ) ^ m = 2 ^ len lens s * 2 ^ (m - len lens s) := by
    rw [← pow_add]
    congr 1
    omega
  rw [hpow, ← Nat.succ_mul] at hend
  exact Nat.le_of_mul_le_mul_right hend (Nat.two_pow_pos _)

/-- Codes that fit into words of one length fit into longer words. -/
theorem Fits.mono (h : Fits lens m) (hmn : m ≤ n) : Fits lens n where
  le := fun l hl => (h.le l hl).trans hmn
  kraft := by
    have hscale : share lens n = share lens m * 2 ^ (n - m) := by
      rw [share, share, Finset.sum_mul]
      refine Finset.sum_congr rfl fun t ht => ?_
      have hle := h.len_le (Finset.mem_filter.mp ht).2
      rw [← pow_add]
      congr 1
      omega
    have hpow : (2 : ℕ) ^ n = 2 ^ m * 2 ^ (n - m) := by
      rw [← pow_add]
      congr 1
      omega
    rw [hscale, hpow]
    exact Nat.mul_le_mul_right _ h.kraft

/-! ## Prefixes -/

/-- The most significant bits of a number are those of its quotient. -/
theorem highFirst_add (k n v : ℕ) :
    highFirst (k + n) v = highFirst k (v / 2 ^ n) ++ highFirst n v := by
  induction k with
  | zero => simp [highFirst]
  | succ k ih =>
    have hadd : k + 1 + n = k + n + 1 := by omega
    rw [hadd, highFirst, highFirst, ih, List.cons_append, Nat.testBit_div_two_pow]

theorem highFirst_injective {v v' : ℕ} (hv : v < 2 ^ n) (hv' : v' < 2 ^ n)
    (h : highFirst n v = highFirst n v') : v = v' := by
  apply Nat.eq_of_testBit_eq
  intro i
  by_cases hi : i < n
  · clear hv hv'
    induction n with
    | zero => omega
    | succ n ih =>
      simp only [highFirst, List.cons.injEq] at h
      rcases Nat.lt_succ_iff_lt_or_eq.mp hi with hlt | rfl
      · exact ih h.2 hlt
      · exact h.1
  · have hpow : (2 : ℕ) ^ n ≤ 2 ^ i := Nat.pow_le_pow_right (by omega) (by omega)
    rw [Nat.testBit_lt_two_pow (lt_of_lt_of_le hv hpow),
      Nat.testBit_lt_two_pow (lt_of_lt_of_le hv' hpow)]

/-- A word that begins another one is the other's quotient. -/
theorem eq_div_of_begins {k v v' : ℕ} (hv : v < 2 ^ k) (hv' : v' < 2 ^ n)
    (h : highFirst k v <+: highFirst n v') : k ≤ n ∧ v = v' / 2 ^ (n - k) := by
  have hkn : k ≤ n := by
    have := h.length_le
    simpa using this
  refine ⟨hkn, ?_⟩
  obtain ⟨d, rfl⟩ : ∃ d, n = k + d := ⟨n - k, by omega⟩
  rw [highFirst_add] at h
  have heq : highFirst k v = highFirst k (v' / 2 ^ d) := by
    obtain ⟨rest, hrest⟩ := h
    exact (List.append_inj hrest (by simp)).1
  have hlt : v' / 2 ^ d < 2 ^ k := by
    rw [Nat.div_lt_iff_lt_mul (Nat.two_pow_pos d), ← pow_add]
    exact hv'
  rw [Nat.add_sub_cancel_left]
  exact highFirst_injective hv hlt heq

/-- **No code begins another one.** -/
theorem Fits.eq_of_begins (h : Fits lens m) (hs : Used lens s) (ht : Used lens t)
    (hpre : codeword lens s <+: codeword lens t) : s = t := by
  by_contra hne
  obtain ⟨hlen, hdiv⟩ := eq_div_of_begins (h.value_lt hs) (h.value_lt ht) hpre
  have hms := h.len_le hs
  have hmt := h.len_le ht
  have hscale : (2 : ℕ) ^ (m - len lens s) = 2 ^ (len lens t - len lens s) * 2 ^ (m - len lens t) := by
    rw [← pow_add]
    congr 1
    omega
  -- scaled to `m` bits the code of `t` lies in the interval of `s`
  have hlow : offset lens m s ≤ offset lens m t := by
    rw [offset_eq_value_mul hms, offset_eq_value_mul hmt, hscale, ← Nat.mul_assoc, hdiv]
    exact Nat.mul_le_mul_right _ (Nat.div_mul_le_self _ _)
  have hhigh : offset lens m t < offset lens m s + 2 ^ (m - len lens s) := by
    rw [offset_eq_value_mul hms, offset_eq_value_mul hmt, hscale, ← Nat.mul_assoc,
      ← Nat.add_mul, hdiv]
    refine Nat.mul_lt_mul_of_pos_right ?_ (Nat.two_pow_pos _)
    exact Nat.lt_div_mul_add (Nat.two_pow_pos _)
  rcases before_or_before hs ht hne with hb | hb
  · have := offset_add_le_offset (m := m) hb
    omega
  · have := offset_add_le_offset (m := m) hb
    have hpos := Nat.two_pow_pos (m - len lens t)
    omega

/-! ## The codes of one length -/

theorem first_zero : first lens 0 = 0 := by
  rw [first, Finset.filter_false_of_mem, Finset.sum_empty]
  rintro t - ⟨-, h⟩
  omega

/-- Symbols of the list with a code of the given length, counted. -/
theorem card_len_eq (hb : b ≠ 0) :
    ((Finset.range n).filter fun t => len lens t = b).card = rank lens b n := by
  induction n with
  | zero => simp [rank]
  | succ n ih =>
    rw [Finset.range_add_one, Finset.filter_insert]
    by_cases hn : n < lens.length
    · have htake : lens.take (n + 1) = lens.take n ++ [len lens n] := by
        rw [List.take_add_one, List.getElem?_eq_getElem hn, len, List.getD_eq_getElem _ _ hn]
        rfl
      rw [rank, htake, List.count_append, ← rank, ← ih]
      by_cases hlen : len lens n = b
      · rw [if_pos hlen, Finset.card_insert_of_notMem (by simp), hlen]
        simp
      · rw [if_neg hlen]
        simp [hlen]
    · have hlen : len lens n ≠ b := by
        rw [len, List.getD_eq_default _ _ (Nat.not_lt.mp hn)]
        exact hb.symm
      rw [if_neg hlen, ih, rank, rank, List.take_of_length_le (by omega),
        List.take_of_length_le (by omega)]

/-- The first code of a length is twice the word after the last code one bit shorter. -/
theorem first_succ (hb : b ≠ 0) : first lens (b + 1) = (first lens b + lens.count b) * 2 := by
  have hsplit : (Finset.range lens.length).filter (fun t => Used lens t ∧ len lens t < b + 1) =
      ((Finset.range lens.length).filter fun t => Used lens t ∧ len lens t < b) ∪
        (Finset.range lens.length).filter fun t => len lens t = b := by
    ext t
    simp only [Finset.mem_filter, Finset.mem_union, Finset.mem_range]
    constructor
    · rintro ⟨hlt, hu, hle⟩
      rcases Nat.lt_succ_iff_lt_or_eq.mp hle with h | h
      · exact Or.inl ⟨hlt, hu, h⟩
      · exact Or.inr ⟨hlt, h⟩
    · rintro (⟨hlt, hu, h⟩ | ⟨hlt, h⟩)
      · exact ⟨hlt, hu, by omega⟩
      · refine ⟨hlt, ?_, by omega⟩
        rw [Used, h]
        exact hb
  have hdisjoint : Disjoint
      ((Finset.range lens.length).filter fun t => Used lens t ∧ len lens t < b)
      ((Finset.range lens.length).filter fun t => len lens t = b) := by
    refine Finset.disjoint_filter.mpr ?_
    rintro t - ⟨-, h⟩ heq
    omega
  have hcount : ((Finset.range lens.length).filter fun t => len lens t = b).card = lens.count b := by
    rw [card_len_eq hb, rank, List.take_length]
  have hlast : ∑ t ∈ (Finset.range lens.length).filter (fun t => len lens t = b),
      2 ^ (b + 1 - len lens t) = lens.count b * 2 := by
    rw [← hcount]
    refine Finset.sum_const_nat fun t ht => ?_
    rw [(Finset.mem_filter.mp ht).2, Nat.add_sub_cancel_left]
    rfl
  have hshorter : ∑ t ∈ (Finset.range lens.length).filter
      (fun t => Used lens t ∧ len lens t < b), 2 ^ (b + 1 - len lens t) = first lens b * 2 := by
    rw [first, Finset.sum_mul]
    refine Finset.sum_congr rfl fun t ht => ?_
    have hlt := (Finset.mem_filter.mp ht).2.2
    rw [← pow_succ]
    congr 1
    omega
  rw [first, hsplit, Finset.sum_union hdisjoint, hshorter, hlast, Nat.add_mul]

theorem first_one : first lens 1 = 0 := by
  rw [first, Finset.filter_false_of_mem, Finset.sum_empty]
  rintro t - ⟨hu, h⟩
  exact hu (by omega)

/-- A code is the first one of its length, moved on by the symbols of that length before it. -/
theorem value_eq (hs : Used lens s) :
    value lens s = first lens (len lens s) + rank lens (len lens s) s := by
  have hsplit : (Finset.range lens.length).filter (fun t => Before lens t s) =
      ((Finset.range lens.length).filter fun t => Used lens t ∧ len lens t < len lens s) ∪
        (Finset.range s).filter fun t => len lens t = len lens s := by
    ext t
    have hslt := hs.lt
    simp only [Finset.mem_filter, Finset.mem_union, Finset.mem_range]
    constructor
    · rintro ⟨hlt, hu, h | ⟨heq, hts⟩⟩
      · exact Or.inl ⟨hlt, hu, h⟩
      · exact Or.inr ⟨hts, heq⟩
    · rintro (⟨hlt, hu, h⟩ | ⟨hts, heq⟩)
      · exact ⟨hlt, hu, Or.inl h⟩
      · refine ⟨by omega, ?_, Or.inr ⟨heq, hts⟩⟩
        rw [Used, heq]
        exact hs
  have hdisjoint : Disjoint
      ((Finset.range lens.length).filter fun t => Used lens t ∧ len lens t < len lens s)
      ((Finset.range s).filter fun t => len lens t = len lens s) := by
    refine Finset.disjoint_left.mpr fun t ht ht' => ?_
    have h := (Finset.mem_filter.mp ht).2.2
    have h' := (Finset.mem_filter.mp ht').2
    omega
  have hsame : ∑ t ∈ (Finset.range s).filter (fun t => len lens t = len lens s),
      2 ^ (len lens s - len lens t) = rank lens (len lens s) s := by
    rw [← card_len_eq hs, Finset.card_eq_sum_ones]
    refine Finset.sum_congr rfl fun t ht => ?_
    rw [(Finset.mem_filter.mp ht).2, Nat.sub_self, pow_zero]
  rw [value, offset, hsplit, Finset.sum_union hdisjoint, hsame, first]

end PrefixCode

/-
# NTFS: cluster allocation

`alloc_clusters` and `free_clusters` in `src/ntfs.c`, as they change the cached bitmap.
-/
import Microkernel.Buffers
import Microkernel.ByteBitmap

namespace Microkernel

/-- The loop of `alloc_clusters` from cluster `c` on, `n` rounds at most: `fc` free clusters in a row
end before `c`, and the first of them is `fs`. -/
def allocClustersLoop (bits : List UInt8) (total count : ℕ) : ℕ → ℕ → ℕ → ℕ → Option ℕ
  | 0, _, _, _ => none
  | n + 1, c, fs, fc =>
    if ¬ c < total then none
    else if ¬ c / 8 < bits.length then none
    else if ByteBitmap.test bits c then allocClustersLoop bits total count n (c + 1) fs 0
    else
      let fs := if fc = 0 then c else fs
      if count ≤ fc + 1 then some fs else allocClustersLoop bits total count n (c + 1) fs (fc + 1)

/-- `alloc_clusters`: the first cluster or 0, and the bitmap. -/
def allocClusters (bitmap : Option (List UInt8)) (total count : ℕ) : ℕ × Option (List UInt8) :=
  match bitmap with
  | none => (0, none)
  | some bits =>
    if count = 0 then (0, some bits)
    else
      match allocClustersLoop bits total count total 2 0 0 with
      | some fs => (fs, some ((List.range' fs count).foldl ByteBitmap.set bits))
      | none => (0, some bits)

/-- `free_clusters`: the bitmap. -/
def freeClusterRun (bitmap : Option (List UInt8)) (start count : ℕ) : Option (List UInt8) :=
  bitmap.map fun bits =>
    (((List.range count).map fun i => u32 (start + i)).filter fun c => c / 8 < bits.length).foldl
      ByteBitmap.clear bits

/-! ## Runs of clear bits -/

variable {bits : List UInt8} {total count r s c fs fc : ℕ}

/-- A clear bit below the cluster count and the bitmap size. -/
def ClusterClear (bits : List UInt8) (total c : ℕ) : Prop :=
  c < total ∧ c / 8 < bits.length ∧ ByteBitmap.test bits c = false

/-- A run of clear bits, at cluster 2 or above. -/
def ClearRun (bits : List UInt8) (total count s : ℕ) : Prop :=
  2 ≤ s ∧ ∀ i < count, ClusterClear bits total (s + i)

/-- The lowest run. -/
def LowestRun (bits : List UInt8) (total count s : ℕ) : Prop :=
  ClearRun bits total count s ∧ ∀ r < s, ¬ ClearRun bits total count r

theorem LowestRun.unique (hr : LowestRun bits total count r) (hs : LowestRun bits total count s) :
    r = s := by
  rcases Nat.lt_trichotomy r s with h | h | h
  · exact absurd hr.1 (hs.2 r h)
  · exact h
  · exact absurd hs.1 (hr.2 s h)

/-- The state of the loop before cluster `c`: the clusters from `c - fc` on are clear, but they are too
few, and no run begins before them. -/
structure Scanned (bits : List UInt8) (total count c fs fc : ℕ) : Prop where
  short : fc < count
  begins : 2 + fc ≤ c
  start : fc ≠ 0 → fs + fc = c
  clear : ∀ i < fc, ClusterClear bits total (c - fc + i)
  none_before : ∀ r, r + fc < c → ¬ ClearRun bits total count r

/-- A cluster that is not clear is in no run. -/
theorem Scanned.skip (h : Scanned bits total count c fs fc) (hc : ¬ ClusterClear bits total c) :
    Scanned bits total count (c + 1) fs 0 := by
  obtain ⟨hshort, hbegins, hstart, -, hbefore⟩ := h
  constructor
  · omega
  · omega
  · exact fun hne => absurd rfl hne
  · intro i hi
    omega
  · intro r hr hrun
    by_cases hlt : r + fc < c
    · exact hbefore r hlt hrun
    · -- The run would go over `c`.
      have hin := hrun.2 (c - r) (by omega)
      rw [Nat.add_sub_of_le (by omega)] at hin
      exact hc hin

/-- One more clear cluster. -/
theorem Scanned.extend (h : Scanned bits total count c fs fc) (hc : ClusterClear bits total c)
    (hmore : ¬ count ≤ fc + 1) :
    Scanned bits total count (c + 1) (if fc = 0 then c else fs) (fc + 1) := by
  obtain ⟨hshort, hbegins, hstart, hclear, hbefore⟩ := h
  constructor
  · omega
  · omega
  · intro _
    split_ifs with hzero
    · omega
    · have hfs := hstart hzero
      omega
  · intro i hi
    rw [Nat.add_sub_add_right]
    by_cases hlast : i = fc
    · rw [hlast, Nat.sub_add_cancel (by omega)]
      exact hc
    · exact hclear i (by omega)
  · intro r hr
    exact hbefore r (by omega)

/-- The clear clusters are enough. -/
theorem Scanned.finish (h : Scanned bits total count c fs fc) (hc : ClusterClear bits total c)
    (hfull : count ≤ fc + 1) : LowestRun bits total count (if fc = 0 then c else fs) := by
  obtain ⟨hshort, hbegins, hstart, hclear, hbefore⟩ := h
  have hfirst : (if fc = 0 then c else fs) = c - fc := by
    split_ifs with hzero
    · omega
    · have hfs := hstart hzero
      omega
  rw [hfirst]
  refine ⟨⟨by omega, ?_⟩, ?_⟩
  · intro i hi
    by_cases hlast : i = fc
    · rw [hlast, Nat.sub_add_cancel (by omega)]
      exact hc
    · exact hclear i (by omega)
  · intro r hr
    exact hbefore r (by omega)

/-- Behind the last cluster no run begins. -/
theorem Scanned.over (h : Scanned bits total count c fs fc) (hc : ¬ (c < total ∧ c / 8 < bits.length)) :
    ¬ ClearRun bits total count r := by
  obtain ⟨hshort, hbegins, hstart, -, hbefore⟩ := h
  intro hrun
  by_cases hlt : r + fc < c
  · exact hbefore r hlt hrun
  · by_cases hle : r ≤ c
    · have hin := hrun.2 (c - r) (by omega)
      rw [Nat.add_sub_of_le hle] at hin
      exact hc ⟨hin.1, hin.2.1⟩
    · have hin := hrun.2 0 (by omega)
      rw [Nat.add_zero] at hin
      have hdiv : c / 8 ≤ r / 8 := Nat.div_le_div_right (by omega)
      exact hc ⟨by have := hin.1; omega, by have := hin.2.1; omega⟩

/-- **The loop finds the lowest run.** -/
theorem allocClustersLoop_spec (n : ℕ) : ∀ {c fs fc : ℕ}, total ≤ c + n →
    Scanned bits total count c fs fc →
    match allocClustersLoop bits total count n c fs fc with
    | some s => LowestRun bits total count s
    | none => ∀ r, ¬ ClearRun bits total count r := by
  induction n with
  | zero =>
    intro c fs fc hn h
    exact fun r => h.over fun hin => by omega
  | succ n ih =>
    intro c fs fc hn h
    rw [allocClustersLoop]
    by_cases htotal : c < total
    · rw [if_neg (not_not_intro htotal)]
      by_cases hsize : c / 8 < bits.length
      · rw [if_neg (not_not_intro hsize)]
        cases hbit : ByteBitmap.test bits c with
        | true =>
          rw [if_pos rfl]
          apply ih (by omega)
          apply h.skip
          rintro ⟨-, -, hclear⟩
          rw [hbit] at hclear
          cases hclear
        | false =>
          rw [if_neg Bool.false_ne_true]
          dsimp only
          by_cases hfull : count ≤ fc + 1
          · rw [if_pos hfull]
            exact h.finish ⟨htotal, hsize, hbit⟩ hfull
          · rw [if_neg hfull]
            exact ih (by omega) (h.extend ⟨htotal, hsize, hbit⟩ hfull)
      · rw [if_pos hsize]
        exact fun r => h.over fun hin => hsize hin.2
    · rw [if_pos htotal]
      exact fun r => h.over fun hin => htotal hin.1

/-! ## Allocation -/

/-- The bits of a run are set and no others. -/
theorem ClearRun.test_set (h : ClearRun bits total count s) :
    ByteBitmap.test ((List.range' s count).foldl ByteBitmap.set bits) c =
      (decide (s ≤ c ∧ c < s + count) || ByteBitmap.test bits c) := by
  rw [ByteBitmap.test_foldl_set]
  · congr 1
    apply decide_eq_decide.mpr
    rw [List.mem_range'_1]
  · intro p hp
    obtain ⟨hle, hlt⟩ := List.mem_range'_1.mp hp
    have hin := h.2 (p - s) (by omega)
    rw [Nat.add_sub_of_le hle] at hin
    exact hin.2.1

/-- What is freed again is as before. -/
theorem ClearRun.free_set (h : ClearRun bits total count s) (htotal : total < 2 ^ 32) :
    freeClusterRun (some ((List.range' s count).foldl ByteBitmap.set bits)) s count = some bits := by
  have hclear : ∀ p ∈ List.range' s count, p / 8 < bits.length ∧ ByteBitmap.test bits p = false := by
    intro p hp
    obtain ⟨hle, hlt⟩ := List.mem_range'_1.mp hp
    have hin := h.2 (p - s) (by omega)
    rw [Nat.add_sub_of_le hle] at hin
    exact hin.2
  have hclusters : ((List.range count).map fun i => u32 (s + i)) = List.range' s count := by
    rw [List.range'_eq_map_range]
    apply List.map_congr_left
    intro i hi
    have hin := (h.2 i (List.mem_range.mp hi)).1
    exact Nat.mod_eq_of_lt (by omega)
  unfold freeClusterRun
  rw [Option.map_some, hclusters, List.filter_eq_self.mpr, ByteBitmap.foldl_clear_foldl_set hclear]
  intro p hp
  rw [ByteBitmap.length_foldl_set, decide_eq_true_iff]
  exact (hclear p hp).1

/-- The allocation, as the loop ends. -/
theorem allocClusters_cases (bits : List UInt8) (total : ℕ) (hcount : 1 ≤ count) :
    (∃ s, LowestRun bits total count s ∧ allocClusters (some bits) total count =
      (s, some ((List.range' s count).foldl ByteBitmap.set bits))) ∨
    (∀ s, ¬ ClearRun bits total count s) ∧ allocClusters (some bits) total count = (0, some bits) := by
  have hscan : Scanned bits total count 2 0 0 := by
    constructor
    · omega
    · omega
    · exact fun hne => absurd rfl hne
    · intro i hi
      omega
    · intro r hr hrun
      have hbegin := hrun.1
      omega
  have hspec := allocClustersLoop_spec total (by omega) hscan
  unfold allocClusters
  dsimp only
  rw [if_neg (by omega)]
  cases hloop : allocClustersLoop bits total count total 2 0 0 with
  | some s =>
    left
    rw [hloop] at hspec
    exact ⟨s, hspec, rfl⟩
  | none =>
    right
    rw [hloop] at hspec
    exact ⟨hspec, rfl⟩

/-- **The lowest run of clear bits is allocated**, nothing if there is none, and freeing it restores
the bitmap. -/
theorem allocClusters_spec (bits : List UInt8) {total count : ℕ} (hcount : 1 ≤ count)
    (htotal : total < 2 ^ 32) :
    (∀ s, LowestRun bits total count s →
      ∃ bits', allocClusters (some bits) total count = (s, some bits') ∧ bits'.length = bits.length ∧
        (∀ c, ByteBitmap.test bits' c = (decide (s ≤ c ∧ c < s + count) || ByteBitmap.test bits c)) ∧
        freeClusterRun (some bits') s count = some bits) ∧
    ((allocClusters (some bits) total count).1 = 0 ↔ ∀ s, ¬ ClearRun bits total count s) ∧
    ((∀ s, ¬ ClearRun bits total count s) → allocClusters (some bits) total count = (0, some bits)) := by
  rcases allocClusters_cases bits total hcount with ⟨s, hs, halloc⟩ | ⟨hnone, halloc⟩
  · have hbegin := hs.1.1
    refine ⟨?_, ?_, fun hnone => absurd hs.1 (hnone s)⟩
    · intro r hr
      obtain rfl := hr.unique hs
      exact ⟨_, halloc, ByteBitmap.length_foldl_set, fun c => hs.1.test_set, hs.1.free_set htotal⟩
    · rw [halloc]
      exact ⟨fun hzero => absurd hzero (by dsimp only; omega), fun hnone => absurd hs.1 (hnone s)⟩
  · refine ⟨fun r hr => absurd hr.1 (hnone r), ?_, fun _ => halloc⟩
    rw [halloc]
    exact ⟨fun _ => hnone, fun _ => rfl⟩

/-- A gap of one cluster is too small for two. -/
theorem allocClusters_spec_two :
    (∀ s, LowestRun [0x0B, 0x00] 16 2 s →
      ∃ bits', allocClusters (some [0x0B, 0x00]) 16 2 = (s, some bits') ∧
        bits'.length = [(0x0B : UInt8), 0x00].length ∧
        (∀ c, ByteBitmap.test bits' c =
          (decide (s ≤ c ∧ c < s + 2) || ByteBitmap.test [0x0B, 0x00] c)) ∧
        freeClusterRun (some bits') s 2 = some [0x0B, 0x00]) ∧
    ((allocClusters (some [0x0B, 0x00]) 16 2).1 = 0 ↔ ∀ s, ¬ ClearRun [0x0B, 0x00] 16 2 s) ∧
    ((∀ s, ¬ ClearRun [0x0B, 0x00] 16 2 s) →
      allocClusters (some [0x0B, 0x00]) 16 2 = (0, some [0x0B, 0x00])) :=
  allocClusters_spec [0x0B, 0x00] (by norm_num) (by norm_num)

end Microkernel

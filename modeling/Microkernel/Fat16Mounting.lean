/-
# FAT16: what mounting accepts

`fat16_mount` checks four fields of the boot sector and computes the regions of the volume from
seven.  It does not check that the computation makes sense: the size of a cluster may be zero,
the tables may take more sectors than there are, and there may be more clusters than a cluster
number or the table can tell apart.
-/
import Microkernel.Fat16

namespace Microkernel

/-- The geometry of a mounted volume is coherent: the clusters have a size, the regions lie in the
volume, and every cluster has a 16-bit number and an entry in the first table. -/
structure Fat16Info.Sound (info : Fat16Info) : Prop where
  divisor : info.sectorsPerCluster ≠ 0
  dataStart : info.dataStartLba ≤ info.totalSectors
  clusters : info.dataStartLba + info.totalClusters * info.sectorsPerCluster ≤ info.totalSectors
  numbers : ∀ c, 2 ≤ c → c < info.totalClusters + 2 →
    c < 2 ^ 16 ∧ 2 * c + 2 ≤ info.fatSizeSectors * 512

/-- Mounting never divides by zero, and what it accepts is coherent. -/
def MountsSoundly (d : Disk) : Prop := ∀ info, fat16Mount d = some info → info.Sound

/-! ## The boot sector -/

/-- The tests of `fat16_mount`. -/
def BootAccepted (boot : Memory) : Prop :=
  (boot 510 = 0x55 ∧ boot 511 = 0xAA) ∧ boot.loadLE 11 2 = 512 ∧
    (boot.loadLE 16 1 ≠ 0 ∧ boot.loadLE 16 1 ≤ 2) ∧ boot.loadLE 22 2 ≠ 0 ∧ boot.loadLE 17 2 ≠ 0

/-- The sectors of the volume, by the field of 16 or that of 32 bits. -/
def bootTotal (boot : Memory) : ℕ :=
  if boot.loadLE 19 2 ≠ 0 then boot.loadLE 19 2 else boot.loadLE 32 4

/-- The sectors before the clusters: those reserved, the tables and the root directory. -/
def bootTables (boot : Memory) : ℕ :=
  boot.loadLE 14 2 + boot.loadLE 16 1 * boot.loadLE 22 2 + (boot.loadLE 17 2 * 32 + 511) / 512

/-- The fields fit together: clusters have a size, the tables fit into the volume, and the clusters
behind them are not more than their numbers and than the entries of a table. -/
def BootFits (boot : Memory) : Prop :=
  boot.loadLE 13 1 ≠ 0 ∧ bootTables boot ≤ bootTotal boot ∧
    (bootTotal boot - bootTables boot) / boot.loadLE 13 1 + 2 ≤ min (2 ^ 16) (256 * boot.loadLE 22 2)

instance (boot : Memory) : Decidable (BootAccepted boot) := by
  unfold BootAccepted
  infer_instance

instance (boot : Memory) : Decidable (BootFits boot) :=
  inferInstanceAs (Decidable (_ ∧ _ ∧ _))

/-- What mounting computes from the fields. -/
structure MountedFrom (boot : Memory) (info : Fat16Info) : Prop where
  spc : info.sectorsPerCluster = boot.loadLE 13 1
  total : info.totalSectors = bootTotal boot
  fatSize : info.fatSizeSectors = boot.loadLE 22 2
  dataStart : info.dataStartLba = bootTables boot
  clusters : info.totalClusters =
    (bootTotal boot + 2 ^ 32 - bootTables boot) % 2 ^ 32 / boot.loadLE 13 1

/-- A volume is mounted exactly if the tests accept its boot sector. -/
theorem fat16Mount_cases (d : Disk) :
    (¬ BootAccepted (d 0) ∧ fat16Mount d = none) ∨
    (BootAccepted (d 0) ∧ ∃ info, fat16Mount d = some info ∧ MountedFrom (d 0) info) := by
  unfold fat16Mount BootAccepted
  dsimp only
  by_cases h₁ : d 0 510 ≠ 0x55 ∨ d 0 511 ≠ 0xAA
  · rw [if_pos h₁]
    exact Or.inl ⟨fun h => h₁.elim (absurd h.1.1) (absurd h.1.2), rfl⟩
  by_cases h₂ : (d 0).loadLE 11 2 ≠ 512
  · rw [if_neg h₁, if_pos h₂]
    exact Or.inl ⟨fun h => h₂ h.2.1, rfl⟩
  by_cases h₃ : (d 0).loadLE 16 1 = 0 ∨ (d 0).loadLE 16 1 > 2
  · rw [if_neg h₁, if_neg h₂, if_pos h₃]
    exact Or.inl ⟨fun h => h₃.elim h.2.2.1.1 (not_lt.mpr h.2.2.1.2), rfl⟩
  by_cases h₄ : (d 0).loadLE 22 2 = 0
  · rw [if_neg h₁, if_neg h₂, if_neg h₃, if_pos h₄]
    exact Or.inl ⟨fun h => h.2.2.2.1 h₄, rfl⟩
  by_cases h₅ : (d 0).loadLE 17 2 = 0
  · rw [if_neg h₁, if_neg h₂, if_neg h₃, if_neg h₄, if_pos h₅]
    exact Or.inl ⟨fun h => h.2.2.2.2 h₅, rfl⟩
  rw [if_neg h₁, if_neg h₂, if_neg h₃, if_neg h₄, if_neg h₅]
  rw [not_or, not_not, not_not] at h₁
  rw [not_or, not_lt] at h₃
  exact Or.inr ⟨⟨h₁, not_not.mp h₂, h₃, h₄, h₅⟩, _, rfl, ⟨rfl, rfl, rfl, rfl, rfl⟩⟩

theorem bootTotal_lt (boot : Memory) : bootTotal boot < 2 ^ 32 := by
  have h₁ := boot.loadLE_lt 19 2
  have h₂ := boot.loadLE_lt 32 4
  unfold bootTotal
  split_ifs <;> omega

/-- The regions computed from the fields are coherent exactly if the fields fit together. -/
theorem MountedFrom.sound_iff {boot : Memory} {info : Fat16Info} (h : MountedFrom boot info)
    (hfat : boot.loadLE 22 2 ≠ 0) : info.Sound ↔ BootFits boot := by
  have htotal := bootTotal_lt boot
  have hfields : info.Sound ↔ boot.loadLE 13 1 ≠ 0 ∧ bootTables boot ≤ bootTotal boot ∧
      bootTables boot + info.totalClusters * boot.loadLE 13 1 ≤ bootTotal boot ∧
      ∀ c, 2 ≤ c → c < info.totalClusters + 2 → c < 2 ^ 16 ∧ 2 * c + 2 ≤ boot.loadLE 22 2 * 512 := by
    rw [← h.spc, ← h.total, ← h.fatSize, ← h.dataStart]
    exact ⟨fun hs => ⟨hs.1, hs.2, hs.3, hs.4⟩, fun hs => ⟨hs.1, hs.2.1, hs.2.2.1, hs.2.2.2⟩⟩
  rw [hfields]
  unfold BootFits
  refine and_congr_right fun _ => and_congr_right fun hle => ?_
  -- The tables fit, so the difference does not wrap around.
  have hclusters : info.totalClusters = (bootTotal boot - bootTables boot) / boot.loadLE 13 1 := by
    rw [h.clusters]
    congr 1
    omega
  rw [hclusters]
  generalize hn : (bootTotal boot - bootTables boot) / boot.loadLE 13 1 = n
  constructor
  · rintro ⟨_, hnumbers⟩
    rw [le_min_iff]
    by_cases hzero : n = 0
    · omega
    · have hlast := hnumbers (n + 1) (by omega) (by omega)
      omega
  · intro hmin
    rw [le_min_iff] at hmin
    refine ⟨?_, fun c h₂ hc => by omega⟩
    have hmul := Nat.div_mul_le_self (bootTotal boot - bootTables boot) (boot.loadLE 13 1)
    rw [hn] at hmul
    omega

/-- **When mounting is sound**: the boot sector is refused, or its fields fit together. -/
theorem mountsSoundly_iff (d : Disk) :
    MountsSoundly d ↔ ¬ BootAccepted (d 0) ∨ BootFits (d 0) := by
  unfold MountsSoundly
  rcases fat16Mount_cases d with ⟨hnot, hnone⟩ | ⟨hacc, info, hsome, hfrom⟩
  · refine ⟨fun _ => Or.inl hnot, fun _ info hinfo => ?_⟩
    rw [hnone] at hinfo
    cases hinfo
  · have hiff := hfrom.sound_iff hacc.2.2.2.1
    constructor
    · exact fun h => Or.inr (hiff.mp (h info hsome))
    · rintro (hnot | hfits) info' hinfo
      · exact absurd hacc hnot
      · obtain rfl : info = info' := Option.some.inj (hsome.symm.trans hinfo)
        exact hiff.mpr hfits

/-- A volume of 32768 sectors as `fat16_format` lays it out, and the same with clusters of no
sectors. -/
def goodBoot : Memory := bootSector 32768 ⟨32, 4, 8167⟩ none

def zeroClusterBoot : Memory := goodBoot.storeLE 13 0 1

example : BootFits goodBoot := by decide +kernel

/-- Clusters of no sectors are accepted; the clusters are counted by dividing by zero. -/
theorem mounts_zero_clusters :
    (∃ info, fat16Mount (fun _ => zeroClusterBoot) = some info ∧ info.sectorsPerCluster = 0) ∧
    ¬ MountsSoundly fun _ => zeroClusterBoot := by
  have hacc : BootAccepted zeroClusterBoot := by decide +kernel
  have hzero : zeroClusterBoot.loadLE 13 1 = 0 := by decide +kernel
  rcases fat16Mount_cases (fun _ => zeroClusterBoot) with ⟨hnot, _⟩ | ⟨_, info, hsome, hfrom⟩
  · exact absurd hacc hnot
  · have hspc : info.sectorsPerCluster = 0 := hfrom.spc.trans hzero
    exact ⟨⟨info, hsome, hspc⟩, fun h => (h info hsome).divisor hspc⟩

end Microkernel

/-
# The geometry of a new FAT16 volume

`fat16_format` finds the size of the FAT by iteration: the larger the FAT, the fewer clusters
are left and the smaller a FAT they need.  With clusters of `s` sectors the iteration settles
unless the number of sectors hits one of two residues modulo `256 * s + 2`; there it alternates
between two sizes and ends with the smaller one, which has no entry for the last cluster.
-/
import Microkernel.Fat16

namespace Microkernel

/-! ## The iteration -/

/-- The cluster size is one of five, by the size of the disk. -/
theorem initialSpc_cases (total : ℕ) :
    (initialSpc total = 4 ∧ total < 34816) ∨
    (initialSpc total = 8 ∧ 34816 ≤ total ∧ total < 264192) ∨
    (initialSpc total = 16 ∧ 264192 ≤ total ∧ total < 526336) ∨
    (initialSpc total = 32 ∧ 526336 ≤ total ∧ total < 1050624) ∨
    (initialSpc total = 64 ∧ 1050624 ≤ total) := by
  unfold initialSpc
  dsimp only
  split_ifs <;> omega

/-- The number whose residue decides, and the period. -/
def fatResidue (total : ℕ) : ℕ :=
  (total - 33 + initialSpc total) % (256 * initialSpc total + 2)

/-- How many periods there are before the size of the disk. -/
def fatQuotient (total : ℕ) : ℕ :=
  (total - 33 + initialSpc total) / (256 * initialSpc total + 2)

theorem formatDataStart_eq (fatSize : ℕ) : formatDataStart fatSize = 33 + 2 * fatSize := by
  unfold formatDataStart formatReserved formatNumFats formatRootSectors
  omega

variable {total spc n fatSize : ℕ}

theorem fatSizeLoop_of_fixed (hroom : formatDataStart fatSize < total)
    (hfixed : neededFat total spc fatSize = fatSize) :
    fatSizeLoop total spc (n + 1) fatSize = some fatSize := by
  unfold fatSizeLoop
  rw [if_neg (Nat.not_le.mpr hroom), if_pos hfixed]

theorem fatSizeLoop_of_ne (hroom : formatDataStart fatSize < total)
    (hne : neededFat total spc fatSize ≠ fatSize) :
    fatSizeLoop total spc (n + 1) fatSize =
      fatSizeLoop total spc n (neededFat total spc fatSize) := by
  rw [fatSizeLoop, if_neg (Nat.not_le.mpr hroom), if_neg hne]

/-- A size is needed if it has an entry for each cluster and one sector less has not. -/
theorem neededFat_eq_iff_clusters (f k : ℕ) : neededFat total spc f = k ↔
    (total - formatDataStart f) / spc + 2 ≤ 256 * k ∧
      256 * k ≤ (total - formatDataStart f) / spc + 257 := by
  unfold neededFat
  omega

/-- The same without a division. -/
theorem neededFat_eq_iff (hspc : 0 < spc) (f k : ℕ) : neededFat total spc f = k ↔
    total - (33 + 2 * f) + spc < 256 * (spc * k) ∧
      256 * (spc * k) ≤ total - (33 + 2 * f) + 257 * spc := by
  have hassoc : 256 * (spc * k) = 256 * k * spc := by ring
  have hup : (total - (33 + 2 * f)) / spc + 1 < 256 * k ↔
      total - (33 + 2 * f) + spc < 256 * k * spc := by
    rw [← Nat.add_div_right _ hspc, Nat.div_lt_iff_lt_mul hspc]
  have hdown : 256 * k ≤ (total - (33 + 2 * f)) / spc + 257 ↔
      256 * k * spc ≤ total - (33 + 2 * f) + 257 * spc := by
    rw [← Nat.add_mul_div_right _ _ hspc, Nat.le_div_iff_mul_le hspc]
  rw [hassoc, ← hup, ← hdown, neededFat_eq_iff_clusters, formatDataStart_eq]
  omega

/-- The size of the disk in terms of the quotient and the residue. -/
theorem total_eq (total : ℕ) : 0 < initialSpc total ∧ fatResidue total < 256 * initialSpc total + 2 ∧
    total - 33 + initialSpc total =
      256 * (initialSpc total * fatQuotient total) + 2 * fatQuotient total + fatResidue total := by
  have hpos : 0 < initialSpc total := by
    rcases initialSpc_cases total with ⟨h, _⟩ | ⟨h, _⟩ | ⟨h, _⟩ | ⟨h, _⟩ | ⟨h, _⟩ <;> omega
  refine ⟨hpos, Nat.mod_lt _ (by omega), ?_⟩
  calc total - 33 + initialSpc total
      = (256 * initialSpc total + 2) * fatQuotient total + fatResidue total :=
        (Nat.div_add_mod _ _).symm
    _ = _ := by ring

/-- The tables of that size leave room on the disk. -/
theorem fatQuotient_room (hlo : 4096 ≤ total) :
    3 ≤ fatQuotient total + 1 ∧ formatDataStart (fatQuotient total + 2) < total := by
  unfold fatQuotient
  rw [formatDataStart_eq]
  rcases initialSpc_cases total with ⟨h, _⟩ | ⟨h, _⟩ | ⟨h, _⟩ | ⟨h, _⟩ | ⟨h, _⟩ <;>
    rw [h] <;> omega

theorem fatQuotient_le (hhi : total ≤ 8388256) : fatQuotient total ≤ 128 * initialSpc total := by
  unfold fatQuotient
  rcases initialSpc_cases total with ⟨h, _⟩ | ⟨h, _⟩ | ⟨h, _⟩ | ⟨h, _⟩ | ⟨h, _⟩ <;>
    rw [h] <;> omega

/-- Where the residue is at least 2, the size after the quotient is the one that fits. -/
theorem neededFat_fixed (hlo : 4096 ≤ total) (hres : 2 ≤ fatResidue total) :
    neededFat total (initialSpc total) (fatQuotient total + 1) = fatQuotient total + 1 := by
  obtain ⟨hpos, hlt, htotal⟩ := total_eq total
  obtain ⟨-, hroom⟩ := fatQuotient_room hlo
  rw [formatDataStart_eq] at hroom
  simp only [neededFat_eq_iff hpos, Nat.mul_add, Nat.mul_one]
  omega

/-- The sizes near it. -/
theorem neededFat_near (hlo : 4096 ≤ total) (hhi : total ≤ 8388256) (hres : 2 ≤ fatResidue total) :
    (neededFat total (initialSpc total) 1 = fatQuotient total + 1 ∨
      neededFat total (initialSpc total) 1 = fatQuotient total + 2) ∧
    (neededFat total (initialSpc total) (fatQuotient total + 2) = fatQuotient total + 1 ∨
      neededFat total (initialSpc total) (fatQuotient total + 2) = fatQuotient total ∧
      neededFat total (initialSpc total) (fatQuotient total) = fatQuotient total + 1) := by
  obtain ⟨hpos, hlt, htotal⟩ := total_eq total
  obtain ⟨-, hroom⟩ := fatQuotient_room hlo
  have hle := fatQuotient_le hhi
  rw [formatDataStart_eq] at hroom
  simp only [neededFat_eq_iff hpos, Nat.mul_add, Nat.mul_one]
  constructor
  · omega
  · omega

/-- **The iteration settles** where the residue is at least 2. -/
theorem fatSizeLoop_settles (hlo : 4096 ≤ total) (hhi : total ≤ 8388256)
    (hres : 2 ≤ fatResidue total) :
    fatSizeLoop total (initialSpc total) 10 1 = some (fatQuotient total + 1) := by
  have hfixed := neededFat_fixed hlo hres
  obtain ⟨hone, htwo⟩ := neededFat_near hlo hhi hres
  obtain ⟨hthree, hroom⟩ := fatQuotient_room hlo
  rw [formatDataStart_eq] at hroom
  have hroom' : ∀ f ≤ fatQuotient total + 2, formatDataStart f < total := by
    intro f hf
    rw [formatDataStart_eq]
    omega
  rw [fatSizeLoop_of_ne (hroom' 1 (by omega)) (by omega)]
  rcases hone with hone | hone
  · rw [hone, fatSizeLoop_of_fixed (hroom' _ (by omega)) hfixed]
  · rw [hone, fatSizeLoop_of_ne (hroom' _ (by omega)) (by omega)]
    rcases htwo with htwo | ⟨htwo, hzero⟩
    · rw [htwo, fatSizeLoop_of_fixed (hroom' _ (by omega)) hfixed]
    · rw [htwo, fatSizeLoop_of_ne (hroom' _ (by omega)) (by omega), hzero,
        fatSizeLoop_of_fixed (hroom' _ (by omega)) hfixed]

/-- Where the residue is less than 2 there are two sizes, each of which needs the other. -/
theorem neededFat_alternates (hlo : 4096 ≤ total) (hhi : total ≤ 8388256)
    (hres : fatResidue total < 2) :
    neededFat total (initialSpc total) 1 = fatQuotient total + 1 ∧
    neededFat total (initialSpc total) (fatQuotient total + 1) = fatQuotient total ∧
    neededFat total (initialSpc total) (fatQuotient total) = fatQuotient total + 1 := by
  obtain ⟨hpos, hlt, htotal⟩ := total_eq total
  obtain ⟨htwo, hroom⟩ := fatQuotient_room hlo
  have hle := fatQuotient_le hhi
  rw [formatDataStart_eq] at hroom
  simp only [neededFat_eq_iff hpos, Nat.mul_add, Nat.mul_one]
  refine ⟨?_, ?_, ?_⟩
  · omega
  · omega
  · omega

/-- **The iteration alternates** where the residue is less than 2, and ends with the smaller
size. -/
theorem fatSizeLoop_alternates (hlo : 4096 ≤ total) (hhi : total ≤ 8388256)
    (hres : fatResidue total < 2) :
    fatSizeLoop total (initialSpc total) 10 1 = some (fatQuotient total) := by
  obtain ⟨hone, hdown, hup⟩ := neededFat_alternates hlo hhi hres
  obtain ⟨hthree, hroom⟩ := fatQuotient_room hlo
  rw [formatDataStart_eq] at hroom
  have hroom' : ∀ f ≤ fatQuotient total + 1, formatDataStart f < total := by
    intro f hf
    rw [formatDataStart_eq]
    omega
  -- Two rounds come back to the smaller size.
  have htwo : ∀ n, fatSizeLoop total (initialSpc total) (n + 2) (fatQuotient total) =
      fatSizeLoop total (initialSpc total) n (fatQuotient total) := by
    intro n
    rw [fatSizeLoop_of_ne (hroom' _ (by omega)) (by omega), hup,
      fatSizeLoop_of_ne (hroom' _ (by omega)) (by omega), hdown]
  rw [fatSizeLoop_of_ne (hroom' 1 (by omega)) (by omega), hone,
    fatSizeLoop_of_ne (hroom' _ (by omega)) (by omega), hdown, htwo 6, htwo 4, htwo 2, htwo 0]
  rfl

/-- A larger FAT leaves fewer clusters. -/
theorem neededFat_le (hpos : 1 ≤ fatSize) :
    1 ≤ neededFat total spc fatSize ∧ neededFat total spc fatSize ≤ neededFat total spc 1 := by
  unfold neededFat
  rw [formatDataStart_eq, formatDataStart_eq]
  have hdiv : (total - (33 + 2 * fatSize)) / spc ≤ (total - (33 + 2 * 1)) / spc :=
    Nat.div_le_div_right (by omega)
  generalize (total - (33 + 2 * fatSize)) / spc = c at *
  generalize (total - (33 + 2 * 1)) / spc = c' at *
  omega

/-- The tables leave room on the disk as long as they are no larger than needed. -/
theorem formatDataStart_lt (hlo : 4096 ≤ total)
    (hle : fatSize ≤ neededFat total (initialSpc total) 1) : formatDataStart fatSize < total := by
  unfold neededFat at hle
  rw [formatDataStart_eq] at *
  rcases initialSpc_cases total with ⟨h, _⟩ | ⟨h, _⟩ | ⟨h, _⟩ | ⟨h, _⟩ | ⟨h, _⟩ <;>
    rw [h] at hle <;> omega

/-- The iteration always ends with a size, which is no larger than what the largest number of
clusters needs. -/
theorem fatSizeLoop_le (hlo : 4096 ≤ total) (hpos : 1 ≤ fatSize)
    (hle : fatSize ≤ neededFat total (initialSpc total) 1) :
    ∃ fatSize', fatSizeLoop total (initialSpc total) n fatSize = some fatSize' ∧
      1 ≤ fatSize' ∧ fatSize' ≤ neededFat total (initialSpc total) 1 := by
  induction n generalizing fatSize with
  | zero => exact ⟨fatSize, rfl, hpos, hle⟩
  | succ n ih =>
    have hroom := formatDataStart_lt hlo hle
    by_cases hfixed : neededFat total (initialSpc total) fatSize = fatSize
    · exact ⟨fatSize, fatSizeLoop_of_fixed hroom hfixed, hpos, hle⟩
    · rw [fatSizeLoop_of_ne hroom hfixed]
      obtain ⟨hpos', hle'⟩ := @neededFat_le total (initialSpc total) fatSize hpos
      exact ih hpos' hle'

/-! ## What `fat16_format` computes -/

/-- The geometry from the size of the FAT. -/
theorem formatGeometry_eq (hlo : 4096 ≤ total) (hhi : total < 2 ^ 32)
    (hloop : fatSizeLoop total (initialSpc total) 10 1 = some fatSize)
    (hroom : formatDataStart fatSize ≤ total) :
    formatGeometry total =
      if (total - formatDataStart fatSize) / initialSpc total < 4085 then none
      else some ⟨fatSize, growSpc (total - formatDataStart fatSize) 8 (initialSpc total),
        (total - formatDataStart fatSize) /
          growSpc (total - formatDataStart fatSize) 8 (initialSpc total)⟩ := by
  have hsub : (total + 2 ^ 32 - formatDataStart fatSize) % 2 ^ 32 =
      total - formatDataStart fatSize := by omega
  unfold formatGeometry
  rw [if_neg (Nat.not_lt.mpr hlo), hloop, Option.bind_some]
  dsimp only
  rw [hsub]

/-- The tables of the size the iteration gives leave room on the disk. -/
theorem fatSizeLoop_room (hlo : 4096 ≤ total) :
    ∃ fatSize, fatSizeLoop total (initialSpc total) 10 1 = some fatSize ∧ 1 ≤ fatSize ∧
      fatSize ≤ neededFat total (initialSpc total) 1 ∧ formatDataStart fatSize ≤ total := by
  obtain ⟨hone, -⟩ := @neededFat_le total (initialSpc total) 1 (le_refl 1)
  obtain ⟨fatSize, hloop, hpos, hle⟩ := @fatSizeLoop_le total 10 1 hlo (le_refl 1) hone
  exact ⟨fatSize, hloop, hpos, hle, (formatDataStart_lt hlo hle).le⟩

/-- Small disks are refused. -/
theorem formatGeometry_small (h : total < 16405) : formatGeometry total = none := by
  by_cases hlo : total < 4096
  · unfold formatGeometry
    rw [if_pos hlo]
  · have hspc : initialSpc total = 4 := by
      rcases initialSpc_cases total with ⟨h, _⟩ | ⟨h, _⟩ | ⟨h, _⟩ | ⟨h, _⟩ | ⟨h, _⟩ <;> omega
    obtain ⟨fatSize, hloop, hpos, -, hroom⟩ := fatSizeLoop_room (Nat.not_lt.mp hlo)
    -- Near the limit the size of the FAT matters; there it is 16.
    have hlast : 16374 < total → fatSize = 16 := by
      intro hnear
      have hres : 2 ≤ fatResidue total := by
        unfold fatResidue
        rw [hspc]
        omega
      have hquot : fatQuotient total = 15 := by
        unfold fatQuotient
        rw [hspc]
        omega
      rw [fatSizeLoop_settles (by omega) (by omega) hres, hquot] at hloop
      exact (Option.some.inj hloop).symm
    rw [formatGeometry_eq (by omega) (by omega) hloop hroom, if_pos]
    rw [hspc, formatDataStart_eq]
    omega

/-! ## Reading it back -/

theorem formatLabel_length (label : Option (List UInt8)) : (formatLabel label).length = 11 := by
  cases label with
  | none => decide +kernel
  | some label =>
    unfold formatLabel
    simp only [List.length_append, List.length_map, List.length_take, List.length_replicate]
    omega

/-- The fields of the boot sector that `fat16_mount` reads. -/
structure BootFields (boot : Memory) (total : ℕ) (g : Geometry) : Prop where
  signature : boot 510 = 0x55 ∧ boot 511 = 0xAA
  bytesPerSector : boot.loadLE 11 2 = 512
  spc : boot.loadLE 13 1 = g.spc % 2 ^ 8
  reserved : boot.loadLE 14 2 = 1
  numFats : boot.loadLE 16 1 = 2
  rootEntries : boot.loadLE 17 2 = 512
  total16 : boot.loadLE 19 2 = if total < 65536 then total else 0
  total32 : boot.loadLE 32 4 = if total < 65536 then 0 else total % 2 ^ 32
  fatSize : boot.loadLE 22 2 = g.fatSize % 2 ^ 16

theorem bootFields (total : ℕ) (g : Geometry) (label : Option (List UInt8)) :
    BootFields (bootSector total g label) total g := by
  have hlabel := formatLabel_length label
  have hoem : "MICROOS ".toUTF8.toList.length = 8 := by decide +kernel
  have htype : "FAT16   ".toUTF8.toList.length = 8 := by decide +kernel
  have hjump : ([0xEB, 0x3C, 0x90] : List UInt8).length = 3 := rfl
  have hsig : ([0x55, 0xAA] : List UInt8).length = 2 := rfl
  unfold bootSector
  dsimp only
  constructor
  · constructor
    · exact Memory.storeBytes_of_inside _ (x := 0) (by decide)
    · exact Memory.storeBytes_of_inside _ (x := 1) (by decide)
  all_goals
    split_ifs with htotal
    all_goals
      simp (disch := omega) only [Memory.loadLE_storeBytes_of_disjoint,
        Memory.loadLE_storeLE_of_disjoint, Memory.loadLE_storeLE_same]
      try rfl
  · exact Nat.mod_eq_of_lt (by omega)

/-- What `fat16_mount` gives for a formatted disk. -/
def mountedInfo (total : ℕ) (g : Geometry) (label : List UInt8) : Fat16Info :=
  let rootDirLba := 1 + 2 * (g.fatSize % 2 ^ 16)
  { bytesPerSector := 512
    sectorsPerCluster := g.spc % 2 ^ 8
    reservedSectors := 1
    numFats := 2
    rootEntryCount := 512
    totalSectors := total
    fatSizeSectors := g.fatSize % 2 ^ 16
    fatStartLba := 1
    rootDirLba := rootDirLba
    rootDirSectors := 32
    dataStartLba := rootDirLba + 32
    clusterSize := g.spc % 2 ^ 8 * 512
    totalClusters := (total + 2 ^ 32 - (rootDirLba + 32)) % 2 ^ 32 / (g.spc % 2 ^ 8)
    volumeLabel := label }

/-- Only the boot sector matters to `fat16_mount`. -/
theorem fat16Mount_eq {d : Disk} {g : Geometry} (hfields : BootFields (d 0) total g)
    (htotal : total < 2 ^ 32) (hfat : g.fatSize % 2 ^ 16 ≠ 0) :
    fat16Mount d =
      some (mountedInfo total g ((labelBytes (d 0)).rdropWhile (· == 0x20))) := by
  have hboth : (if (if total < 65536 then total else 0) ≠ 0 then
      (if total < 65536 then total else 0)
      else if total < 65536 then 0 else total % 2 ^ 32) = total := by
    split_ifs <;> omega
  unfold fat16Mount mountedInfo
  dsimp only
  rw [hfields.bytesPerSector, hfields.spc, hfields.reserved, hfields.numFats,
    hfields.rootEntries, hfields.total16, hfields.total32, hfields.fatSize, hboth]
  rw [if_neg (by simp [hfields.signature]), if_neg (by omega), if_neg (by omega),
    if_neg hfat, if_neg (by omega)]

/-- The writes after the boot sector go elsewhere. -/
theorem fat16Format_boot {d d' : Disk} {g : Geometry} {label : Option (List UInt8)}
    (hg : formatGeometry total = some g) (h : fat16Format d total label = some d') :
    d' 0 = bootSector total g label := by
  unfold fat16Format at h
  rw [hg] at h
  cases h
  have hroot : 0 < g.rootLba := by
    unfold Geometry.rootLba formatReserved
    omega
  have hres : 0 < formatReserved := Nat.one_pos
  dsimp only
  rw [Disk.write_of_ne _ _ hroot.ne, Disk.writeRun_of_outside _ _ (Or.inl hroot),
    Disk.writeRun_of_outside _ _ (Or.inl (by omega)),
    Disk.writeRun_of_outside _ _ (Or.inl hres), Disk.write_same]

/-! ## The regions of a volume -/

/-- The parts of a volume. -/
inductive VolumeRegion
  | boot
  | fat (i : ℕ)
  | rootDir
  | cluster (c : ℕ)
  deriving DecidableEq

/-- Which parts a mounted volume has. -/
def VolumeRegion.Present (info : Fat16Info) : VolumeRegion → Prop
  | boot => True
  | fat i => i < info.numFats
  | rootDir => True
  | cluster c => 2 ≤ c ∧ c < info.totalClusters + 2

/-- The first sector of a part. -/
def VolumeRegion.first (info : Fat16Info) : VolumeRegion → ℕ
  | boot => 0
  | fat i => info.fatStartLba + i * info.fatSizeSectors
  | rootDir => info.rootDirLba
  | cluster c => info.clusterToLba c

/-- The number of sectors of a part. -/
def VolumeRegion.size (info : Fat16Info) : VolumeRegion → ℕ
  | boot => 1
  | fat _ => info.fatSizeSectors
  | rootDir => info.rootDirSectors
  | cluster _ => info.sectorsPerCluster

/-- The sectors of a part. -/
def VolumeRegion.sectors (info : Fat16Info) (r : VolumeRegion) : Set ℕ :=
  Set.Ico (r.first info) (r.first info + r.size info)

/-- A coherent geometry: `fat16_mount` and `fat16_format` agree where the regions start, the
number of clusters is one of a FAT16, each cluster has its entry, and the regions lie apart and
inside the disk. -/
structure Coherent (total : ℕ) (g : Geometry) (info : Fat16Info) : Prop where
  fatStart : info.fatStartLba = formatReserved
  rootStart : info.rootDirLba = g.rootLba
  dataStart : info.dataStartLba = formatDataStart g.fatSize
  clusters_ge : 4085 ≤ info.totalClusters
  clusters_le : info.totalClusters ≤ 65524
  entries : ∀ c, 2 ≤ c → c < info.totalClusters + 2 → 2 * c + 2 ≤ 512 * g.fatSize
  disjoint : ∀ r r' : VolumeRegion, r.Present info → r'.Present info → r ≠ r' →
    Disjoint (r.sectors info) (r'.sectors info)
  inside : ∀ r : VolumeRegion, r.Present info → r.sectors info ⊆ Set.Ico 0 total

/-! ## Growing the clusters -/

/-- Few enough clusters leave the cluster size as it is. -/
theorem growSpc_of_le {ds : ℕ} (h : ds / spc ≤ 65524) : growSpc ds 8 spc = spc := by
  unfold growSpc
  rw [if_neg (by omega)]

/-- From the largest initial size there is one doubling. -/
theorem growSpc_double {ds : ℕ} (h : 65524 < ds / 64) : growSpc ds 8 64 = 128 := by
  unfold growSpc
  rw [if_pos ⟨h, by omega⟩]
  unfold growSpc
  rw [if_neg (by omega)]

/-! ## Which disks get a coherent geometry -/

/-- A geometry with a FAT size and a cluster size that fit their fields. -/
structure Geometry.Fits (g : Geometry) (total : ℕ) : Prop where
  fat_pos : 1 ≤ g.fatSize
  fat_lt : g.fatSize < 2 ^ 16
  spc_pos : 1 ≤ g.spc
  spc_lt : g.spc < 2 ^ 8
  room : formatDataStart g.fatSize ≤ total
  total_lt : total < 2 ^ 32

theorem Geometry.Fits.fat_ne {g : Geometry} (h : g.Fits total) : g.fatSize % 2 ^ 16 ≠ 0 := by
  rw [Nat.mod_eq_of_lt h.fat_lt]
  exact Nat.one_le_iff_ne_zero.mp h.fat_pos

/-- What fits its fields is read back as it was. -/
theorem Geometry.Fits.mounted {g : Geometry} (h : g.Fits total) (label : List UInt8) :
    (mountedInfo total g label).fatSizeSectors = g.fatSize ∧
    (mountedInfo total g label).rootDirLba = 1 + 2 * g.fatSize ∧
    (mountedInfo total g label).dataStartLba = 33 + 2 * g.fatSize ∧
    (mountedInfo total g label).sectorsPerCluster = g.spc ∧
    (mountedInfo total g label).totalClusters = (total - formatDataStart g.fatSize) / g.spc := by
  have hfat : g.fatSize % 2 ^ 16 = g.fatSize := Nat.mod_eq_of_lt h.fat_lt
  have hspc : g.spc % 2 ^ 8 = g.spc := Nat.mod_eq_of_lt h.spc_lt
  have hroom := h.room
  have htotal := h.total_lt
  unfold mountedInfo
  dsimp only
  rw [hfat, hspc]
  rw [formatDataStart_eq] at *
  refine ⟨rfl, rfl, by omega, rfl, ?_⟩
  congr 1
  omega

/-- Such a geometry is coherent if the number of clusters is right for a FAT16 and the FAT has
an entry for each of them. -/
theorem Geometry.Fits.coherent {g : Geometry} (h : g.Fits total) (label : List UInt8)
    (hge : 4085 ≤ (total - formatDataStart g.fatSize) / g.spc)
    (hle : (total - formatDataStart g.fatSize) / g.spc ≤ 65524)
    (hentries : (total - formatDataStart g.fatSize) / g.spc + 2 ≤ 256 * g.fatSize) :
    Coherent total g (mountedInfo total g label) := by
  obtain ⟨hfat, hroot, hdata, hspc, hclusters⟩ := h.mounted label
  have hstart : (mountedInfo total g label).fatStartLba = 1 := rfl
  have hfats : (mountedInfo total g label).numFats = 2 := rfl
  have hsectors : (mountedInfo total g label).rootDirSectors = 32 := rfl
  have hmul : (total - formatDataStart g.fatSize) / g.spc * g.spc ≤
      total - formatDataStart g.fatSize := Nat.div_mul_le_self _ _
  have hroom := h.room
  rw [formatDataStart_eq] at *
  generalize (total - (33 + 2 * g.fatSize)) / g.spc = clusters at *
  generalize mountedInfo total g label = info at *
  -- A cluster lies between the root directory and the end of the disk.
  have hcluster : ∀ c, 2 ≤ c → c < clusters + 2 →
      33 + 2 * g.fatSize ≤ info.clusterToLba c ∧ info.clusterToLba c + g.spc ≤ total := by
    intro c hlo hhi
    unfold Fat16Info.clusterToLba
    rw [hdata, hspc]
    have hlast : (c - 2 + 1) * g.spc ≤ clusters * g.spc := Nat.mul_le_mul_right _ (by omega)
    rw [Nat.succ_mul] at hlast
    constructor <;> omega
  have hfatEnd : ∀ i, i < 2 → i * g.fatSize + g.fatSize ≤ 2 * g.fatSize := by
    intro i hi
    have := Nat.mul_le_mul_right g.fatSize hi
    rwa [Nat.succ_mul] at this
  have hapart : ∀ c c', 2 ≤ c → c < c' → info.clusterToLba c + g.spc ≤ info.clusterToLba c' := by
    intro c c' hlo hlt
    unfold Fat16Info.clusterToLba
    rw [hspc]
    have hnext : (c - 2 + 1) * g.spc ≤ (c' - 2) * g.spc := Nat.mul_le_mul_right _ (by omega)
    rw [Nat.succ_mul] at hnext
    omega
  constructor
  · exact hstart
  · rw [hroot]
    rfl
  · rw [hdata, formatDataStart_eq]
  · omega
  · omega
  · intro c hlo hhi
    omega
  · intro r r' hr hr' hne
    rw [Set.disjoint_left]
    intro s hs hs'
    unfold VolumeRegion.sectors at hs hs'
    rw [Set.mem_Ico] at hs hs'
    cases r <;> cases r' <;>
      simp only [VolumeRegion.Present, VolumeRegion.first, VolumeRegion.size, hfat, hroot, hspc,
        hstart, hfats, hsectors, hclusters, ne_eq, not_true_eq_false, VolumeRegion.fat.injEq,
        VolumeRegion.cluster.injEq] at hr hr' hs hs' hne
    case fat.fat i j =>
      have hij : i = 0 ∧ j = 1 ∨ i = 1 ∧ j = 0 := by omega
      rcases hij with ⟨rfl, rfl⟩ | ⟨rfl, rfl⟩ <;> omega
    case cluster.cluster c c' =>
      rcases Nat.lt_or_gt_of_ne hne with hlt | hlt
      · have := hapart _ _ hr.1 hlt
        omega
      · have := hapart _ _ hr'.1 hlt
        omega
    case fat.boot i => omega
    case boot.fat i => omega
    case fat.rootDir i =>
      have := hfatEnd _ hr
      omega
    case rootDir.fat i =>
      have := hfatEnd _ hr'
      omega
    case fat.cluster i c =>
      have := hfatEnd _ hr
      have := hcluster _ hr'.1 hr'.2
      omega
    case cluster.fat c i =>
      have := hfatEnd _ hr'
      have := hcluster _ hr.1 hr.2
      omega
    case boot.cluster c =>
      have := hcluster _ hr'.1 hr'.2
      omega
    case cluster.boot c =>
      have := hcluster _ hr.1 hr.2
      omega
    case rootDir.cluster c =>
      have := hcluster _ hr'.1 hr'.2
      omega
    case cluster.rootDir c =>
      have := hcluster _ hr.1 hr.2
      omega
    all_goals omega
  · intro r hr s hs
    unfold VolumeRegion.sectors at hs
    rw [Set.mem_Ico] at hs ⊢
    cases r <;>
      simp only [VolumeRegion.Present, VolumeRegion.first, VolumeRegion.size, hfat, hroot, hspc,
        hstart, hfats, hsectors, hclusters] at hr hs
    · omega
    · have := hfatEnd _ hr
      omega
    · omega
    · have := hcluster _ hr.1 hr.2
      omega

/-- The disks for which the iteration ends with a FAT for all clusters and the cluster size can
be made large enough. -/
def GeometrySettles (total : ℕ) : Prop :=
  total < 16405 ∨ (4194145 ≤ total ∧ total ≤ 8388256) ∨
    (total < 4194145 ∧ 2 ≤ fatResidue total)

instance (total : ℕ) : Decidable (GeometrySettles total) := by
  unfold GeometrySettles
  infer_instance

/-- The number of clusters after the iteration, before the cluster size is changed. -/
theorem clusters_of_settled (hlo : 16405 ≤ total) (hhi : total ≤ 8388256)
    (hres : 2 ≤ fatResidue total) :
    4085 ≤ (total - formatDataStart (fatQuotient total + 1)) / initialSpc total ∧
    fatQuotient total + 1 < 2 ^ 16 ∧
    (total - formatDataStart (fatQuotient total + 1)) / initialSpc total + 2 ≤
      256 * (fatQuotient total + 1) ∧
    (total < 4194145 →
      (total - formatDataStart (fatQuotient total + 1)) / initialSpc total ≤ 65524) ∧
    (4194145 ≤ total → initialSpc total = 64 ∧
      65524 < (total - formatDataStart (fatQuotient total + 1)) / 64 ∧
      (total - formatDataStart (fatQuotient total + 1)) / 128 ≤ 65524) := by
  unfold fatResidue at hres
  unfold fatQuotient
  rw [formatDataStart_eq]
  rcases initialSpc_cases total with ⟨h, _⟩ | ⟨h, _⟩ | ⟨h, _⟩ | ⟨h, _⟩ | ⟨h, _⟩ <;>
    rw [h] at hres ⊢ <;> omega

theorem clusters_of_alternating (hlo : 16405 ≤ total) (hhi : total ≤ 8388256)
    (hres : fatResidue total < 2) :
    4085 ≤ (total - formatDataStart (fatQuotient total)) / initialSpc total ∧
    fatQuotient total < 2 ^ 16 ∧
    (total - formatDataStart (fatQuotient total)) / initialSpc total + 1 =
      256 * fatQuotient total ∧
    (total < 4194145 →
      (total - formatDataStart (fatQuotient total)) / initialSpc total ≤ 65524) ∧
    (4194145 ≤ total → initialSpc total = 64 ∧
      65524 < (total - formatDataStart (fatQuotient total)) / 64 ∧
      (total - formatDataStart (fatQuotient total)) / 128 ≤ 65524) := by
  unfold fatResidue at hres
  unfold fatQuotient
  rw [formatDataStart_eq]
  rcases initialSpc_cases total with ⟨h, _⟩ | ⟨h, _⟩ | ⟨h, _⟩ | ⟨h, _⟩ | ⟨h, _⟩ <;>
    rw [h] at hres ⊢ <;> omega

/-- The size of the FAT after the iteration, for the disks that can be formatted well: it has
an entry for each cluster of the initial size exactly if the iteration settles. -/
theorem fatSizeLoop_middle (hlo : 16405 ≤ total) (hhi : total ≤ 8388256)
    (hloop : fatSizeLoop total (initialSpc total) 10 1 = some fatSize) :
    4085 ≤ (total - formatDataStart fatSize) / initialSpc total ∧ fatSize < 2 ^ 16 ∧
    ((total - formatDataStart fatSize) / initialSpc total + 2 ≤ 256 * fatSize ↔
      2 ≤ fatResidue total) ∧
    (total - formatDataStart fatSize) / initialSpc total + 1 ≤ 256 * fatSize ∧
    (total < 4194145 → (total - formatDataStart fatSize) / initialSpc total ≤ 65524) ∧
    (4194145 ≤ total → initialSpc total = 64 ∧
      65524 < (total - formatDataStart fatSize) / 64 ∧
      (total - formatDataStart fatSize) / 128 ≤ 65524) := by
  by_cases hres : 2 ≤ fatResidue total
  · rw [fatSizeLoop_settles (by omega) hhi hres] at hloop
    cases hloop
    obtain ⟨hge, hlt, hentries, hsmall, hlarge⟩ := clusters_of_settled hlo hhi hres
    exact ⟨hge, hlt, iff_of_true hentries hres, by omega, hsmall, hlarge⟩
  · rw [fatSizeLoop_alternates (by omega) hhi (Nat.lt_of_not_le hres)] at hloop
    cases hloop
    obtain ⟨hge, hlt, hentries, hsmall, hlarge⟩ :=
      clusters_of_alternating hlo hhi (Nat.lt_of_not_le hres)
    exact ⟨hge, hlt, iff_of_false (by omega) hres, by omega, hsmall, hlarge⟩

/-- Up to 4194144 sectors the cluster size stays, and the FAT has an entry for each cluster
exactly if the iteration settles. -/
theorem formatGeometry_middle (hlo : 16405 ≤ total) (hhi : total < 4194145) :
    ∃ g, formatGeometry total = some g ∧ g.Fits total ∧
      4085 ≤ (total - formatDataStart g.fatSize) / g.spc ∧
      (total - formatDataStart g.fatSize) / g.spc ≤ 65524 ∧
      ((total - formatDataStart g.fatSize) / g.spc + 2 ≤ 256 * g.fatSize ↔
        2 ≤ fatResidue total) := by
  obtain ⟨fatSize, hloop, hpos, -, hroom⟩ := fatSizeLoop_room (by omega : 4096 ≤ total)
  obtain ⟨hge, hlt, hentries, -, hsmall, -⟩ :=
    fatSizeLoop_middle hlo (by omega : total ≤ 8388256) hloop
  have hspc : 1 ≤ initialSpc total ∧ initialSpc total < 2 ^ 8 := by
    rcases initialSpc_cases total with ⟨h, _⟩ | ⟨h, _⟩ | ⟨h, _⟩ | ⟨h, _⟩ | ⟨h, _⟩ <;> omega
  have hg := formatGeometry_eq (by omega) (by omega) hloop hroom
  rw [if_neg (Nat.not_lt.mpr hge), growSpc_of_le (hsmall hhi)] at hg
  exact ⟨_, hg, ⟨hpos, hlt, hspc.1, hspc.2, hroom, by omega⟩, hge, hsmall hhi, hentries⟩

/-- From there to 8388256 sectors it is doubled once, and the FAT has entries to spare. -/
theorem formatGeometry_large (hlo : 4194145 ≤ total) (hhi : total ≤ 8388256) :
    ∃ g, formatGeometry total = some g ∧ g.Fits total ∧
      4085 ≤ (total - formatDataStart g.fatSize) / g.spc ∧
      (total - formatDataStart g.fatSize) / g.spc ≤ 65524 ∧
      (total - formatDataStart g.fatSize) / g.spc + 2 ≤ 256 * g.fatSize := by
  obtain ⟨fatSize, hloop, hpos, -, hroom⟩ := fatSizeLoop_room (by omega : 4096 ≤ total)
  obtain ⟨hge, hlt, -, hentries, -, hlarge⟩ :=
    fatSizeLoop_middle (by omega : 16405 ≤ total) hhi hloop
  obtain ⟨hspc, hmany, hfew⟩ := hlarge hlo
  have hg := formatGeometry_eq (by omega) (by omega) hloop hroom
  rw [hspc] at hge hentries
  rw [hspc, if_neg (Nat.not_lt.mpr hge), growSpc_double hmany] at hg
  refine ⟨_, hg, ⟨hpos, hlt, (by decide : 1 ≤ 128), (by decide : 128 < 2 ^ 8), hroom, by omega⟩, ?_, hfew, ?_⟩
  · dsimp only
    omega
  · dsimp only
    omega

/-- Past 8388256 sectors even the largest clusters are too many. -/
theorem formatGeometry_huge (hlo : 8388256 < total) (hhi : total < 2 ^ 32) :
    ∃ g, formatGeometry total = some g ∧ 1 ≤ g.fatSize ∧ g.spc = 128 ∧
      formatDataStart g.fatSize ≤ total ∧
      65524 < (total - formatDataStart g.fatSize) / g.spc := by
  obtain ⟨fatSize, hloop, hpos, hle, hroom⟩ := fatSizeLoop_room (by omega : 4096 ≤ total)
  have hspc : initialSpc total = 64 := by
    rcases initialSpc_cases total with ⟨h, _⟩ | ⟨h, _⟩ | ⟨h, _⟩ | ⟨h, _⟩ | ⟨h, _⟩ <;> omega
  have hg := formatGeometry_eq (by omega) hhi hloop hroom
  unfold neededFat at hle
  rw [hspc, formatDataStart_eq] at hle
  rw [formatDataStart_eq] at *
  rw [hspc, if_neg (by omega), growSpc_double (by omega)] at hg
  refine ⟨_, hg, hpos, rfl, ?_, ?_⟩
  · rw [formatDataStart_eq]
    exact hroom
  · rw [formatDataStart_eq]
    dsimp only
    omega

/-! ## Formatting, then mounting -/

/-- `fat16_format` of a disk, if it succeeds, leaves a volume that `fat16_mount` accepts and finds
coherent. -/
def FormatsCoherently (d : Disk) (total : ℕ) (label : Option (List UInt8)) : Prop :=
  ∀ d', fat16Format d total label = some d' →
    ∃ g info, formatGeometry total = some g ∧ fat16Mount d' = some info ∧ Coherent total g info

/-- The claim about a formatted disk, in terms of what was computed for it. -/
theorem formatsCoherently_iff_of_some {d : Disk} {g : Geometry} {label : Option (List UInt8)}
    (htotal : total < 2 ^ 32) (hg : formatGeometry total = some g) :
    FormatsCoherently d total label ↔ g.fatSize % 2 ^ 16 ≠ 0 ∧
      Coherent total g
        (mountedInfo total g ((labelBytes (bootSector total g label)).rdropWhile (· == 0x20))) := by
  obtain ⟨d', hd'⟩ : ∃ d', fat16Format d total label = some d' := by
    unfold fat16Format
    rw [hg]
    exact ⟨_, rfl⟩
  have hboot := fat16Format_boot hg hd'
  have hfields := bootFields total g label
  rw [← hboot] at hfields
  constructor
  · intro hall
    obtain ⟨g', info, hg', hmount, hcoherent⟩ := hall d' hd'
    obtain rfl : g = g' := Option.some.inj (hg.symm.trans hg')
    have hfat : g.fatSize % 2 ^ 16 ≠ 0 := by
      intro hzero
      -- A FAT size of zero in the boot sector is refused.
      have hnone : fat16Mount d' = none := by
        unfold fat16Mount
        dsimp only
        rw [if_neg (by simp [hfields.signature]), if_neg (by rw [hfields.bytesPerSector]; omega),
          if_neg (by rw [hfields.numFats]; omega), if_pos (by rw [hfields.fatSize]; exact hzero)]
      rw [hnone] at hmount
      cases hmount
    rw [fat16Mount_eq hfields htotal hfat] at hmount
    cases hmount
    rw [hboot] at hcoherent
    exact ⟨hfat, hcoherent⟩
  · rintro ⟨hfat, hcoherent⟩ d'' hd''
    obtain rfl : d' = d'' := Option.some.inj (hd'.symm.trans hd'')
    exact ⟨g, _, hg, fat16Mount_eq hfields htotal hfat, by rw [hboot]; exact hcoherent⟩

/-- **Formatting gives a coherent geometry exactly on the disks where the iteration settles** and
the cluster size can be made large enough. -/
theorem formatsCoherently_iff (d : Disk) (total : ℕ) (label : Option (List UInt8))
    (htotal : total < 2 ^ 32) : FormatsCoherently d total label ↔ GeometrySettles total := by
  unfold GeometrySettles
  rcases Nat.lt_or_ge total 16405 with hsmall | hlo
  · -- Nothing is formatted.
    refine iff_of_true ?_ (Or.inl hsmall)
    intro d' hd'
    unfold fat16Format at hd'
    rw [formatGeometry_small hsmall] at hd'
    cases hd'
  rcases Nat.lt_or_ge total 4194145 with hmiddle | hlarge
  · obtain ⟨g, hg, hfits, hge, hle, hentries⟩ := formatGeometry_middle hlo hmiddle
    rw [formatsCoherently_iff_of_some htotal hg]
    constructor
    · rintro ⟨-, hcoherent⟩
      refine Or.inr (Or.inr ⟨hmiddle, hentries.mp ?_⟩)
      -- The entry of the last cluster is inside the FAT.
      have hlast := hcoherent.entries
        ((total - formatDataStart g.fatSize) / g.spc + 1) (by omega)
        (by rw [(hfits.mounted _).2.2.2.2]; omega)
      omega
    · intro hcond
      have hres : 2 ≤ fatResidue total := by
        rcases hcond with h | ⟨h, -⟩ | ⟨-, h⟩
        · omega
        · omega
        · exact h
      exact ⟨hfits.fat_ne, hfits.coherent _ hge hle (hentries.mpr hres)⟩
  rcases Nat.lt_or_ge 8388256 total with hhuge | hhi
  · refine iff_of_false ?_ (by omega)
    obtain ⟨g, hg, hpos, hspc, hroom, hmany⟩ := formatGeometry_huge hhuge htotal
    rw [formatsCoherently_iff_of_some htotal hg]
    rintro ⟨-, hcoherent⟩
    have hstart := hcoherent.rootStart
    by_cases hfat : g.fatSize < 2 ^ 16
    · have hfits : g.Fits total :=
        ⟨hpos, hfat, by omega, by omega, hroom, htotal⟩
      have hle := hcoherent.clusters_le
      rw [(hfits.mounted _).2.2.2.2] at hle
      omega
    · -- The FAT size does not fit its field, and the root directory is not found again.
      have hmod : g.fatSize % 2 ^ 16 < 2 ^ 16 := Nat.mod_lt _ (by decide)
      unfold mountedInfo Geometry.rootLba formatReserved formatNumFats at hstart
      dsimp only at hstart
      omega
  · refine iff_of_true ?_ (Or.inr (Or.inl ⟨hlarge, hhi⟩))
    obtain ⟨g, hg, hfits, hge, hle, hentries⟩ := formatGeometry_large hlarge hhi
    rw [formatsCoherently_iff_of_some htotal hg]
    exact ⟨hfits.fat_ne, hfits.coherent _ hge hle hentries⟩

/-- A disk of 16 MiB is formatted coherently. -/
theorem formatsCoherently_32768 :
    (32768 < 2 ^ 32 ∧ GeometrySettles 32768) ∧
      FormatsCoherently (fun _ _ => 0) 32768 none := by
  have hsettles : GeometrySettles 32768 := by decide
  exact ⟨⟨by decide, hsettles⟩,
    (formatsCoherently_iff (fun _ _ => 0) 32768 none (by decide)).mpr hsettles⟩

/-- With 16445 sectors the FAT is one entry short. -/
theorem not_formatsCoherently_16445 :
    formatGeometry 16445 = some ⟨16, 4, 4095⟩ ∧
      ¬ FormatsCoherently (fun _ _ => 0) 16445 none := by
  have hg : formatGeometry 16445 = some ⟨16, 4, 4095⟩ := by decide +kernel
  refine ⟨hg, ?_⟩
  rw [formatsCoherently_iff_of_some (by decide) hg]
  rintro ⟨-, hcoherent⟩
  have hlast := hcoherent.entries 4096 (by decide) (by decide +kernel)
  dsimp only at hlast
  omega

end Microkernel

/-
# FAT16: formatting and mounting

The geometry part of `src/fat16.c`: `fat16_format` computes the sizes of the regions of the
volume and writes the boot sector, both FATs and an empty root directory; `fat16_mount` reads
the sizes back.  Reads and writes of sectors succeed.  The texts printed are left out.
-/
import Microkernel.Disk

namespace Microkernel

/-! ## The boot sector -/

/-- `fat16_info_t`; it exists while the volume is mounted. -/
structure Fat16Info where
  bytesPerSector : ℕ
  sectorsPerCluster : ℕ
  reservedSectors : ℕ
  numFats : ℕ
  rootEntryCount : ℕ
  totalSectors : ℕ
  fatSizeSectors : ℕ
  fatStartLba : ℕ
  rootDirLba : ℕ
  rootDirSectors : ℕ
  dataStartLba : ℕ
  /-- Bytes per cluster. -/
  clusterSize : ℕ
  totalClusters : ℕ
  volumeLabel : List UInt8

/-- `cluster_to_lba`. -/
def Fat16Info.clusterToLba (info : Fat16Info) (cluster : ℕ) : ℕ :=
  info.dataStartLba + (cluster - 2) * info.sectorsPerCluster

/-- The 11 bytes of the volume label in the boot sector. -/
def labelBytes (boot : Memory) : List UInt8 := (List.range 11).map fun i => boot (43 + i)

/-- `fat16_mount`: `none` if the boot sector is not accepted. -/
def fat16Mount (d : Disk) : Option Fat16Info :=
  let boot := d 0
  if boot 510 ≠ 0x55 ∨ boot 511 ≠ 0xAA then none
  else if boot.loadLE 11 2 ≠ 512 then none
  else if boot.loadLE 16 1 = 0 ∨ boot.loadLE 16 1 > 2 then none
  else if boot.loadLE 22 2 = 0 then none
  else if boot.loadLE 17 2 = 0 then none
  else
    let sectorsPerCluster := boot.loadLE 13 1
    let reserved := boot.loadLE 14 2
    let numFats := boot.loadLE 16 1
    let rootEntryCount := boot.loadLE 17 2
    let fatSize := boot.loadLE 22 2
    let totalSectors := if boot.loadLE 19 2 ≠ 0 then boot.loadLE 19 2 else boot.loadLE 32 4
    let rootDirLba := reserved + numFats * fatSize
    let rootDirSectors := (rootEntryCount * 32 + 511) / 512
    let dataStartLba := rootDirLba + rootDirSectors
    some
      { bytesPerSector := boot.loadLE 11 2
        sectorsPerCluster := sectorsPerCluster
        reservedSectors := reserved
        numFats := numFats
        rootEntryCount := rootEntryCount
        totalSectors := totalSectors
        fatSizeSectors := fatSize
        fatStartLba := reserved
        rootDirLba := rootDirLba
        rootDirSectors := rootDirSectors
        dataStartLba := dataStartLba
        clusterSize := sectorsPerCluster * 512
        totalClusters := (totalSectors + 2 ^ 32 - dataStartLba) % 2 ^ 32 / sectorsPerCluster
        volumeLabel := (labelBytes boot).rdropWhile (· == 0x20) }

/-! ## The sizes -/

/-- The cluster size that `fat16_format` begins with, in sectors. -/
def initialSpc (total : ℕ) : ℕ :=
  let sizeMb := total / 2048
  if sizeMb ≤ 16 then 4
  else if sizeMb ≤ 128 then 8
  else if sizeMb ≤ 256 then 16
  else if sizeMb ≤ 512 then 32
  else 64

/-- `reserved`, `num_fats`, `root_sectors`. -/
def formatReserved : ℕ := 1

def formatNumFats : ℕ := 2

def formatRootSectors : ℕ := 32

/-- `data_start` for a FAT size. -/
def formatDataStart (fatSize : ℕ) : ℕ :=
  formatReserved + formatNumFats * fatSize + formatRootSectors

/-- `needed`: the sectors of a FAT for the clusters that are left. -/
def neededFat (total spc fatSize : ℕ) : ℕ :=
  (((total - formatDataStart fatSize) / spc + 2) * 2 + 511) / 512

/-- The iteration for the FAT size, with `n` rounds left; `none` if the tables fill the disk. -/
def fatSizeLoop (total spc : ℕ) : ℕ → ℕ → Option ℕ
  | 0, fatSize => some fatSize
  | n + 1, fatSize =>
    if formatDataStart fatSize ≥ total then none
    else if neededFat total spc fatSize = fatSize then some fatSize
    else fatSizeLoop total spc n (neededFat total spc fatSize)

/-- The loop that doubles the cluster size; `spc` is at most 128, so there are few rounds. -/
def growSpc (dataSectors : ℕ) : ℕ → ℕ → ℕ
  | 0, spc => spc
  | n + 1, spc =>
    if dataSectors / spc > 65524 ∧ spc < 128 then growSpc dataSectors n (spc * 2) else spc

/-- What `fat16_format` computes. -/
structure Geometry where
  fatSize : ℕ
  spc : ℕ
  clusters : ℕ
  deriving DecidableEq

/-- The computation of `fat16_format`; `none` if the disk is too small. -/
def formatGeometry (total : ℕ) : Option Geometry :=
  if total < 4096 then none
  else
    (fatSizeLoop total (initialSpc total) 10 1).bind fun fatSize =>
      let dataSectors := (total + 2 ^ 32 - formatDataStart fatSize) % 2 ^ 32
      if dataSectors / initialSpc total < 4085 then none
      else
        let spc := growSpc dataSectors 8 (initialSpc total)
        some ⟨fatSize, spc, dataSectors / spc⟩

/-! ## Writing -/

/-- `toupper`. -/
def toUpper (c : UInt8) : UInt8 := if 0x61 ≤ c ∧ c ≤ 0x7A then c - 32 else c

/-- The volume label: the argument, cut to 11 bytes, or the default. -/
def formatLabel : Option (List UInt8) → List UInt8
  | some label => (label.take 11).map toUpper ++ List.replicate (11 - label.length) 0x20
  | none => "MICROKERNEL".toUTF8.toList

/-- The boot sector. -/
def bootSector (total : ℕ) (g : Geometry) (label : Option (List UInt8)) : Memory :=
  let b : Memory := fun _ => 0
  let b := b.storeBytes 0 [0xEB, 0x3C, 0x90]
  let b := b.storeBytes 3 "MICROOS ".toUTF8.toList
  let b := b.storeLE 11 512 2
  let b := b.storeLE 13 g.spc 1
  let b := b.storeLE 14 formatReserved 2
  let b := b.storeLE 16 formatNumFats 1
  let b := b.storeLE 17 512 2
  let b := if total < 65536 then b.storeLE 19 total 2 else b.storeLE 32 total 4
  let b := b.storeLE 21 0xF8 1
  let b := b.storeLE 22 g.fatSize 2
  let b := b.storeLE 24 63 2
  let b := b.storeLE 26 16 2
  let b := b.storeLE 36 0x80 1
  let b := b.storeLE 38 0x29 1
  let b := b.storeLE 39 0x12345678 4
  let b := b.storeBytes 43 (formatLabel label)
  let b := b.storeBytes 54 "FAT16   ".toUTF8.toList
  b.storeBytes 510 [0x55, 0xAA]

/-- Sector `s` of a new FAT: the first two entries are reserved. -/
def newFatSector (s : ℕ) : Memory :=
  if s = 0 then Memory.storeBytes (fun _ => 0) 0 [0xF8, 0xFF, 0xFF, 0xFF] else fun _ => 0

/-- The first sector of a new root directory, with the entry of the volume label. -/
def labelSector (label : Option (List UInt8)) : Memory :=
  Memory.storeBytes (fun _ => 0) 0 (formatLabel label ++ [0x08])

/-- `root_lba`. -/
def Geometry.rootLba (g : Geometry) : ℕ := formatReserved + formatNumFats * g.fatSize

/-- `fat16_format`; `none` is `false`. -/
def fat16Format (d : Disk) (total : ℕ) (label : Option (List UInt8)) : Option Disk :=
  (formatGeometry total).map fun g =>
    let d := d.write 0 (bootSector total g label)
    let d := d.writeRun formatReserved newFatSector g.fatSize
    let d := d.writeRun (formatReserved + g.fatSize) newFatSector g.fatSize
    let d := d.writeRun g.rootLba (fun _ _ => 0) formatRootSectors
    d.write g.rootLba (labelSector label)

end Microkernel

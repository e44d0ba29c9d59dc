/-
# FAT16: files and directories

The operations of `src/fat16.c` on a mounted volume: the table helpers, the loops over the slots
of a directory, `navigate_to_dir`, and the public operations on files and directories.

Reads and writes of sectors succeed.  The loops that follow a cluster chain take a number of
rounds, `fuel`, and give `none` if it does not suffice; a call returns if some number of rounds
does.
-/
import Microkernel.Fat16Names

namespace Microkernel

/-! ## The table -/

/-- `fat_read_entry`. -/
def fatReadEntry (info : Fat16Info) (d : Disk) (cluster : ℕ) : ℕ :=
  let offset := cluster * 2
  (d (info.fatStartLba + offset / 512)).loadLE (offset % 512) 2

/-- `fat_write_entry`: the sector is written to the second table too. -/
def fatWriteEntry (info : Fat16Info) (d : Disk) (cluster value : ℕ) : Disk :=
  let offset := cluster * 2
  let sector := info.fatStartLba + offset / 512
  let buf := (d sector).storeLE (offset % 512) value 2
  let d := d.write sector buf
  if info.numFats > 1 then d.write (sector + info.fatSizeSectors) buf else d

/-- The loop of `fat_alloc_cluster`; its counter has 16 bits and its bound 32. -/
def fatAllocLoop (info : Fat16Info) (d : Disk) : ℕ → ℕ → Option (ℕ × Disk)
  | 0, _ => none
  | n + 1, c =>
    if c < (info.totalClusters + 2) % 2 ^ 32 then
      if fatReadEntry info d c = 0 then some (c, fatWriteEntry info d c 0xFFFF)
      else fatAllocLoop info d n ((c + 1) % 2 ^ 16)
    else some (0, d)

/-- `fat_alloc_cluster`; cluster 0 if the disk is full. -/
def fatAllocCluster (info : Fat16Info) (fuel : ℕ) (d : Disk) : Option (ℕ × Disk) :=
  fatAllocLoop info d fuel 2

/-- The condition of the loops that follow a chain. -/
def isChained (cluster : ℕ) : Bool := 2 ≤ cluster && cluster < 0xFFF8

theorem isChained_iff {c : ℕ} : isChained c = true ↔ 2 ≤ c ∧ c < 0xFFF8 := by
  unfold isChained
  rw [Bool.and_eq_true, decide_eq_true_eq, decide_eq_true_eq]

/-- `fat_free_chain`. -/
def fatFreeChain (info : Fat16Info) : ℕ → Disk → ℕ → Option Disk
  | 0, _, _ => none
  | n + 1, d, c =>
    if isChained c then fatFreeChain info n (fatWriteEntry info d c 0) (fatReadEntry info d c)
    else some d

/-! ## The slots of a directory -/

/-- A loop over a list that may return early. -/
def foldUntil {α ρ σ : Type} (visit : σ → α → ρ ⊕ σ) : List α → σ → ρ ⊕ σ
  | [], st => .inr st
  | a :: as, st =>
    match visit st a with
    | .inl r => .inl r
    | .inr st => foldUntil visit as st

/-- Where a slot is: its sector and the offset in it. -/
structure SlotPos where
  lba : ℕ
  off : ℕ
  deriving DecidableEq

/-- DirSlot `i` of the sectors from `start` on. -/
def slotPos (start i : ℕ) : SlotPos := ⟨start + i / 16, i % 16 * 32⟩

/-- The slot at a position. -/
def slotAt (d : Disk) (p : SlotPos) : DirSlot := slotOf (d p.lba) p.off

section

variable {ρ σ : Type} (visit : σ → SlotPos × DirSlot → ρ ⊕ σ) (info : Fat16Info) (d : Disk)

/-- The loop over the slots of `n` sectors. -/
def scanSectors (start n : ℕ) (st : σ) : ρ ⊕ σ :=
  foldUntil (fun st i => visit st (slotPos start i, slotAt d (slotPos start i)))
    (List.range (16 * n)) st

/-- The loop over the clusters of a directory. -/
def scanChain : ℕ → ℕ → σ → Option (ρ ⊕ σ)
  | 0, _, _ => none
  | n + 1, cluster, st =>
    if isChained cluster then
      match scanSectors visit d (info.clusterToLba cluster) info.sectorsPerCluster st with
      | .inl r => some (.inl r)
      | .inr st => scanChain n (fatReadEntry info d cluster) st
    else some (.inr st)

/-- The loops over a directory: cluster 0 is the root directory. -/
def scanDir (fuel dirCluster : ℕ) (st : σ) : Option (ρ ⊕ σ) :=
  if dirCluster = 0 then some (scanSectors visit d info.rootDirLba info.rootDirSectors st)
  else scanChain visit info d fuel dirCluster st

end

/-- The slot visitor of `find_free_dir_slots`: how many free slots were met in a row, and the
first of them. -/
def visitFree (count : ℕ) (st : ℕ × SlotPos) (p : SlotPos × DirSlot) :
    SlotPos ⊕ (ℕ × SlotPos) :=
  if p.2.isFree then
    let first := if st.1 = 0 then p.1 else st.2
    if count ≤ st.1 + 1 then .inl first else .inr (st.1 + 1, first)
  else .inr (0, st.2)

/-- `find_free_dir_slots`. -/
def findFreeDirSlots (info : Fat16Info) (fuel : ℕ) (d : Disk) (dirCluster count : ℕ) :
    Option (Option SlotPos) :=
  (scanDir (visitFree count) info d fuel dirCluster (0, ⟨0, 0⟩)).map Sum.getLeft?

/-- Store one slot. -/
def writeSlot (d : Disk) (p : SlotPos) (s : DirSlot) : Disk :=
  d.write p.lba (storeSlot (d p.lba) p.off s)

/-- The next 32 bytes of a directory, as `write_dir_entries` goes on. -/
def SlotPos.next (p : SlotPos) : SlotPos :=
  if p.off + 32 ≥ 512 then ⟨p.lba + 1, 0⟩ else ⟨p.lba, p.off + 32⟩

/-- `write_dir_entries`, with the long-name slots and the short entry in one list; here each
sector is written after each of its slots. -/
def writeDirEntries (d : Disk) (p : SlotPos) : List DirSlot → Disk
  | [] => d
  | s :: slots => writeDirEntries (writeSlot d p s) p.next slots

/-- Mark an entry as deleted. -/
def markDeleted (d : Disk) (p : SlotPos) : Disk := d.write p.lba ((d p.lba).store8 p.off 0xE5)

/-- `fat16_ext_entry_t`: a short entry and the long name that goes with it, empty if none. -/
structure ExtEntry where
  sfn : DirSlot
  lfn : List UInt8

/-- What the readers of a directory do with a slot: at an entry `found` decides, with the long
name collected before it. -/
def visitEntry {ρ τ : Type} (ended : τ → ρ) (found : τ → SlotPos → ExtEntry → ρ ⊕ τ)
    (st : τ × Option Memory) (p : SlotPos × DirSlot) : ρ ⊕ (τ × Option Memory) :=
  let s := p.2
  if s.isEnd then .inl (ended st.1)
  else if s.isDeleted then .inr (st.1, none)
  else if s.isLfn then .inr (st.1, collectLfn st.2 s)
  else if s.isVolume then .inr (st.1, none)
  else
    match found st.1 p.1 ⟨s, longName st.2⟩ with
    | .inl r => .inl r
    | .inr t => .inr (t, none)

/-- `read_root_dir` and `read_subdir`: at most `max` entries. -/
def readDir (info : Fat16Info) (fuel : ℕ) (d : Disk) (dirCluster max : ℕ) :
    Option (List ExtEntry) :=
  (scanDir
    (visitEntry id fun es _ e =>
      if max ≤ es.length + 1 then .inl (es ++ [e]) else .inr (es ++ [e]))
    info d fuel dirCluster ([], none)).map fun r => r.elim id Prod.fst

/-- The test of `find_entry_in_dir`. -/
def ExtEntry.matches (e : ExtEntry) (name : List UInt8) : Bool :=
  (e.lfn != [] && equalsIgnoringCase e.lfn name) || strcasecmp83 e.sfn.name11 name

/-- `find_entry_in_dir`: the entry and where it is. -/
def findEntryInDir (info : Fat16Info) (fuel : ℕ) (d : Disk) (dirCluster : ℕ)
    (name : List UInt8) : Option (Option (SlotPos × DirSlot)) :=
  (scanDir
    (visitEntry (fun _ => none) fun _ p e =>
      if e.matches name then .inl (some (p, e.sfn)) else .inr ())
    info d fuel dirCluster ((), none)).map fun r => r.elim id fun _ => none

/-- `ext_name`. -/
def ExtEntry.extName (e : ExtEntry) : List UInt8 :=
  if e.lfn = [] then decode83Name e.sfn.name11 else e.lfn

/-- The test of `navigate_to_dir`. -/
def ExtEntry.isNamed (e : ExtEntry) (component : List UInt8) : Bool :=
  strcasecmp83 e.sfn.name11 component || e.extName == component

/-- The loop of `navigate_to_dir`. -/
def navigateLoop (info : Fat16Info) (fuel : ℕ) (d : Disk) : ℕ → List (List UInt8) → Option ℕ
  | cluster, [] => some cluster
  | cluster, component :: rest =>
    (readDir info fuel d cluster 128).bind fun entries =>
      match entries.find? (·.isNamed component) with
      | none => some 0xFFFF
      | some e =>
        if e.sfn.isDir then navigateLoop info fuel d e.sfn.clusterLo rest else some 0xFFFF

/-- `navigate_to_dir`. -/
def navigateToDir (info : Fat16Info) (fuel : ℕ) (d : Disk) (path : List UInt8) : Option ℕ :=
  navigateLoop info fuel d 0 (components path)

/-! ## Reading -/

/-- `(int32_t)`. -/
def toInt32 (n : ℕ) : ℤ := if n % 2 ^ 32 < 2 ^ 31 then (n % 2 ^ 32 : ℕ) else (n % 2 ^ 32 : ℕ) - 2 ^ 32

/-- `fat16_dirent_t`; the dates are left out. -/
structure Fat16Dirent where
  name : List UInt8
  attr : UInt8
  size : ℕ
  firstCluster : ℕ
  isDir : Bool

/-- `fat16_list_dir`; `none` inside is the result -1. -/
def fat16ListDir (info : Fat16Info) (fuel : ℕ) (d : Disk) (path : List UInt8) (max : ℕ) :
    Option (Option (List Fat16Dirent)) :=
  (navigateToDir info fuel d path).bind fun dirCluster =>
    if dirCluster = 0xFFFF then some none
    else
      (readDir info fuel d dirCluster 128).map fun raw =>
        some (((raw.filter fun e => e.sfn 0 != 0x2E).take max).map fun e =>
          { name := e.extName
            attr := e.sfn.attr
            size := e.sfn.fileSize
            firstCluster := e.sfn.clusterLo
            isDir := e.sfn.isDir })

/-- The sector loop of `fat16_read_file`: what `n` sectors from `lba` on give, at most `todo`
bytes. -/
def readSectors (d : Disk) (lba : ℕ) : ℕ → ℕ → List UInt8
  | 0, _ => []
  | n + 1, todo =>
    if todo = 0 then []
    else (List.range (min todo 512)).map (d lba) ++ readSectors d (lba + 1) n (todo - 512)

/-- The cluster loop of `fat16_read_file`. -/
def readChain (info : Fat16Info) (d : Disk) : ℕ → ℕ → ℕ → Option (List UInt8)
  | 0, _, _ => none
  | n + 1, cluster, todo =>
    if isChained cluster && todo ≠ 0 then
      let bytes := readSectors d (info.clusterToLba cluster) info.sectorsPerCluster todo
      (readChain info d n (fatReadEntry info d cluster) (todo - bytes.length)).map (bytes ++ ·)
    else some []

/-- `fat16_read_file`: the bytes that are read; `none` inside is the result -1. -/
def fat16ReadFile (info : Fat16Info) (fuel : ℕ) (d : Disk) (path : List UInt8) (maxSize : ℕ) :
    Option (Option (List UInt8)) :=
  let (dirPath, filename) := splitPath path
  if filename = [] then some none
  else
    (navigateToDir info fuel d dirPath).bind fun dirCluster =>
      if dirCluster = 0xFFFF then some none
      else
        (findEntryInDir info fuel d dirCluster filename).bind fun found =>
          match found with
          | none => some none
          | some (_, entry) =>
            if entry.isDir then some none
            else (readChain info d fuel entry.clusterLo (min entry.fileSize maxSize)).map some

/-- `fat16_file_size`. -/
def fat16FileSize (info : Fat16Info) (fuel : ℕ) (d : Disk) (path : List UInt8) : Option ℤ :=
  let (dirPath, filename) := splitPath path
  (navigateToDir info fuel d dirPath).bind fun dirCluster =>
    if dirCluster = 0xFFFF then some (-1)
    else
      (findEntryInDir info fuel d dirCluster filename).map fun found =>
        match found with
        | none => -1
        | some (_, entry) => toInt32 entry.fileSize

/-- `fat16_is_dir`. -/
def fat16IsDir (info : Fat16Info) (fuel : ℕ) (d : Disk) (path : List UInt8) : Option Bool :=
  (navigateToDir info fuel d path).map (· != 0xFFFF)

/-! ## Writing -/

/-- The loop of `fat16_write_file` that allocates the chain, with `n` clusters to go after
`first`, …, `prev`; cluster 0 as the result if there is not enough space, the clusters given
back. -/
def allocChainLoop (info : Fat16Info) (fuel : ℕ) : ℕ → Disk → ℕ → ℕ → Option (ℕ × Disk)
  | 0, d, first, _ => some (first, d)
  | n + 1, d, first, prev =>
    (fatAllocCluster info fuel d).bind fun (c, d) =>
      if c = 0 then
        if first = 0 then some (0, d)
        else (fatFreeChain info fuel d first).map fun d => (0, d)
      else if first = 0 then allocChainLoop info fuel n d c c
      else allocChainLoop info fuel n (fatWriteEntry info d prev c) first c

/-- `clusters_needed`; the sum has 32 bits. -/
def clustersNeeded (info : Fat16Info) (size : ℕ) : ℕ :=
  let n := (size + info.clusterSize - 1) % 2 ^ 32 / info.clusterSize
  if n = 0 then 1 else n

/-- The sector loop that writes data, with what is left of it. -/
def writeSectors : Disk → ℕ → ℕ → List UInt8 → Disk × List UInt8
  | d, _, 0, data => (d, data)
  | d, lba, n + 1, data =>
    if data = [] then (d, [])
    else
      writeSectors (d.write lba (Memory.storeBytes (fun _ => 0) 0 (data.take 512))) (lba + 1) n
        (data.drop 512)

/-- The cluster loop that writes data, with what did not fit in the chain. -/
def writeChain (info : Fat16Info) : ℕ → Disk → ℕ → List UInt8 → Option (Disk × List UInt8)
  | 0, _, _, _ => none
  | n + 1, d, cluster, data =>
    if isChained cluster && data ≠ [] then
      let r := writeSectors d (info.clusterToLba cluster) info.sectorsPerCluster data
      writeChain info n r.1 (fatReadEntry info r.1 cluster) r.2
    else some (d, data)

/-- The search for a number that makes the generated short name free, from `seq` on with `n`
numbers to try. -/
def shortNameLoop (info : Fat16Info) (fuel : ℕ) (d : Disk) (dirCluster : ℕ)
    (filename : List UInt8) : ℕ → ℕ → Option (List UInt8)
  | 0, seq => some (generateShortName filename (seq - 1))
  | n + 1, seq =>
    let name11 := generateShortName filename seq
    (findEntryInDir info fuel d dirCluster (checkName name11)).bind fun found =>
      if found = none then some name11
      else shortNameLoop info fuel d dirCluster filename n (seq + 1)

/-- The short name of a new entry: generated with a number from 1 to 99, or the name itself. -/
def newShortName (info : Fat16Info) (fuel : ℕ) (d : Disk) (dirCluster : ℕ)
    (filename : List UInt8) : Option (List UInt8) :=
  if needsLfn filename then shortNameLoop info fuel d dirCluster filename 99 1
  else some (encode83Name filename)

/-- The end of `fat16_write_file` and `fat16_mkdir`: the entry and its long-name slots go to
free slots of the directory; without them the chain is freed and the result is `none`. -/
def addEntry (info : Fat16Info) (fuel : ℕ) (d : Disk) (dirCluster : ℕ) (filename : List UInt8)
    (attr : UInt8) (firstCluster size : ℕ) : Option (Bool × Disk) :=
  (newShortName info fuel d dirCluster filename).bind fun name11 =>
    let sfn := DirSlot.ofEntry name11 attr firstCluster size
    let lfns := if needsLfn filename then buildLfnEntries filename (lfnChecksum name11) else []
    if needsLfn filename && lfns = [] then
      (fatFreeChain info fuel d firstCluster).map fun d => (false, d)
    else
      (findFreeDirSlots info fuel d dirCluster (lfns.length + 1)).bind fun slot =>
        match slot with
        | none => (fatFreeChain info fuel d firstCluster).map fun d => (false, d)
        | some p => some (true, writeDirEntries d p (lfns ++ [sfn]))

/-- The start of `fat16_write_file`: a file of the same name is deleted. -/
def removeExisting (info : Fat16Info) (fuel : ℕ) (d : Disk) (dirCluster : ℕ)
    (filename : List UInt8) : Option Disk :=
  (findEntryInDir info fuel d dirCluster filename).bind fun found =>
    match found with
    | none => some d
    | some (p, existing) =>
      if existing.isDir then some d
      else (fatFreeChain info fuel d existing.clusterLo).map fun d => markDeleted d p

/-- `fat16_write_file`: the result and the disk after it. -/
def fat16WriteFile (info : Fat16Info) (fuel : ℕ) (d : Disk) (path data : List UInt8) :
    Option (ℤ × Disk) :=
  let (dirPath, filename) := splitPath path
  if filename = [] then some (-1, d)
  else
    (navigateToDir info fuel d dirPath).bind fun dirCluster =>
      if dirCluster = 0xFFFF then some (-1, d)
      else
        (removeExisting info fuel d dirCluster filename).bind fun d =>
          (allocChainLoop info fuel (clustersNeeded info data.length) d 0 0).bind fun (first, d) =>
            if first = 0 then some (-1, d)
            else
              (writeChain info fuel d first data).bind fun (d, left) =>
                (addEntry info fuel d dirCluster filename 0x20 first data.length).map
                  fun (ok, d) => (if ok then toInt32 (data.length - left.length) else -1, d)

/-- `fat16_delete_file`. -/
def fat16DeleteFile (info : Fat16Info) (fuel : ℕ) (d : Disk) (path : List UInt8) :
    Option (ℤ × Disk) :=
  let (dirPath, filename) := splitPath path
  (navigateToDir info fuel d dirPath).bind fun dirCluster =>
    if dirCluster = 0xFFFF then some (-1, d)
    else
      (findEntryInDir info fuel d dirCluster filename).bind fun found =>
        match found with
        | none => some (-1, d)
        | some (p, entry) =>
          (if 2 ≤ entry.clusterLo then fatFreeChain info fuel d entry.clusterLo else some d).map
            fun d => (0, markDeleted d p)

/-- The entry of a directory itself and of its parent. -/
def dotSlot (cluster : ℕ) : DirSlot := DirSlot.ofEntry (0x2E :: List.replicate 10 0x20) 0x10 cluster 0

def dotDotSlot (cluster : ℕ) : DirSlot :=
  DirSlot.ofEntry (0x2E :: 0x2E :: List.replicate 9 0x20) 0x10 cluster 0

/-- The sector with the two. -/
def dotSector (cluster parent : ℕ) : Memory :=
  storeSlot (storeSlot (fun _ => 0) 0 (dotSlot cluster)) 32 (dotDotSlot parent)

/-- `fat16_mkdir`. -/
def fat16Mkdir (info : Fat16Info) (fuel : ℕ) (d : Disk) (path : List UInt8) :
    Option (ℤ × Disk) :=
  let (dirPath, dirname) := splitPath path
  if dirname = [] then some (-1, d)
  else
    (navigateToDir info fuel d dirPath).bind fun parent =>
      if parent = 0xFFFF then some (-1, d)
      else
        (fatAllocCluster info fuel d).bind fun (cluster, d) =>
          if cluster = 0 then some (-1, d)
          else
            let lba := info.clusterToLba cluster
            let d := d.writeRun lba (fun _ _ => 0) info.sectorsPerCluster
            let d := d.write lba (dotSector cluster parent)
            (addEntry info fuel d parent dirname 0x10 cluster 0).map
              fun (ok, d) => (if ok then 0 else -1, d)

end Microkernel

/-
# NTFS: reading

The part of `src/ntfs.c` that reads a volume: sectors and clusters, the records of the MFT with
their fixups, attributes, data runs, directories, paths, and the public operations that read.

An access outside of a buffer is a fault.  Pointers into a buffer are offsets from its start; where the code adds to them a number
from the disk that may be large, the sum has 32 bits as on the i386, so that an offset below the
size of the buffer is inside again.  The texts printed are left out.
-/
import Microkernel.Buffers
import Microkernel.Disk
import Microkernel.Fat16Files
import Microkernel.Ramfs

namespace Microkernel

/-! ## The volume -/

/-- `ntfs_info_t` of a mounted volume, with what the operations use of it, and
`total_data_clusters`. -/
structure NtfsInfo where
  sectorsPerCluster : ℕ
  clusterSize : ℕ
  mftCluster : ℕ
  mftRecordSize : ℕ
  indexRecordSize : ℕ
  totalDataClusters : ℕ
  deriving DecidableEq

/-- What the driver runs on: `kmalloc`, and which sectors the drive transfers
(`ata_read_sector` and `ata_write_sector` give `false` for the others). -/
structure NtfsEnv where
  heap : Allocator
  responds : ℕ → Bool

/-- The size of a record in the boot sector: a number of clusters, or the exponent of a power of
two if it is negative.  The i386 takes the count of a shift modulo 32. -/
def recordSize (clusterSize field : ℕ) : ℕ :=
  if 0 < field ∧ field < 128 then field * clusterSize else 2 ^ ((256 - field) % 256 % 32)

/-- The part of `ntfs_mount` that checks the boot sector. -/
def ntfsInfo (boot : Memory) : Option NtfsInfo :=
  if (List.range 8).map (fun i => boot (3 + i)) ≠ "NTFS    ".toUTF8.toList then none
  else
    let clusterSize := boot.loadLE 11 2 * boot.loadLE 13 1
    let mftRecordSize := recordSize clusterSize (boot.loadLE 64 1)
    if boot.loadLE 11 2 ≠ 512 ∨ clusterSize = 0 ∨ clusterSize > 65536 then none
    else if mftRecordSize = 0 ∨ mftRecordSize > 4096 ∨ boot.loadLE 48 8 = 0 then none
    else
      some
        { sectorsPerCluster := boot.loadLE 13 1
          clusterSize := clusterSize
          mftCluster := boot.loadLE 48 8
          mftRecordSize := mftRecordSize
          indexRecordSize := recordSize clusterSize (boot.loadLE 68 1)
          totalDataClusters := u32 (boot.loadLE 40 8 / boot.loadLE 13 1) }

namespace NtfsInfo

variable (info : NtfsInfo)

/-- `cluster_to_lba`. -/
def clusterToLba (c : ℕ) : ℕ := u32 (c * info.sectorsPerCluster)

/-- The first sector of a record of the MFT. -/
def recordLba (rn : ℕ) : ℕ :=
  u32 (u64 (info.mftCluster * info.clusterSize + rn * info.mftRecordSize) / 512)

/-- `secs`. -/
def recordSectors : ℕ := info.mftRecordSize / 512

end NtfsInfo

/-! ## Sectors, clusters and records -/

/-- The loop that reads sectors into a buffer, from the `i`-th on; `false` as soon as one is not
transferred. -/
def readSectorsInto (env : NtfsEnv) (d : Disk) (lba : ℕ) :
    ℕ → ℕ → Buffer → Access (Bool × Buffer)
  | 0, _, b => .ok (true, b)
  | n + 1, i, b =>
    if env.responds (u32 (lba + i)) then
      (b.storeSector (i * 512) (d (u32 (lba + i)))).bind fun b =>
        readSectorsInto env d lba n (i + 1) b
    else .ok (false, b)

/-- The bytes of a sector. -/
def sectorBytes (sector : Memory) : List UInt8 := (List.range 512).map sector

/-- `read_cluster`: the bytes of a cluster, or `none` for `false`. -/
def readCluster (env : NtfsEnv) (info : NtfsInfo) (d : Disk) (c : ℕ) : Option (List UInt8) :=
  let lbas := (List.range info.sectorsPerCluster).map fun i => u32 (info.clusterToLba c + i)
  if lbas.all env.responds then some (lbas.flatMap fun lba => sectorBytes (d lba)) else none

/-- The loop of `apply_fixup`, from the `i`-th sector on. -/
def fixupLoop (uso sv recSize : ℕ) : ℕ → ℕ → Buffer → Access (Bool × Buffer)
  | 0, _, b => .ok (true, b)
  | n + 1, i, b =>
    let p := i * 512 - 2
    if p + 2 > recSize then .ok (true, b)
    else
      (b.load p 2).bind fun s =>
        if s ≠ sv then .ok (false, b)
        else
          (b.load (uso + 2 * i) 2).bind fun v =>
            (b.store p v 2).bind fun b => fixupLoop uso sv recSize n (i + 1) b

/-- `apply_fixup`: the last two bytes of each sector are put back. -/
def applyFixup (b : Buffer) (recSize : ℕ) : Access (Bool × Buffer) :=
  (b.load 4 2).bind fun uso =>
    (b.load 6 2).bind fun usc =>
      if uso + usc * 2 > recSize then .ok (false, b)
      else (b.load uso 2).bind fun sv => fixupLoop uso sv recSize (usc - 1) 1 b

/-- `mft_buf`: its size, and a buffer of that size. -/
def mftBufSize : ℕ := 1024

/-- `read_mft_record`: whether it succeeds, and what it leaves in `mft_buf`. -/
def readMftRecord (env : NtfsEnv) (info : NtfsInfo) (d : Disk) (rn : ℕ) (buf : Buffer) :
    Access (Bool × Buffer) :=
  (readSectorsInto env d (info.recordLba rn) info.recordSectors 0 buf).bind fun (ok, buf) =>
    if ok then
      (buf.beginsWith 0 "FILE".toUTF8.toList).bind fun isFile =>
        if isFile then applyFixup buf info.mftRecordSize else .ok (false, buf)
    else .ok (false, buf)

/-! ## Attributes -/

/-- The flags of a record: `MFT_RECORD_IN_USE` and `MFT_RECORD_IS_DIR`. -/
def inUse (flags : ℕ) : Bool := flags.testBit 0

def isDirectory (flags : ℕ) : Bool := flags.testBit 1

/-- The types of attributes the driver looks for. -/
def attrFileName : ℕ := 0x30

def attrVolumeName : ℕ := 0x60

def attrData : ℕ := 0x80

def attrIndexRoot : ℕ := 0x90

def attrIndexAlloc : ℕ := 0xA0

def attrBitmap : ℕ := 0xB0

def attrEnd : ℕ := 0xFFFFFFFF

/-- The loop of `find_attribute`; each round goes at least one byte ahead. -/
def findAttributeLoop (recSize : ℕ) (b : Buffer) (type : ℕ) : ℕ → ℕ → Access (Option ℕ)
  | 0, _ => .error .read
  | n + 1, off =>
    if off + 16 ≤ recSize then
      (b.load off 4).bind fun t =>
        if t = attrEnd ∨ t = 0 then .ok none
        else
          (b.load (off + 4) 4).bind fun len =>
            if len = 0 ∨ len > recSize - off then .ok none
            else if t = type then .ok (some off)
            else findAttributeLoop recSize b type n (off + len)
    else .ok none

/-- Where `find_attribute` begins. -/
def attributeStart (b : Buffer) : Option ℕ → Access ℕ
  | none => b.load 20 2
  | some prev => (b.load (prev + 4) 4).map (prev + ·)

/-- `find_attribute`: the offset of the attribute. -/
def findAttribute (recSize : ℕ) (b : Buffer) (type : ℕ) (prev : Option ℕ) : Access (Option ℕ) :=
  (attributeStart b prev).bind fun off => findAttributeLoop recSize b type (recSize + 1) off

/-- `non_resident` of an attribute. -/
def nonResident (b : Buffer) (attr : ℕ) : Access Bool := (b.load (attr + 8) 1).map (· != 0)

/-- `get_resident_data`: the offset of the value and its length. -/
def getResidentData (b : Buffer) (attr : ℕ) : Access (Option (ℕ × ℕ)) :=
  (nonResident b attr).bind fun nr =>
    if nr then .ok none
    else
      (b.load (attr + 16) 4).bind fun len =>
        (b.load (attr + 20) 2).bind fun valueOffset => .ok (some (attr + valueOffset, len))

/-! ## Data runs -/

/-- `data_run_t`, without the `vcn`, which nothing reads. -/
structure DataRun where
  lcn : ℕ
  length : ℕ
  deriving DecidableEq

/-- A shift of a 64-bit number to the left; the i386 takes the count modulo 64. -/
def shl64 (v n : ℕ) : ℕ := u64 (v <<< (n % 64))

/-- The loop that puts the bytes of a run together, from the `i`-th on. -/
def runNumber : ℕ → List UInt8 → ℕ
  | _, [] => 0
  | i, c :: cs => shl64 c.toNat (i * 8) ||| runNumber (i + 1) cs

/-- The offset of a run with its sign extended, as a number modulo `2 ^ 64`. -/
def runOffset (bs : List UInt8) : ℕ :=
  let ofs := runNumber 0 bs
  if ofs &&& shl64 1 (bs.length * 8 - 1) ≠ 0 then
    ofs ||| (2 ^ 64 - 1 - (shl64 1 (bs.length * 8) - 1))
  else ofs

/-- `MAX_DATA_RUNS`. -/
def maxDataRuns : ℕ := 256

/-- The loop of `parse_data_runs`, from `rd` to `re`; a run without an offset is skipped. -/
def parseRunsLoop (b : Buffer) (re : ℕ) : ℕ → ℕ → ℕ → List DataRun → Access (List DataRun)
  | 0, _, _, _ => .error .read
  | n + 1, rd, prev, runs =>
    if rd < re then
      (b.load rd 1).bind fun hdr =>
        if hdr = 0 ∨ maxDataRuns ≤ runs.length then .ok runs
        else
          let lb := hdr % 16
          let ob := hdr / 16
          if lb = 0 ∨ rd + 1 + lb + ob > re then .ok runs
          else
            (b.bytes (rd + 1) lb).bind fun lenBytes =>
              (b.bytes (rd + 1 + lb) ob).bind fun ofsBytes =>
                if ob = 0 then parseRunsLoop b re n (rd + 1 + lb) prev runs
                else
                  let lcn := u64 (prev + runOffset ofsBytes)
                  parseRunsLoop b re n (rd + 1 + lb + ob) lcn
                    (runs ++ [⟨lcn, runNumber 0 lenBytes⟩])
    else .ok runs

/-- `parse_data_runs`; the result is `false` if the list is empty. -/
def parseDataRuns (b : Buffer) (attr : ℕ) : Access (List DataRun) :=
  (nonResident b attr).bind fun nr =>
    if nr then
      (b.load (attr + 32) 2).bind fun runOffset =>
        (b.load (attr + 4) 4).bind fun length =>
          parseRunsLoop b (attr + length) (length + 1) (attr + runOffset) 0 []
    else .ok []

/-- The loop of `read_data_runs` over the clusters of a run, from `c` on, while less than `want`
bytes were read; `none` is -1. -/
def readRun (env : NtfsEnv) (info : NtfsInfo) (d : Disk) (lcn : ℕ) :
    ℕ → ℕ → ℕ → Option (List UInt8)
  | 0, _, _ => some []
  | n + 1, c, want =>
    if want = 0 then some []
    else
      (readCluster env info d (lcn + c)).bind fun bs =>
        (readRun env info d lcn n (c + 1) (want - (bs.take want).length)).map (bs.take want ++ ·)

/-- The loop of `read_data_runs` over the runs. -/
def readRuns (env : NtfsEnv) (info : NtfsInfo) (d : Disk) : List DataRun → ℕ → Option (List UInt8)
  | [], _ => some []
  | r :: rs, want =>
    if want = 0 then some []
    else
      (readRun env info d r.lcn r.length 0 want).bind fun bs =>
        (readRuns env info d rs (want - bs.length)).map (bs ++ ·)

/-- `read_data_runs`: the bytes read, or `none` for -1. -/
def readDataRuns (env : NtfsEnv) (info : NtfsInfo) (d : Disk) (runs : List DataRun)
    (max real : ℕ) : Option (List UInt8) :=
  (env.heap.kmalloc info.clusterSize).bind fun _ => readRuns env info d runs (min max (u32 real))

/-! ## Names -/

/-- `NTFS_MAX_NAME`, `NTFS_MAX_PATH`. -/
def ntfsMaxName : ℕ := 256

def ntfsMaxPath : ℕ := 512

/-- `utf16le_to_ascii` with room for `ds` bytes: the string that ends at the first zero. -/
def utf16leToAscii (b : Buffer) (addr len ds : ℕ) : Access (List UInt8) :=
  let n := min len (ds - 1)
  if n = 0 ∨ addr + 2 * n ≤ b.size then
    .ok (((List.range n).map fun i =>
      let c := b.mem.loadLE (addr + 2 * i) 2
      if c < 128 then UInt8.ofNat c else 0x3F).takeWhile (· != 0))
  else .error .read

/-- `strcaseeq`. -/
def strcaseeq (a b : List UInt8) : Bool := equalsIgnoringCase a b

/-! ## Directories -/

section

variable {σ : Type} (env : NtfsEnv) (info : NtfsInfo) (d : Disk)
  (cb : Buffer → ℕ → σ → Access (Bool × σ))

/-- The loop of `walk_index_entries` over the entries from `base` on; each round goes at least
one byte ahead.  The number of entries, which nothing reads, is left out. -/
def walkEntriesLoop (b : Buffer) (base size : ℕ) : ℕ → ℕ → σ → Access σ
  | 0, _, _ => .error .read
  | n + 1, off, ctx =>
    if u32 (off + 16) ≤ size then
      let ie := base + off
      (b.load (u32 (ie + 8)) 2).bind fun entryLength =>
        if entryLength = 0 ∨ u32 (off + entryLength) > size then .ok ctx
        else
          (b.load (u32 (ie + 12)) 4).bind fun flags =>
            if flags.testBit 1 then .ok ctx
            else
              (b.load (u32 (ie + 10)) 2).bind fun contentLength =>
                if 66 ≤ contentLength then
                  (cb b ie ctx).bind fun (goOn, ctx) =>
                    if goOn then walkEntriesLoop b base size n (u32 (off + entryLength)) ctx
                    else .ok ctx
                else walkEntriesLoop b base size n (u32 (off + entryLength)) ctx
    else .ok ctx

/-- `walk_index_entries`. -/
def walkIndexEntries (b : Buffer) (base size : ℕ) (ctx : σ) : Access σ :=
  walkEntriesLoop cb b base size (b.size + 1) 0 ctx

/-- The part of `walk_directory` about the entries of an index record. -/
def walkBlockEntries (ib : Buffer) (ctx : σ) : Access σ :=
  (ib.load 24 4).bind fun entriesOffset =>
    (ib.load 28 4).bind fun total => walkIndexEntries cb ib (24 + entriesOffset) total ctx

/-- One index record of `walk_directory`: it is read into `ib` and its entries are walked. -/
def walkIndexRecord (rlba : ℕ) (ib : Buffer) (ctx : σ) : Access (Buffer × σ) :=
  (readSectorsInto env d rlba (info.indexRecordSize / 512) 0 ib).bind fun (ok, ib) =>
    if ok then
      (ib.beginsWith 0 "INDX".toUTF8.toList).bind fun isIndex =>
        if isIndex then
          (applyFixup ib info.indexRecordSize).bind fun (fixed, ib) =>
            if fixed then (walkBlockEntries cb ib ctx).map fun ctx => (ib, ctx)
            else .ok (ib, ctx)
        else .ok (ib, ctx)
    else .ok (ib, ctx)

/-- The index records of a cluster, from the `ri`-th on. -/
def walkCluster (lba : ℕ) : ℕ → ℕ → Buffer → σ → Access (Buffer × σ)
  | 0, _, ib, ctx => .ok (ib, ctx)
  | n + 1, ri, ib, ctx =>
    (walkIndexRecord env info d cb (u32 (lba + ri * info.indexRecordSize / 512)) ib ctx).bind
      fun (ib, ctx) => walkCluster lba n (ri + 1) ib ctx

/-- The clusters of a run of index records, from the `c`-th on. -/
def walkRun (lcn : ℕ) : ℕ → ℕ → Buffer → σ → Access (Buffer × σ)
  | 0, _, ib, ctx => .ok (ib, ctx)
  | n + 1, c, ib, ctx =>
    (walkCluster env info d cb (info.clusterToLba (lcn + c))
      (max 1 (info.clusterSize / info.indexRecordSize)) 0 ib ctx).bind
      fun (ib, ctx) => walkRun lcn n (c + 1) ib ctx

/-- The runs of index records. -/
def walkRuns : List DataRun → Buffer → σ → Access (Buffer × σ)
  | [], ib, ctx => .ok (ib, ctx)
  | r :: rs, ib, ctx =>
    (walkRun env info d cb r.lcn r.length 0 ib ctx).bind fun (ib, ctx) => walkRuns rs ib ctx

/-- The part of `walk_directory` about the attribute with the index records. -/
def walkIndexAllocation (dr : Buffer) (ctx : σ) : Access σ :=
  (findAttribute info.mftRecordSize dr attrIndexAlloc none).bind fun found =>
    match found with
    | none => .ok ctx
    | some iaa =>
      (parseDataRuns dr iaa).bind fun runs =>
        if runs = [] then .ok ctx
        else
          match env.heap.kmalloc info.indexRecordSize with
          | none => .ok ctx
          | some fresh =>
            (walkRuns env info d cb runs ⟨fresh.length, fun i => fresh.getD i 0⟩ ctx).map Prod.snd

/-- The part of `walk_directory` about the entries of the index root at `ir`. -/
def walkRootEntries (dr : Buffer) (ir : ℕ) (ctx : σ) : Access σ :=
  (dr.load (ir + 16) 4).bind fun entriesOffset =>
    (dr.load (ir + 20) 4).bind fun total => walkIndexEntries cb dr (ir + 16 + entriesOffset) total ctx

/-- `walk_directory`: the entries of the index root, and those of the index records.  A callback
that ends the walk of one index does not end the walk of the others. -/
def walkDirectory (dr : Buffer) (ctx : σ) : Access σ :=
  (findAttribute info.mftRecordSize dr attrIndexRoot none).bind fun found =>
    match found with
    | none => .ok ctx
    | some ira =>
      (getResidentData dr ira).bind fun value =>
        match value with
        | none => .ok ctx
        | some (ir, irl) =>
          if irl < 32 then .ok ctx
          else
            (walkRootEntries cb dr ir ctx).bind fun ctx =>
              (dr.load (ir + 28) 4).bind fun flags =>
                if flags.testBit 0 then walkIndexAllocation env info d cb dr ctx else .ok ctx

end

/-- `ntfs_dirent_t`. -/
structure NtfsDirent where
  name : List UInt8
  attr : ℕ
  size : ℕ
  mftRef : ℕ
  isDir : Bool
  date : ℕ
  time : ℕ
  deriving DecidableEq

/-- The low 48 bits of a reference are the number of the record. -/
def recordNumber (ref : ℕ) : ℕ := ref % 2 ^ 48

/-- `NTFS_FILE_ATTR_DIRECTORY`. -/
def isDirectoryAttr (flags : ℕ) : Bool := flags.testBit 28

/-- The seconds since 1970 of a time in units of 100 ns since 1601. -/
def unixSeconds (t : ℕ) : ℕ := t / 10000000 - 11644473600

/-- `date` and `time` of a directory entry. -/
def direntDate (t : ℕ) : ℕ :=
  let days := u32 (unixSeconds t / 86400)
  if t = 0 then 0 else u32 ((1970 + days / 365) * 100 + min 12 (days % 365 / 30 + 1)) % 2 ^ 16

def direntTime (t : ℕ) : ℕ :=
  let secs := unixSeconds t % 86400
  if t = 0 then 0 else secs / 3600 * 100 + secs % 3600 / 60

/-- `dir_list_callback`: the context is the list so far. -/
def dirListCallback (max : ℕ) (b : Buffer) (ie : ℕ) (entries : List NtfsDirent) :
    Access (Bool × List NtfsDirent) :=
  if max ≤ entries.length then .ok (false, entries)
  else
    let fn := ie + 16
    (b.load (u32 (fn + 65)) 1).bind fun nameType =>
      if nameType = 2 then .ok (true, entries)
      else
        (b.load (u32 (fn + 64)) 1).bind fun nameLength =>
          (utf16leToAscii b (u32 (fn + 66)) nameLength ntfsMaxName).bind fun name =>
            if name = ".".toUTF8.toList ∨ name = "..".toUTF8.toList ∨ name.head? = some 0x24 then
              .ok (true, entries)
            else
              (b.load (u32 ie) 8).bind fun ref =>
                (b.load (u32 (fn + 56)) 4).bind fun flags =>
                  (b.load (u32 (fn + 48)) 8).bind fun size =>
                    (b.load (u32 (fn + 16)) 8).bind fun modified =>
                      .ok (true, entries ++ [⟨name, flags, size, recordNumber ref,
                        isDirectoryAttr flags, direntDate modified, direntTime modified⟩])

/-- `dir_lookup_ctx_t` after a match: the record and whether the entry is a directory. -/
structure Lookup where
  ref : ℕ
  isDir : Bool
  deriving DecidableEq

/-- `dir_lookup_callback`. -/
def dirLookupCallback (name : List UInt8) (b : Buffer) (ie : ℕ) (found : Option Lookup) :
    Access (Bool × Option Lookup) :=
  let fn := ie + 16
  (b.load (u32 (fn + 65)) 1).bind fun nameType =>
    if nameType = 2 then .ok (true, found)
    else
      (b.load (u32 (fn + 64)) 1).bind fun nameLength =>
        (utf16leToAscii b (u32 (fn + 66)) nameLength ntfsMaxName).bind fun nm =>
          if strcaseeq nm name then
            (b.load (u32 ie) 8).bind fun ref =>
              (b.load (u32 (fn + 56)) 4).bind fun flags =>
                .ok (false, some ⟨recordNumber ref, isDirectoryAttr flags⟩)
          else .ok (true, found)

/-! ## Paths -/

/-- `MFT_RECORD_ROOT`. -/
def mftRecordRoot : ℕ := 5

section

variable (env : NtfsEnv) (info : NtfsInfo) (d : Disk)

/-- The loop of `resolve_path` over the components, from the directory `cur` on; `none` inside is
(uint64_t)-1. -/
def resolveLoop : List (List UInt8) → ℕ → Buffer → Access (Option ℕ × Buffer)
  | [], cur, buf => .ok (some cur, buf)
  | comp :: rest, cur, buf =>
    if comp = [] then resolveLoop rest cur buf
    else
      (readMftRecord env info d cur buf).bind fun (ok, buf) =>
        if ok then
          (buf.load 22 2).bind fun flags =>
            if inUse flags then
              (walkDirectory env info d (dirLookupCallback comp) buf none).bind fun found =>
                match found with
                | none => .ok (none, buf)
                | some r => resolveLoop rest r.ref buf
            else .ok (none, buf)
        else .ok (none, buf)

/-- `resolve_path`, and what it leaves in `mft_buf`. -/
def ntfsResolvePath (path : List UInt8) (buf : Buffer) : Access (Option ℕ × Buffer) :=
  if path = [slash] then .ok (some mftRecordRoot, buf)
  else
    resolveLoop env info d
      (Path.components (ntfsMaxName - 1) (if path.head? = some slash then path.tail else path))
      mftRecordRoot buf

/-- The record of a path and its flags, as the operations on files begin. -/
def openRecord (path : List UInt8) (buf : Buffer) : Access (Option (ℕ × ℕ) × Buffer) :=
  (ntfsResolvePath env info d path buf).bind fun (r, buf) =>
    match r with
    | none => .ok (none, buf)
    | some rn =>
      (readMftRecord env info d rn buf).bind fun (ok, buf) =>
        if ok then (buf.load 22 2).map fun flags => (some (rn, flags), buf) else .ok (none, buf)

/-! ## Operations -/

/-- The loop that goes on to an attribute without a name. -/
def unnamedLoop (b : Buffer) (type : ℕ) : ℕ → Option ℕ → Access (Option ℕ)
  | 0, _ => .error .read
  | _ + 1, none => .ok none
  | n + 1, some attr =>
    (b.load (attr + 9) 1).bind fun nameLength =>
      if 0 < nameLength then
        (findAttribute info.mftRecordSize b type (some attr)).bind (unnamedLoop b type n)
      else .ok (some attr)

/-- The unnamed `$DATA` attribute. -/
def unnamedData (b : Buffer) : Access (Option ℕ) :=
  (findAttribute info.mftRecordSize b attrData none).bind
    (unnamedLoop info b attrData (info.mftRecordSize + 1))

/-- The part of `ntfs_read_file` about the attribute: the bytes, or `none` for -1. -/
def readData (b : Buffer) (maxSize : ℕ) : Access (Option (List UInt8)) :=
  (unnamedData info b).bind fun found =>
    match found with
    | none => .ok none
    | some da =>
      (nonResident b da).bind fun nr =>
        if nr then
          (parseDataRuns b da).bind fun runs =>
            if runs = [] then .ok none
            else (b.load (da + 48) 8).map fun real => readDataRuns env info d runs maxSize real
        else
          (getResidentData b da).bind fun value =>
            match value with
            | none => .ok none
            | some (addr, vl) => (b.bytes addr (min maxSize vl)).map some

/-- `ntfs_read_file`: the bytes, or `none` for -1. -/
def ntfsReadFile (path : List UInt8) (maxSize : ℕ) (buf : Buffer) :
    Access (Option (List UInt8) × Buffer) :=
  (openRecord env info d path buf).bind fun (r, buf) =>
    match r with
    | none => .ok (none, buf)
    | some (_, flags) =>
      if !inUse flags || isDirectory flags then .ok (none, buf)
      else (readData env info d buf maxSize).map fun bytes => (bytes, buf)

/-- `get_data_size`, as a number modulo `2 ^ 64`. -/
def getDataSize (b : Buffer) : Access ℕ :=
  (findAttribute info.mftRecordSize b attrData none).bind fun found =>
    match found with
    | none => .ok 0
    | some a =>
      (nonResident b a).bind fun nr =>
        if nr then b.load (a + 48) 8
        else (getResidentData b a).map fun value => (value.map Prod.snd).getD 0

/-- The result of `ntfs_file_size` for a size of `get_data_size`. -/
def sizeResult (s : ℕ) : ℤ := if s < 2 ^ 63 ∧ 0x7FFFFFFF < s then 0x7FFFFFFF else toInt32 s

/-- `ntfs_file_size`. -/
def ntfsFileSize (path : List UInt8) (buf : Buffer) : Access (ℤ × Buffer) :=
  (openRecord env info d path buf).bind fun (r, buf) =>
    match r with
    | none => .ok (-1, buf)
    | some (_, flags) =>
      if !inUse flags then .ok (-1, buf)
      else (getDataSize info buf).map fun s => (sizeResult s, buf)

/-- `ntfs_is_dir`. -/
def ntfsIsDir (path : List UInt8) (buf : Buffer) : Access (Bool × Buffer) :=
  (openRecord env info d path buf).map fun (r, buf) =>
    match r with
    | none => (false, buf)
    | some (_, flags) => (inUse flags && isDirectory flags, buf)

/-- `ntfs_list_dir`; `none` inside is -1.  The walk reads a copy of the record. -/
def ntfsListDir (path : List UInt8) (max : ℕ) (buf : Buffer) :
    Access (Option (List NtfsDirent) × Buffer) :=
  (openRecord env info d path buf).bind fun (r, buf) =>
    match r with
    | none => .ok (none, buf)
    | some (_, flags) =>
      if !inUse flags || !isDirectory flags then .ok (none, buf)
      else
        match env.heap.kmalloc info.mftRecordSize with
        | none => .ok (none, buf)
        | some _ =>
          (walkDirectory env info d (dirListCallback max) { buf with size := info.mftRecordSize }
            []).map fun entries => (some entries, buf)

end

end Microkernel

/-
# `ramfs_stat` and `ramfs_read`

Each of the four file systems computes the size of a file in another way than it produces the
bytes: the RAM file system from the fields of a node, procfs by a generator with 64 bytes of room,
FAT16 from the directory entry, NTFS from the first `$DATA` attribute.  The two calls agree on a
path exactly if the size that is recorded there is the size of what is stored.
-/
import Microkernel.Procfs
import Microkernel.RamfsTree
import Microkernel.VfsRouting
import Microkernel.Fat16Lookup
import Microkernel.NtfsReads

namespace Microkernel

open Access

/-! ## The two calls -/

/-- The state of the four file systems; `mftBuf` is the scratch memory of NTFS. -/
structure Vfs where
  ramfs : Ramfs
  mounts : Mounts
  texts : ProcTexts
  fat16 : Fat16Info
  fat16Disk : Disk
  ntfs : NtfsInfo
  ntfsEnv : NtfsEnv
  ntfsDisk : Disk
  mftBuf : Buffer

/-- What `ramfs_stat` reports for a result of `fat16_file_size` or `ntfs_file_size`. -/
def reportSize (size : ℤ) : Option (RamfsType × ℕ) :=
  if 0 ≤ size then some (.file, size.toNat) else none

namespace Vfs

variable (v : Vfs)

/-- The part of `ramfs_stat` about FAT16. -/
def fat16Stat (fuel : ℕ) (path : List UInt8) : Option (Option (RamfsType × ℕ)) :=
  if path = [slash] then some (some (.dir, 0))
  else
    (fat16IsDir v.fat16 fuel v.fat16Disk path).bind fun isDir =>
      if isDir then some (some (.dir, 0))
      else (fat16FileSize v.fat16 fuel v.fat16Disk path).map reportSize

/-- The part of `ramfs_stat` about NTFS. -/
def ntfsStat (path : List UInt8) (buf : Buffer) : Access (Option (RamfsType × ℕ) × Buffer) :=
  if path = [slash] then .ok (some (.dir, 0), buf)
  else
    (ntfsIsDir v.ntfsEnv v.ntfs v.ntfsDisk path buf).bind fun (isDir, buf) =>
      if isDir then .ok (some (.dir, 0), buf)
      else
        (ntfsFileSize v.ntfsEnv v.ntfs v.ntfsDisk path buf).map fun (size, buf) =>
          (reportSize size, buf)

/-- The report of the file system that serves the call. -/
def statServed (fuel : ℕ) (path : List UInt8) : Served → Option (Option (RamfsType × ℕ) × Buffer)
  | .ramfs _ _ => some (v.ramfs.statNode path, v.mftBuf)
  | .procfs p => some (procfsStat v.texts p, v.mftBuf)
  | .fat16 p => (v.fat16Stat fuel p).map fun r => (r, v.mftBuf)
  | .ntfs p => (v.ntfsStat p v.mftBuf).toOption
  | .nowhere => some (none, v.mftBuf)

/-- `ramfs_stat`: the type and the size, or `none` for an error; there is no result if the path
does not fit its array, if an access is outside of a buffer, or without enough rounds. -/
def stat (fuel : ℕ) (path : List UInt8) : Option (Option (RamfsType × ℕ) × Buffer) :=
  if v.ramfs.PathFits path then v.statServed fuel path (v.ramfs.stat v.mounts path) else none

/-- The result of the file system that serves the call. -/
def readServed (fuel max : ℕ) : Served → Option (ℤ × Buffer)
  | .ramfs r _ => some (r, v.mftBuf)
  | .procfs p => some (Ramfs.readResult (procfsRead v.texts p max), v.mftBuf)
  | .fat16 p =>
    (fat16ReadFile v.fat16 fuel v.fat16Disk p max).map fun r => (Ramfs.readResult r, v.mftBuf)
  | .ntfs p =>
    ((ntfsReadFile v.ntfsEnv v.ntfs v.ntfsDisk p max v.mftBuf).map fun (r, buf) =>
      (Ramfs.readResult r, buf)).toOption
  | .nowhere => some (-1, v.mftBuf)

/-- `ramfs_read`: its result, with the same exceptions. -/
def read (fuel : ℕ) (path : List UInt8) (max : ℕ) : Option (ℤ × Buffer) :=
  if v.ramfs.PathFits path then v.readServed fuel max (v.ramfs.read v.mounts path max) else none

/-- A call of `ramfs_read` returns `r`. -/
def Reads (path : List UInt8) (max : ℕ) (r : ℤ) : Prop :=
  ∃ fuel buf, v.read fuel path max = some (r, buf)

/-- What a read must give after a report; no buffer has 2 GB or more. -/
def ReadFits (path : List UInt8) : RamfsType → ℕ → Prop
  | .file, size => ∀ max, size < max → max < 2 ^ 31 → v.Reads path max size
  | .dir, _ => ∀ max, max < 2 ^ 31 → ∃ r, r < 0 ∧ v.Reads path max r

/-- `ramfs_stat` and a `ramfs_read` after it agree on a path. -/
def Agrees (path : List UInt8) : Prop :=
  ∀ fuel type size buf, v.stat fuel path = some (some (type, size), buf) →
    Vfs.ReadFits { v with mftBuf := buf } path type size

/-! ## When they agree -/

/-- A file in the nodes has its bytes. -/
def NodeAgrees (path : List UInt8) : Prop :=
  ∀ i, v.ramfs.find path = some i → (v.ramfs.nodes i).type = .file →
    (v.ramfs.nodes i).size < 2 ^ 31 - 1 →
    (v.ramfs.nodes i).size ≤ ((v.ramfs.nodes i).data.getD []).length

/-- A path under `/proc` is no directory, and the text fits the 64 bytes of room. -/
def ProcAgrees (p : List UInt8) : Prop :=
  procfsIsDir p = false ∧ ∀ f, procFile p = some f → (v.texts f).length ≤ 63

/-- The lookup of a name for reading comes to an end without a file. -/
def Fat16NoFile (p : List UInt8) : Prop :=
  (splitPath p).2 = [] ∨ ∃ fuel dc, navigateToDir v.fat16 fuel v.fat16Disk (splitPath p).1 = some dc ∧
    (dc = 0xFFFF ∨ ∃ found, findEntryInDir v.fat16 fuel v.fat16Disk dc (splitPath p).2 = some found ∧
      ∀ pos e, found = some (pos, e) → e.isDir = true)

/-- A path on FAT16: what is a directory for `fat16_is_dir` is no file for reading; what is a file
for `fat16_file_size` has a name, is no directory, and its chain has room for its size. -/
def Fat16Agrees (p : List UInt8) : Prop :=
  p = [slash] ∨
    (∀ fuel c, navigateToDir v.fat16 fuel v.fat16Disk p = some c → c ≠ 0xFFFF → v.Fat16NoFile p) ∧
    ∀ fuel dc pos e, navigateToDir v.fat16 fuel v.fat16Disk p = some 0xFFFF →
      navigateToDir v.fat16 fuel v.fat16Disk (splitPath p).1 = some dc → dc ≠ 0xFFFF →
      findEntryInDir v.fat16 fuel v.fat16Disk dc (splitPath p).2 = some (some (pos, e)) →
      e.fileSize < 2 ^ 31 - 1 →
      (splitPath p).2 ≠ [] ∧ e.isDir = false ∧
        Supplies v.fat16 v.fat16Disk e.clusterLo e.fileSize

/-- The unnamed `$DATA` attribute of a record has exactly `n` bytes that can be read. -/
def NtfsDelivers (b : Buffer) (n : ℕ) : Prop :=
  ∃ da, unnamedData v.ntfs b = .ok (some da) ∧
    ((nonResident b da = .ok false ∧
        ∃ addr, getResidentData b da = .ok (some (addr, n)) ∧ (n = 0 ∨ addr + n ≤ b.size)) ∨
      (nonResident b da = .ok true ∧
        ∃ runs real, parseDataRuns b da = .ok runs ∧ runs ≠ [] ∧ b.load (da + 48) 8 = .ok real ∧
          (v.ntfsEnv.heap.kmalloc v.ntfs.clusterSize).isSome = true ∧
          min (u32 real) (runClusters runs * v.ntfs.clusterBytes) = n ∧
          ClustersRespond v.ntfsEnv v.ntfs v.ntfsDisk runs n))

/-- The record has no unnamed `$DATA` attribute, or one that cannot be read at all. -/
def NtfsUnreadable (b : Buffer) : Prop :=
  unnamedData v.ntfs b = .ok none ∨ ∃ da runs, unnamedData v.ntfs b = .ok (some da) ∧
    nonResident b da = .ok true ∧ parseDataRuns b da = .ok runs ∧
    (runs = [] ∨ Inside (b.load (da + 48) 8) ∧ v.ntfsEnv.heap.kmalloc v.ntfs.clusterSize = none)

/-- A path on NTFS: the record of the root, if it is in use, is one of a directory; the unnamed
`$DATA` attribute of a file has as many bytes as the first `$DATA` attribute says. -/
def NtfsAgrees (p : List UInt8) : Prop :=
  if p = [slash] then
    ∃ r b, openRecord v.ntfsEnv v.ntfs v.ntfsDisk p v.mftBuf = .ok (r, b) ∧
      ∀ rn flags, r = some (rn, flags) → inUse flags = true → isDirectory flags = false →
        v.NtfsUnreadable b
  else
    ∀ rn flags b s, openRecord v.ntfsEnv v.ntfs v.ntfsDisk p v.mftBuf = .ok (some (rn, flags), b) →
      inUse flags = true → isDirectory flags = false → getDataSize v.ntfs b = .ok s →
      0 ≤ sizeResult s → sizeResult s < 2 ^ 31 - 1 → v.NtfsDelivers b (sizeResult s).toNat

/-- There is no node for `/proc` that a read could be for: reads go to procfs. -/
def NoProcNode (path : List UInt8) : Prop :=
  ∀ i, v.ramfs.find path = some i →
    (v.ramfs.nodes i).type = .file ∧ 2 ^ 31 - 1 ≤ (v.ramfs.nodes i).size

/-- The condition, by the file system that serves the path. -/
def SizesRecorded (path : List UInt8) : Prop :=
  if procfsIsVirtual (v.ramfs.resolvePath path) then
    if 5 < (v.ramfs.resolvePath path).length then v.ProcAgrees (v.ramfs.resolvePath path)
    else v.NoProcNode path
  else
    match onDisk v.mounts (matchDisk (v.ramfs.resolvePath path)) .nowhere with
    | .fat16 p => v.Fat16Agrees p
    | .ntfs p => v.NtfsAgrees p
    | _ => v.NodeAgrees path

/-! ## The nodes -/

section

variable {v} {path : List UInt8}

@[simp] theorem readResult_none : Ramfs.readResult none = -1 := rfl

@[simp] theorem readResult_some (bs : List UInt8) : Ramfs.readResult (some bs) = bs.length := rfl

/-- A read of a node. -/
theorem readResult_readNode {i : Fin 64} (hfind : v.ramfs.find path = some i) (max : ℕ) :
    Ramfs.readResult (v.ramfs.readNode path max) =
      if (v.ramfs.nodes i).type = .file then
        ((min (min (v.ramfs.nodes i).size max)
          ((v.ramfs.nodes i).data.getD []).length : ℕ) : ℤ)
      else -1 := by
  unfold Ramfs.readNode
  rw [hfind, Option.bind_some]
  by_cases h : (v.ramfs.nodes i).type = .file
  · rw [if_neg (not_not.mpr h), if_pos h, readResult_some, List.length_take]
  · rw [if_pos h, if_neg h]
    rfl

theorem readFits_node
    (hread : ∀ max r, v.Reads path max r ↔ r = Ramfs.readResult (v.ramfs.readNode path max)) :
    (∀ type size, v.ramfs.statNode path = some (type, size) → v.ReadFits path type size) ↔
      v.NodeAgrees path := by
  unfold NodeAgrees Ramfs.statNode
  cases hfind : v.ramfs.find path with
  | none => simp
  | some i =>
    constructor
    · intro h j hj htype hsize
      cases hj
      have hfile := h _ _ rfl
      rw [htype] at hfile
      -- the smallest buffer that is larger
      have hlast := hfile _ (Nat.lt_succ_self _) (by omega)
      rw [hread, readResult_readNode hfind, if_pos htype, Int.natCast_inj] at hlast
      omega
    · intro h type size heq
      cases heq
      cases htype : (v.ramfs.nodes i).type with
      | file =>
        intro max hmax hmax'
        rw [hread, readResult_readNode hfind, if_pos htype, Int.natCast_inj]
        have := h i rfl htype (by omega)
        omega
      | dir =>
        intro max _
        refine ⟨-1, by decide, ?_⟩
        rw [hread, readResult_readNode hfind, if_neg (by rw [htype]; decide)]

/-! ## `/proc` -/

theorem length_generate {f : ProcFile} (max : ℕ) :
    (generate v.texts f max).length = min (max - 1) (v.texts f).length := List.length_take

theorem readFits_proc {p : List UInt8}
    (hread : ∀ max r, v.Reads path max r ↔ r = Ramfs.readResult (procfsRead v.texts p max)) :
    (∀ type size, procfsStat v.texts p = some (type, size) → v.ReadFits path type size) ↔
      v.ProcAgrees p := by
  unfold ProcAgrees procfsStat
  cases hdir : procfsIsDir p with
  | true =>
    -- a read with no room gives no error
    simp only [if_true, Bool.true_eq_false, false_and, iff_false]
    intro h
    obtain ⟨r, hr, hr'⟩ := h _ _ rfl 0 (by decide)
    rw [hread] at hr'
    subst hr'
    exact absurd hr (by simp [procfsRead, Ramfs.readResult])
  | false =>
    simp only [Bool.false_eq_true, if_false, true_and]
    have hres : ∀ max, 0 < max → procfsRead v.texts p max =
        (procFile p).map fun f => generate v.texts f max := fun max hmax => if_neg (by omega)
    rw [hres 64 (by decide)]
    cases hfile : procFile p with
    | none => simp
    | some f =>
      simp only [Option.map_some, Option.some.injEq, forall_eq', Prod.mk.injEq, length_generate]
      constructor
      · intro h
        by_contra hlong
        have hlast := h _ _ ⟨rfl, rfl⟩ 65 (by omega) (by decide)
        rw [hread, hres 65 (by decide), hfile, Option.map_some, readResult_some, length_generate,
          Int.natCast_inj] at hlast
        omega
      · rintro h type size ⟨rfl, rfl⟩ max hmax _
        rw [hread, hres max (by omega), hfile, Option.map_some, readResult_some, length_generate,
          Int.natCast_inj]
        omega

/-! ## FAT16 -/

theorem toInt32_of_nonneg {n : ℕ} (hn : n < 2 ^ 32) (h : 0 ≤ toInt32 n) :
    n < 2 ^ 31 ∧ toInt32 n = n := by
  unfold toInt32 at *
  split_ifs at * with hlt
  · omega
  · omega

theorem fileSize_lt (e : DirSlot) : e.fileSize < 2 ^ 32 := by
  have h₀ := (e 28).toNat_lt
  have h₁ := (e 29).toNat_lt
  have h₂ := (e 30).toNat_lt
  have h₃ := (e 31).toNat_lt
  unfold DirSlot.fileSize
  omega

/-- The file that a read comes to. -/
def Fat16File (v : Vfs) (fuel : ℕ) (p : List UInt8) (e : DirSlot) : Prop :=
  (splitPath p).2 ≠ [] ∧ ∃ dc pos,
    navigateToDir v.fat16 fuel v.fat16Disk (splitPath p).1 = some dc ∧ dc ≠ 0xFFFF ∧
    findEntryInDir v.fat16 fuel v.fat16Disk dc (splitPath p).2 = some (some (pos, e)) ∧
    e.isDir = false

/-- A read that gives an error has found no file. -/
theorem fat16ReadFile_none {fuel max : ℕ} {p : List UInt8}
    (h : fat16ReadFile v.fat16 fuel v.fat16Disk p max = some none) : v.Fat16NoFile p := by
  unfold fat16ReadFile at h
  dsimp only at h
  by_cases hname : (splitPath p).2 = []
  · exact Or.inl hname
  rw [if_neg hname] at h
  obtain ⟨dc, hdc, h⟩ := Option.bind_eq_some_iff.mp h
  refine Or.inr ⟨fuel, dc, hdc, ?_⟩
  by_cases hend : dc = 0xFFFF
  · exact Or.inl hend
  rw [if_neg hend] at h
  obtain ⟨found, hfound, h⟩ := Option.bind_eq_some_iff.mp h
  refine Or.inr ⟨found, hfound, fun pos e heq => ?_⟩
  subst heq
  dsimp only at h
  split_ifs at h with hdir
  · exact hdir
  · obtain ⟨bs, -, heq⟩ := Option.map_eq_some_iff.mp h
    cases heq

theorem fat16ReadFile_of_noFile {p : List UInt8} (h : v.Fat16NoFile p) (max : ℕ) :
    ∃ fuel, fat16ReadFile v.fat16 fuel v.fat16Disk p max = some none := by
  unfold fat16ReadFile
  dsimp only
  rcases h with hname | ⟨fuel, dc, hdc, hend⟩
  · exact ⟨0, if_pos hname⟩
  refine ⟨fuel, ?_⟩
  by_cases hname : (splitPath p).2 = []
  · exact if_pos hname
  rw [if_neg hname, hdc, Option.bind_some]
  rcases hend with hend | ⟨found, hfound, hdir⟩
  · exact if_pos hend
  · split_ifs with hend
    · rfl
    rw [hfound, Option.bind_some]
    cases found with
    | none => rfl
    | some t => exact if_pos (hdir t.1 t.2 rfl)

/-- A read that gives bytes has found a file. -/
theorem fat16ReadFile_some {fuel max : ℕ} {p bs : List UInt8}
    (h : fat16ReadFile v.fat16 fuel v.fat16Disk p max = some (some bs)) :
    ∃ e, v.Fat16File fuel p e ∧
      readChain v.fat16 v.fat16Disk fuel e.clusterLo (min e.fileSize max) = some bs := by
  unfold fat16ReadFile at h
  dsimp only at h
  by_cases hname : (splitPath p).2 = []
  · rw [if_pos hname] at h
    cases h
  rw [if_neg hname] at h
  obtain ⟨dc, hdc, h⟩ := Option.bind_eq_some_iff.mp h
  by_cases hend : dc = 0xFFFF
  · rw [if_pos hend] at h
    cases h
  rw [if_neg hend] at h
  obtain ⟨found, hfound, h⟩ := Option.bind_eq_some_iff.mp h
  cases found with
  | none => cases h
  | some t =>
    dsimp only at h
    by_cases hdir : t.2.isDir = true
    · rw [if_pos hdir] at h
      cases h
    rw [if_neg hdir] at h
    obtain ⟨bs', hbs', heq⟩ := Option.map_eq_some_iff.mp h
    cases heq
    exact ⟨t.2, ⟨hname, dc, t.1, hdc, hend, hfound, Bool.eq_false_iff.mpr hdir⟩, hbs'⟩

theorem fat16ReadFile_of_file {fuel fuel' max : ℕ} {p bs : List UInt8} {e : DirSlot}
    (hfile : v.Fat16File fuel p e)
    (hbs : readChain v.fat16 v.fat16Disk fuel' e.clusterLo (min e.fileSize max) = some bs) :
    fat16ReadFile v.fat16 (Nat.max fuel fuel') v.fat16Disk p max = some (some bs) := by
  obtain ⟨hname, dc, pos, hdc, hend, hfound, hdir⟩ := hfile
  unfold fat16ReadFile
  dsimp only
  rw [if_neg hname, navigateToDir_mono (Nat.le_max_left fuel fuel') hdc, Option.bind_some,
    if_neg hend, findEntryInDir_mono (Nat.le_max_left fuel fuel') hfound, Option.bind_some]
  dsimp only
  rw [hdir, readChain_mono fuel' (Nat.le_max_right fuel fuel') hbs]
  rfl

section

variable {p : List UInt8}
  (hread : ∀ max r, v.Reads path max r ↔
    ∃ fuel res, fat16ReadFile v.fat16 fuel v.fat16Disk p max = some res ∧ Ramfs.readResult res = r)
include hread

theorem readFits_fat16_dir : v.ReadFits path .dir 0 ↔ v.Fat16NoFile p := by
  constructor
  · intro h
    obtain ⟨r, hr, hr'⟩ := h 0 (by decide)
    obtain ⟨fuel, res, hres, rfl⟩ := (hread 0 r).mp hr'
    cases res with
    | none => exact fat16ReadFile_none hres
    | some bs =>
      rw [readResult_some] at hr
      omega
  · intro h max _
    obtain ⟨fuel, hres⟩ := fat16ReadFile_of_noFile h max
    exact ⟨-1, by decide, (hread max _).mpr ⟨fuel, none, hres, rfl⟩⟩

theorem readFits_fat16_file {fuel dc : ℕ} {pos : SlotPos} {e : DirSlot}
    (hdc : navigateToDir v.fat16 fuel v.fat16Disk (splitPath p).1 = some dc) (hend : dc ≠ 0xFFFF)
    (hfound : findEntryInDir v.fat16 fuel v.fat16Disk dc (splitPath p).2 = some (some (pos, e)))
    (hsize : e.fileSize < 2 ^ 31 - 1) :
    v.ReadFits path .file e.fileSize ↔ (splitPath p).2 ≠ [] ∧ e.isDir = false ∧
      Supplies v.fat16 v.fat16Disk e.clusterLo e.fileSize := by
  constructor
  · intro h
    obtain ⟨fuel', res, hres, hlen⟩ :=
      (hread _ _).mp (h (e.fileSize + 1) (Nat.lt_succ_self _) (by omega))
    cases res with
    | none =>
      rw [readResult_none] at hlen
      omega
    | some bs =>
      obtain ⟨e', ⟨hname, dc', pos', hdc', -, hfound', hdir⟩, hbs⟩ := fat16ReadFile_some hres
      -- the read has come to the same entry
      obtain rfl := navigateToDir_unique hdc hdc'
      cases findEntryInDir_unique hfound hfound'
      rw [readResult_some, Int.natCast_inj] at hlen
      refine ⟨hname, hdir, supplies_of_readChain fuel' ?_ hlen⟩
      rwa [Nat.min_eq_left (Nat.le_succ _)] at hbs
  · rintro ⟨hname, hdir, hsupplies⟩ max hmax _
    obtain ⟨fuel', bs, hbs, hlen⟩ := readChain_of_supplies hsupplies
    have hfile : v.Fat16File fuel p e := ⟨hname, dc, pos, hdc, hend, hfound, hdir⟩
    rw [← Nat.min_eq_left hmax.le] at hbs
    refine (hread _ _).mpr ⟨_, some bs, fat16ReadFile_of_file hfile hbs, ?_⟩
    rw [readResult_some, hlen]

/-- **A path on FAT16.** -/
theorem readFits_fat16 :
    (∀ fuel type size, v.fat16Stat fuel p = some (some (type, size)) → v.ReadFits path type size) ↔
      v.Fat16Agrees p := by
  unfold fat16Stat Fat16Agrees
  by_cases hroot : p = [slash]
  · have hname : (splitPath p).2 = [] := by
      rw [hroot]
      decide
    refine ⟨fun _ => Or.inl hroot, fun _ fuel type size heq => ?_⟩
    rw [if_pos hroot] at heq
    cases heq
    exact (readFits_fat16_dir hread).mpr (Or.inl hname)
  rw [or_iff_right hroot]
  simp only [if_neg hroot]
  unfold fat16IsDir fat16FileSize
  constructor
  · intro h
    constructor
    · intro fuel c hc hne
      refine (readFits_fat16_dir hread).mp (h fuel .dir 0 ?_)
      simp [hc, hne]
    · intro fuel dc pos e hc hdc hend hfound hsize
      refine (readFits_fat16_file hread hdc hend hfound hsize).mp (h fuel .file e.fileSize ?_)
      have hint : toInt32 e.fileSize = e.fileSize := by
        unfold toInt32
        split_ifs with hlt
        · omega
        · omega
      simp [hc, hdc, hend, hfound, hint, reportSize]
  · rintro ⟨hdir, hfile⟩ fuel type size heq
    obtain ⟨isDir, hisDir, heq⟩ := Option.bind_eq_some_iff.mp heq
    obtain ⟨c, hc, rfl⟩ := Option.map_eq_some_iff.mp hisDir
    by_cases hne : c = 0xFFFF
    · subst hne
      simp only [bne_self_eq_false, Bool.false_eq_true, if_false] at heq
      obtain ⟨n, hn, heq⟩ := Option.map_eq_some_iff.mp heq
      unfold reportSize at heq
      split_ifs at heq with hpos
      cases heq
      obtain ⟨dc, hdc, hn⟩ := Option.bind_eq_some_iff.mp hn
      by_cases hend : dc = 0xFFFF
      · rw [if_pos hend] at hn
        cases hn
        omega
      rw [if_neg hend] at hn
      obtain ⟨found, hfound, hn⟩ := Option.map_eq_some_iff.mp hn
      cases found with
      | none =>
        dsimp only at hn
        omega
      | some t =>
        dsimp only at hn
        subst hn
        obtain ⟨hlt, hint⟩ := toInt32_of_nonneg (fileSize_lt t.2) hpos
        rw [hint, Int.toNat_natCast]
        by_cases hsize : t.2.fileSize < 2 ^ 31 - 1
        · exact (readFits_fat16_file hread hdc hend hfound hsize).mpr
            (hfile fuel dc t.1 t.2 hc hdc hend hfound hsize)
        · intro max hmax hmax'
          omega
    · have hbne : (c != 0xFFFF) = true := bne_iff_ne.mpr hne
      rw [hbne] at heq
      cases heq
      exact (readFits_fat16_dir hread).mpr (hdir fuel c hc hne)

end

/-! ## NTFS -/

/-- What the data runs of a file give. -/
theorem readDataRuns_eq {runs : List DataRun} {max real : ℕ} {r : Option (List UInt8)}
    (h : readDataRuns v.ntfsEnv v.ntfs v.ntfsDisk runs max real = r) :
    (r.isSome = true ↔ (v.ntfsEnv.heap.kmalloc v.ntfs.clusterSize).isSome = true ∧
      ClustersRespond v.ntfsEnv v.ntfs v.ntfsDisk runs (min max (u32 real))) ∧
    ∀ bs, r = some bs →
      bs.length = min (min max (u32 real)) (runClusters runs * v.ntfs.clusterBytes) := by
  subst h
  obtain ⟨hsome, hlen⟩ := @readRuns_spec v.ntfsEnv v.ntfs v.ntfsDisk runs (min max (u32 real))
  unfold readDataRuns
  cases v.ntfsEnv.heap.kmalloc v.ntfs.clusterSize with
  | none => exact ⟨by simp, fun bs h => by cases h⟩
  | some room =>
    rw [Option.bind_some]
    exact ⟨by rw [hsome]; simp, hlen⟩

/-- The data of a record that can be read is all of it, and no more. -/
theorem ntfsDelivers_iff {b : Buffer} {n : ℕ} (hn : n < 2 ^ 31 - 1) :
    (∀ max, n < max → max < 2 ^ 31 →
      ∃ bs, readData v.ntfsEnv v.ntfs v.ntfsDisk b max = .ok (some bs) ∧ bs.length = n) ↔
      v.NtfsDelivers b n := by
  unfold readData NtfsDelivers
  constructor
  · intro h
    obtain ⟨bs, hbs, hlen⟩ := h (n + 1) (Nat.lt_succ_self n) (by omega)
    obtain ⟨found, hfound, hbs⟩ := bind_eq_ok.mp hbs
    cases found with
    | none => cases hbs
    | some da =>
      refine ⟨da, hfound, ?_⟩
      obtain ⟨nr, hnr, hbs⟩ := bind_eq_ok.mp hbs
      cases nr with
      | false =>
        obtain ⟨value, hvalue, hbs⟩ := bind_eq_ok.mp hbs
        cases value with
        | none => cases hbs
        | some t =>
          obtain ⟨bs', hbytes, heq⟩ := map_eq_ok.mp hbs
          cases heq
          unfold Buffer.bytes at hbytes
          split_ifs at hbytes with hin
          cases hbytes
          rw [List.length_map, List.length_range] at hlen
          have hvl : t.2 = n := by omega
          refine Or.inl ⟨hnr, t.1, ?_, ?_⟩
          · rw [hvalue, ← hvl]
          · omega
      | true =>
        obtain ⟨runs, hruns, hbs⟩ := bind_eq_ok.mp hbs
        by_cases hnil : runs = []
        · rw [if_pos hnil] at hbs
          cases hbs
        rw [if_neg hnil] at hbs
        obtain ⟨real, hreal, hbs⟩ := map_eq_ok.mp hbs
        obtain ⟨hsome, hbytes⟩ := readDataRuns_eq hbs
        obtain ⟨hroom, hrespond⟩ := hsome.mp rfl
        have hmin := hbytes bs rfl
        refine Or.inr ⟨hnr, runs, real, hruns, hnil, hreal, hroom, by omega, ?_⟩
        exact fun k c hk => hrespond k c (by omega)
  · rintro ⟨da, hfound, hda⟩ max hmax hmax'
    rw [hfound, ok_bind]
    dsimp only
    rcases hda with ⟨hnr, addr, hvalue, hin⟩ |
      ⟨hnr, runs, real, hruns, hnil, hreal, hroom, hmin, hrespond⟩
    · rw [hnr, ok_bind]
      simp only [Bool.false_eq_true, if_false]
      rw [hvalue, ok_bind]
      dsimp only
      unfold Buffer.bytes
      rw [Nat.min_eq_right hmax.le, if_pos hin]
      exact ⟨_, rfl, by rw [List.length_map, List.length_range]⟩
    · rw [hnr, ok_bind, if_pos rfl, hruns, ok_bind, if_neg hnil, hreal]
      obtain ⟨hsome, hbytes⟩ := @readDataRuns_eq v runs max real _ rfl
      obtain ⟨bs, hbs⟩ := Option.isSome_iff_exists.mp
        (hsome.mpr ⟨hroom, hrespond.of_min (by omega)⟩)
      refine ⟨bs, congrArg Except.ok hbs, ?_⟩
      rw [hbytes bs hbs]
      omega

/-- A record that is not read at all. -/
theorem ntfsUnreadable_iff {b : Buffer} :
    (∀ max, max < 2 ^ 31 → readData v.ntfsEnv v.ntfs v.ntfsDisk b max = .ok none) ↔
      v.NtfsUnreadable b := by
  unfold readData NtfsUnreadable
  constructor
  · intro h
    have hzero := h 0 (by decide)
    obtain ⟨found, hfound, hzero⟩ := bind_eq_ok.mp hzero
    cases found with
    | none => exact Or.inl hfound
    | some da =>
      obtain ⟨nr, hnr, hzero⟩ := bind_eq_ok.mp hzero
      cases nr with
      | false =>
        obtain ⟨value, hvalue, hzero⟩ := bind_eq_ok.mp hzero
        cases value with
        | none =>
          -- the value of a resident attribute is there
          unfold getResidentData at hvalue
          rw [hnr, ok_bind] at hvalue
          simp only [Bool.false_eq_true, if_false] at hvalue
          obtain ⟨_, -, hvalue⟩ := bind_eq_ok.mp hvalue
          obtain ⟨_, -, hvalue⟩ := bind_eq_ok.mp hvalue
          cases hvalue
        | some t =>
          obtain ⟨_, -, heq⟩ := map_eq_ok.mp hzero
          cases heq
      | true =>
        obtain ⟨runs, hruns, hzero⟩ := bind_eq_ok.mp hzero
        refine Or.inr ⟨da, runs, hfound, hnr, hruns, ?_⟩
        by_cases hnil : runs = []
        · exact Or.inl hnil
        rw [if_neg hnil] at hzero
        obtain ⟨real, hreal, hzero⟩ := map_eq_ok.mp hzero
        refine Or.inr ⟨⟨real, hreal⟩, ?_⟩
        have hsome := (readDataRuns_eq hzero).1
        by_contra hroom
        refine absurd (hsome.mpr ⟨Option.isSome_iff_ne_none.mpr hroom, ?_⟩) (by simp)
        exact fun k c hk => absurd hk (by omega)
  · rintro h max -
    rcases h with hfound | ⟨da, runs, hfound, hnr, hruns, hnone⟩
    · rw [hfound]
      rfl
    · rw [hfound, ok_bind]
      dsimp only
      rw [hnr, ok_bind, if_pos rfl, hruns, ok_bind]
      by_cases hnil : runs = []
      · rw [if_pos hnil]
      rw [if_neg hnil]
      obtain ⟨⟨real, hreal⟩, hroom⟩ := hnone.resolve_left hnil
      rw [hreal]
      unfold readDataRuns
      rw [hroom]
      rfl

/-- Opening a file a second time changes nothing. -/
theorem openRecord_again {p : List UInt8} {b c : Buffer} {x : ℕ × ℕ}
    (h : openRecord v.ntfsEnv v.ntfs v.ntfsDisk p b = .ok (some x, c)) :
    openRecord v.ntfsEnv v.ntfs v.ntfsDisk p c = .ok (some x, c) := by
  obtain ⟨c', hc', heq⟩ := openRecord_congr (openRecord_scratch h) h
  obtain rfl := heq rfl
  exact hc'

theorem sizeResult_lt (s : ℕ) : sizeResult s < 2 ^ 31 := by
  unfold sizeResult toInt32
  split_ifs <;> omega

section

variable {p : List UInt8}
  (hread : ∀ buf max r, Vfs.Reads { v with mftBuf := buf } path max r ↔
    ∃ res c, ntfsReadFile v.ntfsEnv v.ntfs v.ntfsDisk p max buf = .ok (res, c) ∧
      Ramfs.readResult res = r)
include hread

/-- The file of a record that is in use. -/
theorem readFits_ntfs_file {b : Buffer} {rn flags n : ℕ}
    (hopen : openRecord v.ntfsEnv v.ntfs v.ntfsDisk p b = .ok (some (rn, flags), b))
    (huse : inUse flags = true) (hdir : isDirectory flags = false) (hn : n < 2 ^ 31 - 1) :
    Vfs.ReadFits { v with mftBuf := b } path .file n ↔ v.NtfsDelivers b n := by
  have hfile : ∀ max, ntfsReadFile v.ntfsEnv v.ntfs v.ntfsDisk p max b =
      (readData v.ntfsEnv v.ntfs v.ntfsDisk b max).map fun bytes => (bytes, b) := by
    intro max
    unfold ntfsReadFile
    rw [hopen, ok_bind]
    simp [huse, hdir]
  rw [← ntfsDelivers_iff hn]
  refine forall_congr' fun max => imp_congr_right fun _ => imp_congr_right fun _ => ?_
  rw [hread, hfile]
  constructor
  · rintro ⟨res, c, hres, hlen⟩
    obtain ⟨bytes, hbytes, heq⟩ := map_eq_ok.mp hres
    cases heq
    cases res with
    | none =>
      rw [readResult_none] at hlen
      omega
    | some bs =>
      rw [readResult_some, Int.natCast_inj] at hlen
      exact ⟨bs, hbytes, hlen⟩
  · rintro ⟨bs, hbs, hlen⟩
    refine ⟨some bs, b, map_eq_ok.mpr ⟨_, hbs, rfl⟩, ?_⟩
    rw [readResult_some, hlen]

/-- The root directory. -/
theorem readFits_ntfs_root {b : Buffer} :
    Vfs.ReadFits { v with mftBuf := b } path .dir 0 ↔
      ∃ r c, openRecord v.ntfsEnv v.ntfs v.ntfsDisk p b = .ok (r, c) ∧
        ∀ rn flags, r = some (rn, flags) → inUse flags = true → isDirectory flags = false →
          v.NtfsUnreadable c := by
  have herror : ∀ max, (∃ r, r < 0 ∧ Vfs.Reads { v with mftBuf := b } path max r) ↔
      ∃ c, ntfsReadFile v.ntfsEnv v.ntfs v.ntfsDisk p max b = .ok (none, c) := by
    intro max
    constructor
    · rintro ⟨r, hr, hr'⟩
      obtain ⟨res, c, hres, rfl⟩ := (hread b max r).mp hr'
      cases res with
      | none => exact ⟨c, hres⟩
      | some bs =>
        rw [readResult_some] at hr
        omega
    · rintro ⟨c, hc⟩
      exact ⟨-1, by decide, (hread b max _).mpr ⟨none, c, hc, rfl⟩⟩
  unfold ReadFits
  simp only [herror]
  unfold ntfsReadFile
  constructor
  · intro h
    obtain ⟨c₀, h₀⟩ := h 0 (by decide)
    obtain ⟨⟨r, c⟩, hopen, -⟩ := bind_eq_ok.mp h₀
    refine ⟨r, c, hopen, fun rn flags hr huse hdir => ntfsUnreadable_iff.mp fun max hmax => ?_⟩
    subst hr
    obtain ⟨c', hc'⟩ := h max hmax
    rw [hopen, ok_bind] at hc'
    simp only [huse, hdir, Bool.not_true, Bool.or_self, Bool.false_eq_true, if_false] at hc'
    obtain ⟨bytes, hbytes, heq⟩ := map_eq_ok.mp hc'
    cases heq
    exact hbytes
  · rintro ⟨r, c, hopen, hnone⟩ max hmax
    rw [hopen, ok_bind]
    cases r with
    | none => exact ⟨c, rfl⟩
    | some x =>
      obtain ⟨rn, flags⟩ := x
      dsimp only
      by_cases hskip : (!inUse flags || isDirectory flags) = true
      · rw [if_pos hskip]
        exact ⟨c, rfl⟩
      · rw [if_neg hskip]
        simp only [Bool.or_eq_true, Bool.not_eq_true', not_or, Bool.not_eq_false,
          Bool.not_eq_true] at hskip
        have hun := hnone rn flags rfl hskip.1 hskip.2
        exact ⟨c, map_eq_ok.mpr ⟨none, ntfsUnreadable_iff.mpr hun max hmax, rfl⟩⟩

/-- **A path on NTFS.** -/
theorem readFits_ntfs :
    (∀ type size buf, v.ntfsStat p v.mftBuf = .ok (some (type, size), buf) →
      Vfs.ReadFits { v with mftBuf := buf } path type size) ↔ v.NtfsAgrees p := by
  unfold ntfsStat NtfsAgrees
  by_cases hroot : p = [slash]
  · simp only [if_pos hroot]
    rw [← readFits_ntfs_root hread]
    constructor
    · exact fun h => h .dir 0 v.mftBuf rfl
    · intro h type size buf heq
      cases heq
      exact h
  simp only [if_neg hroot]
  unfold ntfsIsDir ntfsFileSize
  constructor
  · intro h rn flags b s hopen huse hdir hs hpos hlt
    have hagain := openRecord_again hopen
    refine (readFits_ntfs_file hread hagain huse hdir (by omega)).mp (h .file _ b ?_)
    rw [hopen]
    simp only [Except.map, Except.bind, huse, hdir, Bool.and_false, Bool.false_eq_true, if_false,
      hagain, Bool.not_true, hs, reportSize, if_pos hpos]
  · intro h type size buf heq
    obtain ⟨⟨isDir, b⟩, hisDir, heq⟩ := bind_eq_ok.mp heq
    obtain ⟨⟨r, c⟩, hopen, hpair⟩ := map_eq_ok.mp hisDir
    cases r with
    | none =>
      cases hpair
      simp only [Bool.false_eq_true, if_false] at heq
      obtain ⟨⟨n, b'⟩, hn, heq⟩ := map_eq_ok.mp heq
      obtain ⟨c', hc', -⟩ := openRecord_congr (openRecord_scratch hopen) hopen
      rw [hc', ok_bind] at hn
      cases hn
      cases heq
    | some x =>
      obtain ⟨rn, flags⟩ := x
      have hagain := openRecord_again hopen
      cases hpair
      by_cases hboth : (inUse flags && isDirectory flags) = true
      · -- a directory: the read stops at the flags
        rw [if_pos hboth] at heq
        cases heq
        rw [Bool.and_eq_true] at hboth
        refine (readFits_ntfs_root hread).mpr ⟨_, _, hagain, fun rn' flags' hx _ hdir => ?_⟩
        cases hx
        rw [hboth.2] at hdir
        cases hdir
      · rw [if_neg hboth] at heq
        obtain ⟨⟨n, b'⟩, hn, heq⟩ := map_eq_ok.mp heq
        rw [hagain, ok_bind] at hn
        dsimp only at hn
        by_cases huse : inUse flags = true
        · simp only [huse, Bool.not_true, Bool.false_eq_true, if_false] at hn
          have hdir : isDirectory flags = false := by simpa [huse] using hboth
          obtain ⟨s, hs, hpair⟩ := map_eq_ok.mp hn
          cases hpair
          unfold reportSize at heq
          by_cases hpos : 0 ≤ sizeResult s
          · rw [if_pos hpos] at heq
            cases heq
            have hlt := sizeResult_lt s
            by_cases hmax : sizeResult s < 2 ^ 31 - 1
            · exact (readFits_ntfs_file hread hagain huse hdir (by omega)).mpr
                (h rn flags _ s hopen huse hdir hs hpos hmax)
            · intro max h₁ h₂
              omega
          · rw [if_neg hpos] at heq
            cases heq
        · simp only [huse, Bool.not_false, if_true] at hn
          cases hn
          cases heq

end

/-! ## All paths -/

/-- A path under `/proc` is on no disk. -/
theorem matchDisk_of_proc {r : List UInt8} (h : procfsIsVirtual r = true) : matchDisk r = none := by
  unfold procfsIsVirtual at h
  rw [startsWith_iff, bytes_proc] at h
  obtain ⟨rest, rfl⟩ := h
  unfold matchDisk
  rw [if_neg, if_neg]
  · rw [Bool.and_eq_true, startsWith_iff, bytes_disk]
    rintro ⟨⟨rest', heq⟩, -⟩
    simp at heq
  · rw [Bool.and_eq_true, startsWith_iff, bytes_disk2]
    rintro ⟨⟨rest', heq⟩, -⟩
    simp at heq

/-- `/proc` itself: a report comes from the nodes, a read goes to procfs. -/
theorem readFits_procRoot {p : List UInt8} (hshort : p.length ≤ 5)
    (hread : ∀ max r, v.Reads path max r ↔ r = Ramfs.readResult (procfsRead v.texts p max)) :
    (∀ type size, v.ramfs.statNode path = some (type, size) → v.ReadFits path type size) ↔
      v.NoProcNode path := by
  have hzero : Ramfs.readResult (procfsRead v.texts p 0) = 0 := by simp [procfsRead]
  have hpos : ∀ max, 0 < max → Ramfs.readResult (procfsRead v.texts p max) = -1 := by
    intro max hmax
    have hnone : procFile p = none := if_pos (by omega)
    simp [procfsRead, hnone, Nat.pos_iff_ne_zero.mp hmax]
  unfold NoProcNode Ramfs.statNode
  cases hfind : v.ramfs.find path with
  | none => simp
  | some i =>
    constructor
    · intro h j hj
      cases hj
      have hnode := h _ _ rfl
      cases htype : (v.ramfs.nodes i).type with
      | dir =>
        rw [htype] at hnode
        obtain ⟨r, hr, hr'⟩ := hnode 0 (by decide)
        rw [hread, hzero] at hr'
        omega
      | file =>
        rw [htype] at hnode
        refine ⟨rfl, ?_⟩
        by_contra hsize
        have hlast := hnode ((v.ramfs.nodes i).size + 1) (Nat.lt_succ_self _) (by omega)
        rw [hread, hpos _ (Nat.succ_pos _)] at hlast
        omega
    · intro h type size heq
      cases heq
      obtain ⟨htype, hsize⟩ := h i rfl
      rw [htype]
      intro max hmax hmax'
      omega

theorem reads_iff (hfits : v.ramfs.PathFits path) {max : ℕ} {r : ℤ} :
    v.Reads path max r ↔
      ∃ fuel buf, v.readServed fuel max (v.ramfs.read v.mounts path max) = some (r, buf) := by
  unfold Reads read
  simp only [if_pos hfits]

/-- A report that leaves the scratch memory alone. -/
theorem readFits_same {rep : Option (RamfsType × ℕ)} :
    (∀ (_ : ℕ) type size buf, some (rep, v.mftBuf) = some (some (type, size), buf) →
      Vfs.ReadFits { v with mftBuf := buf } path type size) ↔
      ∀ type size, rep = some (type, size) → v.ReadFits path type size := by
  constructor
  · intro h type size heq
    exact h 0 type size v.mftBuf (by rw [heq])
  · intro h _ type size buf heq
    cases heq
    exact h type size rfl

/-- The calls agree on a path that both leave to the nodes. -/
theorem agrees_node (hfits : v.ramfs.PathFits path)
    (hstat : v.ramfs.stat v.mounts path =
      .ramfs (if (v.ramfs.statNode path).isSome then 0 else -1) v.ramfs)
    (hread : ∀ max, v.ramfs.read v.mounts path max =
      .ramfs (Ramfs.readResult (v.ramfs.readNode path max)) v.ramfs) :
    v.Agrees path ↔ v.NodeAgrees path := by
  unfold Agrees stat
  simp only [if_pos hfits, hstat]
  refine readFits_same.trans (readFits_node fun max r => ?_)
  rw [reads_iff hfits, hread]
  simp [readServed, eq_comm]

theorem agrees_proc (hfits : v.ramfs.PathFits path) {p : List UInt8}
    (hstat : v.ramfs.stat v.mounts path = .procfs p)
    (hread : ∀ max, v.ramfs.read v.mounts path max = .procfs p) :
    v.Agrees path ↔ v.ProcAgrees p := by
  unfold Agrees stat
  simp only [if_pos hfits, hstat]
  refine readFits_same.trans (readFits_proc fun max r => ?_)
  rw [reads_iff hfits, hread]
  simp [readServed, eq_comm]

theorem agrees_procRoot (hfits : v.ramfs.PathFits path) {p : List UInt8} (hshort : p.length ≤ 5)
    (hstat : v.ramfs.stat v.mounts path =
      .ramfs (if (v.ramfs.statNode path).isSome then 0 else -1) v.ramfs)
    (hread : ∀ max, v.ramfs.read v.mounts path max = .procfs p) :
    v.Agrees path ↔ v.NoProcNode path := by
  unfold Agrees stat
  simp only [if_pos hfits, hstat]
  refine readFits_same.trans (readFits_procRoot hshort fun max r => ?_)
  rw [reads_iff hfits, hread]
  simp [readServed, eq_comm]

theorem agrees_fat16 (hfits : v.ramfs.PathFits path) {p : List UInt8}
    (hstat : v.ramfs.stat v.mounts path = .fat16 p)
    (hread : ∀ max, v.ramfs.read v.mounts path max = .fat16 p) :
    v.Agrees path ↔ v.Fat16Agrees p := by
  have hreads : ∀ max r, v.Reads path max r ↔ ∃ fuel res,
      fat16ReadFile v.fat16 fuel v.fat16Disk p max = some res ∧ Ramfs.readResult res = r := by
    intro max r
    rw [reads_iff hfits, hread]
    simp [readServed]
  rw [← readFits_fat16 hreads]
  unfold Agrees stat
  simp only [if_pos hfits, hstat]
  constructor
  · intro h fuel type size heq
    exact h fuel type size v.mftBuf (by simp [statServed, heq])
  · intro h fuel type size buf heq
    obtain ⟨rep, hrep, hpair⟩ := Option.map_eq_some_iff.mp heq
    cases hpair
    exact h fuel type size hrep

theorem agrees_ntfs (hfits : v.ramfs.PathFits path) {p : List UInt8}
    (hstat : v.ramfs.stat v.mounts path = .ntfs p)
    (hread : ∀ max, v.ramfs.read v.mounts path max = .ntfs p) :
    v.Agrees path ↔ v.NtfsAgrees p := by
  have hok : ∀ {α : Type} {x : Access α} {a : α}, x.toOption = some a ↔ x = .ok a := by
    intro α x a
    cases x with
    | error f => simp [Except.toOption]
    | ok a' => simp [Except.toOption]
  have hreads : ∀ buf max r, Vfs.Reads { v with mftBuf := buf } path max r ↔ ∃ res c,
      ntfsReadFile v.ntfsEnv v.ntfs v.ntfsDisk p max buf = .ok (res, c) ∧
        Ramfs.readResult res = r := by
    intro buf max r
    rw [@reads_iff { v with mftBuf := buf } path hfits max r]
    dsimp only
    rw [hread]
    unfold readServed
    simp only [hok, map_eq_ok]
    constructor
    · rintro ⟨fuel, c, ⟨res, c'⟩, hres, heq⟩
      cases heq
      exact ⟨res, _, hres, rfl⟩
    · rintro ⟨res, c, hres, rfl⟩
      exact ⟨0, c, (res, c), hres, rfl⟩
  rw [← readFits_ntfs hreads]
  unfold Agrees stat
  simp only [if_pos hfits, hstat]
  constructor
  · intro h type size buf heq
    exact h 0 type size buf (hok.mpr heq)
  · intro h _ type size buf heq
    exact h type size buf (hok.mp heq)

end

/-- What `gen_net_dev` prints without a network card. -/
def netDevText : List UInt8 :=
  ("Inter-|   Receive                                     |  Transmit\n" ++
    " face |bytes  packets errs drop fifo frame compressed |bytes  packets\n" ++
    "    lo: 0       0       0    0    0    0     0         0       0\n").toUTF8.toList

/-- After the start, with no disk mounted. -/
def started : Vfs where
  ramfs := Ramfs.init
  mounts := ⟨none, none⟩
  texts := fun f => if f = .netDev then netDevText else []
  fat16 := ⟨512, 4, 1, 2, 512, 8192, 8, 1, 17, 32, 49, 2048, 2035, []⟩
  fat16Disk := fun _ _ => 0
  ntfs := ⟨8, 4096, 4, 1024, 4096, 1024⟩
  ntfsEnv := ⟨⟨fun _ => none, Allocator.length_of_none⟩, fun _ => false⟩
  ntfsDisk := fun _ _ => 0
  mftBuf := ⟨1024, fun _ => 0⟩

end Vfs

end Microkernel

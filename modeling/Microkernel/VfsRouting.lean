/-
# Who serves a path

The operations of `src/ramfs.c` and the handlers of the VFS server in `src/servers.c` each decide
on their own which file system a path belongs to.  They agree exactly on the paths that are left
to the RAM file system by all of them.
-/
import Microkernel.Ramfs

namespace Microkernel

/-! ## The VFS server -/

/-- The disk branch of the server: FAT16 first, then NTFS, whatever drive they are on. -/
def serverDisk (m : Mounts) (path : List UInt8) : Served :=
  if m.fat16.isSome then .fat16 (path.drop 5)
  else if m.ntfs.isSome then .ntfs (path.drop 5)
  else .nowhere

/-- `MSG_VFS_READ`. -/
def vfsServerRead (m : Mounts) (fs : Ramfs) (path : List UInt8) (max : ℕ) : Served :=
  if startsWith "/proc" path then .procfs path
  else if startsWith "/disk/" path then serverDisk m path
  else fs.read m path max

/-- `MSG_VFS_WRITE`. -/
def vfsServerWrite (m : Mounts) (a : Allocator) (fs : Ramfs) (path data : List UInt8) : Served :=
  if startsWith "/disk/" path then serverDisk m path else fs.write m a path data

/-! ## Requests -/

/-- The requests for a path. -/
inductive VfsRequest
  | create (type : RamfsType)
  | write (data : List UInt8)
  | append (data : List UInt8)
  | read (max : ℕ)
  | delete
  | stat
  | rename (newPath : List UInt8)
  | serverRead (max : ℕ)
  | serverWrite (data : List UInt8)
  | serverCreate (type : RamfsType)
  | serverDelete

/-- How a request for a path is served; the server hands creations and deletions on. -/
def serve (m : Mounts) (a : Allocator) (fs : Ramfs) (path : List UInt8) : VfsRequest → Served
  | .create type => fs.create m path type
  | .write data => fs.write m a path data
  | .append data => fs.append m a path data
  | .read max => fs.read m path max
  | .delete => fs.delete m path
  | .stat => fs.stat m path
  | .rename newPath => .ramfs (fs.renameNode path newPath).1 (fs.renameNode path newPath).2
  | .serverRead max => vfsServerRead m fs path max
  | .serverWrite data => vfsServerWrite m a fs path data
  | .serverCreate type => fs.create m path type
  | .serverDelete => fs.delete m path

/-- The file systems. -/
inductive Backend
  | ramfs
  | procfs
  | fat16
  | ntfs
  | nowhere
  deriving DecidableEq

/-- The file system that serves a request. -/
def Served.backend : Served → Backend
  | .ramfs _ _ => .ramfs
  | .fat16 _ => .fat16
  | .ntfs _ => .ntfs
  | .procfs _ => .procfs
  | .nowhere => .nowhere

/-- All requests for a path are served by the same file system. -/
def RoutesAgree (m : Mounts) (fs : Ramfs) (path : List UInt8) : Prop :=
  ∀ (a a' : Allocator) (r r' : VfsRequest),
    (serve m a fs path r).backend = (serve m a' fs path r').backend

/-! ## The exact condition -/

/-- A drive has a file system. -/
def Mounts.has (m : Mounts) (drv : ℕ) : Prop := m.fat16 = some drv ∨ m.ntfs = some drv

instance (m : Mounts) (drv : ℕ) : Decidable (m.has drv) := inferInstanceAs (Decidable (_ ∨ _))

/-- No operation takes the path for one of another file system. -/
def LeftToRamfs (m : Mounts) (fs : Ramfs) (path : List UInt8) : Prop :=
  startsWith "/proc" (fs.resolvePath path) = false ∧ startsWith "/disk/" path = false ∧
    ∀ t, matchDisk (fs.resolvePath path) = some t → ¬ m.has t.1

variable {m : Mounts} {fs : Ramfs} {path : List UInt8}

/-- A request goes on to the nodes if no file system is on the drive. -/
theorem onDisk_otherwise {target : Option (ℕ × List UInt8)} (otherwise : Served)
    (h : ∀ t, target = some t → ¬ m.has t.1) : onDisk m target otherwise = otherwise := by
  unfold onDisk
  cases target with
  | none => rfl
  | some t =>
    have ht := h t rfl
    unfold Mounts.has at ht
    push Not at ht
    dsimp only
    rw [if_neg ht.1, if_neg ht.2]

/-- A request goes to the disk if a file system is on the drive. -/
theorem onDisk_has {t : ℕ × List UInt8} (otherwise : Served) (h : m.has t.1) :
    (onDisk m (some t) otherwise).backend = .fat16 ∨
      (onDisk m (some t) otherwise).backend = .ntfs := by
  unfold onDisk
  dsimp only
  split_ifs with hfat hntfs
  · exact Or.inl rfl
  · exact Or.inr rfl
  · exact absurd h (by rintro (h | h) <;> contradiction)

/-- A prefix is what a list begins with. -/
theorem startsWith_iff {text : String} {p : List UInt8} :
    startsWith text p = true ↔ ∃ rest, p = text.toUTF8.toList ++ rest := by
  unfold startsWith
  rw [List.isPrefixOf_iff_prefix]
  constructor
  · rintro ⟨rest, rfl⟩
    exact ⟨rest, rfl⟩
  · rintro ⟨rest, rfl⟩
    exact ⟨rest, rfl⟩

/-- The bytes of the prefixes. -/
theorem bytes_disk : "/disk".toUTF8.toList = [0x2F, 0x64, 0x69, 0x73, 0x6B] := by with_unfolding_all decide

theorem bytes_disk2 : "/disk2".toUTF8.toList = [0x2F, 0x64, 0x69, 0x73, 0x6B, 0x32] := by
  with_unfolding_all decide

theorem bytes_diskSlash : "/disk/".toUTF8.toList = [0x2F, 0x64, 0x69, 0x73, 0x6B, 0x2F] := by
  with_unfolding_all decide

theorem bytes_disk2Slash :
    "/disk2/".toUTF8.toList = [0x2F, 0x64, 0x69, 0x73, 0x6B, 0x32, 0x2F] := by
  with_unfolding_all decide

theorem bytes_proc : "/proc".toUTF8.toList = [0x2F, 0x70, 0x72, 0x6F, 0x63] := by with_unfolding_all decide

/-- What is on a drive for `match_disk_content` is on the same drive for `match_disk`. -/
theorem matchDisk_of_content {r : List UInt8} {t : ℕ × List UInt8}
    (h : matchDiskContent r = some t) : ∃ rel, matchDisk r = some (t.1, rel) := by
  unfold matchDiskContent at h
  unfold matchDisk
  split_ifs at h with h₂ h₁
  · cases h
    rw [Bool.and_eq_true, startsWith_iff, bytes_disk2Slash] at h₂
    obtain ⟨⟨rest, rfl⟩, -⟩ := h₂
    rw [if_pos]
    · exact ⟨_, rfl⟩
    · rw [Bool.and_eq_true, startsWith_iff, bytes_disk2]
      exact ⟨⟨0x2F :: rest, rfl⟩, by simp [slash]⟩
  · cases h
    rw [Bool.and_eq_true, startsWith_iff, bytes_diskSlash] at h₁
    obtain ⟨⟨rest, rfl⟩, -⟩ := h₁
    rw [if_neg, if_pos]
    · exact ⟨_, rfl⟩
    · rw [Bool.and_eq_true, startsWith_iff, bytes_disk]
      exact ⟨⟨0x2F :: rest, rfl⟩, by simp [slash]⟩
    · rw [Bool.and_eq_true, startsWith_iff, bytes_disk2]
      rintro ⟨⟨rest', heq⟩, -⟩
      simp at heq

/-- A path that begins with `/proc` does so after it is resolved. -/
theorem startsWith_resolvePath (h : startsWith "/proc" path = true) :
    startsWith "/proc" (fs.resolvePath path) = true := by
  rw [startsWith_iff, bytes_proc] at h ⊢
  obtain ⟨rest, rfl⟩ := h
  have habs : fs.absolutePath ([0x2F, 0x70, 0x72, 0x6F, 0x63] ++ rest) =
      [0x2F, 0x70, 0x72, 0x6F, 0x63] ++ rest := if_pos rfl
  unfold Ramfs.resolvePath
  rw [habs]
  dsimp only
  split_ifs with hlast
  · -- The slash that is taken away comes after the prefix.
    refine ⟨rest.dropLast, ?_⟩
    cases rest with
    | nil => exact absurd hlast.2 (by decide)
    | cons c rest => exact List.dropLast_append_of_ne_nil (List.cons_ne_nil c rest)
  · exact ⟨rest, rfl⟩

/-- **The routes agree exactly on the paths that every operation leaves to the RAM file
system.** -/
theorem routesAgree_iff (m : Mounts) (fs : Ramfs) (path : List UInt8) :
    RoutesAgree m fs path ↔ LeftToRamfs m fs path := by
  constructor
  · -- `ramfs_rename` looks at the nodes only, so the others have to do so too.
    intro h
    have hram : ∀ r, (serve m ⟨fun _ => none, Allocator.length_of_none⟩ fs path r).backend = .ramfs := fun r =>
      h ⟨fun _ => none, Allocator.length_of_none⟩ ⟨fun _ => none, Allocator.length_of_none⟩ r (.rename [])
    have hread := hram (.read 0)
    have hwrite := hram (.serverWrite [])
    unfold serve Ramfs.read procfsIsVirtual at hread
    unfold serve vfsServerWrite at hwrite
    dsimp only at hread hwrite
    have hproc : startsWith "/proc" (fs.resolvePath path) = false := by
      by_contra hproc
      rw [if_pos (Bool.not_eq_false _ ▸ hproc)] at hread
      cases hread
    rw [hproc, if_neg Bool.false_ne_true] at hread
    refine ⟨hproc, ?_, ?_⟩
    · by_contra hdisk
      rw [if_pos (Bool.not_eq_false _ ▸ hdisk)] at hwrite
      unfold serverDisk at hwrite
      split_ifs at hwrite <;> cases hwrite
    · intro t ht hhas
      rw [ht] at hread
      rcases onDisk_has (.ramfs (Ramfs.readResult (fs.readNode path 0)) fs) hhas with heq | heq <;>
        rw [heq] at hread <;> cases hread
  · rintro ⟨hproc, hdisk, hmatch⟩
    have hcontent : ∀ t, matchDiskContent (fs.resolvePath path) = some t → ¬ m.has t.1 := by
      intro t ht
      obtain ⟨rel, hrel⟩ := matchDisk_of_content ht
      exact hmatch (t.1, rel) hrel
    have hproc' : startsWith "/proc" path = false := by
      by_contra hpath
      rw [startsWith_resolvePath (Bool.not_eq_false _ ▸ hpath)] at hproc
      cases hproc
    have hwrite : ∀ a data, (fs.write m a path data).backend = .ramfs := by
      intro a data
      unfold Ramfs.write
      rw [onDisk_otherwise _ hcontent]
      rfl
    have hcreate : ∀ type, (fs.create m path type).backend = .ramfs := by
      intro type
      unfold Ramfs.create
      cases type with
      | file => rfl
      | dir =>
        dsimp only
        rw [onDisk_otherwise _ hcontent]
        rfl
    have hread : ∀ max, (fs.read m path max).backend = .ramfs := by
      intro max
      unfold Ramfs.read procfsIsVirtual
      dsimp only
      rw [hproc, if_neg Bool.false_ne_true, onDisk_otherwise _ hmatch]
      rfl
    have hdelete : (fs.delete m path).backend = .ramfs := by
      unfold Ramfs.delete
      rw [onDisk_otherwise _ hcontent]
      rfl
    have hall : ∀ a r, (serve m a fs path r).backend = .ramfs := by
      intro a r
      cases r with
      | create type => exact hcreate type
      | write data => exact hwrite a data
      | append data =>
        unfold serve Ramfs.append
        dsimp only
        cases fs.find path with
        | none => exact hwrite a data
        | some i => rfl
      | read max => exact hread max
      | delete => exact hdelete
      | stat =>
        unfold serve Ramfs.stat procfsIsVirtual
        dsimp only
        rw [hproc, if_neg (by simp), onDisk_otherwise _ hmatch]
        rfl
      | rename newPath => rfl
      | serverRead max =>
        unfold serve vfsServerRead
        dsimp only
        rw [hproc', hdisk, if_neg Bool.false_ne_true, if_neg Bool.false_ne_true]
        exact hread max
      | serverWrite data =>
        unfold serve vfsServerWrite
        dsimp only
        rw [hdisk, if_neg Bool.false_ne_true]
        exact hwrite a data
      | serverCreate type => exact hcreate type
      | serverDelete => exact hdelete
    intro a a' r r'
    rw [hall a r, hall a' r']

/-- With FAT16 on drive 0, `ramfs_write` puts the file `/disk/x` on FAT16 and `ramfs_rename` looks
for it in the RAM file system. -/
theorem not_routesAgree_disk :
    ¬ RoutesAgree ⟨some 0, none⟩ Ramfs.init [0x2F, 0x64, 0x69, 0x73, 0x6B, 0x2F, 0x78] := by
  intro h
  have hsame := h ⟨fun _ => none, Allocator.length_of_none⟩ ⟨fun _ => none, Allocator.length_of_none⟩ (.write []) (.rename [])
  revert hsame
  with_unfolding_all decide

end Microkernel

/-
# The working directory

`ramfs_set_cwd` stores the path it has resolved, and the next relative path is put behind it:
`cd .` makes the working directory longer.
-/
import Microkernel.RamfsLookup

namespace Microkernel

namespace Ramfs

variable {fs : Ramfs} {path : List UInt8}

/-- The working directory, and the paths that `ramfs_resolve_path` fills the buffers `resolved` of
`ramfs_set_cwd` and `ramfs_find` with, have fewer than `RAMFS_MAX_PATH` characters in every call. -/
def CwdBounded : Ramfs → List (List UInt8) → Prop
  | fs, [] => fs.cwd.length < ramfsMaxPath
  | fs, path :: paths =>
    fs.cwd.length < ramfsMaxPath ∧ (fs.absolutePath path).length < ramfsMaxPath ∧
      (fs.absolutePath (fs.resolvePath path)).length < ramfsMaxPath ∧
      CwdBounded (fs.setCwd path) paths

/-- A path fits behind the working directory, or is an absolute one. -/
def FitsBehindCwd (fs : Ramfs) (path : List UInt8) : Prop :=
  path.head? = some slash ∨
    fs.cwd.length + (if fs.cwd.getLast? = some slash then 0 else 1) + path.length < ramfsMaxPath

/-- Every path of a sequence does, in the state its call comes in. -/
def AllFitBehindCwd : Ramfs → List (List UInt8) → Prop
  | _, [] => True
  | fs, path :: paths => fs.FitsBehindCwd path ∧ AllFitBehindCwd (fs.setCwd path) paths

theorem length_absolutePath (hpath : path.head? ≠ some slash) :
    (fs.absolutePath path).length =
      fs.cwd.length + (if fs.cwd.getLast? = some slash then 0 else 1) + path.length := by
  unfold absolutePath
  rw [if_neg hpath, List.length_append]
  split_ifs
  · rfl
  · rw [List.length_append]
    rfl

theorem absolutePath_of_absolute (hpath : path.head? = some slash) : fs.absolutePath path = path :=
  if_pos hpath

/-- The buffer of a short path is long enough exactly if the path fits. -/
theorem absolutePath_lt_iff (hlen : path.length < ramfsMaxPath) :
    (fs.absolutePath path).length < ramfsMaxPath ↔ fs.FitsBehindCwd path := by
  unfold FitsBehindCwd
  by_cases hpath : path.head? = some slash
  · rw [absolutePath_of_absolute hpath]
    exact ⟨fun _ => Or.inl hpath, fun _ => hlen⟩
  · rw [length_absolutePath hpath]
    exact ⟨Or.inr, fun h => h.resolve_left hpath⟩

theorem length_resolvePath_le : (fs.resolvePath path).length ≤ (fs.absolutePath path).length := by
  unfold resolvePath
  dsimp only
  split_ifs
  · rw [List.length_dropLast]
    exact Nat.sub_le _ _
  · exact le_rfl

/-- The new working directory is the old one or the resolved path. -/
theorem setCwd_cases (fs : Ramfs) (path : List UInt8) :
    (fs.setCwd path).cwd = fs.cwd ∨ (fs.setCwd path).cwd = fs.resolvePath path := by
  unfold setCwd
  dsimp only
  split
  · split_ifs
    · exact Or.inr rfl
    · exact Or.inl rfl
  · exact Or.inl rfl

theorem setCwd_absolute (hcwd : fs.cwd.head? = some slash) (path : List UInt8) :
    (fs.setCwd path).cwd.head? = some slash := by
  rcases fs.setCwd_cases path with heq | heq
  · rw [heq]
    exact hcwd
  · rw [heq]
    exact resolvePath_absolute hcwd path

/-- A path of 125 characters for the directory that it begins in. -/
def longDots : List UInt8 := (List.replicate 62 [0x2E, slash]).flatten ++ [0x2E]

end Ramfs

end Microkernel

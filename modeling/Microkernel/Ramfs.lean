/-
# The RAM file system

`src/ramfs.c` and the routing of requests to the other file systems.  An operation either serves
the request from its table of nodes or hands it to FAT16, NTFS or procfs; which of the two file
systems is mounted on which drive is an argument.

The buffers of the files come from the heap: `kmalloc` is an argument that gives a buffer of the
size asked for, with any contents, or none.  A buffer belongs to one node.  The times of creation
and modification are left out.
-/
import Microkernel.Indices
import Microkernel.Paths

namespace Microkernel

/-! ## The nodes -/

/-- `RAMFS_MAX_NAME`, `RAMFS_MAX_PATH`, `RAMFS_MAX_DATA`; there are 64 nodes. -/
def ramfsMaxName : ℕ := 32

def ramfsMaxPath : ℕ := 128

def ramfsMaxData : ℕ := 50 * 1024 * 1024

inductive RamfsType
  | file
  | dir
  deriving DecidableEq

/-- `ramfs_node_t`; the parent of the root directory is -1, here `none`. -/
structure RamfsNode where
  active : Bool
  name : List UInt8
  type : RamfsType
  data : Option (List UInt8)
  size : ℕ
  capacity : ℕ
  parent : Option (Fin 64)
  deriving DecidableEq

/-- `nodes` and `cwd`. -/
structure Ramfs where
  nodes : Fin 64 → RamfsNode
  cwd : List UInt8

/-- Which drive FAT16 and NTFS are mounted on, if they are. -/
structure Mounts where
  fat16 : Option ℕ
  ntfs : Option ℕ

/-- A buffer of the size asked for, or `none` for NULL. -/
structure Allocator where
  kmalloc : ℕ → Option (List UInt8)
  length_eq : ∀ n b, kmalloc n = some b → b.length = n

/-- A heap that has nothing left is one. -/
theorem Allocator.length_of_none (n : ℕ) (b : List UInt8) (h : none = some b) : b.length = n := by
  cases h

/-- And so is one that clears its buffers. -/
theorem Allocator.length_of_zeros (n : ℕ) (b : List UInt8)
    (h : some (List.replicate n (0 : UInt8)) = some b) : b.length = n := by
  rw [← Option.some.inj h, List.length_replicate]

/-- How a request is served: from the nodes, with the result and the nodes after it, or by another
file system at a path; `nowhere` if nothing is mounted for it. -/
inductive Served
  | ramfs (result : ℤ) (fs : Ramfs)
  | fat16 (path : List UInt8)
  | ntfs (path : List UInt8)
  | procfs (path : List UInt8)
  | nowhere

namespace Ramfs

/-- `ramfs_init`. -/
def init : Ramfs where
  nodes i :=
    if i = 0 then ⟨true, [slash], .dir, none, 0, 0, none⟩ else ⟨false, [], .file, none, 0, 0, some 0⟩
  cwd := [slash]

variable (fs : Ramfs)

/-- The node after an assignment. -/
def setNode (i : Fin 64) (node : RamfsNode) : Ramfs :=
  { fs with nodes := Function.update fs.nodes i node }

/-! ## Paths -/

/-- The path before `ramfs_resolve_path` takes a last slash away. -/
def absolutePath (input : List UInt8) : List UInt8 :=
  if input.head? = some slash then input
  else (if fs.cwd.getLast? = some slash then fs.cwd else fs.cwd ++ [slash]) ++ input

/-- `ramfs_resolve_path`. -/
def resolvePath (input : List UInt8) : List UInt8 :=
  let output := fs.absolutePath input
  if 1 < output.length ∧ output.getLast? = some slash then output.dropLast else output

/-- The loop over the nodes that looks for a name in a directory. -/
def child (dir : Fin 64) (name : List UInt8) : Option (Fin 64) :=
  (List.finRange 64).find? fun i =>
    (fs.nodes i).active && (fs.nodes i).parent == some dir && (fs.nodes i).name == name

/-- The loop of `ramfs_find` over the components. -/
def walk : Fin 64 → List (List UInt8) → Option (Fin 64)
  | current, [] => some current
  | current, c :: cs =>
    if c = [0x2E] then walk current cs
    else if c = [0x2E, 0x2E] then walk ((fs.nodes current).parent.getD current) cs
    else (fs.child current c).bind fun i => walk i cs

/-- `ramfs_find`; `none` is -1. -/
def find (path : List UInt8) : Option (Fin 64) :=
  let resolved := fs.resolvePath path
  if resolved = [slash] then some 0
  else fs.walk 0 (Path.components (ramfsMaxName - 1) resolved.tail)

/-- `parse_path`: the directory of a path, if there is one, and the name in it. -/
def parsePath (path : List UInt8) : Option (Fin 64) × List UInt8 :=
  let resolved := fs.resolvePath path
  if Path.dirName resolved = [] then (some 0, Path.fileName resolved)
  else (fs.find (Path.dirName resolved), Path.fileName resolved)

end Ramfs

/-! ## Routing -/

/-- `strncmp(path, text, strlen(text)) == 0`. -/
def startsWith (text : String) (path : List UInt8) : Bool := text.toUTF8.toList.isPrefixOf path

/-- `match_disk`: the drive and the path on it. -/
def matchDisk (resolved : List UInt8) : Option (ℕ × List UInt8) :=
  if startsWith "/disk2" resolved && (resolved.drop 6 = [] || (resolved.drop 6).head? = some slash)
  then some (1, if resolved.drop 6 = [] then [slash] else resolved.drop 6)
  else if startsWith "/disk" resolved &&
    (resolved.drop 5 = [] || (resolved.drop 5).head? = some slash)
  then some (0, if resolved.drop 5 = [] then [slash] else resolved.drop 5)
  else none

/-- `match_disk_content`. -/
def matchDiskContent (resolved : List UInt8) : Option (ℕ × List UInt8) :=
  if startsWith "/disk2/" resolved && resolved.drop 7 ≠ [] then some (1, resolved.drop 6)
  else if startsWith "/disk/" resolved && resolved.drop 6 ≠ [] then some (0, resolved.drop 5)
  else none

/-- The tests `is_fat16_on` and `is_ntfs_on` after a match; otherwise the request goes on. -/
def onDisk (m : Mounts) (target : Option (ℕ × List UInt8)) (otherwise : Served) : Served :=
  match target with
  | some (drv, path) =>
    if m.fat16 = some drv then .fat16 path
    else if m.ntfs = some drv then .ntfs path
    else otherwise
  | none => otherwise

/-- `procfs_is_virtual`. -/
def procfsIsVirtual (path : List UInt8) : Bool := startsWith "/proc" path

namespace Ramfs

variable (fs : Ramfs) (m : Mounts) (a : Allocator)

/-! ## Operations -/

/-- The first free slot for a new node. -/
def freeNode : Option (Fin 64) :=
  (List.finRange 64).find? fun i => i != 0 && !(fs.nodes i).active

/-- The part of `ramfs_create` about nodes: the new node, or the error. -/
def createNode (path : List UInt8) (type : RamfsType) : Except ℤ (Fin 64 × Ramfs) :=
  let (parent, filename) := fs.parsePath path
  match parent with
  | none => .error (-1)
  | some parent =>
    if filename = [] then .error (-1)
    else if (fs.nodes parent).type ≠ .dir then .error (-2)
    else if (fs.child parent filename).isSome then .error (-3)
    else
      match fs.freeNode with
      | none => .error (-4)
      | some i => .ok (i, fs.setNode i ⟨true, filename, type, none, 0, 0, some parent⟩)

/-- The result of a creation and the nodes after it. -/
def createResult : Except ℤ (Fin 64 × Ramfs) → ℤ × Ramfs
  | .error e => (e, fs)
  | .ok (i, fs) => (i, fs)

/-- `ramfs_create`. -/
def create (path : List UInt8) (type : RamfsType) : Served :=
  let r := fs.createResult (fs.createNode path type)
  let nodes := Served.ramfs r.1 r.2
  match type with
  | .dir => onDisk m (matchDiskContent (fs.resolvePath path)) nodes
  | .file => nodes

/-- The part of `ramfs_write` that stores the data in a file. -/
def storeFile (i : Fin 64) (data : List UInt8) : ℤ × Ramfs :=
  let node := fs.nodes i
  if node.type ≠ .file then (-1, fs)
  else
    let data := data.take ramfsMaxData
    if data.length > node.capacity then
      match a.kmalloc data.length with
      | none => (-5, fs.setNode i { node with data := none, capacity := 0, size := 0 })
      | some _ =>
        (data.length, fs.setNode i
          { node with data := some data, capacity := data.length, size := data.length })
    else
      (data.length, fs.setNode i
        { node with data := node.data.map fun old => data ++ old.drop data.length,
                    size := data.length })

/-- The part of `ramfs_write` about nodes; the file is made if it is not there. -/
def writeNode (path data : List UInt8) : ℤ × Ramfs :=
  match fs.find path with
  | some i => fs.storeFile a i data
  | none =>
    match fs.createNode path .file with
    | .error e => (e, fs)
    | .ok (i, fs) => fs.storeFile a i data

/-- `ramfs_write`. -/
def write (path data : List UInt8) : Served :=
  onDisk m (matchDiskContent (fs.resolvePath path))
    (.ramfs (fs.writeNode a path data).1 (fs.writeNode a path data).2)

/-- The part of `ramfs_append` that extends a file; the sum of the sizes has 32 bits. -/
def extendFile (i : Fin 64) (data : List UInt8) : ℤ × Ramfs :=
  let node := fs.nodes i
  if node.type ≠ .file then (-1, fs)
  else
    let newSize : ℕ := min ((node.size + data.length) % 2 ^ 32) ramfsMaxData
    let toAdd : ℕ := (newSize + 2 ^ 32 - node.size) % 2 ^ 32
    let old := (node.data.getD []).take node.size
    if newSize > node.capacity then
      match a.kmalloc newSize with
      | none => (-5, fs)
      | some fresh =>
        (toAdd, fs.setNode i
          { node with data := some (old ++ data.take toAdd ++ fresh.drop (node.size + toAdd)),
                      capacity := newSize, size := newSize })
    else
      (toAdd, fs.setNode i
        { node with data := node.data.map fun b =>
                      old ++ data.take toAdd ++ b.drop (node.size + toAdd),
                    size := newSize })

/-- `ramfs_append`. -/
def append (path data : List UInt8) : Served :=
  match fs.find path with
  | none => fs.write m a path data
  | some i => .ramfs (fs.extendFile a i data).1 (fs.extendFile a i data).2

/-- What `ramfs_read` gives from the nodes: the bytes, or `none` for -1. -/
def readNode (path : List UInt8) (max : ℕ) : Option (List UInt8) :=
  (fs.find path).bind fun i =>
    if (fs.nodes i).type ≠ .file then none
    else some (((fs.nodes i).data.getD []).take (min (fs.nodes i).size max))

/-- The result of a read. -/
def readResult : Option (List UInt8) → ℤ
  | none => -1
  | some bytes => bytes.length

/-- `ramfs_read`, as far as who serves it. -/
def read (path : List UInt8) (max : ℕ) : Served :=
  let resolved := fs.resolvePath path
  if procfsIsVirtual resolved then .procfs resolved
  else onDisk m (matchDisk resolved) (.ramfs (readResult (fs.readNode path max)) fs)

/-- The part of `ramfs_delete` about nodes. -/
def deleteNode (path : List UInt8) : ℤ × Ramfs :=
  match fs.find path with
  | none => (-1, fs)
  | some i =>
    if i = 0 then (-1, fs)
    else if (fs.nodes i).type = .dir ∧
      ((List.finRange 64).any fun j => (fs.nodes j).active && (fs.nodes j).parent == some i) then
      (-2, fs)
    else (0, fs.setNode i { fs.nodes i with data := none, capacity := 0, active := false })

/-- `ramfs_delete`. -/
def delete (path : List UInt8) : Served :=
  onDisk m (matchDiskContent (fs.resolvePath path))
    (.ramfs (fs.deleteNode path).1 (fs.deleteNode path).2)

/-- What `ramfs_stat` reports from the nodes. -/
def statNode (path : List UInt8) : Option (RamfsType × ℕ) :=
  (fs.find path).map fun i => ((fs.nodes i).type, (fs.nodes i).size)

/-- `ramfs_stat`, as far as who serves it. -/
def stat (path : List UInt8) : Served :=
  let resolved := fs.resolvePath path
  if procfsIsVirtual resolved ∧ 5 < resolved.length then .procfs resolved
  else onDisk m (matchDisk resolved) (.ramfs (if (fs.statNode path).isSome then 0 else -1) fs)

/-- `ramfs_rename`. -/
def renameNode (oldPath newPath : List UInt8) : ℤ × Ramfs :=
  match fs.find oldPath with
  | none => (-1, fs)
  | some src =>
    if src = 0 then (-1, fs)
    else
      let (newParent, newName) := fs.parsePath newPath
      match newParent with
      | none => (-2, fs)
      | some newParent =>
        if newName = [] then (-2, fs)
        else if (fs.nodes newParent).type ≠ .dir then (-3, fs)
        else if (fs.child newParent newName).isSome then (-4, fs)
        else
          (0, fs.setNode src
            { fs.nodes src with
              name := newName.take (ramfsMaxName - 1), parent := some newParent })

/-- `ramfs_set_cwd`. -/
def setCwd (path : List UInt8) : Ramfs :=
  let resolved := fs.resolvePath path
  match fs.find resolved with
  | some i => if (fs.nodes i).type = .dir then { fs with cwd := resolved } else fs
  | none => fs

end Ramfs

end Microkernel

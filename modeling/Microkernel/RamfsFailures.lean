/-
# Writes and appends that fail

What `ramfs_write` and `ramfs_append` have done when they return a negative number: the file is
made before the heap is asked for its buffer, the old buffer is given back before there is a new
one, and the sum of the sizes in an append may wrap around.
-/
import Microkernel.RamfsContents
import Microkernel.RamfsLookup

namespace Microkernel

namespace Ramfs

variable {fs fs' : Ramfs} {m : Mounts} {a : Allocator} {path data : List UInt8} {i : Fin 64}

/-! ## Files -/

/-- The same nodes with the same names, and the same bytes in every file. -/
def SameFiles (fs fs' : Ramfs) : Prop :=
  fs.SameLinks fs' ∧ ∀ i, (fs.nodes i).active = true → fs'.contents i = fs.contents i

theorem SameFiles.refl (fs : Ramfs) : fs.SameFiles fs := ⟨SameLinks.refl fs, fun _ _ => rfl⟩

/-- The buffer of a node has at least the recorded capacity, and the size of an active node fits
it. -/
structure Room (fs : Ramfs) : Prop where
  capacity : ∀ i, (fs.nodes i).capacity ≤ ((fs.nodes i).data.getD []).length
  size : ∀ i, (fs.nodes i).active = true → (fs.nodes i).size ≤ (fs.nodes i).capacity
  max : ∀ i, (fs.nodes i).active = true → (fs.nodes i).size ≤ ramfsMaxData

theorem room_init : Ramfs.init.Room where
  capacity := fun i => (buffers_init.capacity i).ge
  size := buffers_init.size
  max := buffers_init.max

theorem Room.length_contents (h : fs.Room) (hi : (fs.nodes i).active = true) :
    (fs.contents i).length = (fs.nodes i).size := by
  unfold contents
  rw [List.length_take]
  exact Nat.min_eq_left ((h.size i hi).trans (h.capacity i))

theorem Room.setNode (h : fs.Room) {node : RamfsNode}
    (hcap : node.capacity ≤ (node.data.getD []).length)
    (hsize : node.active = true → node.size ≤ node.capacity)
    (hmax : node.active = true → node.size ≤ ramfsMaxData) : (fs.setNode i node).Room := by
  have hnode : ∀ j, (fs.setNode i node).nodes j = if j = i then node else fs.nodes j := by
    intro j
    split_ifs with hj
    · rw [hj, setNode_same]
    · exact setNode_of_ne _ hj
  constructor
  all_goals
    intro j
    rw [hnode]
    split_ifs
  · exact hcap
  · exact h.capacity j
  · exact hsize
  · exact h.size j
  · exact hmax
  · exact h.max j

theorem Room.storeFile (h : fs.Room) (i : Fin 64) (data : List UInt8) :
    (fs.storeFile a i data).2.Room := by
  have hle : (data.take ramfsMaxData).length ≤ ramfsMaxData := List.length_take_le _ _
  have hold := h.capacity i
  unfold Ramfs.storeFile
  dsimp only
  split_ifs with htype hcap
  · exact h
  · cases a.kmalloc (data.take ramfsMaxData).length with
    | none => exact h.setNode (Nat.zero_le _) (fun _ => le_rfl) fun _ => Nat.zero_le _
    | some b => exact h.setNode le_rfl (fun _ => le_rfl) fun _ => hle
  · refine h.setNode ?_ (fun _ => not_lt.mp hcap) fun _ => hle
    dsimp only
    cases hd : (fs.nodes i).data with
    | none =>
      rw [hd] at hold
      exact hold
    | some old =>
      rw [hd, Option.getD_some] at hold
      rw [Option.map_some, Option.getD_some, List.length_append, List.length_drop]
      omega

/-- The sizes in an append: what is added is at most what there is to add. -/
theorem toAdd_le {size len : ℕ} (hsize : size ≤ ramfsMaxData) :
    (min ((size + len) % 2 ^ 32) ramfsMaxData + 2 ^ 32 - size) % 2 ^ 32 ≤ len := by
  have hbound : ramfsMaxData = 52428800 := rfl
  omega

/-- The pieces of an extended file fill its buffer. -/
theorem extended_length {size new add len : ℕ} (hadd : add ≤ len) :
    new ≤ size + min add len + (new - (size + add)) := by
  omega

theorem Room.extendFile (h : fs.Room) (hi : (fs.nodes i).active = true) (data : List UInt8) :
    (fs.extendFile a i data).2.Room := by
  have hmax := h.max i hi
  have hsize := h.size i hi
  have hcap := h.capacity i
  have hadd := @toAdd_le _ data.length hmax
  unfold Ramfs.extendFile
  dsimp only
  set newSize := min (((fs.nodes i).size + data.length) % 2 ^ 32) ramfsMaxData with hnew
  have hnewMax : newSize ≤ ramfsMaxData := Nat.min_le_right _ _
  have hbound : ramfsMaxData = 52428800 := rfl
  set toAdd := (newSize + 2 ^ 32 - (fs.nodes i).size) % 2 ^ 32 with htoAdd
  have hlenOld : (((fs.nodes i).data.getD []).take (fs.nodes i).size).length =
      (fs.nodes i).size := by
    rw [List.length_take]
    omega
  split_ifs with htype hgrow
  · exact h
  · split
    · exact h
    · rename_i fresh hk
      have hfresh := a.length_eq _ _ hk
      refine h.setNode ?_ (fun _ => le_rfl) fun _ => hnewMax
      dsimp only
      rw [Option.getD_some, List.length_append, List.length_append, hlenOld, List.length_take,
        List.length_drop, hfresh]
      exact extended_length hadd
  · refine h.setNode ?_ (fun _ => not_lt.mp hgrow) fun _ => hnewMax
    dsimp only
    cases hd : (fs.nodes i).data with
    | none =>
      rw [hd] at hcap
      exact hcap
    | some old =>
      rw [hd, Option.getD_some] at hcap hlenOld
      rw [Option.map_some, Option.getD_some, Option.getD_some, List.length_append,
        List.length_append, hlenOld, List.length_take, List.length_drop]
      exact hcap.trans (extended_length hadd)

theorem Room.createNode (h : fs.Room) {type : RamfsType}
    (hc : fs.createNode path type = .ok (i, fs')) : fs'.Room := by
  obtain ⟨p, -, -, -, -, -, -, rfl⟩ := createNode_ok hc
  exact h.setNode le_rfl (fun _ => le_rfl) fun _ => Nat.zero_le _

theorem Room.writeNode (h : fs.Room) (path data : List UInt8) : (fs.writeNode a path data).2.Room := by
  unfold Ramfs.writeNode
  cases fs.find path with
  | some i => exact h.storeFile i data
  | none =>
    dsimp only
    cases hc : fs.createNode path .file with
    | error e => exact h
    | ok r =>
      obtain ⟨i, fs'⟩ := r
      exact (h.createNode hc).storeFile i data

/-- Every call keeps the room of the buffers, whatever its arguments are. -/
theorem Room.exec (h : fs.Room) (hlinked : fs.Linked) (s : RamfsStep) : (fs.exec s).Room := by
  obtain ⟨m, a, call⟩ := s
  have hwrite : ∀ path data, ((fs.write m a path data).after fs).Room := fun path data =>
    after_onDisk m _ _ h fun _ => h.writeNode path data
  unfold Ramfs.exec
  cases call with
  | create path type =>
    have hnodes : (fs.createResult (fs.createNode path type)).2.Room := by
      cases hc : fs.createNode path type with
      | error e => exact h
      | ok r =>
        obtain ⟨i, fs'⟩ := r
        exact h.createNode hc
    cases type with
    | file => exact hnodes
    | dir => exact after_onDisk m _ _ h fun _ => hnodes
  | write path data => exact hwrite path data
  | append path data =>
    dsimp only
    unfold append
    cases hf : fs.find path with
    | some i => exact h.extendFile (hlinked.find_active hf) data
    | none => exact hwrite path data
  | delete path =>
    apply after_onDisk m _ _ h
    intro _
    rcases @deleteNode_cases fs path with heq | ⟨i, _, _, _, heq⟩
    · rw [heq]
      exact h
    · rw [heq]
      exact h.setNode (Nat.zero_le _) nofun nofun
  | rename oldPath newPath =>
    dsimp only
    rcases @renameNode_cases fs oldPath newPath with heq | ⟨src, q, _, heq⟩
    · rw [heq]
      exact h
    · rw [heq]
      exact h.setNode (h.capacity src) (h.size src) (h.max src)
  | setCwd path =>
    dsimp only
    unfold Ramfs.setCwd
    dsimp only
    split
    · split_ifs
      · exact ⟨h.capacity, h.size, h.max⟩
      · exact h
    · exact h

/-- Every sequence of calls from `ramfs_init` on keeps the links and the room. -/
theorem room_run (steps : List RamfsStep) :
    (Ramfs.init.run steps).Linked ∧ (Ramfs.init.run steps).Room := by
  have hrun : ∀ fs : Ramfs, fs.Linked → fs.Room → (fs.run steps).Linked ∧ (fs.run steps).Room := by
    induction steps with
    | nil => exact fun _ hl hr => ⟨hl, hr⟩
    | cons s steps ih => exact fun fs hl hr => ih (fs.exec s) (hl.exec s) (hr.exec hl s)
  exact hrun Ramfs.init tree_init.toLinked room_init

/-! ## Failing cleanly -/

/-- **A call that fails changes nothing**: it stays inside its arrays, and if the result, as an
`int32_t`, is negative, the nodes, their names and the contents of the files are as before. -/
structure FailsCleanly (fs : Ramfs) (path : List UInt8) (s : Served) : Prop where
  pathFits : fs.PathFits path
  nameFits : fs.find path = none → fs.NameFits path
  unchanged : ∀ r fs', s = .ramfs r fs' → r.bmod (2 ^ 32) < 0 → fs.SameFiles fs'

/-- The heap has no buffer for a write that needs one: a new file would have bytes, or a file with
contents would outgrow its buffer. -/
def WriteLoses (fs : Ramfs) (a : Allocator) (path data : List UInt8) : Prop :=
  a.kmalloc (min ramfsMaxData data.length) = none ∧
    ((fs.find path = none ∧ ¬ fs.Refused path ∧ data ≠ []) ∨
      ∃ i, fs.find path = some i ∧ (fs.nodes i).type = .file ∧
        (fs.nodes i).capacity < min ramfsMaxData data.length ∧ fs.contents i ≠ [])

/-- The sum of the sizes in an append wraps around. -/
def AppendWraps (fs : Ramfs) (path data : List UInt8) : Prop :=
  ∃ i, fs.find path = some i ∧ (fs.nodes i).type = .file ∧
    2 ^ 32 ≤ (fs.nodes i).size + data.length

theorem bmod_of_small {n : ℕ} (h : n ≤ ramfsMaxData) : ¬ ((n : ℕ) : ℤ).bmod (2 ^ 32) < 0 := by
  have hbound : ramfsMaxData = 52428800 := rfl
  rw [Int.bmod_eq_of_le (by omega) (by omega)]
  omega

/-- What storing data in a file comes to. -/
theorem storeFile_cases (a : Allocator) (i : Fin 64) (data : List UInt8) :
    ((fs.nodes i).type ≠ .file ∧ fs.storeFile a i data = (-1, fs)) ∨
    ((fs.nodes i).type = .file ∧ (fs.nodes i).capacity < min ramfsMaxData data.length ∧
      a.kmalloc (min ramfsMaxData data.length) = none ∧
      fs.storeFile a i data =
        (-5, fs.setNode i { fs.nodes i with data := none, capacity := 0, size := 0 })) ∨
    (¬ ((fs.nodes i).capacity < min ramfsMaxData data.length ∧
        a.kmalloc (min ramfsMaxData data.length) = none) ∧
      ¬ (fs.storeFile a i data).1.bmod (2 ^ 32) < 0) := by
  have hlen : (data.take ramfsMaxData).length = min ramfsMaxData data.length := List.length_take
  have hmax : min ramfsMaxData data.length ≤ ramfsMaxData := Nat.min_le_left _ _
  unfold Ramfs.storeFile
  dsimp only
  rw [hlen]
  by_cases htype : (fs.nodes i).type = .file
  · rw [if_neg (not_not.mpr htype)]
    by_cases hcap : min ramfsMaxData data.length > (fs.nodes i).capacity
    · rw [if_pos hcap]
      cases hk : a.kmalloc (min ramfsMaxData data.length) with
      | none => exact Or.inr (Or.inl ⟨htype, hcap, rfl, rfl⟩)
      | some b => exact Or.inr (Or.inr ⟨fun h => Option.some_ne_none b h.2, bmod_of_small hmax⟩)
    · rw [if_neg hcap]
      exact Or.inr (Or.inr ⟨fun h => hcap h.1, bmod_of_small hmax⟩)
  · rw [if_pos htype]
    exact Or.inl ⟨htype, rfl⟩

/-- Outside the mounted disks a write is served from the nodes. -/
theorem write_of_not_mounted (hout : ¬ fs.OnMountedDisk m path) :
    fs.write m a path data =
      .ramfs (fs.writeNode a path data).1 (fs.writeNode a path data).2 := by
  unfold write onDisk
  cases ht : matchDiskContent (fs.resolvePath path) with
  | none => rfl
  | some t =>
    dsimp only
    rw [if_neg fun h => hout ⟨t, ht, Or.inl h⟩, if_neg fun h => hout ⟨t, ht, Or.inr h⟩]

/-- **When a failed write changes nothing**, as far as the nodes go. -/
theorem writeNode_clean_iff (hlinked : fs.Linked) :
    ((fs.writeNode a path data).1.bmod (2 ^ 32) < 0 → fs.SameFiles (fs.writeNode a path data).2) ↔
      ¬ fs.WriteLoses a path data := by
  unfold Ramfs.writeNode WriteLoses
  cases hf : fs.find path with
  | some i =>
    dsimp only
    have hi := hlinked.find_active hf
    rcases @storeFile_cases fs a i data with ⟨htype, heq⟩ | ⟨htype, hcap, hk, heq⟩ | ⟨hnot, hok⟩
    · rw [heq]
      refine ⟨fun _ => ?_, fun _ _ => SameFiles.refl fs⟩
      rintro ⟨_, ⟨hnone, _⟩ | ⟨j, hj, hfile, _⟩⟩
      · cases hnone
      · rw [Option.some.inj hj] at htype
        exact htype hfile
    · -- The old buffer is gone: the file is empty now.
      rw [heq]
      have hneg : (-5 : ℤ).bmod (2 ^ 32) < 0 := by decide
      have hcontents : ∀ j, (fs.setNode i
          { fs.nodes i with data := none, capacity := 0, size := 0 }).contents j =
          if j = i then [] else fs.contents j := fun j => contents_setNode i j _
      constructor
      · rintro hclean ⟨_, ⟨hnone, _⟩ | ⟨j, hj, _, _, hne⟩⟩
        · cases hnone
        · obtain rfl := Option.some.inj hj
          have hsame := (hclean hneg).2 i hi
          rw [hcontents, if_pos rfl] at hsame
          exact hne hsame.symm
      · intro hnot _
        refine ⟨sameLinks_setNode rfl rfl rfl rfl, fun j _ => ?_⟩
        rw [hcontents]
        split_ifs with hj
        · by_contra hne
          refine hnot ⟨hk, Or.inr ⟨i, rfl, htype, hcap, fun hnil => hne ?_⟩⟩
          rw [hj, hnil]
        · rfl
    · refine ⟨fun _ => ?_, fun _ hneg => absurd hneg hok⟩
      rintro ⟨hk, ⟨hnone, _⟩ | ⟨j, hj, _, hcap, _⟩⟩
      · cases hnone
      · rw [← Option.some.inj hj] at hcap
        exact hnot ⟨hcap, hk⟩
  | none =>
    dsimp only
    rcases @createNode_cases fs path .file with ⟨href, e, _, herr⟩ | ⟨hnot, i, fs', hok⟩
    · rw [herr]
      refine ⟨fun _ => ?_, fun _ _ => SameFiles.refl fs⟩
      rintro ⟨_, ⟨_, hnref, _⟩ | ⟨j, hj, _⟩⟩
      · exact hnref href
      · cases hj
    · rw [hok]
      dsimp only
      obtain ⟨p, _, _, _, _, _, hfree, rfl⟩ := createNode_ok hok
      set node : RamfsNode := ⟨true, (fs.parsePath path).2, .file, none, 0, 0, some p⟩
      have hnode : (fs.setNode i node).nodes i = node := setNode_same ..
      have hcap : ((fs.setNode i node).nodes i).capacity = 0 := by rw [hnode]
      rcases @storeFile_cases (fs.setNode i node) a i data with
        ⟨htype, _⟩ | ⟨_, hlt, hk, heq⟩ | ⟨hgood, hpos⟩
      · rw [hnode] at htype
        exact absurd rfl htype
      · -- The new node stays behind.
        rw [heq]
        have hneg : (-5 : ℤ).bmod (2 ^ 32) < 0 := by decide
        constructor
        · intro hclean
          have hactive := (hclean hneg).1 i
          rw [setNode_same, hnode, hfree] at hactive
          cases hactive.1
        · intro hnot'
          refine absurd ⟨hk, Or.inl ⟨rfl, hnot, ?_⟩⟩ hnot'
          rintro rfl
          rw [hcap] at hlt
          exact absurd hlt (by decide)
      · refine ⟨fun _ => ?_, fun _ hneg => absurd hneg hpos⟩
        rintro ⟨hk, ⟨_, _, hne⟩ | ⟨j, hj, _⟩⟩
        · have hlen := List.length_pos_iff.mpr hne
          have hmax : 0 < ramfsMaxData := by decide
          refine hgood ⟨?_, hk⟩
          rw [hcap]
          exact lt_min hmax hlen
        · cases hj

/-- **When a failed append changes nothing**, as far as the nodes go. -/
theorem Room.extendFile_clean_iff (h : fs.Room) (hi : (fs.nodes i).active = true)
    (hdata : data.length < 2 ^ 32) :
    ((fs.extendFile a i data).1.bmod (2 ^ 32) < 0 → fs.SameFiles (fs.extendFile a i data).2) ↔
      ¬ ((fs.nodes i).type = .file ∧ 2 ^ 32 ≤ (fs.nodes i).size + data.length) := by
  have hmax := h.max i hi
  have hsize := h.size i hi
  have hlen := h.length_contents hi
  have hbound : ramfsMaxData = 52428800 := rfl
  unfold Ramfs.extendFile
  dsimp only
  by_cases htype : (fs.nodes i).type = .file
  · rw [if_neg (not_not.mpr htype)]
    by_cases hwrap : 2 ^ 32 ≤ (fs.nodes i).size + data.length
    · -- The new size is below the old one, and what is added is all of the data.
      have hnew : min (((fs.nodes i).size + data.length) % 2 ^ 32) ramfsMaxData =
          (fs.nodes i).size + data.length - 2 ^ 32 := by omega
      have hadd : ((fs.nodes i).size + data.length - 2 ^ 32 + 2 ^ 32 - (fs.nodes i).size) % 2 ^ 32 =
          data.length := by omega
      have hneg : ((data.length : ℕ) : ℤ).bmod (2 ^ 32) < 0 := by
        rw [Int.bmod_def]
        split_ifs <;> omega
      rw [hnew, hadd, if_neg (by omega)]
      refine ⟨fun hclean => ?_, fun hnot => absurd ⟨htype, hwrap⟩ hnot⟩
      have hsame := congrArg List.length ((hclean hneg).2 i hi)
      rw [hlen, contents_setNode, if_pos rfl] at hsame
      have hshort := hsame.symm.trans_le (List.length_take_le _ _)
      have hless : (fs.nodes i).size + data.length - 2 ^ 32 < (fs.nodes i).size := by omega
      exact absurd hless (not_lt.mpr hshort)
    · have hnew : ((fs.nodes i).size + data.length) % 2 ^ 32 = (fs.nodes i).size + data.length :=
        Nat.mod_eq_of_lt (by omega)
      have hadd : (min ((fs.nodes i).size + data.length) ramfsMaxData + 2 ^ 32 -
          (fs.nodes i).size) % 2 ^ 32 ≤ ramfsMaxData := by omega
      have hpos := bmod_of_small hadd
      rw [hnew]
      refine ⟨fun _ hboth => hwrap hboth.2, fun _ hneg => ?_⟩
      split_ifs at hneg ⊢
      · split at hneg
        · exact SameFiles.refl fs
        · exact absurd hneg hpos
      · exact absurd hneg hpos
  · rw [if_pos htype]
    exact ⟨fun _ hboth => htype hboth.1, fun _ _ => SameFiles.refl fs⟩

theorem failsCleanly_ramfs (r : ℤ) : fs.FailsCleanly path (.ramfs r fs') ↔
    fs.PathFits path ∧ (fs.find path = none → fs.NameFits path) ∧
      (r.bmod (2 ^ 32) < 0 → fs.SameFiles fs') := by
  constructor
  · exact fun h => ⟨h.pathFits, h.nameFits, h.unchanged r fs' rfl⟩
  · rintro ⟨hpath, hname, hsame⟩
    refine ⟨hpath, hname, fun r' fs'' heq => ?_⟩
    cases heq
    exact hsame

/-- **When a failed write or append changes nothing.**  In every state of the nodes, with any heap
and for every path outside the mounted disks: a write, exactly if the path and a new name fit their
arrays and the heap has a buffer where one is needed; an append, if moreover the sum of the sizes
does not wrap around. -/
theorem failsCleanly_iff (steps : List RamfsStep) (m : Mounts) (a : Allocator)
    (path data : List UInt8) (hdata : data.length < 2 ^ 32)
    (hout : ¬ (Ramfs.init.run steps).OnMountedDisk m path) :
    let fs := Ramfs.init.run steps
    (fs.FailsCleanly path (fs.write m a path data) ↔
      fs.PathFits path ∧ (fs.find path = none → fs.NameFits path) ∧ ¬ fs.WriteLoses a path data) ∧
    (fs.FailsCleanly path (fs.append m a path data) ↔
      fs.PathFits path ∧ (fs.find path = none → fs.NameFits path ∧ ¬ fs.WriteLoses a path data) ∧
        ¬ fs.AppendWraps path data) := by
  intro fs
  obtain ⟨hlinked, hroom⟩ := room_run steps
  have hwrite : fs.FailsCleanly path (fs.write m a path data) ↔ fs.PathFits path ∧
      (fs.find path = none → fs.NameFits path) ∧ ¬ fs.WriteLoses a path data := by
    rw [write_of_not_mounted hout, failsCleanly_ramfs, writeNode_clean_iff hlinked]
  refine ⟨hwrite, ?_⟩
  unfold append AppendWraps
  cases hf : fs.find path with
  | none =>
    dsimp only
    rw [hwrite, hf]
    constructor
    · rintro ⟨hpath, hname, hkeeps⟩
      refine ⟨hpath, fun h => ⟨hname h, hkeeps⟩, ?_⟩
      rintro ⟨i, hi, _⟩
      cases hi
    · rintro ⟨hpath, hboth, _⟩
      exact ⟨hpath, fun h => (hboth h).1, (hboth rfl).2⟩
  | some i =>
    dsimp only
    rw [failsCleanly_ramfs, hroom.extendFile_clean_iff (hlinked.find_active hf) hdata, hf]
    constructor
    · rintro ⟨hpath, _, hno⟩
      refine ⟨hpath, nofun, ?_⟩
      rintro ⟨j, hj, hwraps⟩
      obtain rfl := Option.some.inj hj
      exact hno hwraps
    · rintro ⟨hpath, _, hno⟩
      exact ⟨hpath, nofun, fun hwraps => hno ⟨i, rfl, hwraps⟩⟩

/-- A heap that has nothing left. -/
def emptyHeap : Allocator := ⟨fun _ => none, Allocator.length_of_none⟩

/-- The first call of all, with this heap. -/
theorem failsCleanly_first :
    (Ramfs.init.FailsCleanly pathA (Ramfs.init.write ⟨none, none⟩ emptyHeap pathA [1]) ↔
      Ramfs.init.PathFits pathA ∧ (Ramfs.init.find pathA = none → Ramfs.init.NameFits pathA) ∧
        ¬ Ramfs.init.WriteLoses emptyHeap pathA [1]) ∧
    (Ramfs.init.FailsCleanly pathA (Ramfs.init.append ⟨none, none⟩ emptyHeap pathA [1]) ↔
      Ramfs.init.PathFits pathA ∧ (Ramfs.init.find pathA = none → Ramfs.init.NameFits pathA ∧
        ¬ Ramfs.init.WriteLoses emptyHeap pathA [1]) ∧ ¬ Ramfs.init.AppendWraps pathA [1]) := by
  refine failsCleanly_iff [] ⟨none, none⟩ emptyHeap pathA [1] (by decide) ?_
  rintro ⟨t, _, h | h⟩ <;> cases h

/-- A file `/a` with one byte. -/
def oneByte : Ramfs := Ramfs.init.run [roomyStep (.write pathA [7])]

/-- When the heap is empty, a longer write to it fails, and its byte is gone; the first write of a
file fails, and the file is there. -/
theorem contents_lost :
    (oneByte.contents 1 = [7] ∧ ∃ fs, oneByte.write ⟨none, none⟩ emptyHeap pathA [8, 9] =
      .ramfs (-5) fs ∧ fs.contents 1 = []) ∧
    (Ramfs.init.find pathA = none ∧ ∃ fs, Ramfs.init.write ⟨none, none⟩ emptyHeap pathA [8] =
      .ramfs (-5) fs ∧ fs.find pathA = some 1) ∧
    ¬ oneByte.FailsCleanly pathA (oneByte.write ⟨none, none⟩ emptyHeap pathA [8, 9]) := by
  have hbefore : oneByte.contents 1 = [7] := by with_unfolding_all decide
  have hactive : (oneByte.nodes 1).active = true := by with_unfolding_all decide
  have hafter : (oneByte.writeNode emptyHeap pathA [8, 9]).2.contents 1 = [] := by with_unfolding_all decide
  have hresult : (oneByte.writeNode emptyHeap pathA [8, 9]).1 = -5 := by with_unfolding_all decide
  have hwrite : oneByte.write ⟨none, none⟩ emptyHeap pathA [8, 9] =
      .ramfs (-5) (oneByte.writeNode emptyHeap pathA [8, 9]).2 := by
    rw [write_of_not_mounted, hresult]
    rintro ⟨t, _, h | h⟩ <;> cases h
  have hnew : Ramfs.init.write ⟨none, none⟩ emptyHeap pathA [8] =
      .ramfs (-5) (Ramfs.init.writeNode emptyHeap pathA [8]).2 := by
    have hfive : (Ramfs.init.writeNode emptyHeap pathA [8]).1 = -5 := by decide
    rw [write_of_not_mounted, hfive]
    rintro ⟨t, _, h | h⟩ <;> cases h
  refine ⟨⟨hbefore, _, hwrite, hafter⟩, ⟨by decide, _, hnew, by decide⟩, fun h => ?_⟩
  have hsame := (h.unchanged _ _ hwrite (by decide)).2 1 hactive
  rw [hbefore, hafter] at hsame
  cases hsame

end Ramfs

end Microkernel

/-
# The contents of the files

What `ramfs_read` gives for a file is what the writes and appends to it stored, for every path
that `ramfs_read` takes for one of the RAM file system.  It takes every path that begins with the
bytes `/proc` for one of procfs, also where no directory `/proc` is meant.
-/
import Microkernel.RamfsTree
import Microkernel.Procfs

namespace Microkernel

/-! ## Paths of the other file systems -/

/-- A resolved path is a directory or lies below it. -/
def InDir (dir : String) (r : List UInt8) : Bool :=
  r == dir.toUTF8.toList || startsWith (dir ++ "/") r

/-- The path does not resolve to `/proc`, `/disk` or `/disk2` or below them. -/
def Ramfs.Plain (fs : Ramfs) (path : List UInt8) : Prop :=
  InDir "/proc" (fs.resolvePath path) = false ∧ InDir "/disk" (fs.resolvePath path) = false ∧
    InDir "/disk2" (fs.resolvePath path) = false

instance (fs : Ramfs) (path : List UInt8) : Decidable (fs.Plain path) :=
  inferInstanceAs (Decidable (_ ∧ _))

/-- The test of `match_disk` for one of its prefixes. -/
theorem inDir_of_match {dir : String} {n : ℕ} {r : List UInt8}
    (hn : dir.toUTF8.toList.length = n)
    (hslash : (dir ++ "/").toUTF8.toList = dir.toUTF8.toList ++ [slash])
    (h : (startsWith dir r && (r.drop n = [] || (r.drop n).head? = some slash)) = true) :
    InDir dir r = true := by
  rw [Bool.and_eq_true] at h
  obtain ⟨hstart, hrest⟩ := h
  unfold startsWith at hstart
  rw [List.isPrefixOf_iff_prefix] at hstart
  obtain ⟨rest, rfl⟩ := hstart
  subst hn
  rw [List.drop_left] at hrest
  unfold InDir startsWith
  rw [Bool.or_eq_true, hslash, List.isPrefixOf_iff_prefix, List.prefix_append_right_inj]
  cases rest with
  | nil =>
    left
    rw [List.append_nil]
    exact beq_self_eq_true _
  | cons c rest =>
    right
    have hc : c = slash := by simpa using hrest
    rw [hc]
    exact ⟨rest, rfl⟩

namespace Ramfs

variable {fs fs' : Ramfs} {m : Mounts} {a : Allocator}

/-- A plain path is on no disk. -/
theorem Plain.matchDisk {path : List UInt8} (h : fs.Plain path) :
    Microkernel.matchDisk (fs.resolvePath path) = none := by
  obtain ⟨-, hdisk, hdisk2⟩ := h
  unfold Microkernel.matchDisk
  rw [if_neg, if_neg]
  · intro hmatch
    rw [inDir_of_match (by with_unfolding_all decide) (by with_unfolding_all decide) hmatch] at hdisk
    cases hdisk
  · intro hmatch
    rw [inDir_of_match (by with_unfolding_all decide) (by with_unfolding_all decide) hmatch] at hdisk2
    cases hdisk2

theorem Plain.matchDiskContent {path : List UInt8} (h : fs.Plain path) :
    Microkernel.matchDiskContent (fs.resolvePath path) = none := by
  obtain ⟨-, hdisk, hdisk2⟩ := h
  unfold InDir at hdisk hdisk2
  rw [Bool.or_eq_false_iff] at hdisk hdisk2
  unfold Microkernel.matchDiskContent
  rw [if_neg, if_neg]
  · rw [Bool.and_eq_true]
    intro hmatch
    have := hdisk.2.symm.trans hmatch.1
    cases this
  · rw [Bool.and_eq_true]
    intro hmatch
    have := hdisk2.2.symm.trans hmatch.1
    cases this

/-! ## Contents -/

/-- The bytes of a file. -/
def contents (fs : Ramfs) (i : Fin 64) : List UInt8 :=
  ((fs.nodes i).data.getD []).take (fs.nodes i).size

/-- The buffer of a node has the recorded capacity, and the size of an active node fits it. -/
structure Buffers (fs : Ramfs) : Prop where
  capacity : ∀ i, ((fs.nodes i).data.getD []).length = (fs.nodes i).capacity
  size : ∀ i, (fs.nodes i).active = true → (fs.nodes i).size ≤ (fs.nodes i).capacity
  max : ∀ i, (fs.nodes i).active = true → (fs.nodes i).size ≤ ramfsMaxData

theorem buffers_init : Ramfs.init.Buffers where
  capacity := by
    intro i
    unfold Ramfs.init
    dsimp only
    split_ifs <;> rfl
  size := by
    intro i hi
    rw [active_init hi]
    exact Nat.le_refl 0
  max := by
    intro i hi
    rw [active_init hi]
    exact Nat.zero_le _

theorem Buffers.length_contents (h : fs.Buffers) {i : Fin 64} (hi : (fs.nodes i).active = true) :
    (fs.contents i).length = (fs.nodes i).size := by
  unfold contents
  rw [List.length_take, h.capacity]
  exact Nat.min_eq_left (h.size i hi)

/-- A new node whose buffer fits keeps the buffers. -/
theorem Buffers.setNode (h : fs.Buffers) {i : Fin 64} {node : RamfsNode}
    (hcap : (node.data.getD []).length = node.capacity)
    (hsize : node.active = true → node.size ≤ node.capacity)
    (hmax : node.active = true → node.size ≤ ramfsMaxData) : (fs.setNode i node).Buffers where
  capacity := by
    intro j
    by_cases hj : j = i
    · subst hj
      rw [setNode_same]
      exact hcap
    · rw [setNode_of_ne _ hj]
      exact h.capacity j
  size := by
    intro j
    by_cases hj : j = i
    · subst hj
      rw [setNode_same]
      exact hsize
    · rw [setNode_of_ne _ hj]
      exact h.size j
  max := by
    intro j
    by_cases hj : j = i
    · subst hj
      rw [setNode_same]
      exact hmax
    · rw [setNode_of_ne _ hj]
      exact h.max j

/-- What a node holds after it was set. -/
theorem contents_setNode (i j : Fin 64) (node : RamfsNode) :
    (fs.setNode i node).contents j =
      if j = i then (node.data.getD []).take node.size else fs.contents j := by
  unfold contents
  split_ifs with hj
  · rw [hj, setNode_same]
  · rw [setNode_of_ne _ hj]

/-- **A successful write replaces the contents** of its file and of no other. -/
theorem Buffers.storeFile (h : fs.Buffers) {i : Fin 64} {data : List UInt8}
    (hok : 0 ≤ (fs.storeFile a i data).1) :
    (fs.storeFile a i data).2.Buffers ∧
      ∀ j, (fs.storeFile a i data).2.contents j =
        if j = i then data.take ramfsMaxData else fs.contents j := by
  have hle : (data.take ramfsMaxData).length ≤ ramfsMaxData := List.length_take_le _ _
  unfold Ramfs.storeFile at hok ⊢
  dsimp only at hok ⊢
  split_ifs at hok ⊢ with htype hcap
  · exact absurd hok (by decide : ¬ (0 : ℤ) ≤ -1)
  · cases hk : a.kmalloc (data.take ramfsMaxData).length with
    | none =>
      rw [hk] at hok
      exact absurd hok (by decide : ¬ (0 : ℤ) ≤ -5)
    | some b =>
      refine ⟨h.setNode rfl (fun _ => Nat.le_refl _) (fun _ => hle), fun j => ?_⟩
      rw [contents_setNode]
      dsimp only
      rw [Option.getD_some, List.take_length]
  · have hcap' : (data.take ramfsMaxData).length ≤ (fs.nodes i).capacity := Nat.not_lt.mp hcap
    have hlen := h.capacity i
    cases hd : (fs.nodes i).data with
    | none =>
      -- Without a buffer the capacity is zero, and there is nothing to store.
      rw [hd] at hlen
      have hzero : (fs.nodes i).capacity = 0 := hlen.symm
      have hnil : data.take ramfsMaxData = [] := List.eq_nil_of_length_eq_zero (by omega)
      refine ⟨h.setNode ?_ ?_ ?_, fun j => ?_⟩
      · exact hzero.symm
      · exact fun _ => hcap'
      · exact fun _ => hle
      · rw [contents_setNode]
        dsimp only
        rw [hnil]
        rfl
    | some old =>
      rw [hd, Option.getD_some] at hlen
      refine ⟨h.setNode ?_ ?_ ?_, fun j => ?_⟩
      · dsimp only
        rw [Option.map_some, Option.getD_some, List.length_append, List.length_drop]
        omega
      · exact fun _ => hcap'
      · exact fun _ => hle
      · rw [contents_setNode]
        dsimp only
        rw [Option.map_some, Option.getD_some, List.take_left]

/-- **A successful append extends the contents** of its file and of no other. -/
theorem Buffers.extendFile (h : fs.Buffers) {i : Fin 64} {data : List UInt8}
    (hi : (fs.nodes i).active = true) (hdata : data.length ≤ ramfsMaxData)
    (hok : 0 ≤ (fs.extendFile a i data).1) :
    (fs.extendFile a i data).2.Buffers ∧
      ∀ j, (fs.extendFile a i data).2.contents j =
        if j = i then (fs.contents i ++ data).take ramfsMaxData else fs.contents j := by
  have hmax := h.max i hi
  have hsize := h.size i hi
  have hcap := h.capacity i
  have hlen := h.length_contents hi
  have hbound : ramfsMaxData = 52428800 := rfl
  -- The sum does not wrap around.
  have hsum : ((fs.nodes i).size + data.length) % 2 ^ 32 = (fs.nodes i).size + data.length :=
    Nat.mod_eq_of_lt (by omega)
  have hadd : (min ((fs.nodes i).size + data.length) ramfsMaxData + 2 ^ 32 - (fs.nodes i).size)
      % 2 ^ 32 = min data.length (ramfsMaxData - (fs.nodes i).size) := by omega
  have hnew : ∀ rest : List UInt8,
      (fs.contents i ++ data.take (min data.length (ramfsMaxData - (fs.nodes i).size)) ++ rest).take
        (min ((fs.nodes i).size + data.length) ramfsMaxData) =
        (fs.contents i ++ data).take ramfsMaxData := by
    intro rest
    have hl : (fs.contents i ++
        data.take (min data.length (ramfsMaxData - (fs.nodes i).size))).length =
        min ((fs.nodes i).size + data.length) ramfsMaxData := by
      rw [List.length_append, hlen, List.length_take]
      omega
    rw [← hl, List.take_left, List.take_append, hlen,
      List.take_of_length_le (by omega : (fs.contents i).length ≤ ramfsMaxData)]
    congr 1
    rcases Nat.le_total data.length (ramfsMaxData - (fs.nodes i).size) with hd | hd
    · rw [Nat.min_eq_left hd, List.take_length, List.take_of_length_le hd]
    · rw [Nat.min_eq_right hd]
  unfold Ramfs.extendFile at hok ⊢
  dsimp only at hok ⊢
  rw [hsum, hadd] at hok ⊢
  change 0 ≤ (if _ then _ else if _ then _ else _ : ℤ × Ramfs).1 at hok
  split_ifs at hok ⊢ with htype hgrow
  · exact absurd hok (by decide : ¬ (0 : ℤ) ≤ -1)
  · cases hk : a.kmalloc (min ((fs.nodes i).size + data.length) ramfsMaxData) with
    | none =>
      rw [hk] at hok
      exact absurd hok (by decide : ¬ (0 : ℤ) ≤ -5)
    | some fresh =>
      have hfresh := a.length_eq _ _ hk
      refine ⟨h.setNode ?_ ?_ ?_, fun j => ?_⟩
      · dsimp only
        rw [Option.getD_some]
        simp only [List.length_append, List.length_drop, List.length_take, hfresh, hcap]
        omega
      · exact fun _ => Nat.le_refl _
      · exact fun _ => Nat.min_le_right _ _
      · rw [contents_setNode]
        dsimp only
        rw [Option.getD_some]
        congr 1
        exact hnew _
  · cases hd : (fs.nodes i).data with
    | none =>
      -- Without a buffer the capacity is zero, and there is nothing to append.
      rw [hd] at hcap
      have hzero : (fs.nodes i).capacity = 0 := hcap.symm
      have hnil : data = [] := List.eq_nil_of_length_eq_zero (by omega)
      refine ⟨h.setNode ?_ ?_ ?_, fun j => ?_⟩
      · exact hzero.symm
      · exact fun _ => Nat.not_lt.mp hgrow
      · exact fun _ => Nat.min_le_right _ _
      · have hempty : fs.contents i = [] := by
          unfold contents
          rw [hd]
          exact List.take_nil
        rw [contents_setNode, hnil, hempty]
        congr 1
        exact List.take_nil.trans List.take_nil.symm
    | some old =>
      rw [hd, Option.getD_some] at hcap
      have hold : (fs.contents i) = old.take (fs.nodes i).size := by
        unfold contents
        rw [hd, Option.getD_some]
      refine ⟨h.setNode ?_ ?_ ?_, fun j => ?_⟩
      · dsimp only
        rw [Option.map_some, Option.getD_some, Option.getD_some, List.length_append,
          List.length_append, List.length_drop, List.length_take, List.length_take]
        omega
      · exact fun _ => Nat.not_lt.mp hgrow
      · exact fun _ => Nat.min_le_right _ _
      · rw [contents_setNode]
        dsimp only
        rw [Option.map_some, Option.getD_some, Option.getD_some, ← hold]
        congr 1
        exact hnew _

/-- A new node is empty. -/
theorem Buffers.createNode (h : fs.Buffers) {path : List UInt8} {type : RamfsType} {i : Fin 64}
    (hc : fs.createNode path type = .ok (i, fs')) :
    fs'.Buffers ∧ ∀ j, fs'.contents j = if j = i then [] else fs.contents j := by
  obtain ⟨p, -, -, -, -, -, -, rfl⟩ := createNode_ok hc
  refine ⟨h.setNode rfl (fun _ => Nat.le_refl 0) (fun _ => Nat.zero_le _), fun j => ?_⟩
  rw [contents_setNode]
  rfl

/-! ## The reference -/

/-- What each file should hold. -/
abbrev Reference := Fin 64 → List UInt8

/-- The node that a write goes to: the one the path names, or a new one. -/
def target (fs : Ramfs) (path : List UInt8) : Option (Fin 64) :=
  match fs.find path with
  | some i => some i
  | none =>
    match fs.createNode path .file with
    | .ok (i, _) => some i
    | .error _ => none

/-- A write replaces what its file holds. -/
def Reference.write (ref : Reference) (i : Option (Fin 64)) (data : List UInt8) : Reference :=
  match i with
  | some i => Function.update ref i (data.take ramfsMaxData)
  | none => ref

/-- What the files should hold after a call: a write replaces, an append concatenates, both cut to
`RAMFS_MAX_DATA`; a new file is empty; deleting and renaming change nothing. -/
def Reference.step (fs : Ramfs) (ref : Reference) (s : RamfsStep) : Reference :=
  match s.call with
  | .create path type =>
    match fs.createNode path type with
    | .ok (i, _) => Function.update ref i []
    | .error _ => ref
  | .write path data => ref.write (fs.target path) data
  | .append path data =>
    match fs.find path with
    | some i => Function.update ref i ((ref i ++ data).take ramfsMaxData)
    | none => ref.write (fs.target path) data
  | .delete _ => ref
  | .rename _ _ => ref
  | .setCwd _ => ref

/-- The reference after a sequence of calls. -/
def referenceRun : Ramfs → Reference → List RamfsStep → Reference
  | _, ref, [] => ref
  | fs, ref, s :: steps => referenceRun (fs.exec s) (ref.step fs s) steps

/-- A successful call on plain paths that fit their arrays; an append has at most `RAMFS_MAX_DATA`
bytes. -/
def Succeeds (fs : Ramfs) (s : RamfsStep) : Prop :=
  match s.call with
  | .create path type =>
    fs.Plain path ∧ fs.PathFits path ∧ fs.NameFits path ∧
      0 ≤ (fs.createResult (fs.createNode path type)).1
  | .write path data =>
    fs.Plain path ∧ fs.PathFits path ∧ (fs.find path = none → fs.NameFits path) ∧
      0 ≤ (fs.writeNode s.allocator path data).1
  | .append path data =>
    fs.Plain path ∧ fs.PathFits path ∧ (fs.find path = none → fs.NameFits path) ∧
      data.length ≤ ramfsMaxData ∧
      match fs.find path with
      | some i => 0 ≤ (fs.extendFile s.allocator i data).1
      | none => 0 ≤ (fs.writeNode s.allocator path data).1
  | .delete path => fs.Plain path ∧ fs.PathFits path ∧ 0 ≤ (fs.deleteNode path).1
  | .rename oldPath newPath =>
    fs.Plain oldPath ∧ fs.Plain newPath ∧ fs.PathFits oldPath ∧ fs.PathFits newPath ∧
      fs.NameFits newPath ∧ 0 ≤ (fs.renameNode oldPath newPath).1
  | .setCwd path => fs.PathFits path

/-- Every call of a sequence succeeds, in the state it comes in. -/
def AllSucceed : Ramfs → List RamfsStep → Prop
  | _, [] => True
  | fs, s :: steps => fs.Succeeds s ∧ AllSucceed (fs.exec s) steps

/-- The invariant: every active file holds what it should. -/
structure Stores (fs : Ramfs) (ref : Reference) : Prop where
  linked : fs.Linked
  buffers : fs.Buffers
  contents : ∀ i, (fs.nodes i).active = true → (fs.nodes i).type = .file → fs.contents i = ref i

theorem stores_init : Ramfs.init.Stores fun _ => [] where
  linked := tree_init.toLinked
  buffers := buffers_init
  contents := by
    intro i hi _
    rw [active_init hi]
    rfl

/-- `ramfs_write` on the nodes stores the data. -/
theorem Stores.writeNode {ref : Reference} (h : fs.Stores ref) {path data : List UInt8}
    (hok : 0 ≤ (fs.writeNode a path data).1) :
    (fs.writeNode a path data).2.Stores (ref.write (fs.target path) data) := by
  have hlinked := h.linked.writeNode (a := a) path data
  unfold Ramfs.writeNode at hok hlinked ⊢
  unfold target
  cases hf : fs.find path with
  | some i =>
    rw [hf] at hok hlinked
    obtain ⟨hbuffers, hcontents⟩ := h.buffers.storeFile hok
    refine ⟨hlinked, hbuffers, ?_⟩
    intro j hj htype
    obtain ⟨hactive, -, hsame, -⟩ := @sameLinks_storeFile fs a i data j
    rw [hactive] at hj
    rw [hsame] at htype
    rw [hcontents j]
    unfold Reference.write
    dsimp only
    rw [Function.update_apply]
    split_ifs
    · rfl
    · exact h.contents j hj htype
  | none =>
    rw [hf] at hok hlinked
    dsimp only at hok hlinked ⊢
    cases hc : fs.createNode path .file with
    | error e =>
      rw [hc] at hok
      exact ⟨h.linked, h.buffers, h.contents⟩
    | ok r =>
      obtain ⟨i, fs'⟩ := r
      rw [hc] at hok hlinked
      dsimp only at hok hlinked ⊢
      obtain ⟨hb, hc'⟩ := h.buffers.createNode hc
      obtain ⟨hbuffers, hcontents⟩ := hb.storeFile hok
      refine ⟨hlinked, hbuffers, ?_⟩
      intro j hj htype
      obtain ⟨hactive, -, hsame, -⟩ := @sameLinks_storeFile fs' a i data j
      rw [hactive] at hj
      rw [hsame] at htype
      rw [hcontents j]
      unfold Reference.write
      dsimp only
      rw [Function.update_apply]
      split_ifs with hji
      · rfl
      · -- The other nodes are as they were before the creation.
        rw [hc' j, if_neg hji]
        obtain ⟨p, -, -, -, -, -, -, rfl⟩ := createNode_ok hc
        rw [setNode_of_ne _ hji] at hj htype
        exact h.contents j hj htype

/-- A plain write is served from the nodes. -/
theorem Plain.write {path data : List UInt8} (h : fs.Plain path) :
    (fs.write m a path data).after fs = (fs.writeNode a path data).2 := by
  unfold Ramfs.write
  rw [h.matchDiskContent]
  rfl

/-- **A successful call keeps every file as it should be.** -/
theorem Stores.exec {ref : Reference} (h : fs.Stores ref) {s : RamfsStep} (hs : fs.Succeeds s) :
    (fs.exec s).Stores (ref.step fs s) := by
  have hlinked := h.linked.exec s
  obtain ⟨m, a, call⟩ := s
  cases call with
  | create path type =>
    obtain ⟨hplain, -, -, hok⟩ := hs
    cases hc : fs.createNode path type with
    | error e =>
      have hsame : fs.exec ⟨m, a, .create path type⟩ = fs := by
        unfold Ramfs.exec create
        dsimp only
        rw [hc, hplain.matchDiskContent]
        cases type <;> rfl
      unfold Reference.step
      dsimp only
      rw [hsame, hc]
      exact h
    | ok r =>
      obtain ⟨i, fs'⟩ := r
      have hsame : fs.exec ⟨m, a, .create path type⟩ = fs' := by
        unfold Ramfs.exec create
        dsimp only
        rw [hc, hplain.matchDiskContent]
        cases type <;> rfl
      rw [hsame] at hlinked ⊢
      unfold Reference.step
      dsimp only
      rw [hc]
      obtain ⟨hbuffers, hcontents⟩ := h.buffers.createNode hc
      refine ⟨hlinked, hbuffers, ?_⟩
      intro j hj htype
      dsimp only
      rw [hcontents j, Function.update_apply]
      split_ifs with hji
      · rfl
      · obtain ⟨p, -, -, -, -, -, -, rfl⟩ := createNode_ok hc
        rw [setNode_of_ne _ hji] at hj htype
        exact h.contents j hj htype
  | write path data =>
    obtain ⟨hplain, -, -, hok⟩ := hs
    have hstores := h.writeNode hok
    rw [← hplain.write (m := m)] at hstores
    exact hstores
  | append path data =>
    obtain ⟨hplain, -, -, hdata, hok⟩ := hs
    unfold Ramfs.exec Ramfs.append at hlinked ⊢
    unfold Reference.step
    dsimp only at hok hlinked ⊢
    cases hf : fs.find path with
    | none =>
      rw [hf] at hok
      have hstores := h.writeNode hok
      rw [← hplain.write (m := m)] at hstores
      exact hstores
    | some i =>
      rw [hf] at hok hlinked
      dsimp only at hok hlinked ⊢
      have hi := h.linked.find_active hf
      obtain ⟨hbuffers, hcontents⟩ := h.buffers.extendFile hi hdata hok
      refine ⟨hlinked, hbuffers, ?_⟩
      intro j hj htype
      obtain ⟨hactive, -, hsame, -⟩ := @sameLinks_extendFile fs a i data j
      have hj' : (fs.nodes j).active = true := hactive.symm.trans hj
      have htype' : (fs.nodes j).type = .file := hsame.symm.trans htype
      refine (hcontents j).trans ?_
      rw [Function.update_apply]
      split_ifs with hji
      · subst hji
        rw [h.contents j hj' htype']
      · exact h.contents j hj' htype'
  | delete path =>
    obtain ⟨hplain, -, -⟩ := hs
    have hsame : fs.exec ⟨m, a, .delete path⟩ = (fs.deleteNode path).2 := by
      unfold Ramfs.exec delete
      dsimp only
      rw [hplain.matchDiskContent]
      rfl
    rw [hsame] at hlinked ⊢
    rcases @deleteNode_cases fs path with heq | ⟨i, -, -, -, heq⟩
    · rw [heq]
      exact h
    · rw [heq] at hlinked ⊢
      refine ⟨hlinked, h.buffers.setNode rfl nofun nofun, ?_⟩
      intro j hj htype
      obtain ⟨hji, hja⟩ := active_deleted hj
      rw [contents_setNode, if_neg hji]
      rw [setNode_of_ne _ hji] at htype
      exact h.contents j hja htype
  | rename oldPath newPath =>
    have hsame : fs.exec ⟨m, a, .rename oldPath newPath⟩ = (fs.renameNode oldPath newPath).2 := rfl
    rw [hsame] at hlinked ⊢
    rcases @renameNode_cases fs oldPath newPath with heq | ⟨src, q, -, heq⟩
    · rw [heq]
      exact h
    · rw [heq] at hlinked ⊢
      refine ⟨hlinked, h.buffers.setNode (h.buffers.capacity src) (h.buffers.size src)
        (h.buffers.max src), ?_⟩
      intro j hj htype
      rw [contents_setNode]
      by_cases hji : j = src
      · subst hji
        rw [setNode_same] at hj htype
        rw [if_pos rfl]
        exact h.contents j hj htype
      · rw [setNode_of_ne _ hji] at hj htype
        rw [if_neg hji]
        exact h.contents j hj htype
  | setCwd path =>
    have hnodes : (fs.exec ⟨m, a, .setCwd path⟩).nodes = fs.nodes := by
      unfold Ramfs.exec setCwd
      dsimp only
      split
      · split_ifs <;> rfl
      · rfl
    refine ⟨hlinked, ⟨?_, ?_, ?_⟩, ?_⟩
    · rw [hnodes]
      exact h.buffers.capacity
    · rw [hnodes]
      exact h.buffers.size
    · rw [hnodes]
      exact h.buffers.max
    · intro j hj htype
      unfold Ramfs.contents
      rw [hnodes] at hj htype ⊢
      exact h.contents j hj htype

/-- Every sequence of successful calls keeps every file as it should be. -/
theorem Stores.run {ref : Reference} {steps : List RamfsStep} (h : fs.Stores ref)
    (hs : fs.AllSucceed steps) : (fs.run steps).Stores (referenceRun fs ref steps) := by
  induction steps generalizing fs ref with
  | nil => exact h
  | cons s steps ih => exact ih (h.exec hs.1) hs.2

/-! ## Reading -/

/-- What the other file systems give for a read. -/
structure OtherReads where
  texts : ProcTexts
  fat16 : List UInt8 → ℕ → Option (List UInt8)
  ntfs : List UInt8 → ℕ → Option (List UInt8)

/-- `ramfs_read`: the bytes, or `none` for an error. -/
def readBytes (fs : Ramfs) (m : Mounts) (o : OtherReads) (path : List UInt8) (max : ℕ) :
    Option (List UInt8) :=
  match fs.read m path max with
  | .ramfs _ _ => fs.readNode path max
  | .procfs p => procfsRead o.texts p max
  | .fat16 p => o.fat16 p max
  | .ntfs p => o.ntfs p max
  | .nowhere => none

/-- **The content model**: after every sequence of successful calls on plain paths, `ramfs_read` of
a file gives what the file should hold, if the path does not begin with `/proc`. -/
theorem read_reference {steps : List RamfsStep} (h : AllSucceed Ramfs.init steps) (m : Mounts)
    (o : OtherReads) {path : List UInt8} {i : Fin 64} {max : ℕ}
    (hplain : (Ramfs.init.run steps).Plain path)
    (hproc : startsWith "/proc" ((Ramfs.init.run steps).resolvePath path) = false)
    (hfind : (Ramfs.init.run steps).find path = some i)
    (hfile : ((Ramfs.init.run steps).nodes i).type = .file)
    (hmax : (referenceRun Ramfs.init (fun _ => []) steps i).length ≤ max) :
    (Ramfs.init.run steps).readBytes m o path max =
      some (referenceRun Ramfs.init (fun _ => []) steps i) := by
  have hstores := stores_init.run h
  generalize Ramfs.init.run steps = fs at *
  generalize referenceRun Ramfs.init (fun _ => []) steps = ref at *
  have hactive := hstores.linked.find_active hfind
  have hcontents := hstores.contents i hactive hfile
  have hlen := hstores.buffers.length_contents hactive
  have hread : fs.read m path max = .ramfs (readResult (fs.readNode path max)) fs := by
    unfold Ramfs.read procfsIsVirtual
    dsimp only
    rw [hproc, if_neg Bool.false_ne_true, hplain.matchDisk]
    rfl
  unfold readBytes
  rw [hread]
  dsimp only
  unfold readNode
  rw [hfind, Option.bind_some, if_neg (not_not.mpr hfile)]
  rw [← hcontents] at hmax ⊢
  rw [hlen] at hmax
  rw [Nat.min_eq_left hmax]
  rfl

/-- Nothing is mounted and the heap has room. -/
def roomyStep (call : RamfsCall) : RamfsStep :=
  ⟨⟨none, none⟩, ⟨fun n => some (List.replicate n 0), Allocator.length_of_zeros⟩, call⟩

/-- What the other file systems give does not matter here. -/
def noOthers : OtherReads := ⟨fun _ => [], fun _ _ => none, fun _ _ => none⟩

/-- A file is written, extended and renamed. -/
def writeAppendRename : List RamfsStep :=
  [roomyStep (.write pathA [0x78]), roomyStep (.append pathA [0x79, 0x7A]),
    roomyStep (.rename pathA [0x2F, 0x62])]

/-- The renamed file holds both pieces. -/
theorem read_reference_renamed :
    AllSucceed Ramfs.init writeAppendRename ∧
      (Ramfs.init.run writeAppendRename).readBytes ⟨none, none⟩ noOthers [0x2F, 0x62] 16 =
        some [0x78, 0x79, 0x7A] := by
  have hall : AllSucceed Ramfs.init writeAppendRename := by
    refine ⟨⟨by with_unfolding_all decide, by decide, fun _ => by decide, by decide⟩,
      ⟨by with_unfolding_all decide, by decide, fun _ => by decide, by decide, ?_⟩,
      ⟨by with_unfolding_all decide, by with_unfolding_all decide, by decide, by decide,
        by decide, by with_unfolding_all decide⟩, trivial⟩
    have hfind : (Ramfs.init.exec (roomyStep (.write pathA [0x78]))).find pathA = some 1 := by
      with_unfolding_all decide
    rw [hfind]
    with_unfolding_all decide
  refine ⟨hall, ?_⟩
  have hread := @read_reference writeAppendRename hall ⟨none, none⟩ noOthers [0x2F, 0x62] 1 16
    (by with_unfolding_all decide) (by with_unfolding_all decide) (by with_unfolding_all decide) (by with_unfolding_all decide)
    (by with_unfolding_all decide)
  refine hread.trans ?_
  with_unfolding_all decide

/-- The path `/process`. -/
def pathProcess : List UInt8 := [0x2F, 0x70, 0x72, 0x6F, 0x63, 0x65, 0x73, 0x73]

/-- A file `/process` is written and is there, but `ramfs_read` asks procfs for it. -/
theorem process_not_read :
    let steps := [roomyStep (.write pathProcess [0x78])]
    AllSucceed Ramfs.init steps ∧ (Ramfs.init.run steps).Plain pathProcess ∧
      (Ramfs.init.run steps).find pathProcess = some 1 ∧
      ((Ramfs.init.run steps).nodes 1).type = .file ∧
      referenceRun Ramfs.init (fun _ => []) steps 1 = [0x78] ∧
      (Ramfs.init.run steps).readBytes ⟨none, none⟩ noOthers pathProcess 16 = none := by
  refine ⟨⟨⟨by with_unfolding_all decide, by decide, fun _ => by decide,
    by decide⟩, trivial⟩, ?_⟩
  with_unfolding_all decide

end Ramfs

end Microkernel

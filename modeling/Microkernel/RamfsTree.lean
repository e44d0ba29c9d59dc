/-
# The tree of the RAM file system

The nodes are slots of one array that know their parent.  Every operation keeps the nodes a tree
with unique names as long as no node is renamed to a place below itself, which `ramfs_rename`
does not check.
-/
import Microkernel.Ramfs
import Microkernel.LinkedChain

namespace Microkernel

namespace Ramfs

variable {fs fs' : Ramfs} {m : Mounts} {a : Allocator}

/-! ## The invariant -/

/-- `p` is the parent of `i`. -/
def ParentOf (fs : Ramfs) (i p : Fin 64) : Prop := (fs.nodes i).parent = some p

/-- Following parents from `i` reaches `p`. -/
def Below (fs : Ramfs) (i p : Fin 64) : Prop := Relation.ReflTransGen fs.ParentOf i p

/-- Node 0 is the root directory, and every other active node lies in an active directory. -/
structure Linked (fs : Ramfs) : Prop where
  root : (fs.nodes 0).active = true ∧ (fs.nodes 0).type = .dir ∧ (fs.nodes 0).parent = none
  parent : ∀ i, i ≠ 0 → (fs.nodes i).active = true → ∃ p, (fs.nodes i).parent = some p ∧
    (fs.nodes p).active = true ∧ (fs.nodes p).type = .dir

/-- The nodes are a tree with the root at node 0 and unique names in each directory. -/
structure Tree (fs : Ramfs) : Prop extends Linked fs where
  name : ∀ i, i ≠ 0 → (fs.nodes i).active = true →
    1 ≤ (fs.nodes i).name.length ∧ (fs.nodes i).name.length ≤ ramfsMaxName - 1
  reaches : ∀ i, (fs.nodes i).active = true → fs.Below i 0
  unique : ∀ i j p, (fs.nodes i).active = true → (fs.nodes j).active = true →
    (fs.nodes i).parent = some p → (fs.nodes j).parent = some p →
    (fs.nodes i).name = (fs.nodes j).name → i = j

/-- Only the root is active after `ramfs_init`. -/
theorem active_init {i : Fin 64} (h : (Ramfs.init.nodes i).active = true) : i = 0 := by
  by_contra hi
  unfold Ramfs.init at h
  dsimp only at h
  rw [if_neg hi] at h
  cases h

/-- The table of `ramfs_init` is a tree. -/
theorem tree_init : Ramfs.init.Tree where
  root := ⟨rfl, rfl, rfl⟩
  parent := fun i hi hactive => absurd (active_init hactive) hi
  name := fun i hi hactive => absurd (active_init hactive) hi
  reaches := by
    intro i hactive
    rw [active_init hactive]
    exact .refl
  unique := by
    intro i j p hi hj _ _ _
    rw [active_init hi, active_init hj]

/-! ## Looking up -/

@[simp] theorem setNode_same (i : Fin 64) (node : RamfsNode) : (fs.setNode i node).nodes i = node := by
  unfold setNode
  exact Function.update_self ..

theorem setNode_of_ne {i j : Fin 64} (node : RamfsNode) (h : j ≠ i) :
    (fs.setNode i node).nodes j = fs.nodes j := by
  unfold setNode
  exact Function.update_of_ne h ..

theorem child_some {dir i : Fin 64} {name : List UInt8} (h : fs.child dir name = some i) :
    (fs.nodes i).active = true ∧ (fs.nodes i).parent = some dir ∧ (fs.nodes i).name = name := by
  have hi := List.find?_some h
  simpa only [Bool.and_eq_true, beq_iff_eq, and_assoc] using hi

theorem child_none {dir i : Fin 64} {name : List UInt8} (h : fs.child dir name = none)
    (hactive : (fs.nodes i).active = true) (hparent : (fs.nodes i).parent = some dir) :
    (fs.nodes i).name ≠ name := by
  intro hname
  have hi := List.find?_eq_none.mp h i (List.mem_finRange i)
  rw [hactive, hparent, hname] at hi
  simp at hi

/-- A walk from an active node ends at one. -/
theorem Linked.walk_active (h : fs.Linked) {current i : Fin 64} {cs : List (List UInt8)}
    (hcurrent : (fs.nodes current).active = true) (hw : fs.walk current cs = some i) :
    (fs.nodes i).active = true := by
  induction cs generalizing current with
  | nil =>
    cases hw
    exact hcurrent
  | cons c cs ih =>
    unfold walk at hw
    split_ifs at hw
    · exact ih hcurrent hw
    · refine ih ?_ hw
      by_cases hzero : current = 0
      · rw [hzero, h.root.2.2]
        exact h.root.1
      · obtain ⟨p, hp, hactive, -⟩ := h.parent current hzero hcurrent
        rw [hp]
        exact hactive
    · obtain ⟨j, hj, hw⟩ := Option.bind_eq_some_iff.mp hw
      exact ih (child_some hj).1 hw

/-- `ramfs_find` finds active nodes only. -/
theorem Linked.find_active (h : fs.Linked) {path : List UInt8} {i : Fin 64}
    (hf : fs.find path = some i) : (fs.nodes i).active = true := by
  unfold find at hf
  dsimp only at hf
  split_ifs at hf
  · cases hf
    exact h.root.1
  · exact h.walk_active h.root.1 hf

/-- The directory that `parse_path` gives is active. -/
theorem Linked.parsePath_active (h : fs.Linked) {path : List UInt8} {p : Fin 64}
    (hp : (fs.parsePath path).1 = some p) : (fs.nodes p).active = true := by
  unfold parsePath at hp
  dsimp only at hp
  split_ifs at hp
  · cases hp
    exact h.root.1
  · exact h.find_active hp

theorem parsePath_name (path : List UInt8) :
    (fs.parsePath path).2 = Path.fileName (fs.resolvePath path) := by
  unfold parsePath
  dsimp only
  split_ifs <;> rfl

/-! ## What the operations do to the tree -/

/-- The same tree: only the contents of files may differ. -/
def SameLinks (fs fs' : Ramfs) : Prop := ∀ i, (fs'.nodes i).active = (fs.nodes i).active ∧
  (fs'.nodes i).name = (fs.nodes i).name ∧ (fs'.nodes i).type = (fs.nodes i).type ∧
  (fs'.nodes i).parent = (fs.nodes i).parent

theorem SameLinks.linked (hs : fs.SameLinks fs') (h : fs.Linked) : fs'.Linked where
  root := by
    obtain ⟨hactive, -, htype, hparent⟩ := hs 0
    rw [hactive, htype, hparent]
    exact h.root
  parent := by
    intro i hi hactive
    rw [(hs i).1] at hactive
    obtain ⟨p, hp, hpactive, htype⟩ := h.parent i hi hactive
    refine ⟨p, ?_, ?_, ?_⟩
    · rw [(hs i).2.2.2, hp]
    · rw [(hs p).1, hpactive]
    · rw [(hs p).2.2.1, htype]

theorem SameLinks.tree (hs : fs.SameLinks fs') (h : fs.Tree) : fs'.Tree where
  toLinked := hs.linked h.toLinked
  name := by
    intro i hi hactive
    rw [(hs i).1] at hactive
    rw [(hs i).2.1]
    exact h.name i hi hactive
  reaches := by
    intro i hactive
    rw [(hs i).1] at hactive
    have hrel : fs'.ParentOf = fs.ParentOf := by
      funext j p
      unfold ParentOf
      rw [(hs j).2.2.2]
    unfold Below
    rw [hrel]
    exact h.reaches i hactive
  unique := by
    intro i j p hi hj hip hjp hname
    rw [(hs i).1] at hi
    rw [(hs j).1] at hj
    rw [(hs i).2.2.2] at hip
    rw [(hs j).2.2.2] at hjp
    rw [(hs i).2.1, (hs j).2.1] at hname
    exact h.unique i j p hi hj hip hjp hname

theorem SameLinks.refl (fs : Ramfs) : fs.SameLinks fs := fun _ => ⟨rfl, rfl, rfl, rfl⟩

theorem sameLinks_setNode {i : Fin 64} {node : RamfsNode}
    (hactive : node.active = (fs.nodes i).active) (hname : node.name = (fs.nodes i).name)
    (htype : node.type = (fs.nodes i).type) (hparent : node.parent = (fs.nodes i).parent) :
    fs.SameLinks (fs.setNode i node) := by
  intro j
  by_cases hj : j = i
  · subst hj
    rw [setNode_same]
    exact ⟨hactive, hname, htype, hparent⟩
  · rw [setNode_of_ne _ hj]
    exact ⟨rfl, rfl, rfl, rfl⟩

/-- Storing data changes no link. -/
theorem sameLinks_storeFile (i : Fin 64) (data : List UInt8) :
    fs.SameLinks (fs.storeFile a i data).2 := by
  unfold storeFile
  dsimp only
  split_ifs
  · exact SameLinks.refl fs
  · cases a.kmalloc (data.take ramfsMaxData).length with
    | none => exact sameLinks_setNode rfl rfl rfl rfl
    | some _ => exact sameLinks_setNode rfl rfl rfl rfl
  · exact sameLinks_setNode rfl rfl rfl rfl

theorem sameLinks_extendFile (i : Fin 64) (data : List UInt8) :
    fs.SameLinks (fs.extendFile a i data).2 := by
  unfold extendFile
  dsimp only
  split_ifs
  · exact SameLinks.refl fs
  · split
    · exact SameLinks.refl fs
    · exact sameLinks_setNode rfl rfl rfl rfl
  · exact sameLinks_setNode rfl rfl rfl rfl

/-- What a successful creation does. -/
theorem createNode_ok {path : List UInt8} {type : RamfsType} {i : Fin 64}
    (h : fs.createNode path type = .ok (i, fs')) :
    ∃ p, (fs.parsePath path).1 = some p ∧ (fs.parsePath path).2 ≠ [] ∧
      (fs.nodes p).type = .dir ∧ fs.child p (fs.parsePath path).2 = none ∧ i ≠ 0 ∧
      (fs.nodes i).active = false ∧
      fs' = fs.setNode i ⟨true, (fs.parsePath path).2, type, none, 0, 0, some p⟩ := by
  unfold createNode at h
  dsimp only at h
  cases hp : (fs.parsePath path).1 with
  | none =>
    rw [hp] at h
    cases h
  | some p =>
    rw [hp] at h
    dsimp only at h
    split_ifs at h with hname htype hchild
    cases hfree : fs.freeNode with
    | none =>
      rw [hfree] at h
      cases h
    | some j =>
      rw [hfree] at h
      cases h
      have hj := List.find?_some hfree
      rw [Bool.and_eq_true, bne_iff_ne, Bool.not_eq_true'] at hj
      refine ⟨p, rfl, hname, not_not.mp htype, ?_, hj.1, hj.2, rfl⟩
      exact Option.not_isSome_iff_eq_none.mp hchild

/-- The way up from an active node leads over active nodes. -/
theorem Linked.below_active (h : fs.Linked) {i p : Fin 64} (hi : (fs.nodes i).active = true)
    (hp : fs.Below i p) : (fs.nodes p).active = true := by
  unfold Below at hp
  induction hp with
  | refl => exact hi
  | @tail j k _ hjk ih =>
    by_cases hj : j = 0
    · unfold ParentOf at hjk
      rw [hj, h.root.2.2] at hjk
      cases hjk
    · obtain ⟨k', hk', hactive, -⟩ := h.parent j hj ih
      obtain rfl : k = k' := Option.some.inj (hjk.symm.trans hk')
      exact hactive

/-- A node that is put under an active directory keeps the links. -/
theorem Linked.place (h : fs.Linked) {i p : Fin 64} {node : RamfsNode} (hi : i ≠ 0)
    (hactive : node.active = true) (hparent : node.parent = some p)
    (hp : (fs.nodes p).active = true) (hdir : (fs.nodes p).type = .dir)
    (hself : p = i → node.type = .dir)
    (htype : ∀ j, (fs.nodes j).active = true → (fs.nodes j).parent = some i → node.type = .dir) :
    (fs.setNode i node).Linked := by
  constructor
  · rw [setNode_of_ne _ hi.symm]
    exact h.root
  · intro j hj hja
    by_cases hji : j = i
    · subst hji
      rw [setNode_same]
      refine ⟨p, hparent, ?_⟩
      by_cases hpj : p = j
      · subst hpj
        rw [setNode_same]
        exact ⟨hactive, hself rfl⟩
      · rw [setNode_of_ne _ hpj]
        exact ⟨hp, hdir⟩
    · rw [setNode_of_ne _ hji] at hja ⊢
      obtain ⟨q, hq, hqa, hqt⟩ := h.parent j hj hja
      refine ⟨q, hq, ?_⟩
      by_cases hqi : q = i
      · subst hqi
        rw [setNode_same]
        exact ⟨hactive, htype j hja hq⟩
      · rw [setNode_of_ne _ hqi]
        exact ⟨hqa, hqt⟩

/-- It keeps the tree if the name is free there and the directory is not below the node. -/
theorem Tree.place (h : fs.Tree) {i p : Fin 64} {node : RamfsNode} (hi : i ≠ 0)
    (hactive : node.active = true)
    (hlen : 1 ≤ node.name.length ∧ node.name.length ≤ ramfsMaxName - 1)
    (hparent : node.parent = some p) (hp : (fs.nodes p).active = true)
    (hdir : (fs.nodes p).type = .dir) (hbelow : ¬ fs.Below p i)
    (hchild : fs.child p node.name = none)
    (htype : ∀ j, (fs.nodes j).active = true → (fs.nodes j).parent = some i → node.type = .dir) :
    (fs.setNode i node).Tree := by
  have hpi : p ≠ i := by
    rintro rfl
    exact hbelow .refl
  have hmove : ∀ j, fs.Below j 0 → (fs.setNode i node).Below j 0 := by
    intro j hj
    refine @Relation.reflTransGen_move _ (fun j => (fs.nodes j).parent)
      (fun j => ((fs.setNode i node).nodes j).parent) i p 0 j ?_ ?_ (h.reaches p hp) hbelow hj
    · intro k hk
      rw [setNode_of_ne _ hk]
    · rw [setNode_same, hparent]
  -- A pair with the new node would contradict that its name was free.
  have hother : ∀ j q, (fs.nodes j).active = true → (fs.nodes j).parent = some q →
      node.parent = some q → (fs.nodes j).name ≠ node.name := by
    intro j q hja hjq hq
    obtain rfl : p = q := Option.some.inj (hparent.symm.trans hq)
    exact child_none hchild hja hjq
  refine ⟨h.toLinked.place hi hactive hparent hp hdir (fun hpi' => absurd hpi' hpi) htype,
    ?_, ?_, ?_⟩
  · intro j hj hja
    by_cases hji : j = i
    · subst hji
      rw [setNode_same]
      exact hlen
    · rw [setNode_of_ne _ hji] at hja ⊢
      exact h.name j hj hja
  · intro j hja
    by_cases hji : j = i
    · subst hji
      refine .head ?_ (hmove p (h.reaches p hp))
      unfold ParentOf
      rw [setNode_same]
      exact hparent
    · rw [setNode_of_ne _ hji] at hja
      exact hmove j (h.reaches j hja)
  · intro j k q hja hka hjq hkq hsame
    by_cases hji : j = i
    · by_cases hki : k = i
      · rw [hji, hki]
      · rw [hji, setNode_same] at hjq hsame
        rw [setNode_of_ne _ hki] at hka hkq hsame
        exact absurd hsame.symm (hother k q hka hkq hjq)
    · rw [setNode_of_ne _ hji] at hja hjq hsame
      by_cases hki : k = i
      · rw [hki, setNode_same] at hkq hsame
        exact absurd hsame (hother j q hja hjq hkq)
      · rw [setNode_of_ne _ hki] at hka hkq hsame
        exact h.unique j k q hja hka hjq hkq hsame

/-- A slot that is not in use is nobody's parent. -/
theorem Linked.parent_ne_of_free (h : fs.Linked) {i j : Fin 64} (hi : (fs.nodes i).active = false)
    (hj : (fs.nodes j).active = true) : (fs.nodes j).parent ≠ some i := by
  intro hji
  have := h.below_active hj (.single hji)
  rw [hi] at this
  cases this

/-- `ramfs_create` keeps the links. -/
theorem Linked.createNode (h : fs.Linked) {path : List UInt8} {type : RamfsType} {i : Fin 64}
    (hc : fs.createNode path type = .ok (i, fs')) : fs'.Linked := by
  obtain ⟨p, hp, -, htype, -, hi, hfree, rfl⟩ := createNode_ok hc
  have hpactive := h.parsePath_active hp
  refine h.place hi rfl rfl hpactive htype ?_ ?_
  · rintro rfl
    rw [hfree] at hpactive
    cases hpactive
  · intro j hj hji
    exact absurd hji (h.parent_ne_of_free hfree hj)

/-- `ramfs_create` keeps the tree. -/
theorem Tree.createNode (h : fs.Tree) {path : List UInt8} {type : RamfsType} {i : Fin 64}
    (hlen : (Path.fileName (fs.resolvePath path)).length ≤ ramfsMaxName - 1)
    (hc : fs.createNode path type = .ok (i, fs')) : fs'.Tree := by
  obtain ⟨p, hp, hname, htype, hchild, hi, hfree, rfl⟩ := createNode_ok hc
  have hpactive := h.parsePath_active hp
  rw [← parsePath_name] at hlen
  refine h.place hi rfl ⟨List.length_pos_iff.mpr hname, hlen⟩ rfl hpactive htype ?_ hchild ?_
  · intro hbelow
    have := h.below_active hpactive hbelow
    rw [hfree] at this
    cases this
  · intro j hj hji
    exact absurd hji (h.parent_ne_of_free hfree hj)

/-- `ramfs_write` keeps the links. -/
theorem Linked.writeNode (h : fs.Linked) (path data : List UInt8) :
    (fs.writeNode a path data).2.Linked := by
  unfold Ramfs.writeNode
  cases fs.find path with
  | some i => exact (sameLinks_storeFile i data).linked h
  | none =>
    dsimp only
    cases hc : fs.createNode path .file with
    | error e => exact h
    | ok r =>
      obtain ⟨i, fs'⟩ := r
      exact (sameLinks_storeFile i data).linked (h.createNode hc)

/-- `ramfs_write` keeps the tree. -/
theorem Tree.writeNode (h : fs.Tree) {path data : List UInt8}
    (hlen : fs.find path = none →
      (Path.fileName (fs.resolvePath path)).length ≤ ramfsMaxName - 1) :
    (fs.writeNode a path data).2.Tree := by
  unfold Ramfs.writeNode
  cases hf : fs.find path with
  | some i => exact (sameLinks_storeFile i data).tree h
  | none =>
    dsimp only
    cases hc : fs.createNode path .file with
    | error e => exact h
    | ok r =>
      obtain ⟨i, fs'⟩ := r
      exact (sameLinks_storeFile i data).tree (h.createNode (hlen hf) hc)

/-- `ramfs_delete` deletes a node that has no children, or does nothing. -/
theorem deleteNode_cases (path : List UInt8) :
    (fs.deleteNode path).2 = fs ∨
    ∃ i, i ≠ 0 ∧ fs.find path = some i ∧
      ((fs.nodes i).type = .dir → ∀ j, (fs.nodes j).active = true →
        (fs.nodes j).parent ≠ some i) ∧
      (fs.deleteNode path).2 = fs.setNode i
        { fs.nodes i with data := none, capacity := 0, active := false } := by
  unfold deleteNode
  cases hf : fs.find path with
  | none => exact Or.inl rfl
  | some i =>
    dsimp only
    split_ifs with hi hdir
    · exact Or.inl rfl
    · exact Or.inl rfl
    · refine Or.inr ⟨i, hi, rfl, ?_, rfl⟩
      intro htype j hj hji
      refine hdir ⟨htype, List.any_eq_true.mpr ⟨j, List.mem_finRange j, ?_⟩⟩
      rw [hj, hji]
      simp

/-- No active node lies in a node that may be deleted: a file has no children. -/
theorem Linked.leaf (h : fs.Linked) {i : Fin 64}
    (hdir : (fs.nodes i).type = .dir → ∀ j, (fs.nodes j).active = true →
      (fs.nodes j).parent ≠ some i) {j : Fin 64} (hj : (fs.nodes j).active = true) :
    (fs.nodes j).parent ≠ some i := by
  intro hji
  by_cases hj0 : j = 0
  · rw [hj0, h.root.2.2] at hji
    cases hji
  · obtain ⟨q, hq, -, hqt⟩ := h.parent j hj0 hj
    obtain rfl : i = q := Option.some.inj (hji.symm.trans hq)
    exact hdir hqt j hj hji

/-- The active nodes after a deletion. -/
theorem active_deleted {i j : Fin 64}
    (h : ((fs.setNode i { fs.nodes i with data := none, capacity := 0, active := false }).nodes
      j).active = true) : j ≠ i ∧ (fs.nodes j).active = true := by
  by_cases hji : j = i
  · rw [hji, setNode_same] at h
    cases h
  · rw [setNode_of_ne _ hji] at h
    exact ⟨hji, h⟩

/-- `ramfs_delete` keeps the links. -/
theorem Linked.deleteNode (h : fs.Linked) (path : List UInt8) : (fs.deleteNode path).2.Linked := by
  rcases @deleteNode_cases fs path with heq | ⟨i, hi, -, hdir, heq⟩
  · rw [heq]
    exact h
  rw [heq]
  constructor
  · rw [setNode_of_ne _ hi.symm]
    exact h.root
  · intro j hj hjn
    obtain ⟨hji, hja⟩ := active_deleted hjn
    obtain ⟨q, hq, hqa, hqt⟩ := h.parent j hj hja
    have hqi : q ≠ i := by
      rintro rfl
      exact h.leaf hdir hja hq
    exact ⟨q, by rw [setNode_of_ne _ hji, hq], by rw [setNode_of_ne _ hqi, hqa],
      by rw [setNode_of_ne _ hqi, hqt]⟩

/-- `ramfs_delete` keeps the tree. -/
theorem Tree.deleteNode (h : fs.Tree) (path : List UInt8) : (fs.deleteNode path).2.Tree := by
  have hlinked := h.toLinked.deleteNode path
  rcases @deleteNode_cases fs path with heq | ⟨i, hi, -, hdir, heq⟩
  · rw [heq]
    exact h
  rw [heq] at hlinked ⊢
  refine ⟨hlinked, ?_, ?_, ?_⟩
  · intro j hj hjn
    obtain ⟨hji, hja⟩ := active_deleted hjn
    rw [setNode_of_ne _ hji]
    exact h.name j hj hja
  · intro j hjn
    obtain ⟨hji, hja⟩ := active_deleted hjn
    clear hjn
    have hway := h.reaches j hja
    unfold Below at hway ⊢
    induction hway using Relation.ReflTransGen.head_induction_on with
    | refl => exact .refl
    | @head j k hjk _ ih =>
      have hka := h.below_active hja (.single hjk)
      have hki : k ≠ i := by
        rintro rfl
        exact h.leaf hdir hja hjk
      refine .head ?_ (ih hki hka)
      unfold ParentOf
      rw [setNode_of_ne _ hji]
      exact hjk
  · intro j k q hjn hkn hjq hkq hsame
    obtain ⟨hji, hja⟩ := active_deleted hjn
    obtain ⟨hki, hka⟩ := active_deleted hkn
    rw [setNode_of_ne _ hji] at hjq hsame
    rw [setNode_of_ne _ hki] at hkq hsame
    exact h.unique j k q hja hka hjq hkq hsame

/-- What `ramfs_rename` checks before it moves a node. -/
def Renames (fs : Ramfs) (oldPath newPath : List UInt8) (src newParent : Fin 64) : Prop :=
  fs.find oldPath = some src ∧ src ≠ 0 ∧ (fs.parsePath newPath).1 = some newParent ∧
    (fs.parsePath newPath).2 ≠ [] ∧ (fs.nodes newParent).type = .dir ∧
    fs.child newParent (fs.parsePath newPath).2 = none

/-- `ramfs_rename` moves a node or does nothing. -/
theorem renameNode_cases (oldPath newPath : List UInt8) :
    (fs.renameNode oldPath newPath).2 = fs ∨
    ∃ src newParent, fs.Renames oldPath newPath src newParent ∧
      (fs.renameNode oldPath newPath).2 = fs.setNode src
        { fs.nodes src with
          name := (fs.parsePath newPath).2.take (ramfsMaxName - 1), parent := some newParent } := by
  unfold renameNode
  cases hf : fs.find oldPath with
  | none => exact Or.inl rfl
  | some src =>
    dsimp only
    by_cases hsrc : src = 0
    · rw [if_pos hsrc]
      exact Or.inl rfl
    rw [if_neg hsrc]
    cases hp : (fs.parsePath newPath).1 with
    | none => exact Or.inl rfl
    | some p =>
      dsimp only
      split_ifs with hname htype hchild
      · exact Or.inl rfl
      · exact Or.inl rfl
      · exact Or.inl rfl
      · refine Or.inr ⟨src, p, ⟨hf, hsrc, hp, hname, not_not.mp htype, ?_⟩, rfl⟩
        exact Option.not_isSome_iff_eq_none.mp hchild

/-- A node that has children is a directory. -/
theorem Linked.isDir_of_child (h : fs.Linked) {i j : Fin 64} (hj : (fs.nodes j).active = true)
    (hji : (fs.nodes j).parent = some i) : (fs.nodes i).type = .dir := by
  by_contra htype
  exact h.leaf (fun hdir => absurd hdir htype) hj hji

/-- `ramfs_rename` keeps the links. -/
theorem Linked.renameNode (h : fs.Linked) (oldPath newPath : List UInt8) :
    (fs.renameNode oldPath newPath).2.Linked := by
  rcases @renameNode_cases fs oldPath newPath with heq | ⟨src, q, hr, heq⟩
  · rw [heq]
    exact h
  · rw [heq]
    obtain ⟨hf, hsrc, hp, -, htype, -⟩ := hr
    refine h.place hsrc (h.find_active hf) rfl (h.parsePath_active hp) htype ?_ ?_
    · rintro rfl
      exact htype
    · exact fun j hj hjs => h.isDir_of_child hj hjs

/-- `ramfs_rename` keeps the tree if the new place is not below the node. -/
theorem Tree.renameNode (h : fs.Tree) {oldPath newPath : List UInt8}
    (hlen : (Path.fileName (fs.resolvePath newPath)).length ≤ ramfsMaxName - 1)
    (hbelow : ∀ src q, fs.Renames oldPath newPath src q → ¬ fs.Below q src) :
    (fs.renameNode oldPath newPath).2.Tree := by
  rcases @renameNode_cases fs oldPath newPath with heq | ⟨src, q, hr, heq⟩
  · rw [heq]
    exact h
  · rw [heq]
    have hnb := hbelow src q hr
    obtain ⟨hf, hsrc, hp, hname, htype, hchild⟩ := hr
    rw [← parsePath_name] at hlen
    have htake : (fs.parsePath newPath).2.take (ramfsMaxName - 1) = (fs.parsePath newPath).2 :=
      List.take_of_length_le hlen
    rw [htake]
    exact h.place hsrc (h.find_active hf) ⟨List.length_pos_iff.mpr hname, hlen⟩ rfl
      (h.parsePath_active hp) htype hnb hchild fun j hj hjs => h.isDir_of_child hj hjs

end Ramfs

/-! ## Runs -/

/-- The nodes after a request that came when they were `fs`. -/
def Served.after (fs : Ramfs) : Served → Ramfs
  | .ramfs _ fs' => fs'
  | _ => fs

/-- The request was served from the nodes. -/
def Served.isRamfs : Served → Bool
  | .ramfs _ _ => true
  | _ => false

/-- The calls that change the file system. -/
inductive RamfsCall
  | create (path : List UInt8) (type : RamfsType)
  | write (path data : List UInt8)
  | append (path data : List UInt8)
  | delete (path : List UInt8)
  | rename (oldPath newPath : List UInt8)
  | setCwd (path : List UInt8)

/-- A call, with what is mounted and what the heap gives at the time. -/
structure RamfsStep where
  mounts : Mounts
  allocator : Allocator
  call : RamfsCall

namespace Ramfs

variable {fs fs' : Ramfs} {m : Mounts} {a : Allocator}

/-- The file system after a call. -/
def exec (fs : Ramfs) (s : RamfsStep) : Ramfs :=
  match s.call with
  | .create path type => (fs.create s.mounts path type).after fs
  | .write path data => (fs.write s.mounts s.allocator path data).after fs
  | .append path data => (fs.append s.mounts s.allocator path data).after fs
  | .delete path => (fs.delete s.mounts path).after fs
  | .rename oldPath newPath => (fs.renameNode oldPath newPath).2
  | .setCwd path => fs.setCwd path

/-- The file system after a sequence of calls. -/
def run (fs : Ramfs) (steps : List RamfsStep) : Ramfs := steps.foldl exec fs

/-- The path fits the arrays `resolved`, `output` and `cwd`. -/
def PathFits (fs : Ramfs) (path : List UInt8) : Prop :=
  (fs.absolutePath path).length ≤ ramfsMaxPath - 1

/-- The last component fits the arrays `filename`, `new_name` and `name`. -/
def NameFits (fs : Ramfs) (path : List UInt8) : Prop :=
  (Path.fileName (fs.resolvePath path)).length ≤ ramfsMaxName - 1

instance (fs : Ramfs) (path : List UInt8) : Decidable (fs.PathFits path) :=
  inferInstanceAs (Decidable (_ ≤ _))

instance (fs : Ramfs) (path : List UInt8) : Decidable (fs.NameFits path) :=
  inferInstanceAs (Decidable (_ ≤ _))

/-- The calls that keep the tree: paths and new names fit their arrays, and no node is moved
below itself. -/
def KeepsTree (fs : Ramfs) (s : RamfsStep) : Prop :=
  match s.call with
  | .create path type =>
    fs.PathFits path ∧ ((fs.create s.mounts path type).isRamfs = true → fs.NameFits path)
  | .write path data =>
    fs.PathFits path ∧
      ((fs.write s.mounts s.allocator path data).isRamfs = true → fs.find path = none →
        fs.NameFits path)
  | .append path data =>
    fs.PathFits path ∧
      ((fs.append s.mounts s.allocator path data).isRamfs = true → fs.find path = none →
        fs.NameFits path)
  | .delete path => fs.PathFits path
  | .rename oldPath newPath =>
    fs.PathFits oldPath ∧ fs.PathFits newPath ∧ fs.NameFits newPath ∧
      ∀ src q, fs.Renames oldPath newPath src q → ¬ fs.Below q src
  | .setCwd path => fs.PathFits path

/-- Every call of a sequence keeps the tree, in the state it comes in. -/
def AllKeepTree : Ramfs → List RamfsStep → Prop
  | _, [] => True
  | fs, s :: steps => fs.KeepsTree s ∧ AllKeepTree (fs.exec s) steps

/-- A request that may go to a disk is served there or from the nodes. -/
theorem onDisk_cases (m : Mounts) (target : Option (ℕ × List UInt8)) (otherwise : Served) :
    onDisk m target otherwise = otherwise ∨
      ∃ path, onDisk m target otherwise = .fat16 path ∨ onDisk m target otherwise = .ntfs path := by
  unfold onDisk
  cases target with
  | none => exact Or.inl rfl
  | some t =>
    dsimp only
    split_ifs
    · exact Or.inr ⟨t.2, Or.inl rfl⟩
    · exact Or.inr ⟨t.2, Or.inr rfl⟩
    · exact Or.inl rfl

/-- What holds of the nodes before and after a request was served from them holds after it. -/
theorem after_onDisk {P : Ramfs → Prop} (m : Mounts) (target : Option (ℕ × List UInt8)) (r : ℤ)
    (h : P fs) (h' : onDisk m target (.ramfs r fs') = .ramfs r fs' → P fs') :
    P ((onDisk m target (.ramfs r fs')).after fs) := by
  rcases onDisk_cases m target (.ramfs r fs') with heq | ⟨rel, heq | heq⟩
  · rw [heq]
    exact h' heq
  · rw [heq]
    exact h
  · rw [heq]
    exact h

/-- Every call keeps the links. -/
theorem Linked.exec (h : fs.Linked) (s : RamfsStep) : (fs.exec s).Linked := by
  obtain ⟨m, a, call⟩ := s
  have hwrite : ∀ path data, ((fs.write m a path data).after fs).Linked := fun path data =>
    after_onDisk m _ _ h fun _ => h.writeNode path data
  unfold Ramfs.exec
  cases call with
  | create path type =>
    have hnodes : (fs.createResult (fs.createNode path type)).2.Linked := by
      cases hc : fs.createNode path type with
      | error e => exact h
      | ok r =>
        obtain ⟨i, fs'⟩ := r
        exact h.createNode hc
    cases type with
    | file => exact hnodes
    | dir => exact after_onDisk m _ _ h fun _ => hnodes
  | write path data => exact hwrite path data
  | append path data =>
    dsimp only
    unfold append
    cases fs.find path with
    | some i => exact (sameLinks_extendFile i data).linked h
    | none => exact hwrite path data
  | delete path => exact after_onDisk m _ _ h fun _ => h.deleteNode path
  | rename oldPath newPath => exact h.renameNode oldPath newPath
  | setCwd path =>
    dsimp only
    unfold setCwd
    dsimp only
    split
    · split_ifs
      · exact @SameLinks.linked fs _ (fun _ => ⟨rfl, rfl, rfl, rfl⟩) h
      · exact h
    · exact h

/-- `ramfs_write` keeps the tree. -/
theorem Tree.write (h : fs.Tree) {path data : List UInt8}
    (hlen : (fs.write m a path data).isRamfs = true → fs.find path = none → fs.NameFits path) :
    ((fs.write m a path data).after fs).Tree := by
  refine after_onDisk m _ _ h ?_
  intro hram
  refine h.writeNode (hlen ?_)
  unfold Ramfs.write
  rw [hram]
  rfl

/-- A call that meets the condition keeps the tree. -/
theorem Tree.exec (h : fs.Tree) {s : RamfsStep} (hs : fs.KeepsTree s) : (fs.exec s).Tree := by
  obtain ⟨m, a, call⟩ := s
  cases call with
  | create path type =>
    obtain ⟨-, hlen⟩ := hs
    have hnodes : fs.NameFits path → (fs.createResult (fs.createNode path type)).2.Tree := by
      intro hfits
      cases hc : fs.createNode path type with
      | error e => exact h
      | ok r =>
        obtain ⟨i, fs'⟩ := r
        exact h.createNode hfits hc
    dsimp only at hlen
    unfold create at hlen
    cases type with
    | file => exact hnodes (hlen rfl)
    | dir =>
      refine after_onDisk m _ _ h ?_
      intro hram
      dsimp only at hlen
      rw [hram] at hlen
      exact hnodes (hlen rfl)
  | write path data => exact h.write hs.2
  | append path data =>
    obtain ⟨-, hlen⟩ := hs
    unfold Ramfs.exec
    dsimp only at hlen ⊢
    unfold Ramfs.append at hlen ⊢
    cases hf : fs.find path with
    | some i => exact (sameLinks_extendFile i data).tree h
    | none =>
      rw [hf] at hlen
      dsimp only at hlen ⊢
      exact h.write fun hr hn => hlen hr rfl
  | delete path => exact after_onDisk m _ _ h fun _ => h.deleteNode path
  | rename oldPath newPath => exact h.renameNode hs.2.2.1 hs.2.2.2
  | setCwd path =>
    unfold Ramfs.exec
    dsimp only
    unfold setCwd
    dsimp only
    split
    · split_ifs
      · exact @SameLinks.tree fs _ (fun _ => ⟨rfl, rfl, rfl, rfl⟩) h
      · exact h
    · exact h

/-- **The tree invariant**: every sequence of calls from `ramfs_init` that meet the condition
leaves a tree. -/
theorem tree_run {steps : List RamfsStep} (h : AllKeepTree Ramfs.init steps) :
    (Ramfs.init.run steps).Tree := by
  suffices hall : ∀ fs : Ramfs, fs.Tree → AllKeepTree fs steps → (fs.run steps).Tree from
    hall _ tree_init h
  clear h
  induction steps with
  | nil => exact fun fs htree _ => htree
  | cons s steps ih =>
    intro fs htree hall
    exact ih (fs.exec s) (htree.exec hall.1) hall.2

/-! ## A directory below itself -/

/-- Nothing is mounted and the heap is empty. -/
def bareStep (call : RamfsCall) : RamfsStep := ⟨⟨none, none⟩, ⟨fun _ => none, Allocator.length_of_none⟩, call⟩

/-- The paths `/a`, `/a/b` and `/a/b/c`. -/
def pathA : List UInt8 := [0x2F, 0x61]

def pathAB : List UInt8 := [0x2F, 0x61, 0x2F, 0x62]

def pathABC : List UInt8 := [0x2F, 0x61, 0x2F, 0x62, 0x2F, 0x63]

/-- Two directories, then the inner one is moved up beside the outer one. -/
def moveUp : List RamfsStep :=
  [bareStep (.create pathA .dir), bareStep (.create pathAB .dir),
    bareStep (.rename pathAB [0x2F, 0x62])]

/-- Two directories, then the outer one is moved below the inner one. -/
def moveDown : List RamfsStep :=
  [bareStep (.create pathA .dir), bareStep (.create pathAB .dir),
    bareStep (.rename pathA pathABC)]

/-- The way up from the root is empty. -/
theorem below_root {p : Fin 64} (hroot : (fs.nodes 0).parent = none) (h : fs.Below 0 p) : p = 0 := by
  unfold Below at h
  rcases h.cases_head with rfl | ⟨q, hq, -⟩
  · rfl
  · unfold ParentOf at hq
    rw [hroot] at hq
    cases hq

/-- The run that moves up meets the condition. -/
theorem tree_run_moveUp : AllKeepTree Ramfs.init moveUp ∧ (Ramfs.init.run moveUp).Tree := by
  have hall : AllKeepTree Ramfs.init moveUp := by
    refine ⟨⟨by decide, fun _ => by decide⟩,
      ⟨by decide, fun _ => by decide⟩,
      ⟨by decide, by decide, by decide, ?_⟩, trivial⟩
    rintro src q ⟨hsrc, hne, hq, -⟩ hbelow
    have hzero : some q = some (0 : Fin 64) := hq.symm.trans (by decide)
    rw [Option.some.inj hzero] at hbelow
    exact hne (below_root (by with_unfolding_all decide) hbelow)
  exact ⟨hall, tree_run hall⟩

/-- `ramfs_rename` makes a cycle: afterwards node 1 does not reach the root. -/
theorem not_tree_moveDown : ¬ (Ramfs.init.run moveDown).Tree := by
  intro h
  have hone : ((Ramfs.init.run moveDown).nodes 1).parent = some 2 := by with_unfolding_all decide
  have htwo : ((Ramfs.init.run moveDown).nodes 2).parent = some 1 := by with_unfolding_all decide
  have hstay : ∀ j, (Ramfs.init.run moveDown).Below 1 j → j = 1 ∨ j = 2 := by
    intro j hj
    unfold Below at hj
    induction hj with
    | refl => exact Or.inl rfl
    | tail _ hjk ih =>
      unfold ParentOf at hjk
      rcases ih with rfl | rfl
      · rw [hone] at hjk
        exact Or.inr (Option.some.inj hjk).symm
      · rw [htwo] at hjk
        exact Or.inl (Option.some.inj hjk).symm
  have hreach := hstay 0 (h.reaches 1 (by with_unfolding_all decide))
  revert hreach
  decide

end Ramfs

end Microkernel

/-
# Create, then find

`ramfs_create` cuts the path at its last slash and looks the directory up; `ramfs_find` goes
through the path component by component.  `.` and `..` are special only for `ramfs_find`, and an
empty component is one only for it, so a node can be created under a name that is not found, or
although the path is found already.
-/
import Microkernel.RamfsTree

namespace Microkernel

namespace Ramfs

variable {fs fs' : Ramfs} {m : Mounts} {a : Allocator}

/-! ## Names and the working directory -/

/-- The nodes are linked, no name is empty, and the working directory is an absolute path. -/
structure Named (fs : Ramfs) : Prop extends Linked fs where
  name : ∀ i, i ≠ 0 → (fs.nodes i).active = true → (fs.nodes i).name ≠ []
  cwd : fs.cwd.head? = some slash

theorem named_init : Ramfs.init.Named where
  toLinked := tree_init.toLinked
  name := fun _ hi hactive => absurd (active_init hactive) hi
  cwd := rfl

theorem SameLinks.named (hs : fs.SameLinks fs') (hcwd : fs'.cwd = fs.cwd) (h : fs.Named) :
    fs'.Named where
  toLinked := hs.linked h.toLinked
  name := by
    intro i hi hactive
    rw [(hs i).1] at hactive
    rw [(hs i).2.1]
    exact h.name i hi hactive
  cwd := by
    rw [hcwd]
    exact h.cwd

/-- A node with a name, or a node that is deleted. -/
theorem Named.setNode (h : fs.Named) {i : Fin 64} {node : RamfsNode}
    (hlinked : (fs.setNode i node).Linked) (hname : node.active = true → node.name ≠ []) :
    (fs.setNode i node).Named where
  toLinked := hlinked
  name := by
    intro j hj hactive
    by_cases hji : j = i
    · subst hji
      rw [setNode_same] at hactive ⊢
      exact hname hactive
    · rw [setNode_of_ne _ hji] at hactive ⊢
      exact h.name j hj hactive
  cwd := h.cwd

theorem storeFile_cwd (i : Fin 64) (data : List UInt8) : (fs.storeFile a i data).2.cwd = fs.cwd := by
  unfold storeFile
  dsimp only
  split_ifs
  · rfl
  · cases a.kmalloc (data.take ramfsMaxData).length <;> rfl
  · rfl

theorem extendFile_cwd (i : Fin 64) (data : List UInt8) :
    (fs.extendFile a i data).2.cwd = fs.cwd := by
  unfold extendFile
  dsimp only
  split_ifs
  · rfl
  · split <;> rfl
  · rfl

theorem Named.createNode (h : fs.Named) {path : List UInt8} {type : RamfsType} {i : Fin 64}
    (hc : fs.createNode path type = .ok (i, fs')) : fs'.Named := by
  have hlinked := h.toLinked.createNode hc
  obtain ⟨p, _, hname, _, _, _, _, rfl⟩ := createNode_ok hc
  exact h.setNode hlinked fun _ => hname

theorem Named.writeNode (h : fs.Named) (path data : List UInt8) : (fs.writeNode a path data).2.Named := by
  unfold Ramfs.writeNode
  cases fs.find path with
  | some i => exact (sameLinks_storeFile i data).named (storeFile_cwd i data) h
  | none =>
    dsimp only
    cases hc : fs.createNode path .file with
    | error e => exact h
    | ok r =>
      obtain ⟨i, fs'⟩ := r
      exact (sameLinks_storeFile i data).named (storeFile_cwd i data) (h.createNode hc)

theorem Named.deleteNode (h : fs.Named) (path : List UInt8) : (fs.deleteNode path).2.Named := by
  have hlinked := h.toLinked.deleteNode path
  rcases @deleteNode_cases fs path with heq | ⟨i, _, _, _, heq⟩
  · rw [heq]
    exact h
  · rw [heq] at hlinked ⊢
    exact h.setNode hlinked nofun

theorem Named.renameNode (h : fs.Named) (oldPath newPath : List UInt8) :
    (fs.renameNode oldPath newPath).2.Named := by
  have hlinked := h.toLinked.renameNode oldPath newPath
  rcases @renameNode_cases fs oldPath newPath with heq | ⟨src, q, hr, heq⟩
  · rw [heq]
    exact h
  · rw [heq] at hlinked ⊢
    refine h.setNode hlinked fun _ hnil => ?_
    have hname : (fs.parsePath newPath).2 ≠ [] := hr.2.2.2.1
    rcases List.take_eq_nil_iff.mp hnil with hzero | hzero
    · exact absurd hzero (by decide)
    · exact hname hzero

/-- A resolved path is absolute. -/
theorem resolvePath_absolute (hcwd : fs.cwd.head? = some slash) (path : List UInt8) :
    (fs.resolvePath path).head? = some slash := by
  have habs : (fs.absolutePath path).head? = some slash := by
    obtain ⟨c, hc⟩ := List.head?_eq_some_iff.mp hcwd
    unfold absolutePath
    split_ifs with hpath
    · exact hpath
    · rw [hc]
      rfl
    · rw [hc]
      rfl
  obtain ⟨t, ht⟩ := List.head?_eq_some_iff.mp habs
  unfold resolvePath
  rw [ht]
  dsimp only
  split_ifs with hlong
  · cases t with
    | nil => exact absurd hlong.1 (by decide)
    | cons x xs => rfl
  · rfl

theorem Named.resolvePath_head (h : fs.Named) (path : List UInt8) :
    ∃ t, fs.resolvePath path = slash :: t :=
  List.head?_eq_some_iff.mp (resolvePath_absolute h.cwd path)

theorem Named.setCwd (h : fs.Named) (path : List UInt8) : (fs.setCwd path).Named := by
  obtain ⟨t, ht⟩ := h.resolvePath_head path
  unfold Ramfs.setCwd
  dsimp only
  split
  · split_ifs
    · exact
        { toLinked := @SameLinks.linked fs _ (fun _ => ⟨rfl, rfl, rfl, rfl⟩) h.toLinked
          name := h.name
          cwd := by rw [ht]; rfl }
    · exact h
  · exact h

/-- Every call keeps this. -/
theorem Named.exec (h : fs.Named) (s : RamfsStep) : (fs.exec s).Named := by
  obtain ⟨m, a, call⟩ := s
  have hwrite : ∀ path data, ((fs.write m a path data).after fs).Named := fun path data =>
    after_onDisk m _ _ h fun _ => h.writeNode path data
  unfold Ramfs.exec
  cases call with
  | create path type =>
    have hnodes : (fs.createResult (fs.createNode path type)).2.Named := by
      cases hc : fs.createNode path type with
      | error e => exact h
      | ok r =>
        obtain ⟨i, fs'⟩ := r
        exact h.createNode hc
    cases type with
    | file => exact hnodes
    | dir => exact after_onDisk m _ _ h fun _ => hnodes
  | write path data => exact hwrite path data
  | append path data =>
    dsimp only
    unfold append
    cases fs.find path with
    | some i => exact (sameLinks_extendFile i data).named (extendFile_cwd i data) h
    | none => exact hwrite path data
  | delete path => exact after_onDisk m _ _ h fun _ => h.deleteNode path
  | rename oldPath newPath => exact h.renameNode oldPath newPath
  | setCwd path => exact h.setCwd path

/-- It holds after every sequence of calls. -/
theorem named_run (steps : List RamfsStep) : (Ramfs.init.run steps).Named := by
  suffices hall : ∀ fs : Ramfs, fs.Named → (fs.run steps).Named from hall _ named_init
  induction steps with
  | nil => exact fun fs h => h
  | cons s steps ih => exact fun fs h => ih (fs.exec s) (h.exec s)

/-! ## Walks -/

theorem walk_cons (current : Fin 64) (c : List UInt8) (cs : List (List UInt8)) :
    fs.walk current (c :: cs) = if c = [0x2E] then fs.walk current cs
      else if c = [0x2E, 0x2E] then fs.walk ((fs.nodes current).parent.getD current) cs
      else (fs.child current c).bind fun i => fs.walk i cs := rfl

theorem walk_append (current : Fin 64) (cs ds : List (List UInt8)) :
    fs.walk current (cs ++ ds) = (fs.walk current cs).bind fun i => fs.walk i ds := by
  induction cs generalizing current with
  | nil => rfl
  | cons c cs ih =>
    rw [List.cons_append, walk_cons, walk_cons]
    split_ifs
    · exact ih current
    · exact ih _
    · rw [Option.bind_assoc]
      congr 1
      funext i
      exact ih i

/-- No node has an empty name in a directory. -/
theorem Named.child_nil (h : fs.Named) (dir : Fin 64) : fs.child dir [] = none := by
  by_contra hne
  obtain ⟨i, hi⟩ := Option.ne_none_iff_exists'.mp hne
  obtain ⟨hactive, hparent, hname⟩ := child_some hi
  refine h.name i ?_ hactive hname
  rintro rfl
  rw [h.root.2.2] at hparent
  cases hparent

/-- A path with an empty component is not found. -/
theorem Named.walk_nil (h : fs.Named) {cs : List (List UInt8)} (hnil : [] ∈ cs) (current : Fin 64) :
    fs.walk current cs = none := by
  induction cs generalizing current with
  | nil => cases hnil
  | cons c cs ih =>
    rw [walk_cons]
    rcases List.mem_cons.mp hnil with rfl | hnil
    · rw [if_neg (by decide), if_neg (by decide), h.child_nil]
      rfl
    · split_ifs
      · exact ih hnil current
      · exact ih hnil _
      · cases fs.child current c with
        | none => rfl
        | some i => exact ih hnil i

section NewNode

variable {i p : Fin 64} {node : RamfsNode}

/-- The new node is found under its name. -/
theorem child_setNode_new (hnew : fs.child p node.name = none) (hactive : node.active = true)
    (hparent : node.parent = some p) : (fs.setNode i node).child p node.name = some i := by
  have hsome : ∃ j, (fs.setNode i node).child p node.name = some j := by
    rw [← Option.isSome_iff_exists]
    unfold child
    rw [List.find?_isSome]
    refine ⟨i, List.mem_finRange i, ?_⟩
    rw [setNode_same, hactive, hparent]
    simp
  obtain ⟨j, hj⟩ := hsome
  by_cases hji : j = i
  · rw [hj, hji]
  · obtain ⟨h₁, h₂, h₃⟩ := child_some hj
    rw [setNode_of_ne _ hji] at h₁ h₂ h₃
    exact absurd h₃ (child_none hnew h₁ h₂)

/-- Other names are found as before. -/
theorem child_setNode_other (hfree : (fs.nodes i).active = false) (hparent : node.parent = some p)
    {q : Fin 64} {c : List UInt8} (hne : ¬ (q = p ∧ c = node.name)) :
    (fs.setNode i node).child q c = fs.child q c := by
  unfold child
  congr 1
  funext j
  by_cases hji : j = i
  · subst hji
    rw [setNode_same, hfree, hparent]
    by_cases hq : q = p
    · have hc : node.name ≠ c := fun hc => hne ⟨hq, hc.symm⟩
      simp [hc]
    · have hq' : p ≠ q := Ne.symm hq
      simp [hq']
  · rw [setNode_of_ne _ hji]

/-- What was found is found again. -/
theorem Linked.walk_setNode (h : fs.Linked) (hnew : fs.child p node.name = none)
    (hfree : (fs.nodes i).active = false) (hparent : node.parent = some p) {current q : Fin 64}
    (hcurrent : (fs.nodes current).active = true) {cs : List (List UInt8)}
    (hw : fs.walk current cs = some q) : (fs.setNode i node).walk current cs = some q := by
  induction cs generalizing current with
  | nil => exact hw
  | cons c cs ih =>
    have hci : current ≠ i := by
      rintro rfl
      rw [hfree] at hcurrent
      cases hcurrent
    rw [walk_cons] at hw ⊢
    split_ifs at hw ⊢
    · exact ih hcurrent hw
    · rw [setNode_of_ne _ hci]
      refine ih ?_ hw
      have hup : fs.walk current [[0x2E, 0x2E]] = some ((fs.nodes current).parent.getD current) := rfl
      exact h.walk_active hcurrent hup
    · obtain ⟨j, hj, hw⟩ := Option.bind_eq_some_iff.mp hw
      have hne : ¬ (current = p ∧ c = node.name) := by
        rintro ⟨rfl, rfl⟩
        rw [hnew] at hj
        cases hj
      rw [child_setNode_other hfree hparent hne, hj]
      exact ih (child_some hj).1 hw

end NewNode

/-! ## The last component -/

/-- The name in its directory, as `ramfs_find` takes it. -/
theorem walk_single (p : Fin 64) {n : List UInt8} (hdot : n ≠ [0x2E]) (hdots : n ≠ [0x2E, 0x2E]) :
    fs.walk p [n] = fs.child p n := by
  rw [walk_cons, if_neg hdot, if_neg hdots]
  cases fs.child p n <;> rfl

theorem resolvePath_of_absolute {d : List UInt8} (hhead : d.head? = some slash)
    (hlast : d.getLast? ≠ some slash) : fs.resolvePath d = d := by
  unfold resolvePath absolutePath
  rw [if_pos hhead]
  exact if_neg fun h => hlast h.2

/-- A path with two slashes before its last component is not found. -/
theorem Named.find_double (h : fs.Named) {path : List UInt8}
    (hdouble : (Path.dirName (fs.resolvePath path)).getLast? = some slash) :
    fs.find path = none := by
  obtain ⟨t, ht⟩ := h.resolvePath_head path
  have hmax : 0 < ramfsMaxName - 1 := by decide
  have hsplit : fs.resolvePath path =
      Path.dirName (fs.resolvePath path) ++ slash :: Path.fileName (fs.resolvePath path) :=
    Path.dirName_append_fileName (by rw [ht]; exact List.mem_cons_self)
  obtain ⟨d, hd⟩ := List.getLast?_eq_some_iff.mp hdouble
  rw [hd, List.append_assoc] at hsplit
  have hmem : [] ∈ Path.components (ramfsMaxName - 1) (fs.resolvePath path).tail := by
    rw [hsplit]
    cases d with
    | nil =>
      show [] ∈ Path.components (ramfsMaxName - 1) (slash :: _)
      rw [Path.components_slash hmax]
      exact List.mem_cons_self
    | cons x xs => exact Path.nil_mem_components hmax xs _
  have hne : fs.resolvePath path ≠ [slash] := by
    intro heq
    rw [heq] at hmem
    cases hmem
  unfold find
  dsimp only
  rw [if_neg hne]
  exact h.walk_nil hmem 0

/-- Otherwise `ramfs_find` comes to the directory of `parse_path` and looks for the name there. -/
theorem Named.find_eq (h : fs.Named) {path : List UInt8} (hfits : fs.NameFits path)
    (hname : Path.fileName (fs.resolvePath path) ≠ [])
    (hsingle : (Path.dirName (fs.resolvePath path)).getLast? ≠ some slash) :
    fs.find path = (fs.parsePath path).1.bind fun p =>
      fs.walk p [Path.fileName (fs.resolvePath path)] := by
  obtain ⟨t, ht⟩ := h.resolvePath_head path
  have hmax : 0 < ramfsMaxName - 1 := by decide
  have hsplit : fs.resolvePath path =
      Path.dirName (fs.resolvePath path) ++ slash :: Path.fileName (fs.resolvePath path) :=
    Path.dirName_append_fileName (by rw [ht]; exact List.mem_cons_self)
  have hcomp := Path.components_name hname (Path.slash_notMem_fileName _) hfits
  have hpos := List.length_pos_iff.mpr hname
  have hne : fs.resolvePath path ≠ [slash] := by
    intro heq
    have hlen := congrArg List.length hsplit
    rw [heq] at hlen hpos
    simp only [List.length_append, List.length_cons, List.length_nil] at hlen
    omega
  unfold parsePath find
  dsimp only
  rw [if_neg hne]
  by_cases hd : Path.dirName (fs.resolvePath path) = []
  · rw [if_pos hd]
    rw [hd, List.nil_append] at hsplit
    have htail : (fs.resolvePath path).tail = Path.fileName (fs.resolvePath path) := by
      nth_rewrite 1 [hsplit]
      rfl
    rw [htail, hcomp]
    rfl
  · rw [if_neg hd]
    generalize Path.fileName (fs.resolvePath path) = n at *
    generalize hdir : Path.dirName (fs.resolvePath path) = d at *
    rw [hsplit] at ht
    obtain ⟨x, d₁, rfl⟩ := List.exists_cons_of_ne_nil hd
    obtain rfl : x = slash := (List.cons.inj ht).1
    have hd₁ : d₁ ≠ [] := by
      rintro rfl
      exact hsingle rfl
    have hres : fs.resolvePath (slash :: d₁) = slash :: d₁ := resolvePath_of_absolute rfl hsingle
    have hroot : slash :: d₁ ≠ [slash] := fun heq => hd₁ (List.cons.inj heq).2
    rw [List.getLast?_cons_of_ne_nil hd₁] at hsingle
    rw [hres, if_neg hroot, hsplit]
    show fs.walk 0 (Path.components _ (d₁ ++ slash :: n)) = _
    rw [Path.components_append hmax hd₁ hsingle, hcomp, walk_append]
    rfl

/-! ## Creating and finding -/

/-- A creation that is refused: there is no directory, or no name, or the name is taken, or no
node is free. -/
def Refused (fs : Ramfs) (path : List UInt8) : Prop :=
  ∀ p, (fs.parsePath path).1 = some p → Path.fileName (fs.resolvePath path) = [] ∨
    (fs.nodes p).type ≠ .dir ∨ (fs.child p (Path.fileName (fs.resolvePath path))).isSome = true ∨
    fs.freeNode = none

instance (fs : Ramfs) (path : List UInt8) : Decidable (fs.Refused path) := by
  unfold Refused
  infer_instance

/-- `ramfs_create` returns an error exactly if it is refused. -/
theorem createNode_cases (path : List UInt8) (type : RamfsType) :
    (fs.Refused path ∧ ∃ e, e < 0 ∧ fs.createNode path type = .error e) ∨
    (¬ fs.Refused path ∧ ∃ i fs', fs.createNode path type = .ok (i, fs')) := by
  have hname := @parsePath_name fs path
  unfold Refused createNode
  dsimp only
  rw [hname]
  cases hp : (fs.parsePath path).1 with
  | none => exact Or.inl ⟨nofun, -1, by decide, rfl⟩
  | some p =>
    dsimp only
    split_ifs with h₁ h₂ h₃
    · exact Or.inl ⟨fun _ _ => Or.inl h₁, -1, by decide, rfl⟩
    · refine Or.inl ⟨fun q hq => ?_, -2, by decide, rfl⟩
      obtain rfl := Option.some.inj hq
      exact Or.inr (Or.inl h₂)
    · refine Or.inl ⟨fun q hq => ?_, -3, by decide, rfl⟩
      obtain rfl := Option.some.inj hq
      exact Or.inr (Or.inr (Or.inl h₃))
    · cases hfree : fs.freeNode with
      | none => exact Or.inl ⟨fun _ _ => Or.inr (Or.inr (Or.inr rfl)), -4, by decide, rfl⟩
      | some i =>
        refine Or.inr ⟨fun h => ?_, i, _, rfl⟩
        rcases h p rfl with h | h | h | h
        · exact h₁ h
        · exact h₂ h
        · exact h₃ h
        · cases h

/-- The path is inside a disk that is mounted. -/
def OnMountedDisk (fs : Ramfs) (m : Mounts) (path : List UInt8) : Prop :=
  ∃ t, matchDiskContent (fs.resolvePath path) = some t ∧ (m.fat16 = some t.1 ∨ m.ntfs = some t.1)

/-- Elsewhere a creation is served from the nodes. -/
theorem create_of_not_mounted {path : List UInt8} (hout : ¬ fs.OnMountedDisk m path)
    (type : RamfsType) :
    fs.create m path type = .ramfs (fs.createResult (fs.createNode path type)).1
      (fs.createResult (fs.createNode path type)).2 := by
  unfold create onDisk
  cases type with
  | file => rfl
  | dir =>
    dsimp only
    cases ht : matchDiskContent (fs.resolvePath path) with
    | none => rfl
    | some t =>
      dsimp only
      rw [if_neg fun h => hout ⟨t, ht, Or.inl h⟩, if_neg fun h => hout ⟨t, ht, Or.inr h⟩]

/-- **Create, then find**: the call of `ramfs_create` stays inside its arrays; if it returns a
node, `ramfs_find` finds this node afterwards; and if there was a node before, it returns an
error. -/
structure CreateThenFind (fs : Ramfs) (m : Mounts) (path : List UInt8) (type : RamfsType) : Prop where
  pathFits : fs.PathFits path
  nameFits : fs.NameFits path
  found : ∀ r fs', fs.create m path type = .ramfs r fs' → 0 ≤ r →
    ∃ i, fs'.find path = some i ∧ r = (i : ℕ)
  refused : (fs.find path).isSome = true → ∀ r fs', fs.create m path type = .ramfs r fs' → r < 0

/-- The last component is a proper name: not `.` or `..`, and with one slash before it. -/
def ProperName (fs : Ramfs) (path : List UInt8) : Prop :=
  Path.fileName (fs.resolvePath path) ≠ [0x2E] ∧
    Path.fileName (fs.resolvePath path) ≠ [0x2E, 0x2E] ∧
    (Path.dirName (fs.resolvePath path)).getLast? ≠ some slash

instance (fs : Ramfs) (path : List UInt8) : Decidable (fs.ProperName path) :=
  inferInstanceAs (Decidable (_ ∧ _ ∧ _))

/-- A node that was created under a proper name is found, and was not found before. -/
theorem Named.find_created (h : fs.Named) {path : List UInt8} {type : RamfsType} {i : Fin 64}
    (hfits : fs.NameFits path) (hproper : fs.ProperName path)
    (hc : fs.createNode path type = .ok (i, fs')) :
    fs.find path = none ∧ fs'.find path = some i := by
  have h' := h.createNode hc
  obtain ⟨hdot, hdots, hsingle⟩ := hproper
  obtain ⟨p, hp, hname, _, hchild, _, hfree, rfl⟩ := createNode_ok hc
  rw [parsePath_name] at hname hchild h' ⊢
  set node : RamfsNode := ⟨true, Path.fileName (fs.resolvePath path), type, none, 0, 0, some p⟩
  -- The directory is found as before.
  have hp' : ((fs.setNode i node).parsePath path).1 = some p := by
    unfold parsePath at hp ⊢
    dsimp only at hp ⊢
    have hres : (fs.setNode i node).resolvePath path = fs.resolvePath path := rfl
    rw [hres]
    split_ifs at hp ⊢
    · exact hp
    · unfold find at hp ⊢
      dsimp only at hp ⊢
      have hdir : (fs.setNode i node).resolvePath (Path.dirName (fs.resolvePath path)) =
        fs.resolvePath (Path.dirName (fs.resolvePath path)) := rfl
      rw [hdir]
      split_ifs at hp ⊢
      · exact hp
      · exact h.toLinked.walk_setNode hchild hfree rfl h.root.1 hp
  constructor
  · rw [h.find_eq hfits hname hsingle, hp, Option.bind_some, walk_single p hdot hdots]
    exact hchild
  · have hfind := h'.find_eq hfits hname hsingle
    rw [hp', Option.bind_some] at hfind
    refine hfind.trans ?_
    show (fs.setNode i node).walk p [Path.fileName (fs.resolvePath path)] = some i
    rw [walk_single p hdot hdots]
    exact child_setNode_new hchild rfl rfl

/-- A node that was created under another name is not found, or was found before. -/
theorem Named.not_found_created (h : fs.Named) {path : List UInt8} {type : RamfsType} {i : Fin 64}
    (hfits : fs.NameFits path) (hproper : ¬ fs.ProperName path)
    (hc : fs.createNode path type = .ok (i, fs')) :
    fs'.find path = none ∨ (fs.find path).isSome = true := by
  by_cases hsingle : (Path.dirName (fs.resolvePath path)).getLast? = some slash
  · left
    have h' := h.createNode hc
    obtain ⟨_, _, _, _, _, _, _, rfl⟩ := createNode_ok hc
    exact h'.find_double hsingle
  · right
    obtain ⟨p, hp, hname, _⟩ := createNode_ok hc
    rw [parsePath_name] at hname
    rw [h.find_eq hfits hname hsingle, hp, Option.bind_some]
    by_cases hdot : Path.fileName (fs.resolvePath path) = [0x2E]
    · rw [hdot]
      rfl
    · have hdots : Path.fileName (fs.resolvePath path) = [0x2E, 0x2E] := by
        by_contra hdots
        exact hproper ⟨hdot, hdots, hsingle⟩
      rw [hdots]
      rfl

/-- **When creating and finding agree.**  For a path outside the mounted disks: exactly if the path
and its last component fit their arrays, and the creation is refused or the last component is a
proper name. -/
theorem createThenFind_iff (h : fs.Named) (m : Mounts) (path : List UInt8) (type : RamfsType)
    (hout : ¬ fs.OnMountedDisk m path) :
    fs.CreateThenFind m path type ↔
      fs.PathFits path ∧ fs.NameFits path ∧ (fs.Refused path ∨ fs.ProperName path) := by
  have hcreate := create_of_not_mounted hout type
  constructor
  · intro hct
    refine ⟨hct.pathFits, hct.nameFits, ?_⟩
    by_contra hnot
    rw [not_or] at hnot
    rcases @createNode_cases fs path type with ⟨href, _⟩ | ⟨_, i, fs', hok⟩
    · exact hnot.1 href
    · rw [hok] at hcreate
      rcases h.not_found_created hct.nameFits hnot.2 hok with hnone | hsome
      · obtain ⟨j, hj, _⟩ := hct.found _ _ hcreate (Int.natCast_nonneg _)
        have hfound : fs'.find path = some j := hj
        rw [hnone] at hfound
        cases hfound
      · exact absurd (hct.refused hsome _ _ hcreate) (not_lt.mpr (Int.natCast_nonneg _))
  · rintro ⟨hpath, hname, hwhen⟩
    rcases @createNode_cases fs path type with ⟨_, e, he, herr⟩ | ⟨hnot, i, fs₁, hok⟩
    · rw [herr] at hcreate
      refine ⟨hpath, hname, fun r fs' heq hr => ?_, fun _ r fs' heq => ?_⟩
      · rw [hcreate] at heq
        cases heq
        exact absurd he (not_lt.mpr hr)
      · rw [hcreate] at heq
        cases heq
        exact he
    · rw [hok] at hcreate
      obtain ⟨hbefore, hafter⟩ := h.find_created hname (hwhen.resolve_left hnot) hok
      refine ⟨hpath, hname, fun r fs' heq _ => ?_, fun hsome => ?_⟩
      · rw [hcreate] at heq
        cases heq
        exact ⟨i, hafter, rfl⟩
      · rw [hbefore] at hsome
        cases hsome

/-- A directory `/a` is made and found. -/
theorem createThenFind_a : Ramfs.init.CreateThenFind ⟨none, none⟩ pathA .dir := by
  have hout : ¬ Ramfs.init.OnMountedDisk ⟨none, none⟩ pathA := by
    rintro ⟨t, _, h | h⟩ <;> cases h
  exact (createThenFind_iff named_init ⟨none, none⟩ pathA .dir hout).mpr (by decide +kernel)

/-- The path `/.` is found, and `ramfs_create` makes a node for it; of the node for `//a` nothing is
found. -/
theorem dot_created_again :
    Ramfs.init.find [0x2F, 0x2E] = some 0 ∧
    (∃ fs, Ramfs.init.create ⟨none, none⟩ [0x2F, 0x2E] .file = .ramfs 1 fs ∧
      fs.find [0x2F, 0x2E] = some 0) ∧
    (∃ fs, Ramfs.init.create ⟨none, none⟩ [0x2F, 0x2F, 0x61] .file = .ramfs 1 fs ∧
      fs.find [0x2F, 0x2F, 0x61] = none) ∧
    ¬ Ramfs.init.CreateThenFind ⟨none, none⟩ [0x2F, 0x2E] .file := by
  have hdot : Ramfs.init.find [0x2F, 0x2E] = some 0 := by decide +kernel
  refine ⟨hdot, ⟨_, rfl, by decide +kernel⟩, ⟨_, rfl, by decide +kernel⟩, fun h => ?_⟩
  have hneg := h.refused (by rw [hdot]; rfl) 1 _ rfl
  exact absurd hneg (by decide)

end Ramfs

end Microkernel

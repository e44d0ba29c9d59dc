/-
# The paths of nodes

`ramfs_get_path` goes up from a node and writes down the names it passes, at most eight and only
those that fit; `ramfs_find` goes down from the root.  A node has a way from the root if it was not
moved below itself, and `ramfs_find` can go the way if no name on it is `.` or `..`.
-/
import Microkernel.RamfsLookup

namespace Microkernel

namespace Ramfs

variable {fs fs' : Ramfs} {m : Mounts} {a : Allocator}

/-! ## Calls that stay inside their arrays -/

/-- The paths and the new names of a call fit their arrays. -/
def StaysInside (fs : Ramfs) (s : RamfsStep) : Prop :=
  match s.call with
  | .create path type =>
    fs.PathFits path ∧ ((fs.create s.mounts path type).isRamfs = true → fs.NameFits path)
  | .write path data =>
    fs.PathFits path ∧
      ((fs.write s.mounts s.allocator path data).isRamfs = true → fs.find path = none →
        fs.NameFits path)
  | .append path data =>
    fs.PathFits path ∧
      ((fs.append s.mounts s.allocator path data).isRamfs = true → fs.find path = none →
        fs.NameFits path)
  | .delete path => fs.PathFits path
  | .rename oldPath newPath => fs.PathFits oldPath ∧ fs.PathFits newPath ∧ fs.NameFits newPath
  | .setCwd path => fs.PathFits path

/-- Every call of a sequence does, in the state it comes in. -/
def AllStayInside : Ramfs → List RamfsStep → Prop
  | _, [] => True
  | fs, s :: steps => fs.StaysInside s ∧ AllStayInside (fs.exec s) steps

instance decidableStaysInside (fs : Ramfs) : (s : RamfsStep) → Decidable (fs.StaysInside s)
  | ⟨_, _, .create _ _⟩ => inferInstanceAs (Decidable (_ ∧ (_ → _)))
  | ⟨_, _, .write _ _⟩ => inferInstanceAs (Decidable (_ ∧ (_ → _ → _)))
  | ⟨_, _, .append _ _⟩ => inferInstanceAs (Decidable (_ ∧ (_ → _ → _)))
  | ⟨_, _, .delete _⟩ => inferInstanceAs (Decidable (_ ≤ _))
  | ⟨_, _, .rename _ _⟩ => inferInstanceAs (Decidable (_ ∧ _ ∧ _))
  | ⟨_, _, .setCwd _⟩ => inferInstanceAs (Decidable (_ ≤ _))

instance decidableAllStayInside : (steps : List RamfsStep) → (fs : Ramfs) →
    Decidable (AllStayInside fs steps)
  | [], _ => isTrue trivial
  | s :: steps, fs => @instDecidableAnd _ _ (decidableStaysInside fs s)
      (decidableAllStayInside steps (fs.exec s))

/-- What `ramfs_write` can do to the nodes: leave the links, or add a file. -/
theorem write_cases (path data : List UInt8) :
    fs.SameLinks ((fs.write m a path data).after fs) ∨
    (fs.find path = none ∧ (fs.write m a path data).isRamfs = true ∧
      ∃ i fs₁, fs.createNode path .file = .ok (i, fs₁) ∧
        fs₁.SameLinks ((fs.write m a path data).after fs)) := by
  unfold write
  rcases onDisk_cases m (matchDiskContent (fs.resolvePath path))
    (.ramfs (fs.writeNode a path data).1 (fs.writeNode a path data).2) with heq | ⟨rel, heq | heq⟩
  · rw [heq]
    change fs.SameLinks (fs.writeNode a path data).2 ∨ _ ∧ _ ∧
      ∃ i fs₁, _ ∧ Ramfs.SameLinks fs₁ (fs.writeNode a path data).2
    unfold writeNode
    cases fs.find path with
    | some i => exact Or.inl (sameLinks_storeFile i data)
    | none =>
      dsimp only
      cases hc : fs.createNode path .file with
      | error e => exact Or.inl (SameLinks.refl fs)
      | ok r =>
        obtain ⟨i, fs₁⟩ := r
        exact Or.inr ⟨rfl, rfl, i, fs₁, rfl, sameLinks_storeFile i data⟩
  · rw [heq]
    exact Or.inl (SameLinks.refl fs)
  · rw [heq]
    exact Or.inl (SameLinks.refl fs)

/-- What `ramfs_create` can do to them. -/
theorem create_cases (path : List UInt8) (type : RamfsType) :
    (fs.create m path type).after fs = fs ∨
    ((fs.create m path type).isRamfs = true ∧
      ∃ i fs₁, fs.createNode path type = .ok (i, fs₁) ∧ (fs.create m path type).after fs = fs₁) := by
  have hnodes : ∀ s : Served, s = .ramfs (fs.createResult (fs.createNode path type)).1
      (fs.createResult (fs.createNode path type)).2 → s.after fs = fs ∨ s.isRamfs = true ∧
        ∃ i fs₁, fs.createNode path type = .ok (i, fs₁) ∧ s.after fs = fs₁ := by
    rintro s rfl
    cases hc : fs.createNode path type with
    | error e => exact Or.inl rfl
    | ok r =>
      obtain ⟨i, fs₁⟩ := r
      exact Or.inr ⟨rfl, i, fs₁, rfl, rfl⟩
  unfold create
  cases type with
  | file => exact hnodes _ rfl
  | dir =>
    rcases onDisk_cases m (matchDiskContent (fs.resolvePath path))
      (.ramfs (fs.createResult (fs.createNode path .dir)).1
        (fs.createResult (fs.createNode path .dir)).2) with heq | ⟨rel, heq | heq⟩
    · exact hnodes _ heq
    · dsimp only
      rw [heq]
      exact Or.inl rfl
    · dsimp only
      rw [heq]
      exact Or.inl rfl

/-- **What one call can do to the nodes**: leave the links, add a node, delete one, or move one. -/
theorem exec_cases (s : RamfsStep) :
    fs.SameLinks (fs.exec s) ∨
    (∃ path type i fs₁, fs.createNode path type = .ok (i, fs₁) ∧
      (fs.StaysInside s → fs.NameFits path) ∧ fs₁.SameLinks (fs.exec s)) ∨
    (∃ i, i ≠ 0 ∧ fs.exec s = fs.setNode i
      { fs.nodes i with data := none, capacity := 0, active := false }) ∨
    (∃ oldPath newPath src q, fs.Renames oldPath newPath src q ∧
      (fs.StaysInside s → fs.NameFits newPath) ∧ fs.exec s = fs.setNode src
        { fs.nodes src with
          name := (fs.parsePath newPath).2.take (ramfsMaxName - 1), parent := some q }) := by
  obtain ⟨m, a, call⟩ := s
  cases call with
  | create path type =>
    rcases @create_cases fs m path type with heq | ⟨hram, i, fs₁, hok, heq⟩
    · refine Or.inl ?_
      show fs.SameLinks ((fs.create m path type).after fs)
      rw [heq]
      exact SameLinks.refl fs
    · refine Or.inr (Or.inl ⟨path, type, i, fs₁, hok, fun h => h.2 hram, ?_⟩)
      show fs₁.SameLinks ((fs.create m path type).after fs)
      rw [heq]
      exact SameLinks.refl fs₁
  | write path data =>
    rcases @write_cases fs m a path data with hsame | ⟨hnone, hram, i, fs₁, hok, hsame⟩
    · exact Or.inl hsame
    · exact Or.inr (Or.inl ⟨path, .file, i, fs₁, hok, fun h => h.2 hram hnone, hsame⟩)
  | append path data =>
    cases hf : fs.find path with
    | some i =>
      have happend : fs.append m a path data =
          .ramfs (fs.extendFile a i data).1 (fs.extendFile a i data).2 := by
        unfold append
        rw [hf]
      refine Or.inl ?_
      show fs.SameLinks ((fs.append m a path data).after fs)
      rw [happend]
      exact sameLinks_extendFile i data
    | none =>
      have happend : fs.append m a path data = fs.write m a path data := by
        unfold append
        rw [hf]
      have hexec : fs.exec ⟨m, a, .append path data⟩ = (fs.write m a path data).after fs :=
        congrArg (Served.after fs) happend
      rw [hexec]
      rcases @write_cases fs m a path data with hsame | ⟨hnone, hram, i, fs₁, hok, hsame⟩
      · exact Or.inl hsame
      · refine Or.inr (Or.inl ⟨path, .file, i, fs₁, hok, fun h => h.2 ?_ hnone, hsame⟩)
        show (fs.append m a path data).isRamfs = true
        rw [happend]
        exact hram
  | delete path =>
    have hdelete : fs.exec ⟨m, a, .delete path⟩ = (fs.delete m path).after fs := rfl
    rw [hdelete]
    unfold delete
    rcases onDisk_cases m (matchDiskContent (fs.resolvePath path))
      (.ramfs (fs.deleteNode path).1 (fs.deleteNode path).2) with heq | ⟨rel, heq | heq⟩
    · rw [heq]
      rcases @deleteNode_cases fs path with hsame | ⟨i, hi, _, _, hset⟩
      · refine Or.inl ?_
        show fs.SameLinks (fs.deleteNode path).2
        rw [hsame]
        exact SameLinks.refl fs
      · exact Or.inr (Or.inr (Or.inl ⟨i, hi, hset⟩))
    · rw [heq]
      exact Or.inl (SameLinks.refl fs)
    · rw [heq]
      exact Or.inl (SameLinks.refl fs)
  | rename oldPath newPath =>
    rcases @renameNode_cases fs oldPath newPath with hsame | ⟨src, q, hr, hset⟩
    · refine Or.inl ?_
      show fs.SameLinks (fs.renameNode oldPath newPath).2
      rw [hsame]
      exact SameLinks.refl fs
    · exact Or.inr (Or.inr (Or.inr ⟨oldPath, newPath, src, q, hr, fun h => h.2.2, hset⟩))
  | setCwd path =>
    refine Or.inl ?_
    show fs.SameLinks (fs.setCwd path)
    unfold setCwd
    dsimp only
    split
    · split_ifs
      · exact fun _ => ⟨rfl, rfl, rfl, rfl⟩
      · exact SameLinks.refl fs
    · exact SameLinks.refl fs

/-! ## Names -/

/-- The nodes are linked, their names can be components, and no two nodes of a directory have the
same name. -/
structure Spelled (fs : Ramfs) : Prop extends Linked fs where
  name : ∀ i, i ≠ 0 → (fs.nodes i).active = true →
    Path.IsName (ramfsMaxName - 1) (fs.nodes i).name
  unique : ∀ i j p, (fs.nodes i).active = true → (fs.nodes j).active = true →
    (fs.nodes i).parent = some p → (fs.nodes j).parent = some p →
    (fs.nodes i).name = (fs.nodes j).name → i = j

theorem spelled_init : Ramfs.init.Spelled where
  toLinked := tree_init.toLinked
  name := fun _ hi hactive => absurd (active_init hactive) hi
  unique := tree_init.unique

theorem SameLinks.spelled (hs : fs.SameLinks fs') (h : fs.Spelled) : fs'.Spelled where
  toLinked := hs.linked h.toLinked
  name := by
    intro i hi hactive
    rw [(hs i).1] at hactive
    rw [(hs i).2.1]
    exact h.name i hi hactive
  unique := by
    intro i j p hi hj hip hjp hname
    rw [(hs i).1] at hi
    rw [(hs j).1] at hj
    rw [(hs i).2.2.2] at hip
    rw [(hs j).2.2.2] at hjp
    rw [(hs i).2.1, (hs j).2.1] at hname
    exact h.unique i j p hi hj hip hjp hname

/-- A node is put into a directory that has no such name. -/
theorem Spelled.place (h : fs.Spelled) {i p : Fin 64} {node : RamfsNode}
    (hlinked : (fs.setNode i node).Linked) (hname : Path.IsName (ramfsMaxName - 1) node.name)
    (hparent : node.parent = some p) (hnew : fs.child p node.name = none) :
    (fs.setNode i node).Spelled where
  toLinked := hlinked
  name := by
    intro j hj hactive
    by_cases hji : j = i
    · rw [hji, setNode_same]
      exact hname
    · rw [setNode_of_ne _ hji] at hactive ⊢
      exact h.name j hj hactive
  unique := by
    -- Another node of the directory has another name.
    have hother : ∀ k q, k ≠ i → (fs.nodes k).active = true → node.parent = some q →
        (fs.nodes k).parent = some q → node.name ≠ (fs.nodes k).name := by
      intro k q _ hk hq hkq hsame
      rw [hparent] at hq
      rw [← Option.some.inj hq] at hkq
      exact child_none hnew hk hkq hsame.symm
    intro j k q hj hk hjq hkq hsame
    by_cases hji : j = i
    · by_cases hki : k = i
      · rw [hji, hki]
      · rw [hji, setNode_same] at hjq hsame
        rw [setNode_of_ne _ hki] at hk hkq hsame
        exact absurd hsame (hother k q hki hk hjq hkq)
    · by_cases hki : k = i
      · rw [hki, setNode_same] at hkq hsame
        rw [setNode_of_ne _ hji] at hj hjq hsame
        exact absurd hsame.symm (hother j q hji hj hkq hjq)
      · rw [setNode_of_ne _ hji] at hj hjq hsame
        rw [setNode_of_ne _ hki] at hk hkq hsame
        exact h.unique j k q hj hk hjq hkq hsame

/-- The last component of a path that fits is a name, unless it is empty. -/
theorem isName_fileName {path : List UInt8} (hne : (fs.parsePath path).2 ≠ [])
    (hfits : fs.NameFits path) : Path.IsName (ramfsMaxName - 1) (fs.parsePath path).2 := by
  rw [parsePath_name] at hne ⊢
  exact ⟨hne, Path.slash_notMem_fileName _, hfits⟩

/-- A call that stays inside its arrays keeps the names in order. -/
theorem Spelled.exec (h : fs.Spelled) {s : RamfsStep} (hs : fs.StaysInside s) :
    (fs.exec s).Spelled := by
  have hlinked := h.toLinked.exec s
  rcases @exec_cases fs s with hsame | ⟨path, type, i, fs₁, hok, hfits, hsame⟩ | ⟨i, _, heq⟩ |
    ⟨oldPath, newPath, src, q, hr, hfits, heq⟩
  · exact hsame.spelled h
  · apply hsame.spelled
    have hlinked₁ := h.toLinked.createNode hok
    obtain ⟨p, _, hne, _, hnew, _, _, rfl⟩ := createNode_ok hok
    exact h.place hlinked₁ (isName_fileName hne (hfits hs)) rfl hnew
  · rw [heq] at hlinked ⊢
    refine ⟨hlinked, fun j hj hactive => ?_, fun j k q hj hk hjq hkq hname => ?_⟩
    · obtain ⟨hji, hactive⟩ := active_deleted hactive
      rw [setNode_of_ne _ hji]
      exact h.name j hj hactive
    · obtain ⟨hji, hj⟩ := active_deleted hj
      obtain ⟨hki, hk⟩ := active_deleted hk
      rw [setNode_of_ne _ hji] at hjq hname
      rw [setNode_of_ne _ hki] at hkq hname
      exact h.unique j k q hj hk hjq hkq hname
  · obtain ⟨_, _, _, hne, _, hnew⟩ := hr
    have hname := isName_fileName hne (hfits hs)
    have htake : (fs.parsePath newPath).2.take (ramfsMaxName - 1) = (fs.parsePath newPath).2 :=
      List.take_of_length_le hname.length_le
    rw [htake] at heq
    rw [heq] at hlinked ⊢
    exact h.place hlinked hname rfl hnew

/-- Every sequence of calls from `ramfs_init` on that stay inside their arrays does. -/
theorem spelled_run {steps : List RamfsStep} (h : AllStayInside Ramfs.init steps) :
    (Ramfs.init.run steps).Spelled := by
  suffices hall : ∀ fs : Ramfs, fs.Spelled → AllStayInside fs steps → (fs.run steps).Spelled from
    hall _ spelled_init h
  clear h
  induction steps with
  | nil => exact fun fs hfs _ => hfs
  | cons s steps ih =>
    intro fs hfs hall
    exact ih (fs.exec s) (hfs.exec hall.1) hall.2

/-! ## The way to a node -/

/-- The names on the way from the root to a node. -/
inductive Way (fs : Ramfs) : Fin 64 → List (List UInt8) → Prop
  | root : Way fs 0 []
  | child {i p : Fin 64} {cs : List (List UInt8)} : Way fs p cs → (fs.nodes i).active = true →
      (fs.nodes i).parent = some p → Way fs i (cs ++ [(fs.nodes i).name])

/-- A name that `ramfs_find` looks for in a directory. -/
def IsProper (c : List UInt8) : Prop := c ≠ [0x2E] ∧ c ≠ [0x2E, 0x2E]

theorem Way.eq_nil (h : fs.Linked) {cs : List (List UInt8)} (hw : fs.Way 0 cs) : cs = [] := by
  cases hw with
  | root => rfl
  | child _ _ hparent =>
    rw [h.root.2.2] at hparent
    cases hparent

/-- A node has one way only. -/
theorem Way.unique (h : fs.Linked) {i : Fin 64} {cs : List (List UInt8)} (hw : fs.Way i cs) :
    ∀ {ds : List (List UInt8)}, fs.Way i ds → ds = cs := by
  induction hw with
  | root => exact fun hw => hw.eq_nil h
  | @child i p cs _ _ hparent ih =>
    intro ds hw
    cases hw with
    | root =>
      rw [h.root.2.2] at hparent
      cases hparent
    | child hp _ hparent' =>
      obtain rfl := Option.some.inj (hparent.symm.trans hparent')
      rw [ih hp]

/-- A way leads to one node only. -/
theorem Spelled.node_unique (h : fs.Spelled) {i : Fin 64} {cs : List (List UInt8)}
    (hw : fs.Way i cs) : ∀ {j : Fin 64}, fs.Way j cs → j = i := by
  induction hw with
  | root =>
    intro j hw
    generalize hnil : ([] : List (List UInt8)) = ds at hw
    cases hw with
    | root => rfl
    | child => exact absurd hnil.symm (List.append_ne_nil_of_right_ne_nil _ (List.cons_ne_nil _ _))
  | @child i p cs _ hactive hparent ih =>
    intro j hw
    generalize hds : cs ++ [(fs.nodes i).name] = ds at hw
    cases hw with
    | root => exact absurd hds (List.append_ne_nil_of_right_ne_nil _ (List.cons_ne_nil _ _))
    | @child _ q cs' hq hactive' hparent' =>
      obtain ⟨rfl, hname⟩ := List.append_inj' hds rfl
      obtain rfl := ih hq
      exact h.unique _ _ _ hactive' hactive hparent' hparent (List.singleton_inj.mp hname).symm

theorem Way.active (h : fs.Linked) {i : Fin 64} {cs : List (List UInt8)} (hw : fs.Way i cs) :
    (fs.nodes i).active = true := by
  cases hw with
  | root => exact h.root.1
  | child _ hactive _ => exact hactive

theorem Way.isName (h : fs.Spelled) {i : Fin 64} {cs : List (List UInt8)} (hw : fs.Way i cs) :
    ∀ c ∈ cs, Path.IsName (ramfsMaxName - 1) c := by
  induction hw with
  | root => exact nofun
  | @child i p cs _ hactive hparent ih =>
    intro c hc
    rcases List.mem_append.mp hc with hc | hc
    · exact ih c hc
    · rw [List.mem_singleton.mp hc]
      refine h.name i ?_ hactive
      rintro rfl
      rw [h.root.2.2] at hparent
      cases hparent

/-- **Where a walk ends**: at a node with a way of proper names; if all components are proper, they
are the way. -/
theorem way_of_walk (h : fs.Linked) {cs : List (List UInt8)} {p i : Fin 64}
    {before : List (List UInt8)} (hp : fs.Way p before) (hproper : ∀ c ∈ before, IsProper c)
    (hw : fs.walk p cs = some i) :
    ∃ ds, fs.Way i ds ∧ (∀ c ∈ ds, IsProper c) ∧
      ((∀ c ∈ cs, IsProper c) → ds = before ++ cs) := by
  induction cs generalizing p before with
  | nil =>
    obtain rfl := Option.some.inj hw
    exact ⟨before, hp, hproper, fun _ => (List.append_nil _).symm⟩
  | cons c cs ih =>
    rw [walk_cons] at hw
    split_ifs at hw with hdot hdots
    · obtain ⟨ds, hds, hall, _⟩ := ih hp hproper hw
      exact ⟨ds, hds, hall, fun hcs => absurd hdot (hcs c List.mem_cons_self).1⟩
    · -- One step up: the way is one name shorter.
      have hup : ∃ bs, fs.Way ((fs.nodes p).parent.getD p) bs ∧ ∀ c ∈ bs, IsProper c := by
        cases hp with
        | root =>
          rw [h.root.2.2]
          exact ⟨[], .root, nofun⟩
        | child hq _ hparent =>
          rw [hparent]
          exact ⟨_, hq, fun c hc => hproper c (List.mem_append_left _ hc)⟩
      obtain ⟨bs, hbs, hall⟩ := hup
      obtain ⟨ds, hds, hall, _⟩ := ih hbs hall hw
      exact ⟨ds, hds, hall, fun hcs => absurd hdots (hcs c List.mem_cons_self).2⟩
    · obtain ⟨j, hj, hw⟩ := Option.bind_eq_some_iff.mp hw
      obtain ⟨hactive, hparent, hname⟩ := child_some hj
      have hway := Way.child hp hactive hparent
      rw [hname] at hway
      have hall : ∀ x ∈ before ++ [c], IsProper x := by
        intro x hx
        rcases List.mem_append.mp hx with hx | hx
        · exact hproper x hx
        · rw [List.mem_singleton.mp hx]
          exact ⟨hdot, hdots⟩
      obtain ⟨ds, hds, hall, heq⟩ := ih hway hall hw
      refine ⟨ds, hds, hall, fun hcs => ?_⟩
      rw [heq fun x hx => hcs x (List.mem_cons_of_mem _ hx), List.append_assoc,
        List.singleton_append]

/-- A node is the one of its name in its directory. -/
theorem Spelled.child_eq (h : fs.Spelled) {i p : Fin 64} (hactive : (fs.nodes i).active = true)
    (hparent : (fs.nodes i).parent = some p) : fs.child p (fs.nodes i).name = some i := by
  cases hc : fs.child p (fs.nodes i).name with
  | none => exact absurd rfl (child_none hc hactive hparent)
  | some j =>
    obtain ⟨hj, hjp, hname⟩ := child_some hc
    rw [h.unique j i p hj hactive hjp hparent hname]

/-- A way of proper names can be walked. -/
theorem Spelled.walk_way (h : fs.Spelled) {i : Fin 64} {cs : List (List UInt8)} (hw : fs.Way i cs)
    (hproper : ∀ c ∈ cs, IsProper c) : fs.walk 0 cs = some i := by
  induction hw with
  | root => rfl
  | @child i p cs _ hactive hparent ih =>
    have hname := hproper _ (List.mem_append_right cs (List.mem_singleton_self _))
    rw [walk_append, ih fun c hc => hproper c (List.mem_append_left _ hc), Option.bind_some,
      walk_single p hname.1 hname.2]
    exact h.child_eq hactive hparent

/-! ## Looking up a joined path -/

/-- The path of some names from the root on. -/
def pathOf (cs : List (List UInt8)) : List UInt8 := if cs = [] then [slash] else Path.join cs

/-- `ramfs_find` walks along the names. -/
theorem find_pathOf {cs : List (List UInt8)}
    (h : ∀ c ∈ cs, Path.IsName (ramfsMaxName - 1) c) : fs.find (pathOf cs) = fs.walk 0 cs := by
  unfold pathOf
  split_ifs with hcs
  · rw [hcs]
    rfl
  · obtain ⟨c, ds, rfl⟩ := List.exists_cons_of_ne_nil hcs
    have hcomp := Path.components_join h
    have hhead : (Path.join (c :: ds)).head? = some slash := by
      rw [Path.join_cons]
      rfl
    have hne : Path.join (c :: ds) ≠ [slash] := by
      intro heq
      rw [heq] at hcomp
      cases hcomp
    unfold find
    dsimp only
    rw [resolvePath_of_absolute hhead (Path.join_getLast?_ne h), if_neg hne, hcomp]

/-! ## Writing down the path of a node -/

/-- The names that `ramfs_get_path` copies into `parts`, from the node upwards. -/
def pathParts (fs : Ramfs) : ℕ → Fin 64 → List (List UInt8)
  | 0, _ => []
  | n + 1, cur =>
    if cur = 0 then []
    else (fs.nodes cur).name ::
      match (fs.nodes cur).parent with
      | none => []
      | some p => pathParts fs n p

/-- A part is appended if it fits. -/
def appendPart (max : ℕ) (buf part : List UInt8) : List UInt8 :=
  if buf.length + part.length + 2 < max then buf ++ slash :: part else buf

/-- `ramfs_get_path`. -/
def getPath (fs : Ramfs) (i : Fin 64) (max : ℕ) : List UInt8 :=
  if (fs.nodes i).active = false then []
  else if i = 0 then [slash]
  else
    let buf := (fs.pathParts 8 i).reverse.foldl (appendPart max) []
    if buf = [] then [slash] else buf

/-- Along a way the parts are its last names. -/
theorem Way.pathParts (h : fs.Linked) (n : ℕ) : ∀ {i : Fin 64} {cs : List (List UInt8)},
    fs.Way i cs → fs.pathParts n i = cs.reverse.take n := by
  induction n with
  | zero => exact fun _ => rfl
  | succ n ih =>
    intro i cs hw
    unfold Ramfs.pathParts
    cases hw with
    | root => rfl
    | child hp _ hparent =>
      have hi : i ≠ 0 := by
        rintro rfl
        rw [h.root.2.2] at hparent
        cases hparent
      rw [if_neg hi, hparent, List.reverse_append, List.reverse_singleton, List.singleton_append,
        List.take_succ_cons]
      dsimp only
      rw [ih hp]

/-- The parts are names. -/
theorem Spelled.pathParts_isName (h : fs.Spelled) (n : ℕ) : ∀ {i : Fin 64},
    (fs.nodes i).active = true → ∀ c ∈ fs.pathParts n i, Path.IsName (ramfsMaxName - 1) c := by
  induction n with
  | zero => exact fun _ => nofun
  | succ n ih =>
    intro i hactive
    unfold Ramfs.pathParts
    by_cases hi : i = 0
    · rw [if_pos hi]
      exact nofun
    · obtain ⟨p, hp, hpactive, _⟩ := h.parent i hi hactive
      rw [if_neg hi, hp]
      intro c hc
      rcases List.mem_cons.mp hc with rfl | hc
      · exact h.name i hi hactive
      · exact ih hpactive c hc

/-- **What the loop appends**: some of the parts, and all of them exactly if all together fit. -/
theorem foldl_appendPart (max : ℕ) (parts : List (List UInt8)) : ∀ buf : List UInt8,
    ∃ ds, ds.Sublist parts ∧ parts.foldl (appendPart max) buf = buf ++ Path.join ds ∧
      (ds = parts ↔ parts = [] ∨ (buf ++ Path.join parts).length + 1 < max) := by
  induction parts with
  | nil =>
    exact fun buf => ⟨[], List.Sublist.slnil, (List.append_nil buf).symm, fun _ => Or.inl rfl,
      fun _ => rfl⟩
  | cons c parts ih =>
    intro buf
    have hlen : (buf ++ Path.join (c :: parts)).length =
        buf.length + c.length + 1 + (Path.join parts).length := by
      rw [Path.join_cons, List.length_append, List.length_append, List.length_cons]
      omega
    rw [List.foldl_cons]
    by_cases hfits : buf.length + c.length + 2 < max
    · obtain ⟨ds, hsub, hfold, hall⟩ := ih (buf ++ slash :: c)
      have happend : appendPart max buf c = buf ++ slash :: c := if_pos hfits
      refine ⟨c :: ds, hsub.cons_cons c, ?_, ?_⟩
      · rw [happend, hfold, Path.join_cons, List.append_assoc]
      · have hlen' : (buf ++ slash :: c ++ Path.join parts).length =
            (buf ++ Path.join (c :: parts)).length := by
          rw [Path.join_cons, List.append_assoc]
        rw [hlen'] at hall
        constructor
        · intro heq
          rcases hall.mp (List.cons.inj heq).2 with rfl | hlt
          · refine Or.inr ?_
            rw [hlen, Path.join_nil, List.length_nil]
            omega
          · exact Or.inr hlt
        · rintro (hnil | hlt)
          · cases hnil
          · rw [hall.mpr (Or.inr hlt)]
    · obtain ⟨ds, hsub, hfold, _⟩ := ih buf
      have happend : appendPart max buf c = buf := if_neg hfits
      refine ⟨ds, hsub.cons c, by rw [happend, hfold], fun heq => ?_, ?_⟩
      · -- A part that is left out makes the list shorter.
        have hle := hsub.length_le
        rw [heq, List.length_cons] at hle
        omega
      · rintro (hnil | hlt)
        · cases hnil
        · omega

/-- The path written down is that of some of the last names, and of all names on the way exactly if
there are at most eight and they fit. -/
theorem Way.getPath (h : fs.Linked) {i : Fin 64} {cs : List (List UInt8)} (hw : fs.Way i cs)
    (max : ℕ) (hmax : 1 < max) : ∃ ds, ds.Sublist cs ∧ fs.getPath i max = pathOf ds ∧
      (ds = cs ↔ cs.length ≤ 8 ∧ (Path.join cs).length + 1 < max) := by
  have hparts : (fs.pathParts 8 i).reverse = cs.drop (cs.length - 8) := by
    rw [hw.pathParts h, List.take_reverse, List.reverse_reverse]
  obtain ⟨ds, hsub, hfold, hall⟩ := foldl_appendPart max (cs.drop (cs.length - 8)) []
  rw [List.nil_append] at hfold hall
  refine ⟨ds, hsub.trans (List.drop_sublist _ _), ?_, ?_⟩
  · unfold Ramfs.getPath
    rw [hw.active h, if_neg (by decide), hparts, hfold]
    unfold pathOf
    by_cases hi : i = 0
    · obtain rfl := hi
      obtain rfl := hw.eq_nil h
      obtain rfl := List.sublist_nil.mp hsub
      rfl
    · rw [if_neg hi]
      dsimp only
      cases ds with
      | nil => rfl
      | cons c ds =>
        rw [if_neg (List.cons_ne_nil _ _), Path.join_cons]
        rfl
  · constructor
    · rintro rfl
      have hle := hsub.length_le
      rw [List.length_drop] at hle
      have hlen : ds.length ≤ 8 := by omega
      have hzero : ds.length - 8 = 0 := by omega
      rw [hzero, List.drop_zero] at hall
      refine ⟨hlen, ?_⟩
      rcases hall.mp rfl with rfl | hlt
      · exact hmax
      · exact hlt
    · rintro ⟨hlen, hlt⟩
      have hzero : cs.length - 8 = 0 := by omega
      rw [hzero, List.drop_zero] at hall
      exact hall.mpr (Or.inr hlt)

/-- The path of any node is that of some names. -/
theorem Spelled.getPath_eq (h : fs.Spelled) {i : Fin 64} (hactive : (fs.nodes i).active = true)
    (max : ℕ) : ∃ ds, (∀ c ∈ ds, Path.IsName (ramfsMaxName - 1) c) ∧
      fs.getPath i max = pathOf ds := by
  unfold getPath
  rw [hactive, if_neg (by decide)]
  by_cases hi : i = 0
  · rw [if_pos hi]
    exact ⟨[], nofun, rfl⟩
  · obtain ⟨ds, hsub, hfold, _⟩ := foldl_appendPart max (fs.pathParts 8 i).reverse []
    rw [if_neg hi, hfold]
    refine ⟨ds, fun c hc => ?_, ?_⟩
    · exact h.pathParts_isName 8 hactive c (List.mem_reverse.mp (hsub.subset hc))
    · unfold pathOf
      cases ds with
      | nil => rfl
      | cons c ds =>
        dsimp only
        rw [List.nil_append, if_neg (List.cons_ne_nil _ _), Path.join_cons]
        rfl

/-- The node can be reached by proper names, at most eight of them, which are short enough
together. -/
def HasPlainPath (fs : Ramfs) (i : Fin 64) : Prop :=
  ∃ cs, fs.Way i cs ∧ (∀ c ∈ cs, IsProper c) ∧ cs.length ≤ 8 ∧
    (Path.join cs).length + 1 < ramfsMaxPath

/-- **When printing a path inverts looking it up.**  After every sequence of calls that stay inside
their arrays: exactly for the nodes with such a way; and two of these have different paths. -/
theorem find_getPath_iff {steps : List RamfsStep} (hinside : AllStayInside Ramfs.init steps) :
    let fs := Ramfs.init.run steps
    (∀ i, (fs.nodes i).active = true →
      (fs.find (fs.getPath i ramfsMaxPath) = some i ↔ fs.HasPlainPath i)) ∧
    ∀ i j, fs.HasPlainPath i → fs.HasPlainPath j →
      fs.getPath i ramfsMaxPath = fs.getPath j ramfsMaxPath → i = j := by
  intro fs
  have h : fs.Spelled := spelled_run hinside
  have hfound : ∀ i, fs.HasPlainPath i → fs.find (fs.getPath i ramfsMaxPath) = some i := by
    rintro i ⟨cs, hw, hproper, hlen, hfits⟩
    obtain ⟨ds, _, hpath, hall⟩ := hw.getPath h.toLinked ramfsMaxPath (by decide)
    obtain rfl := hall.mpr ⟨hlen, hfits⟩
    rw [hpath, find_pathOf (hw.isName h)]
    exact h.walk_way hw hproper
  refine ⟨fun i hactive => ⟨fun hfind => ?_, hfound i⟩, fun i j hi hj heq => ?_⟩
  · obtain ⟨ns, hns, hpath⟩ := h.getPath_eq hactive ramfsMaxPath
    have hwalk := hfind
    rw [hpath, find_pathOf hns] at hwalk
    obtain ⟨cs, hw, hproper, _⟩ := way_of_walk h.toLinked .root nofun hwalk
    -- What is written down are some of the proper names of this way, so all of them.
    obtain ⟨ds, hsub, hpath', hall⟩ := hw.getPath h.toLinked ramfsMaxPath (by decide)
    rw [hpath', find_pathOf fun c hc => hw.isName h c (hsub.subset hc)] at hfind
    obtain ⟨bs, hbs, _, heq⟩ := way_of_walk h.toLinked .root nofun hfind
    have hds := heq fun c hc => hproper c (hsub.subset hc)
    rw [List.nil_append] at hds
    have hcs := hw.unique h.toLinked hbs
    rw [hds] at hcs
    exact ⟨cs, hw, hproper, hall.mp hcs⟩
  · have hi' := hfound i hi
    rw [heq, hfound j hj] at hi'
    exact (Option.some.inj hi').symm

/-- One directory, and its path. -/
theorem find_getPath_a :
    let fs := Ramfs.init.run [bareStep (.create pathA .dir)]
    (∀ i, (fs.nodes i).active = true →
      (fs.find (fs.getPath i ramfsMaxPath) = some i ↔ fs.HasPlainPath i)) ∧
    ∀ i j, fs.HasPlainPath i → fs.HasPlainPath j →
      fs.getPath i ramfsMaxPath = fs.getPath j ramfsMaxPath → i = j :=
  find_getPath_iff (by decide +kernel)

/-- A directory `/a`, in it `a`, and so on. -/
def nested (n : ℕ) : List RamfsStep :=
  (List.range n).map fun k => bareStep (.create (Path.join (List.replicate (k + 1) [0x61])) .dir)

/-- Nine directories deep the first name is left out: nodes 8 and 9 have the same path.  And the
path of a file `.` is found as the root. -/
theorem deep_path_cut :
    AllStayInside Ramfs.init (nested 9) ∧
    (((Ramfs.init.run (nested 9)).nodes 9).active = true ∧
      (Ramfs.init.run (nested 9)).getPath 9 ramfsMaxPath =
        (Ramfs.init.run (nested 9)).getPath 8 ramfsMaxPath ∧
      (Ramfs.init.run (nested 9)).find ((Ramfs.init.run (nested 9)).getPath 9 ramfsMaxPath) =
        some 8) ∧
    (Ramfs.init.run [bareStep (.create [0x2F, 0x2E] .file)]).find
      ((Ramfs.init.run [bareStep (.create [0x2F, 0x2E] .file)]).getPath 1 ramfsMaxPath) = some 0 := by
  decide +kernel

end Ramfs

end Microkernel

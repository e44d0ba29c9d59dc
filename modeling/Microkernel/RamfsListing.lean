/-
# Listing the tree

`ramfs_tree` prints the nodes of a directory and goes into each directory among them by its path,
which it looks up again.  The listing ends and is complete if the paths lead to the directories they
were made for.
-/
import Microkernel.RamfsPaths

namespace Microkernel

/-- What `ramfs_tree` does: print the line of a node, its name and type being those of the node, at
an indentation; and fill the buffer `subpath`. -/
inductive TreeEvent
  | line (depth : ℕ) (i : Fin 64)
  | subpath (path : List UInt8)

namespace Ramfs

/-! ## The listing -/

/-- The path of an entry of a directory. -/
def subPath (dirPath name : List UInt8) : List UInt8 :=
  if dirPath = [slash] then slash :: name else dirPath ++ slash :: name

section

variable (fs : Ramfs) (visit : List UInt8 → ℕ → Option (List TreeEvent)) (dirPath : List UInt8)
  (depth : ℕ) (dir : Fin 64)

/-- One round of the loop over the nodes; `visit` is the call for a directory. -/
def treeEntry (i : Fin 64) : Option (List TreeEvent) :=
  if (fs.nodes i).active && (fs.nodes i).parent == some dir then
    if (fs.nodes i).type = .dir then
      (visit (subPath dirPath (fs.nodes i).name) (depth + 1)).map fun evs =>
        .line depth i :: .subpath (subPath dirPath (fs.nodes i).name) :: evs
    else some [.line depth i]
  else some []

/-- The loop over the nodes. -/
def treeEntries : List (Fin 64) → Option (List TreeEvent)
  | [] => some []
  | i :: is =>
    (treeEntry fs visit dirPath depth dir i).bind fun evs => (treeEntries is).map (evs ++ ·)

end

/-- `ramfs_tree`, with a number of calls that may be nested. -/
def tree (fs : Ramfs) : ℕ → List UInt8 → ℕ → Option (List TreeEvent)
  | 0, _, _ => none
  | fuel + 1, dirPath, depth =>
    match fs.find dirPath with
    | none => some []
    | some dir => treeEntries fs (tree fs fuel) dirPath depth dir (List.finRange 64)

/-- The nodes printed. -/
def printed (evs : List TreeEvent) : List (Fin 64) :=
  evs.filterMap fun e =>
    match e with
    | .line _ i => some i
    | .subpath _ => none

/-- **The listing is complete**: `ramfs_tree("/", 0)` terminates, prints every active node but the
root exactly once, and its sub-paths are shorter than `RAMFS_MAX_PATH`. -/
def TreeComplete (fs : Ramfs) : Prop :=
  ∃ fuel evs, fs.tree fuel [slash] 0 = some evs ∧
    (∀ i, i ≠ 0 → (fs.nodes i).active = true → (printed evs).count i = 1) ∧
    ∀ p, TreeEvent.subpath p ∈ evs → p.length < ramfsMaxPath

/-- Every active node has a way, and the way to a directory has proper names only and is short. -/
def WaysWalkable (fs : Ramfs) : Prop :=
  ∀ i, (fs.nodes i).active = true → ∃ cs, fs.Way i cs ∧
    ((fs.nodes i).type = .dir → (∀ c ∈ cs, IsProper c) ∧ (Path.join cs).length < ramfsMaxPath)

section

variable {fs : Ramfs} {visit : List UInt8 → ℕ → Option (List TreeEvent)} {dirPath : List UInt8}
  {depth fuel : ℕ} {dir i x : Fin 64} {evs : List TreeEvent} {cs ds : List (List UInt8)}

theorem printed_append (evs evs' : List TreeEvent) :
    printed (evs ++ evs') = printed evs ++ printed evs' := List.filterMap_append

theorem printed_sublist {evs' : List TreeEvent} (h : evs'.Sublist evs) :
    (printed evs').Sublist (printed evs) := h.filterMap _

theorem isName_snoc {n : List UInt8} (hcs : ∀ c ∈ cs, Path.IsName (ramfsMaxName - 1) c)
    (hn : Path.IsName (ramfsMaxName - 1) n) :
    ∀ c ∈ cs ++ [n], Path.IsName (ramfsMaxName - 1) c := by
  intro c hc
  rcases List.mem_append.mp hc with hc | hc
  · exact hcs c hc
  · rw [List.mem_singleton.mp hc]
    exact hn

theorem Linked.ne_zero (h : fs.Linked) {p : Fin 64} (hparent : (fs.nodes i).parent = some p) :
    i ≠ 0 := by
  rintro rfl
  rw [h.root.2.2] at hparent
  cases hparent

theorem subPath_pathOf {n : List UInt8} (hcs : ∀ c ∈ cs, Path.IsName (ramfsMaxName - 1) c) :
    subPath (pathOf cs) n = pathOf (cs ++ [n]) := by
  have hne : cs ++ [n] ≠ [] := List.append_ne_nil_of_right_ne_nil _ (List.cons_ne_nil _ _)
  unfold subPath pathOf
  rw [if_neg hne, Path.join_snoc]
  by_cases hnil : cs = []
  · rw [if_pos hnil, if_pos rfl, hnil]
    rfl
  · rw [if_neg hnil]
    have hlast := Path.join_getLast?_ne hcs
    have hroot : Path.join cs ≠ [slash] := by
      intro heq
      rw [heq] at hlast
      exact hlast rfl
    rw [if_neg hroot]

/-- A call on the path of some names goes through the directory that they lead to. -/
theorem tree_succ (hcs : ∀ c ∈ cs, Path.IsName (ramfsMaxName - 1) c)
    (hw : fs.walk 0 cs = some dir) : fs.tree (fuel + 1) (pathOf cs) depth =
      treeEntries fs (fs.tree fuel) (pathOf cs) depth dir (List.finRange 64) := by
  show (match fs.find (pathOf cs) with
    | none => some []
    | some dir => treeEntries fs (fs.tree fuel) (pathOf cs) depth dir (List.finRange 64)) = _
  rw [find_pathOf hcs, hw]

/-! ## What a listing contains -/

/-- The part of a listing about one entry. -/
theorem treeEntries_mem {is : List (Fin 64)}
    (h : treeEntries fs visit dirPath depth dir is = some evs) (hi : i ∈ is) :
    ∃ evs', treeEntry fs visit dirPath depth dir i = some evs' ∧ evs'.Sublist evs := by
  induction is generalizing evs with
  | nil => cases hi
  | cons j is ih =>
    obtain ⟨evs₁, hfirst, hmap⟩ := Option.bind_eq_some_iff.mp h
    obtain ⟨evs₂, hrest, rfl⟩ := Option.map_eq_some_iff.mp hmap
    rcases List.mem_cons.mp hi with rfl | hi
    · exact ⟨evs₁, hfirst, List.sublist_append_left _ _⟩
    · obtain ⟨evs', hentry, hsub⟩ := ih hrest hi
      exact ⟨evs', hentry, hsub.trans (List.sublist_append_right _ _)⟩

/-- What is printed belongs to some entry. -/
theorem treeEntries_printed {is : List (Fin 64)}
    (h : treeEntries fs visit dirPath depth dir is = some evs) (hx : x ∈ printed evs) :
    ∃ i evs', treeEntry fs visit dirPath depth dir i = some evs' ∧ evs'.Sublist evs ∧
      x ∈ printed evs' := by
  induction is generalizing evs with
  | nil =>
    cases h
    cases hx
  | cons j is ih =>
    obtain ⟨evs₁, hfirst, hmap⟩ := Option.bind_eq_some_iff.mp h
    obtain ⟨evs₂, hrest, rfl⟩ := Option.map_eq_some_iff.mp hmap
    rw [printed_append] at hx
    rcases List.mem_append.mp hx with hx | hx
    · exact ⟨j, evs₁, hfirst, List.sublist_append_left _ _, hx⟩
    · obtain ⟨i, evs', hentry, hsub, hx⟩ := ih hrest hx
      exact ⟨i, evs', hentry, hsub.trans (List.sublist_append_right _ _), hx⟩

/-- **A directory among the entries is gone into**: its line, its sub-path and the listing of that
path are part of the listing. -/
theorem visit_below (hcs : ∀ c ∈ cs, Path.IsName (ramfsMaxName - 1) c)
    (hw : fs.walk 0 cs = some dir) (h : fs.tree fuel (pathOf cs) depth = some evs)
    (hactive : (fs.nodes i).active = true) (hparent : (fs.nodes i).parent = some dir)
    (htype : (fs.nodes i).type = .dir) :
    ∃ fuel' evs', fs.tree fuel' (pathOf (cs ++ [(fs.nodes i).name])) (depth + 1) = some evs' ∧
      (TreeEvent.line depth i :: .subpath (pathOf (cs ++ [(fs.nodes i).name])) :: evs').Sublist
        evs := by
  cases fuel with
  | zero => cases h
  | succ fuel =>
    rw [tree_succ hcs hw] at h
    obtain ⟨evs₁, hentry, hsub⟩ := treeEntries_mem h (List.mem_finRange i)
    unfold treeEntry at hentry
    rw [hactive, hparent, if_pos (by simp), if_pos htype, subPath_pathOf hcs] at hentry
    obtain ⟨evs', hvisit, rfl⟩ := Option.map_eq_some_iff.mp hentry
    exact ⟨fuel, evs', hvisit, hsub⟩

/-- Every entry is printed. -/
theorem printed_of_child (hcs : ∀ c ∈ cs, Path.IsName (ramfsMaxName - 1) c)
    (hw : fs.walk 0 cs = some dir) (h : fs.tree fuel (pathOf cs) depth = some evs)
    (hactive : (fs.nodes i).active = true) (hparent : (fs.nodes i).parent = some dir) :
    i ∈ printed evs := by
  cases fuel with
  | zero => cases h
  | succ fuel =>
    rw [tree_succ hcs hw] at h
    obtain ⟨evs₁, hentry, hsub⟩ := treeEntries_mem h (List.mem_finRange i)
    have hmem : i ∈ printed evs₁ := by
      unfold treeEntry at hentry
      rw [hactive, hparent, if_pos (by simp)] at hentry
      split_ifs at hentry
      · obtain ⟨evs', _, rfl⟩ := Option.map_eq_some_iff.mp hentry
        exact List.mem_cons_self
      · cases hentry
        exact List.mem_cons_self
    exact (printed_sublist hsub).subset hmem

/-- **What is printed was found**: a line comes from a call whose path leads to the directory of its
node. -/
theorem Spelled.printed_visit (h : fs.Spelled) (fuel : ℕ) :
    ∀ {cs : List (List UInt8)} {depth : ℕ} {evs : List TreeEvent},
      (∀ c ∈ cs, Path.IsName (ramfsMaxName - 1) c) → fs.tree fuel (pathOf cs) depth = some evs →
      x ∈ printed evs → ∃ fuel' ds depth' dir evs', (∀ c ∈ ds, Path.IsName (ramfsMaxName - 1) c) ∧
        fs.walk 0 ds = some dir ∧ (fs.nodes x).active = true ∧ (fs.nodes x).parent = some dir ∧
        fs.tree fuel' (pathOf ds) depth' = some evs' ∧ evs'.Sublist evs := by
  induction fuel with
  | zero =>
    intro cs depth evs _ ht
    cases ht
  | succ fuel ih =>
    intro cs depth evs hcs ht hx
    cases hw : fs.walk 0 cs with
    | none =>
      have hnone : fs.tree (fuel + 1) (pathOf cs) depth = some [] := by
        show (match fs.find (pathOf cs) with
          | none => some []
          | some dir => treeEntries fs (fs.tree fuel) (pathOf cs) depth dir (List.finRange 64)) = _
        rw [find_pathOf hcs, hw]
      rw [hnone] at ht
      cases ht
      cases hx
    | some dir =>
      have hentries := ht
      rw [tree_succ hcs hw] at hentries
      obtain ⟨i, evs₁, hentry, hsub, hx⟩ := treeEntries_printed hentries hx
      unfold treeEntry at hentry
      split_ifs at hentry with hchild htype
      · rw [Bool.and_eq_true, beq_iff_eq] at hchild
        obtain ⟨evs₂, hvisit, rfl⟩ := Option.map_eq_some_iff.mp hentry
        rcases List.mem_cons.mp hx with rfl | hx
        · exact ⟨fuel + 1, cs, depth, dir, evs, hcs, hw, hchild.1, hchild.2, ht,
            List.Sublist.refl _⟩
        · -- The line comes from the call for directory `i`.
          have hname := h.name i (h.toLinked.ne_zero hchild.2) hchild.1
          have hcs' := isName_snoc hcs hname
          rw [subPath_pathOf hcs] at hvisit
          obtain ⟨fuel', ds, depth', dir', evs', hds, hw', hact, hpar, ht', hsub'⟩ :=
            ih hcs' hvisit hx
          refine ⟨fuel', ds, depth', dir', evs', hds, hw', hact, hpar, ht', hsub'.trans ?_⟩
          exact ((List.sublist_cons_self _ _).trans (List.sublist_cons_self _ _)).trans hsub
      · rw [Bool.and_eq_true, beq_iff_eq] at hchild
        cases hentry
        obtain rfl := List.mem_singleton.mp hx
        exact ⟨fuel + 1, cs, depth, dir, evs, hcs, hw, hchild.1, hchild.2, ht, List.Sublist.refl _⟩
      · cases hentry
        cases hx

/-! ## A complete listing needs the ways -/

/-- A node that is printed once is not printed again below its own line. -/
theorem not_printed_below {evs' : List TreeEvent} {p : List UInt8}
    (hsub : (TreeEvent.line depth i :: .subpath p :: evs').Sublist evs)
    (honce : (printed evs).count i ≤ 1) : i ∉ printed evs' := by
  intro hmem
  have hcount : (i :: printed evs').count i ≤ (printed evs).count i :=
    (printed_sublist hsub).count_le i
  have hpos := List.count_pos_iff.mpr hmem
  rw [List.count_cons_self] at hcount
  omega

/-- **A listing without repetitions goes along proper names only**: a directory `.` or `..` leads
back, and what was printed before is printed again. -/
theorem Spelled.proper_of_once (h : fs.Spelled) (ht : fs.tree fuel [slash] 0 = some evs)
    (hall : ∀ j, j ≠ 0 → (fs.nodes j).active = true → (printed evs).count j = 1)
    (hw : fs.Way i cs) : (fs.nodes i).type = .dir → ∀ c ∈ cs, IsProper c := by
  induction hw with
  | root => exact fun _ => nofun
  | @child i p cs hp hactive hparent ih =>
    intro htype
    have hpdir := h.isDir_of_child hactive hparent
    have hproper := ih hpdir
    have hi := h.toLinked.ne_zero hparent
    have hname := h.name i hi hactive
    have honce := hall i hi hactive
    have hmem : i ∈ printed evs := List.count_pos_iff.mp (by omega)
    -- The call that prints the line of `i`, and the call for `i` in it.
    obtain ⟨fuel₁, ds, depth₁, dir, evs₁, hds, hwalk, -, hdir, ht₁, hsub₁⟩ :=
      @h.printed_visit fs i fuel [] 0 evs nofun ht hmem
    obtain rfl := Option.some.inj (hparent.symm.trans hdir)
    obtain ⟨fuel₂, evs₂, ht₂, hsub₂⟩ := visit_below hds hwalk ht₁ hactive hparent htype
    have hnot := not_printed_below (hsub₂.trans hsub₁) honce.le
    have hds₂ := isName_snoc hds hname
    have hself : fs.walk 0 (ds ++ [(fs.nodes i).name]) ≠ some p := fun hback =>
      hnot (printed_of_child hds₂ hback ht₂ hactive hparent)
    rw [walk_append, hwalk, Option.bind_some] at hself
    intro c hc
    rcases List.mem_append.mp hc with hc | hc
    · exact hproper c hc
    rw [List.mem_singleton.mp hc]
    constructor
    · intro hdot
      rw [hdot] at hself
      exact hself rfl
    · intro hdots
      cases hp with
      | root =>
        rw [hdots, walk_cons, if_neg (by decide), if_pos rfl, h.root.2.2] at hself
        exact hself rfl
      | @child _ q cs' hq hpactive hpparent =>
        -- The call for `i` goes through the directory above `p`, and into `p` again.
        have hup : fs.walk 0 (ds ++ [(fs.nodes i).name]) = some q := by
          rw [walk_append, hwalk, hdots, Option.bind_some, walk_cons, if_neg (by decide), if_pos rfl,
            hpparent]
          rfl
        obtain ⟨fuel₃, evs₃, ht₃, hsub₃⟩ := visit_below hds₂ hup ht₂ hpactive hpparent hpdir
        have hpname := h.name p (h.toLinked.ne_zero hpparent) hpactive
        have hpproper := hproper _ (List.mem_append_right cs' (List.mem_singleton_self _))
        have hdown : fs.walk 0 (ds ++ [(fs.nodes i).name] ++ [(fs.nodes p).name]) = some p := by
          rw [walk_append, hup, Option.bind_some, walk_single q hpproper.1 hpproper.2]
          exact h.child_eq hpactive hpparent
        have hagain := printed_of_child (isName_snoc hds₂ hpname) hdown ht₃ hactive hparent
        exact hnot ((printed_sublist hsub₃).subset (List.mem_cons_of_mem _ hagain))

/-- The path of every directory on a way of proper names is listed. -/
theorem Spelled.visit_way (h : fs.Spelled) (ht : fs.tree fuel [slash] 0 = some evs)
    (hw : fs.Way i cs) : (fs.nodes i).type = .dir → (∀ c ∈ cs, IsProper c) →
      ∃ fuel' depth evs', fs.tree fuel' (pathOf cs) depth = some evs' ∧ evs'.Sublist evs ∧
        (cs ≠ [] → TreeEvent.subpath (pathOf cs) ∈ evs) := by
  induction hw with
  | root => exact fun _ _ => ⟨fuel, 0, evs, ht, List.Sublist.refl _, fun hne => absurd rfl hne⟩
  | @child i p cs hp hactive hparent ih =>
    intro htype hproper
    have hcs : ∀ c ∈ cs, IsProper c := fun c hc => hproper c (List.mem_append_left _ hc)
    obtain ⟨fuel₁, depth₁, evs₁, ht₁, hsub₁, _⟩ := ih (h.isDir_of_child hactive hparent) hcs
    obtain ⟨fuel₂, evs₂, ht₂, hsub₂⟩ :=
      visit_below (hp.isName h) (h.walk_way hp hcs) ht₁ hactive hparent htype
    have hsub := hsub₂.trans hsub₁
    refine ⟨fuel₂, depth₁ + 1, evs₂, ht₂, ?_, fun _ => hsub.subset ?_⟩
    · exact ((List.sublist_cons_self _ _).trans (List.sublist_cons_self _ _)).trans hsub
    · exact List.mem_cons_of_mem _ List.mem_cons_self

/-- What a complete listing says about the ways. -/
theorem Spelled.waysWalkable (h : fs.Spelled) (hcomplete : fs.TreeComplete) : fs.WaysWalkable := by
  obtain ⟨fuel, evs, ht, hall, hshort⟩ := hcomplete
  intro i hactive
  have hway : ∃ cs, fs.Way i cs := by
    by_cases hi : i = 0
    · rw [hi]
      exact ⟨[], .root⟩
    · have honce := hall i hi hactive
      have hmem : i ∈ printed evs := List.count_pos_iff.mp (by omega)
      obtain ⟨_, ds, _, dir, _, _, hwalk, _, hdir, _, _⟩ :=
        @h.printed_visit fs i fuel [] 0 evs nofun ht hmem
      obtain ⟨bs, hbs, _, _⟩ := way_of_walk h.toLinked .root nofun hwalk
      exact ⟨_, .child hbs hactive hdir⟩
  obtain ⟨cs, hw⟩ := hway
  refine ⟨cs, hw, fun htype => ?_⟩
  have hproper := h.proper_of_once ht hall hw htype
  refine ⟨hproper, ?_⟩
  by_cases hnil : cs = []
  · rw [hnil]
    decide
  · obtain ⟨_, _, _, _, _, hsubpath⟩ := h.visit_way ht hw htype hproper
    have hlen := hshort _ (hsubpath hnil)
    unfold pathOf at hlen
    rw [if_neg hnil] at hlen
    exact hlen

/-! ## The ways give a complete listing -/

/-- A way has nodes all along: the part before its end leads to a directory. -/
theorem Way.above (h : fs.Linked) (hw : fs.Way x ds) : ∀ {bs : List (List UInt8)},
    ds = cs ++ bs → ∃ j, fs.Way j cs ∧ (bs = [] → j = x) ∧
      (bs ≠ [] → (fs.nodes j).type = .dir) := by
  induction hw with
  | root =>
    intro bs heq
    obtain ⟨rfl, rfl⟩ := List.append_eq_nil_iff.mp heq.symm
    exact ⟨0, .root, fun _ => rfl, fun hne => absurd rfl hne⟩
  | @child i p ds hp hactive hparent ih =>
    intro bs heq
    rcases List.eq_nil_or_concat' bs with rfl | ⟨bs, b, rfl⟩
    · rw [List.append_nil] at heq
      rw [← heq]
      exact ⟨i, .child hp hactive hparent, fun _ => rfl, fun hne => absurd rfl hne⟩
    · rw [← List.append_assoc] at heq
      obtain ⟨heq, _⟩ := List.append_inj' heq rfl
      obtain ⟨j, hj, hsame, hdir⟩ := ih heq
      refine ⟨j, hj, fun hne => absurd hne (by simp), fun _ => ?_⟩
      by_cases hnil : bs = []
      · rw [hsame hnil]
        exact h.isDir_of_child hactive hparent
      · exact hdir hnil

/-- A listing has each node of a set once, and short sub-paths. -/
structure Lists (evs : List TreeEvent) (nodes : Fin 64 → Prop) : Prop where
  nodup : (printed evs).Nodup
  mem : ∀ x, x ∈ printed evs ↔ nodes x
  short : ∀ p, TreeEvent.subpath p ∈ evs → p.length < ramfsMaxPath

theorem Lists.congr {nodes nodes' : Fin 64 → Prop} (h : Lists evs nodes)
    (heq : ∀ x, nodes x ↔ nodes' x) : Lists evs nodes' :=
  ⟨h.nodup, fun x => (h.mem x).trans (heq x), h.short⟩

/-- Listings of different nodes, one after the other. -/
theorem Lists.append {evs' : List TreeEvent} {nodes nodes' : Fin 64 → Prop} (h : Lists evs nodes)
    (h' : Lists evs' nodes') (hdisjoint : ∀ x, nodes x → ¬ nodes' x) :
    Lists (evs ++ evs') fun x => nodes x ∨ nodes' x where
  nodup := by
    rw [printed_append]
    refine h.nodup.append h'.nodup fun x hx hx' => ?_
    exact hdisjoint x ((h.mem x).mp hx) ((h'.mem x).mp hx')
  mem := by
    intro x
    rw [printed_append, List.mem_append, h.mem, h'.mem]
  short := by
    intro p hp
    rcases List.mem_append.mp hp with hp | hp
    · exact h.short p hp
    · exact h'.short p hp

/-- **The loop over the nodes lists what is below the entries**, if each entry that is a directory
is listed. -/
theorem Spelled.lists_entries (h : fs.Spelled) {is : List (Fin 64)} (hnodup : is.Nodup)
    (hentry : ∀ i, (fs.nodes i).active = true → (fs.nodes i).parent = some dir →
      ∃ evs, treeEntry fs visit dirPath depth dir i = some evs ∧
        Lists evs fun x => ∃ ns, fs.Way x (cs ++ (fs.nodes i).name :: ns)) :
    ∃ evs, treeEntries fs visit dirPath depth dir is = some evs ∧
      Lists evs fun x => ∃ i ∈ is, (fs.nodes i).active = true ∧ (fs.nodes i).parent = some dir ∧
        ∃ ns, fs.Way x (cs ++ (fs.nodes i).name :: ns) := by
  induction is with
  | nil =>
    refine ⟨[], rfl, List.nodup_nil, fun x => ⟨nofun, ?_⟩, nofun⟩
    rintro ⟨i, hi, _⟩
    cases hi
  | cons i is ih =>
    obtain ⟨hi, hnodup⟩ := List.nodup_cons.mp hnodup
    obtain ⟨evs', hrest, hlists'⟩ := ih hnodup
    by_cases hchild : (fs.nodes i).active = true ∧ (fs.nodes i).parent = some dir
    · obtain ⟨evs, hfirst, hlists⟩ := hentry i hchild.1 hchild.2
      refine ⟨evs ++ evs', ?_, (hlists.append hlists' ?_).congr fun x => ?_⟩
      · unfold treeEntries
        rw [hfirst, hrest]
        rfl
      · -- A node below two entries would have two ways.
        rintro x ⟨ns, hx⟩ ⟨j, hj, hactive, hparent, ms, hx'⟩
        have heq := hx.unique h.toLinked hx'
        have hname := (List.cons.inj (List.append_cancel_left heq)).1
        have hji := h.unique j i dir hactive hchild.1 hparent hchild.2 hname
        rw [hji] at hj
        exact hi hj
      · constructor
        · rintro (hx | ⟨j, hj, hx⟩)
          · exact ⟨i, List.mem_cons_self, hchild.1, hchild.2, hx⟩
          · exact ⟨j, List.mem_cons_of_mem _ hj, hx⟩
        · rintro ⟨j, hj, hx⟩
          rcases List.mem_cons.mp hj with rfl | hj
          · exact Or.inl hx.2.2
          · exact Or.inr ⟨j, hj, hx⟩
    · have hnone : treeEntry fs visit dirPath depth dir i = some [] := by
        unfold treeEntry
        rw [if_neg]
        rw [Bool.and_eq_true, beq_iff_eq]
        exact hchild
      refine ⟨evs', ?_, hlists'.congr fun x => ?_⟩
      · unfold treeEntries
        rw [hnone, hrest]
        rfl
      · constructor
        · rintro ⟨j, hj, hx⟩
          exact ⟨j, List.mem_cons_of_mem _ hj, hx⟩
        · rintro ⟨j, hj, hactive, hparent, hx⟩
          rcases List.mem_cons.mp hj with rfl | hj
          · exact absurd ⟨hactive, hparent⟩ hchild
          · exact ⟨j, hj, hactive, hparent, hx⟩

/-- One entry: its line, and what is below it if it is a directory. -/
theorem Spelled.lists_entry (h : fs.Spelled) (hw : fs.Way dir cs)
    (hactive : (fs.nodes i).active = true) (hparent : (fs.nodes i).parent = some dir)
    (hvisit : (fs.nodes i).type = .dir →
      (pathOf (cs ++ [(fs.nodes i).name])).length < ramfsMaxPath ∧
      ∃ evs, visit (pathOf (cs ++ [(fs.nodes i).name])) (depth + 1) = some evs ∧
        Lists evs fun x => ∃ n ns, fs.Way x (cs ++ [(fs.nodes i).name] ++ n :: ns)) :
    ∃ evs, treeEntry fs visit (pathOf cs) depth dir i = some evs ∧
      Lists evs fun x => ∃ ns, fs.Way x (cs ++ (fs.nodes i).name :: ns) := by
  have hi := Way.child hw hactive hparent
  have hassoc : ∀ ns, cs ++ (fs.nodes i).name :: ns = cs ++ [(fs.nodes i).name] ++ ns := by
    intro ns
    rw [List.append_assoc, List.singleton_append]
  unfold treeEntry
  rw [hactive, hparent, if_pos (by simp)]
  by_cases htype : (fs.nodes i).type = .dir
  · obtain ⟨hshort, evs, hrun, hlists⟩ := hvisit htype
    rw [if_pos htype, subPath_pathOf (hw.isName h), hrun]
    refine ⟨_, rfl, ?_, fun x => ?_, ?_⟩
    · refine List.nodup_cons.mpr ⟨fun hmem => ?_, hlists.nodup⟩
      obtain ⟨n, ns, hx⟩ := (hlists.mem i).mp hmem
      have heq := congrArg List.length (hi.unique h.toLinked hx)
      simp at heq
    · constructor
      · intro hx
        rcases List.mem_cons.mp hx with rfl | hx
        · exact ⟨[], hi⟩
        · obtain ⟨n, ns, hx⟩ := (hlists.mem x).mp hx
          rw [← hassoc] at hx
          exact ⟨n :: ns, hx⟩
      · rintro ⟨ns, hx⟩
        cases ns with
        | nil =>
          rw [h.node_unique hi hx]
          exact List.mem_cons_self
        | cons n ns =>
          rw [hassoc] at hx
          exact List.mem_cons_of_mem _ ((hlists.mem x).mpr ⟨n, ns, hx⟩)
    · intro p hp
      rcases List.mem_cons.mp hp with heq | hp
      · cases heq
      · rcases List.mem_cons.mp hp with heq | hp
        · cases heq
          exact hshort
        · exact hlists.short p hp
  · rw [if_neg htype]
    refine ⟨_, rfl, List.nodup_singleton i, fun x => ?_, ?_⟩
    · constructor
      · intro hx
        rw [List.mem_singleton.mp hx]
        exact ⟨[], hi⟩
      · rintro ⟨ns, hx⟩
        rw [hassoc] at hx
        obtain ⟨j, hj, hsame, hdir⟩ := hx.above h.toLinked rfl
        obtain rfl := h.node_unique hi hj
        -- Nothing is below a file.
        have hnil : ns = [] := by
          by_contra hne
          exact htype (hdir hne)
        rw [← hsame hnil]
        exact List.mem_cons_self
    · intro p hp
      cases List.mem_singleton.mp hp

/-- **A directory is listed**: each node below it once.  The induction is on the room that is left
in the sub-path. -/
theorem Spelled.lists_dir (h : fs.Spelled) (hways : fs.WaysWalkable) (room : ℕ) :
    ∀ {dir : Fin 64} {cs : List (List UInt8)} (depth : ℕ), fs.Way dir cs →
      (fs.nodes dir).type = .dir → ramfsMaxPath ≤ (Path.join cs).length + room →
      ∃ evs, fs.tree (room + 1) (pathOf cs) depth = some evs ∧
        Lists evs fun x => ∃ n ns, fs.Way x (cs ++ n :: ns) := by
  have hdirs : ∀ {i : Fin 64} {cs : List (List UInt8)}, fs.Way i cs → (fs.nodes i).type = .dir →
      (∀ c ∈ cs, IsProper c) ∧ (Path.join cs).length < ramfsMaxPath := by
    intro i cs hw htype
    obtain ⟨ds, hds, hwalkable⟩ := hways i (hw.active h.toLinked)
    rw [hw.unique h.toLinked hds] at hwalkable
    exact hwalkable htype
  induction room with
  | zero =>
    intro dir cs depth hw htype hroom
    have hlen := (hdirs hw htype).2
    omega
  | succ room ih =>
    intro dir cs depth hw htype hroom
    have hcs := hw.isName h
    rw [tree_succ hcs (h.walk_way hw (hdirs hw htype).1)]
    -- Each directory among the entries has a longer path, so there is less room below it.
    have hentry : ∀ i, (fs.nodes i).active = true → (fs.nodes i).parent = some dir →
        ∃ evs, treeEntry fs (fs.tree (room + 1)) (pathOf cs) depth dir i = some evs ∧
          Lists evs fun x => ∃ ns, fs.Way x (cs ++ (fs.nodes i).name :: ns) := by
      intro i hactive hparent
      refine h.lists_entry hw hactive hparent fun hdir => ?_
      have hi := Way.child hw hactive hparent
      have hshort := (hdirs hi hdir).2
      have hlen : (Path.join (cs ++ [(fs.nodes i).name])).length =
          (Path.join cs).length + ((fs.nodes i).name.length + 1) := by
        rw [Path.join_snoc, List.length_append, List.length_cons]
      have hpath : pathOf (cs ++ [(fs.nodes i).name]) = Path.join (cs ++ [(fs.nodes i).name]) :=
        if_neg (List.append_ne_nil_of_right_ne_nil _ (List.cons_ne_nil _ _))
      rw [← hpath] at hshort
      exact ⟨hshort, ih (depth + 1) hi hdir (by omega)⟩
    obtain ⟨evs, hentries, hlists⟩ := h.lists_entries (List.nodup_finRange 64) hentry
    refine ⟨evs, hentries, hlists.congr fun x => ?_⟩
    constructor
    · rintro ⟨i, _, _, _, ns, hx⟩
      exact ⟨_, ns, hx⟩
    · rintro ⟨n, ns, hx⟩
      have hsplit : cs ++ n :: ns = cs ++ [n] ++ ns := by
        rw [List.append_assoc, List.singleton_append]
      obtain ⟨i, hi, _, _⟩ := hx.above h.toLinked hsplit
      generalize hds : cs ++ [n] = ds at hi
      cases hi with
      | root => exact absurd hds (List.append_ne_nil_of_right_ne_nil _ (List.cons_ne_nil _ _))
      | @child _ q cs' hq hactive hparent =>
        obtain ⟨rfl, hname⟩ := List.append_inj' hds rfl
        obtain rfl := h.node_unique hw hq
        obtain rfl := List.singleton_inj.mp hname
        exact ⟨i, List.mem_finRange i, hactive, hparent, ns, hx⟩

/-- What the ways say about the listing. -/
theorem Spelled.treeComplete (h : fs.Spelled) (hways : fs.WaysWalkable) : fs.TreeComplete := by
  obtain ⟨evs, ht, hlists⟩ := h.lists_dir hways ramfsMaxPath 0 .root h.root.2.1 (Nat.le_add_left _ _)
  refine ⟨_, evs, ht, fun i hi hactive => ?_, hlists.short⟩
  apply List.count_eq_one_of_mem hlists.nodup
  obtain ⟨cs, hw, _⟩ := hways i hactive
  apply (hlists.mem i).mpr
  cases cs with
  | nil => exact absurd (h.node_unique .root hw) hi
  | cons n ns => exact ⟨n, ns, hw⟩

end

/-- **When the listing is complete.**  After every sequence of calls that stay inside their arrays:
exactly if every active node has a way from the root, and the way to each directory has proper names
only and makes a short path. -/
theorem treeComplete_iff {steps : List RamfsStep} (hinside : AllStayInside Ramfs.init steps) :
    (Ramfs.init.run steps).TreeComplete ↔ (Ramfs.init.run steps).WaysWalkable :=
  ⟨(spelled_run hinside).waysWalkable, (spelled_run hinside).treeComplete⟩

/-- One directory. -/
theorem treeComplete_a : (Ramfs.init.run [bareStep (.create pathA .dir)]).TreeComplete ↔
    (Ramfs.init.run [bareStep (.create pathA .dir)]).WaysWalkable :=
  treeComplete_iff (by with_unfolding_all decide)

/-- A directory `/.` is made. -/
def makeDot : List RamfsStep := [bareStep (.create [0x2F, 0x2E] .dir)]

/-- The path of this directory is found as the root, so the listing does not become complete. -/
theorem dot_listed_again :
    AllStayInside Ramfs.init makeDot ∧ ((Ramfs.init.run makeDot).nodes 1).type = .dir ∧
      (Ramfs.init.run makeDot).find (subPath [slash] ((Ramfs.init.run makeDot).nodes 1).name) =
        some 0 ∧
      ¬ (Ramfs.init.run makeDot).TreeComplete := by
  have hinside : AllStayInside Ramfs.init makeDot := by with_unfolding_all decide
  have htype : ((Ramfs.init.run makeDot).nodes 1).type = .dir := by with_unfolding_all decide
  have hactive : ((Ramfs.init.run makeDot).nodes 1).active = true := by with_unfolding_all decide
  have hparent : ((Ramfs.init.run makeDot).nodes 1).parent = some 0 := by with_unfolding_all decide
  have hname : ((Ramfs.init.run makeDot).nodes 1).name = [0x2E] := by with_unfolding_all decide
  refine ⟨hinside, htype, by with_unfolding_all decide, fun hcomplete => ?_⟩
  have h := spelled_run hinside
  obtain ⟨cs, hw, hdir⟩ := h.waysWalkable hcomplete 1 hactive
  rw [(Way.child .root hactive hparent).unique h.toLinked hw] at hdir
  have hproper := (hdir htype).1 _ List.mem_cons_self
  exact hproper.1 hname

end Ramfs

end Microkernel

/-
# FAT16: operations that return

An operation of the FAT16 driver returns exactly if the loops it comes to end.  The conditions
below follow the operations: the walk along a path, the search for a name, and for the operations
that write also the searches for free clusters, for a short name and for free slots, on the disk
as it is by then.
-/
import Microkernel.Fat16Halts

namespace Microkernel

open Rounds

/-! ## The operations -/

section

variable (info : Fat16Info)

/-- The scans of `navigate_to_dir` end, from cluster `c` on. -/
def WalkEnds (d : Disk) : ℕ → List (List UInt8) → Prop
  | _, [] => True
  | c, component :: rest => ReadEnds info d c ∧
      ∀ entries, Gives (fun n => readDir info n d c 128) entries →
        ∀ e, entries.find? (·.isNamed component) = some e → e.sfn.isDir = true →
          WalkEnds d e.sfn.clusterLo rest

/-- The scans of `fat16_list_dir` end. -/
def ListEnds (d : Disk) (path : List UInt8) : Prop :=
  WalkEnds info d 0 (components path) ∧
    ∀ c, Gives (fun n => navigateToDir info n d path) c → c ≠ 0xFFFF → ReadEnds info d c

/-- The scans end with which an operation looks for a name in a directory; it does so if the name
is not empty or `always`. -/
def LookupEnds (always : Bool) (d : Disk) (path : List UInt8) : Prop :=
  always = true ∨ (splitPath path).2 ≠ [] → WalkEnds info d 0 (components (splitPath path).1) ∧
    ∀ c, Gives (fun n => navigateToDir info n d (splitPath path).1) c → c ≠ 0xFFFF →
      FindEnds info d c (splitPath path).2

/-- The searches for the `n` clusters of a file end. -/
def AllocChainEnds : ℕ → Disk → ℕ → ℕ → Prop
  | 0, _, _, _ => True
  | n + 1, d, first, prev => AllocEnds info d ∧
      ∀ c d', Gives (fun n => fatAllocCluster info n d) (c, d') → c ≠ 0 →
        if first = 0 then AllocChainEnds n d' c c
        else AllocChainEnds n (fatWriteEntry info d' prev c) first c

/-- The searches for a short name that is free end, with `n` numbers to try from `seq` on. -/
def ShortNamesEnd (d : Disk) (c : ℕ) (filename : List UInt8) : ℕ → ℕ → Prop
  | 0, _ => True
  | n + 1, seq => FindEnds info d c (checkName (generateShortName filename seq)) ∧
      ∀ found, Gives (fun n => findEntryInDir info n d c (checkName (generateShortName filename seq)))
        found → found ≠ none → ShortNamesEnd d c filename n (seq + 1)

/-- The long-name slots of a new entry. -/
def newLfns (filename name11 : List UInt8) : List DirSlot :=
  if needsLfn filename then buildLfnEntries filename (lfnChecksum name11) else []

/-- The scans with which an entry is added to a directory end. -/
def AddEnds (d : Disk) (c : ℕ) (filename : List UInt8) : Prop :=
  (needsLfn filename = true → ShortNamesEnd info d c filename 99 1) ∧
    ∀ name11, Gives (fun n => newShortName info n d c filename) name11 →
      (needsLfn filename && decide (newLfns filename name11 = [])) = false →
        SlotsEnd info d c ((newLfns filename name11).length + 1)

/-- The loops of `fat16_write_file` end: on the disk it finds, on the disk without the old file,
and on the disk with the new data. -/
def WriteEnds (d : Disk) (path data : List UInt8) : Prop :=
  (splitPath path).2 ≠ [] → WalkEnds info d 0 (components (splitPath path).1) ∧
    ∀ c, Gives (fun n => navigateToDir info n d (splitPath path).1) c → c ≠ 0xFFFF →
      FindEnds info d c (splitPath path).2 ∧
      ∀ d₁, Gives (fun n => removeExisting info n d c (splitPath path).2) d₁ →
        AllocChainEnds info (clustersNeeded info data.length) d₁ 0 0 ∧
        ∀ first d₂, Gives (fun n => allocChainLoop info n (clustersNeeded info data.length) d₁ 0 0)
            (first, d₂) → first ≠ 0 →
          ∀ d₃ left, Gives (fun n => writeChain info n d₂ first data) (d₃, left) →
            AddEnds info d₃ c (splitPath path).2

/-- The disk of `fat16_mkdir` with the new directory. -/
def withDirectory (d : Disk) (cluster parent : ℕ) : Disk :=
  (d.writeRun (info.clusterToLba cluster) (fun _ _ => 0) info.sectorsPerCluster).write
    (info.clusterToLba cluster) (dotSector cluster parent)

/-- The loops of `fat16_mkdir` end: on the disk it finds, and on the disk with the new
directory. -/
def MkdirEnds (d : Disk) (path : List UInt8) : Prop :=
  (splitPath path).2 ≠ [] → WalkEnds info d 0 (components (splitPath path).1) ∧
    ∀ parent, Gives (fun n => navigateToDir info n d (splitPath path).1) parent →
      parent ≠ 0xFFFF → AllocEnds info d ∧
        ∀ cluster d₁, Gives (fun n => fatAllocCluster info n d) (cluster, d₁) → cluster ≠ 0 →
          AddEnds info (withDirectory info d₁ cluster parent) parent (splitPath path).2

end

section

variable {info : Fat16Info} {d : Disk}

theorem returns_navigateLoop (cs : List (List UInt8)) : ∀ {c : ℕ},
    Returns (fun n => navigateLoop info n d c cs) ↔ WalkEnds info d c cs := by
  induction cs with
  | nil => exact ⟨fun _ => trivial, fun _ => returns_some _⟩
  | cons component rest ih =>
    intro c
    unfold navigateLoop WalkEnds
    rw [returns_bind (steady_readDir 128) fun entries => ?_, returns_readDir]
    · refine and_congr_right fun _ => forall_congr' fun entries => forall_congr' fun _ => ?_
      cases entries.find? (·.isNamed component) with
      | none => exact ⟨fun _ e he => (nomatch he), fun _ => returns_some _⟩
      | some e =>
        dsimp only
        cases hdir : e.sfn.isDir with
        | false =>
          refine ⟨fun _ e' he hd => ?_, fun _ => returns_some _⟩
          cases he
          rw [hdir] at hd
          cases hd
        | true =>
          simp only [if_true]
          rw [ih]
          constructor
          · rintro h e' he -
            cases he
            exact h
          · exact fun h => h e rfl hdir
    · cases entries.find? (·.isNamed component) with
      | none => exact steady_const _
      | some e =>
        refine steady_ite (fun n m a hle h => ?_) (steady_const _)
        exact navigateLoop_mono hle rest h

theorem returns_navigateToDir {path : List UInt8} :
    Returns (fun n => navigateToDir info n d path) ↔ WalkEnds info d 0 (components path) :=
  returns_navigateLoop _

/-- An operation that goes on in the directory it navigates to. -/
theorem returns_inDir {α : Type} {path : List UInt8} {r : α} {f : ℕ → ℕ → Option α} {P : ℕ → Prop}
    (hsteady : ∀ c, Steady fun n => f n c) (hf : ∀ c, Returns (fun n => f n c) ↔ P c) :
    Returns (fun n => (navigateToDir info n d path).bind fun c =>
      if c = 0xFFFF then some r else f n c) ↔
    WalkEnds info d 0 (components path) ∧
      ∀ c, Gives (fun n => navigateToDir info n d path) c → c ≠ 0xFFFF → P c := by
  rw [returns_bind (steady_navigateToDir path)
    fun c => steady_ite (steady_const (some r)) (hsteady c), returns_navigateToDir]
  refine and_congr_right fun _ => forall_congr' fun c => forall_congr' fun _ => ?_
  by_cases hc : c = 0xFFFF
  · simp only [if_pos hc]
    exact ⟨fun _ h => absurd hc h, fun _ => returns_some r⟩
  · simp only [if_neg hc]
    rw [hf c]
    exact ⟨fun h _ => h, fun h => h hc⟩

/-- **`fat16_list_dir` returns** exactly if its scans end. -/
theorem returns_fat16ListDir {path : List UInt8} {max : ℕ} :
    Returns (fun n => fat16ListDir info n d path max) ↔ ListEnds info d path := by
  unfold fat16ListDir ListEnds
  exact returns_inDir (fun c => (steady_readDir 128).map _) fun c =>
    returns_map.trans returns_readDir

/-- An operation that looks a name up and then does something that returns. -/
theorem returns_lookup {α : Type} {path name : List UInt8} {r : α}
    {k : ℕ → Option (SlotPos × DirSlot) → Option α} (hsteady : ∀ found, Steady fun n => k n found)
    (hk : ∀ found, Returns fun n => k n found) :
    Returns (fun n => (navigateToDir info n d path).bind fun c =>
      if c = 0xFFFF then some r else (findEntryInDir info n d c name).bind (k n)) ↔
    WalkEnds info d 0 (components path) ∧
      ∀ c, Gives (fun n => navigateToDir info n d path) c → c ≠ 0xFFFF → FindEnds info d c name := by
  refine returns_inDir (fun c => (steady_findEntryInDir name).bind hsteady) fun c => ?_
  rw [returns_bind (steady_findEntryInDir name) hsteady, returns_findEntryInDir]
  exact ⟨fun h => h.1, fun h => ⟨h, fun found _ => hk found⟩⟩

/-- **`fat16_read_file` returns** exactly if its scans end. -/
theorem returns_fat16ReadFile (hspc : 0 < info.sectorsPerCluster) {path : List UInt8} {max : ℕ} :
    Returns (fun n => fat16ReadFile info n d path max) ↔ LookupEnds info false d path := by
  unfold fat16ReadFile LookupEnds
  dsimp only
  by_cases hname : (splitPath path).2 = []
  · simp only [if_pos hname]
    exact ⟨fun _ h => absurd hname (h.resolve_left Bool.false_ne_true), fun _ => returns_some _⟩
  · simp only [if_neg hname]
    refine (returns_lookup ?_ ?_).trans ⟨fun h _ => h, fun h => h (Or.inr hname)⟩
    · rintro (_ | ⟨p, entry⟩)
      · exact steady_const _
      · exact steady_ite (steady_const _) (steady_readChain.map _)
    · rintro (_ | ⟨p, entry⟩)
      · exact returns_some _
      · dsimp only
        by_cases hdir : entry.isDir = true
        · simp only [if_pos hdir]
          exact returns_some _
        · simp only [if_neg hdir]
          exact returns_map.mpr (returns_readChain hspc _ le_rfl)

/-- **`fat16_delete_file` returns** exactly if its scans end. -/
theorem returns_fat16DeleteFile (hsize : info.numFats > 1 → 0 < info.fatSizeSectors)
    {path : List UInt8} :
    Returns (fun n => fat16DeleteFile info n d path) ↔ LookupEnds info true d path := by
  unfold fat16DeleteFile LookupEnds
  dsimp only
  refine (returns_lookup ?_ ?_).trans ⟨fun h _ => h, fun h => h (Or.inl rfl)⟩
  · rintro (_ | ⟨p, entry⟩)
    · exact steady_const _
    · exact (steady_ite (steady_fatFreeChain d _) (steady_const _)).map _
  · rintro (_ | ⟨p, entry⟩)
    · exact returns_some _
    · dsimp only
      rw [returns_map]
      by_cases hcluster : 2 ≤ entry.clusterLo
      · simp only [if_pos hcluster]
        exact returns_fatFreeChain hsize d _
      · simp only [if_neg hcluster]
        exact returns_some _

/-! ## Writing -/

theorem steady_allocChainLoop (n : ℕ) : ∀ (d : Disk) (first prev : ℕ),
    Steady fun k => allocChainLoop info k n d first prev := by
  induction n with
  | zero => exact fun d first prev => steady_const _
  | succ n ih =>
    intro d first prev
    refine steady_fatAllocCluster.bind ?_
    rintro ⟨c, d'⟩
    refine steady_ite (steady_ite (steady_const _) ((steady_fatFreeChain d' first).map _)) ?_
    exact steady_ite (ih d' c c) (ih (fatWriteEntry info d' prev c) first c)

/-- **Allocating the clusters of a file returns** exactly if the searches end. -/
theorem returns_allocChainLoop (hsize : info.numFats > 1 → 0 < info.fatSizeSectors) (n : ℕ) :
    ∀ {d : Disk} {first prev : ℕ}, Returns (fun k => allocChainLoop info k n d first prev) ↔
      AllocChainEnds info n d first prev := by
  induction n with
  | zero => exact ⟨fun _ => trivial, fun _ => returns_some _⟩
  | succ n ih =>
    intro d first prev
    unfold allocChainLoop AllocChainEnds
    rw [returns_bind steady_fatAllocCluster, returns_fatAllocCluster]
    · refine and_congr_right fun _ => ?_
      rw [Prod.forall]
      refine forall_congr' fun c => forall_congr' fun d' => forall_congr' fun _ => ?_
      dsimp only
      by_cases hc : c = 0
      · simp only [if_pos hc]
        refine ⟨fun _ h => absurd hc h, fun _ => ?_⟩
        by_cases hfirst : first = 0
        · simp only [if_pos hfirst]
          exact returns_some _
        · simp only [if_neg hfirst]
          exact returns_map.mpr (returns_fatFreeChain hsize d' first)
      · simp only [if_neg hc]
        by_cases hfirst : first = 0
        · simp only [if_pos hfirst]
          rw [ih]
          exact ⟨fun h _ => h, fun h => h hc⟩
        · simp only [if_neg hfirst]
          rw [ih]
          exact ⟨fun h _ => h, fun h => h hc⟩
    · rintro ⟨c, d'⟩
      refine steady_ite (steady_ite (steady_const _) ((steady_fatFreeChain d' first).map _)) ?_
      exact steady_ite (steady_allocChainLoop n d' c c)
        (steady_allocChainLoop n (fatWriteEntry info d' prev c) first c)

theorem steady_shortNameLoop (c : ℕ) (filename : List UInt8) (n : ℕ) : ∀ seq,
    Steady fun k => shortNameLoop info k d c filename n seq := by
  induction n with
  | zero => exact fun seq => steady_const _
  | succ n ih =>
    intro seq
    exact (steady_findEntryInDir _).bind fun found => steady_ite (steady_const _) (ih (seq + 1))

/-- **The search for a short name returns** exactly if its scans end. -/
theorem returns_shortNameLoop {c : ℕ} {filename : List UInt8} (n : ℕ) : ∀ {seq : ℕ},
    Returns (fun k => shortNameLoop info k d c filename n seq) ↔
      ShortNamesEnd info d c filename n seq := by
  induction n with
  | zero => exact ⟨fun _ => trivial, fun _ => returns_some _⟩
  | succ n ih =>
    intro seq
    unfold shortNameLoop ShortNamesEnd
    dsimp only
    rw [returns_bind (steady_findEntryInDir _) fun found =>
      steady_ite (steady_const _) (steady_shortNameLoop c filename n (seq + 1)),
      returns_findEntryInDir]
    refine and_congr_right fun _ => forall_congr' fun found => forall_congr' fun _ => ?_
    by_cases hfound : found = none
    · simp only [if_pos hfound]
      exact ⟨fun _ h => absurd hfound h, fun _ => returns_some _⟩
    · simp only [if_neg hfound]
      rw [ih]
      exact ⟨fun h _ => h, fun h => h hfound⟩

theorem steady_newShortName (c : ℕ) (filename : List UInt8) :
    Steady fun n => newShortName info n d c filename :=
  steady_ite (steady_shortNameLoop c filename 99 1) (steady_const _)

/-- What `addEntry` does with the slots that were found. -/
theorem addEntry_eq (n c : ℕ) (filename : List UInt8) (attr : UInt8) (first size : ℕ) :
    addEntry info n d c filename attr first size =
      (newShortName info n d c filename).bind fun name11 =>
        if (needsLfn filename && decide (newLfns filename name11 = [])) = true then
          (fatFreeChain info n d first).map fun d => (false, d)
        else (findFreeDirSlots info n d c ((newLfns filename name11).length + 1)).bind fun slot =>
          slot.elim ((fatFreeChain info n d first).map fun d => (false, d)) fun p =>
            some (true, writeDirEntries d p (newLfns filename name11 ++
              [DirSlot.ofEntry name11 attr first size])) := by
  apply congrArg (Option.bind _)
  funext name11
  apply if_congr Iff.rfl rfl
  apply congrArg (Option.bind _)
  funext slot
  cases slot <;> rfl

theorem steady_addEntry (c : ℕ) (filename : List UInt8) (attr : UInt8) (first size : ℕ) :
    Steady fun n => addEntry info n d c filename attr first size := by
  refine (steady_newShortName c filename).bind fun name11 => ?_
  refine steady_ite ((steady_fatFreeChain d first).map _) ((steady_findFreeDirSlots _).bind ?_)
  rintro (_ | p)
  · exact (steady_fatFreeChain d first).map _
  · exact steady_const _

/-- **Adding an entry returns** exactly if its scans end. -/
theorem returns_addEntry (hsize : info.numFats > 1 → 0 < info.fatSizeSectors) {c : ℕ}
    {filename : List UInt8} {attr : UInt8} {first size : ℕ} :
    Returns (fun n => addEntry info n d c filename attr first size) ↔ AddEnds info d c filename := by
  have hslot : ∀ (name11 : List UInt8) (slot : Option SlotPos), Steady fun n =>
      slot.elim ((fatFreeChain info n d first).map fun d => (false, d)) fun p =>
        some (true, writeDirEntries d p (newLfns filename name11 ++
          [DirSlot.ofEntry name11 attr first size])) := by
    rintro name11 (_ | p)
    · exact (steady_fatFreeChain d first).map _
    · exact steady_const _
  simp only [addEntry_eq]
  rw [returns_bind (steady_newShortName c filename) fun name11 =>
    steady_ite ((steady_fatFreeChain d first).map _)
      ((steady_findFreeDirSlots _).bind (hslot name11))]
  unfold AddEnds
  refine and_congr ?_ (forall_congr' fun name11 => forall_congr' fun _ => ?_)
  · unfold newShortName
    by_cases hlfn : needsLfn filename = true
    · simp only [if_pos hlfn]
      rw [returns_shortNameLoop]
      exact ⟨fun h _ => h, fun h => h hlfn⟩
    · simp only [if_neg hlfn]
      exact ⟨fun _ h => absurd h hlfn, fun _ => returns_some _⟩
  · cases hnone : needsLfn filename && decide (newLfns filename name11 = []) with
    | true =>
      simp only [if_true]
      exact ⟨fun _ h => (nomatch h), fun _ => returns_map.mpr (returns_fatFreeChain hsize d first)⟩
    | false =>
      simp only [if_neg Bool.false_ne_true]
      rw [returns_bind (steady_findFreeDirSlots _) (hslot name11), returns_findFreeDirSlots]
      refine ⟨fun h _ => h.1, fun h => ⟨h trivial, ?_⟩⟩
      rintro (_ | p) -
      · exact returns_map.mpr (returns_fatFreeChain hsize d first)
      · exact returns_some _

theorem steady_removeExisting (c : ℕ) (filename : List UInt8) :
    Steady fun n => removeExisting info n d c filename := by
  refine (steady_findEntryInDir filename).bind ?_
  rintro (_ | ⟨p, existing⟩)
  · exact steady_const _
  · exact steady_ite (steady_const _) ((steady_fatFreeChain d _).map _)

/-- Removing the old file returns exactly if the search for it ends. -/
theorem returns_removeExisting (hsize : info.numFats > 1 → 0 < info.fatSizeSectors) {c : ℕ}
    {filename : List UInt8} :
    Returns (fun n => removeExisting info n d c filename) ↔ FindEnds info d c filename := by
  unfold removeExisting
  rw [returns_bind (steady_findEntryInDir filename), returns_findEntryInDir]
  · refine ⟨fun h => h.1, fun h => ⟨h, ?_⟩⟩
    rintro (_ | ⟨p, existing⟩) -
    · exact returns_some _
    · dsimp only
      by_cases hdir : existing.isDir = true
      · simp only [if_pos hdir]
        exact returns_some _
      · simp only [if_neg hdir]
        exact returns_map.mpr (returns_fatFreeChain hsize d _)
  · rintro (_ | ⟨p, existing⟩)
    · exact steady_const _
    · exact steady_ite (steady_const _) ((steady_fatFreeChain d _).map _)

/-- **`fat16_write_file` returns** exactly if its loops end. -/
theorem returns_fat16WriteFile (hspc : 0 < info.sectorsPerCluster)
    (hsize : info.numFats > 1 → 0 < info.fatSizeSectors) {path data : List UInt8} :
    Returns (fun n => fat16WriteFile info n d path data) ↔ WriteEnds info d path data := by
  unfold fat16WriteFile WriteEnds
  dsimp only
  by_cases hname : (splitPath path).2 = []
  · simp only [if_pos hname]
    exact ⟨fun _ h => absurd hname h, fun _ => returns_some _⟩
  · simp only [if_neg hname]
    refine (returns_inDir (P := fun c => FindEnds info d c (splitPath path).2 ∧
      ∀ d₁, Gives (fun n => removeExisting info n d c (splitPath path).2) d₁ →
        AllocChainEnds info (clustersNeeded info data.length) d₁ 0 0 ∧
        ∀ first d₂, Gives (fun n => allocChainLoop info n (clustersNeeded info data.length) d₁ 0 0)
            (first, d₂) → first ≠ 0 →
          ∀ d₃ left, Gives (fun n => writeChain info n d₂ first data) (d₃, left) →
            AddEnds info d₃ c (splitPath path).2) ?_ ?_).trans ⟨fun h _ => h, fun h => h hname⟩
    · intro c
      refine (steady_removeExisting c _).bind fun d₁ => (steady_allocChainLoop _ d₁ 0 0).bind ?_
      rintro ⟨first, d₂⟩
      refine steady_ite (steady_const _) ((steady_writeChain d₂ first data).bind ?_)
      rintro ⟨d₃, left⟩
      exact (steady_addEntry c _ _ _ _).map _
    · intro c
      rw [returns_bind (steady_removeExisting c _), returns_removeExisting hsize]
      · refine and_congr_right fun _ => forall_congr' fun d₁ => forall_congr' fun _ => ?_
        rw [returns_bind (steady_allocChainLoop _ d₁ 0 0), returns_allocChainLoop hsize]
        · rw [Prod.forall]
          refine and_congr_right fun _ => forall_congr' fun first => forall_congr' fun d₂ =>
            forall_congr' fun _ => ?_
          dsimp only
          by_cases hfirst : first = 0
          · simp only [if_pos hfirst]
            exact ⟨fun _ h => absurd hfirst h, fun _ => returns_some _⟩
          · simp only [if_neg hfirst]
            rw [returns_bind (steady_writeChain d₂ first data), Prod.forall]
            · constructor
              · rintro ⟨-, h⟩ - d₃ left hgives
                exact (returns_addEntry hsize).mp (returns_map.mp (h d₃ left hgives))
              · intro h
                refine ⟨returns_writeChain hspc _ le_rfl, fun d₃ left hgives => ?_⟩
                exact returns_map.mpr ((returns_addEntry hsize).mpr (h hfirst d₃ left hgives))
            · rintro ⟨d₃, left⟩
              exact (steady_addEntry c _ _ _ _).map _
        · rintro ⟨first, d₂⟩
          refine steady_ite (steady_const _) ((steady_writeChain d₂ first data).bind ?_)
          rintro ⟨d₃, left⟩
          exact (steady_addEntry c _ _ _ _).map _
      · intro d₁
        refine (steady_allocChainLoop _ d₁ 0 0).bind ?_
        rintro ⟨first, d₂⟩
        refine steady_ite (steady_const _) ((steady_writeChain d₂ first data).bind ?_)
        rintro ⟨d₃, left⟩
        exact (steady_addEntry c _ _ _ _).map _

/-- **`fat16_mkdir` returns** exactly if its loops end. -/
theorem returns_fat16Mkdir (hsize : info.numFats > 1 → 0 < info.fatSizeSectors)
    {path : List UInt8} :
    Returns (fun n => fat16Mkdir info n d path) ↔ MkdirEnds info d path := by
  unfold fat16Mkdir MkdirEnds
  dsimp only
  by_cases hname : (splitPath path).2 = []
  · simp only [if_pos hname]
    exact ⟨fun _ h => absurd hname h, fun _ => returns_some _⟩
  · simp only [if_neg hname]
    refine (returns_inDir (P := fun parent => AllocEnds info d ∧
      ∀ cluster d₁, Gives (fun n => fatAllocCluster info n d) (cluster, d₁) → cluster ≠ 0 →
        AddEnds info (withDirectory info d₁ cluster parent) parent (splitPath path).2)
      ?_ ?_).trans ⟨fun h _ => h, fun h => h hname⟩
    · intro parent
      refine steady_fatAllocCluster.bind ?_
      rintro ⟨cluster, d₁⟩
      exact steady_ite (steady_const _) ((steady_addEntry parent _ _ _ _).map _)
    · intro parent
      rw [returns_bind steady_fatAllocCluster, returns_fatAllocCluster]
      · rw [Prod.forall]
        refine and_congr_right fun _ => forall_congr' fun cluster => forall_congr' fun d₁ =>
          forall_congr' fun _ => ?_
        dsimp only
        by_cases hcluster : cluster = 0
        · simp only [if_pos hcluster]
          exact ⟨fun _ h => absurd hcluster h, fun _ => returns_some _⟩
        · simp only [if_neg hcluster]
          rw [returns_map, returns_addEntry hsize]
          exact ⟨fun h _ => h, fun h => h hcluster⟩
      · rintro ⟨cluster, d₁⟩
        exact steady_ite (steady_const _) ((steady_addEntry parent _ _ _ _).map _)

end

/-! ## All operations -/

/-- A call of one of the operations. -/
inductive Fat16Call where
  | listDir (path : List UInt8) (max : ℕ)
  | readFile (path : List UInt8) (max : ℕ)
  | writeFile (path data : List UInt8)
  | deleteFile (path : List UInt8)
  | mkdir (path : List UInt8)

/-- The call returns: some number of rounds suffices. -/
def Fat16Call.Returns (info : Fat16Info) (d : Disk) : Fat16Call → Prop
  | .listDir path max => Rounds.Returns fun n => fat16ListDir info n d path max
  | .readFile path max => Rounds.Returns fun n => fat16ReadFile info n d path max
  | .writeFile path data => Rounds.Returns fun n => fat16WriteFile info n d path data
  | .deleteFile path => Rounds.Returns fun n => fat16DeleteFile info n d path
  | .mkdir path => Rounds.Returns fun n => fat16Mkdir info n d path

/-- The loops that the call comes to end. -/
def Fat16Call.LoopsEnd (info : Fat16Info) (d : Disk) : Fat16Call → Prop
  | .listDir path _ => ListEnds info d path
  | .readFile path _ => LookupEnds info false d path
  | .writeFile path data => WriteEnds info d path data
  | .deleteFile path => LookupEnds info true d path
  | .mkdir path => MkdirEnds info d path

theorem fatSize_pos_of_mount {boot : Disk} {info : Fat16Info} (h : fat16Mount boot = some info) :
    0 < info.fatSizeSectors := by
  unfold fat16Mount at h
  dsimp only at h
  split_ifs at h with h₁ h₂ h₃ h₄ h₅ <;> cases h <;> exact Nat.pos_of_ne_zero h₄

/-- A small volume: the root directory has one entry, the directory `D`, whose cluster is the next
one of its own chain and holds deleted entries only. -/
def roundDisk : Disk := fun s =>
  match s with
  | 0 => fun x => match x with
    | 12 => 2 | 13 => 1 | 14 => 1 | 16 => 1 | 17 => 16 | 19 => 100 | 22 => 1
    | 510 => 0x55 | 511 => 0xAA | _ => 0
  | 1 => fun x => if x % 2 = 0 then 2 else 0
  | 2 => fun x => match x with
    | 0 => 0x44 | 11 => 0x10 | 26 => 2 | x => if x < 11 then 0x20 else 0
  | _ => fun _ => 0xE5

/-- What the mount of it gives. -/
def roundInfo : Fat16Info := (fat16Mount roundDisk).get (by decide)

theorem mount_roundDisk : fat16Mount roundDisk = some roundInfo := (Option.some_get _).symm

/-- A scan goes on over deleted entries. -/
theorem foldUntil_of_deleted {ρ τ : Type} {ended : τ → ρ} {found : τ → SlotPos → ExtEntry → ρ ⊕ τ}
    {l : List (SlotPos × DirSlot)} (h : ∀ p ∈ l, p.2.isEnd = false ∧ p.2.isDeleted = true) :
    ∀ st, ∃ st', foldUntil (visitEntry ended found) l st = .inr st' := by
  induction l with
  | nil => exact fun st => ⟨st, rfl⟩
  | cons p l ih =>
    intro st
    obtain ⟨hend, hdeleted⟩ := h p List.mem_cons_self
    have hvisit : visitEntry ended found st p = .inr (st.1, none) := by
      unfold visitEntry
      simp only [hend, hdeleted, Bool.false_eq_true, if_false, if_true]
    unfold foldUntil
    rw [hvisit]
    exact ih (fun q hq => h q (List.mem_cons_of_mem _ hq)) _

theorem chainAt_round (k : ℕ) : chainAt roundInfo roundDisk 2 k = 2 := by
  have hnext : fatReadEntry roundInfo roundDisk 2 = 2 := by decide
  induction k with
  | zero => rfl
  | succ k ih =>
    unfold chainAt
    rw [hnext]
    exact ih

theorem deleted_of_mem_chainSlots (k : ℕ) : ∀ p ∈ chainSlots roundInfo roundDisk 2 k,
    p.2.isEnd = false ∧ p.2.isDeleted = true := by
  have hnext : fatReadEntry roundInfo roundDisk 2 = 2 := by decide
  induction k with
  | zero =>
    intro p hp
    cases hp
  | succ k ih =>
    intro p hp
    unfold chainSlots at hp
    rw [hnext] at hp
    rcases List.mem_append.mp hp with hp | hp
    · obtain ⟨i, -, rfl⟩ := List.mem_map.mp hp
      have hstart : roundInfo.clusterToLba 2 = 3 := by decide
      have hsector : roundDisk (3 + i / 16) = fun _ => 0xE5 := by
        rw [Nat.add_comm]
        rfl
      dsimp only
      unfold slotAt slotPos
      rw [hstart, hsector]
      exact ⟨rfl, rfl⟩
    · exact ih p hp

end Microkernel

/-
# FAT16: directories in order

What the readers of a directory depend on: the sectors of the root directory, or the entries and
the sectors of the clusters of its chain.  On two disks that agree on the clusters in use the
driver finds the same directories and the same entries, if these directories are chains of
clusters in use.
-/
import Microkernel.Fat16Table

namespace Microkernel

open Rounds

/-! ## Chains in use -/

/-- A cluster of the volume that is not free. -/
def Occupied (info : Fat16Info) (d : Disk) (x : ℕ) : Prop :=
  2 ≤ x ∧ x < info.totalClusters + 2 ∧ fatReadEntry info d x ≠ 0

/-- The directory is the root, or a chain with an end all of whose clusters are in `used`. -/
def DirWithin (info : Fat16Info) (d : Disk) (used : ℕ → Prop) (c : ℕ) : Prop :=
  c = 0 ∨ ∃ l, FatChain info d c l ∧ ∀ x ∈ l, used x

/-- The directories that `navigate_to_dir` comes to are in order, from cluster `c` on. -/
def WalkInOrder (info : Fat16Info) (d : Disk) : ℕ → List (List UInt8) → Prop
  | c, [] => DirWithin info d (Occupied info d) c
  | c, component :: rest => DirWithin info d (Occupied info d) c ∧
      ∀ entries, Gives (fun n => readDir info n d c 128) entries →
        ∀ e, entries.find? (·.isNamed component) = some e → e.sfn.isDir = true →
          WalkInOrder info d e.sfn.clusterLo rest

/-- The disks agree on the root directory and on the clusters in `used`. -/
structure AgreeOn (info : Fat16Info) (used : ℕ → Prop) (d d' : Disk) : Prop where
  root : ∀ i < info.rootDirSectors, d' (info.rootDirLba + i) = d (info.rootDirLba + i)
  entry : ∀ x, used x → fatReadEntry info d' x = fatReadEntry info d x
  sectors : ∀ x, used x → ∀ i < info.sectorsPerCluster,
    d' (info.clusterToLba x + i) = d (info.clusterToLba x + i)

/-! ## Scans -/

theorem foldUntil_congr {α ρ σ : Type} {visit visit' : σ → α → ρ ⊕ σ} {l : List α}
    (h : ∀ a ∈ l, ∀ st, visit' st a = visit st a) (st : σ) :
    foldUntil visit' l st = foldUntil visit l st := by
  induction l generalizing st with
  | nil => rfl
  | cons a l ih =>
    unfold foldUntil
    rw [h a List.mem_cons_self]
    cases visit st a with
    | inl r => rfl
    | inr st' => exact ih (fun b hb => h b (List.mem_cons_of_mem _ hb)) st'

/-- A loop that returns early does so at an element. -/
theorem exists_of_foldUntil {α ρ σ : Type} {visit : σ → α → ρ ⊕ σ} {l : List α} {st : σ} {r : ρ}
    (h : foldUntil visit l st = .inl r) : ∃ a ∈ l, ∃ st, visit st a = .inl r := by
  induction l generalizing st with
  | nil => cases h
  | cons a l ih =>
    unfold foldUntil at h
    cases hvisit : visit st a with
    | inl r' =>
      rw [hvisit] at h
      cases h
      exact ⟨a, List.mem_cons_self, st, hvisit⟩
    | inr st' =>
      rw [hvisit] at h
      obtain ⟨b, hb, hst⟩ := ih h
      exact ⟨b, List.mem_cons_of_mem _ hb, hst⟩

section

variable {info : Fat16Info} {used : ℕ → Prop} {d d' d'' : Disk} {c n : ℕ}

theorem AgreeOn.trans (h : AgreeOn info used d d') (h' : AgreeOn info used d' d'') :
    AgreeOn info used d d'' :=
  ⟨fun i hi => (h'.root i hi).trans (h.root i hi), fun x hx => (h'.entry x hx).trans (h.entry x hx),
    fun x hx i hi => (h'.sectors x hx i hi).trans (h.sectors x hx i hi)⟩

theorem FatChain.congr {l : List ℕ} (h : FatChain info d c l)
    (heq : ∀ x ∈ l, fatReadEntry info d' x = fatReadEntry info d x) : FatChain info d' c l :=
  LinkedChain.congr h heq

/-- A directory stays in order on disks with the same entries of its clusters. -/
theorem DirWithin.congr {used' : ℕ → Prop} (h : DirWithin info d used c)
    (heq : ∀ x, used x → fatReadEntry info d' x = fatReadEntry info d x)
    (hle : ∀ x, used x → used' x) : DirWithin info d' used' c := by
  rcases h with hc | ⟨l, hl, hused⟩
  · exact Or.inl hc
  · exact Or.inr ⟨l, hl.congr fun x hx => heq x (hused x hx), fun x hx => hle x (hused x hx)⟩

theorem scanSectors_congr {ρ σ : Type} {visit : σ → SlotPos × DirSlot → ρ ⊕ σ} {start : ℕ}
    (h : ∀ i < n, d' (start + i) = d (start + i)) (st : σ) :
    scanSectors visit d' start n st = scanSectors visit d start n st := by
  unfold scanSectors
  apply foldUntil_congr
  intro i hi st
  have hsector : i / 16 < n := by
    have hlt := List.mem_range.mp hi
    omega
  unfold slotAt slotPos
  rw [h _ hsector]

/-- **A scan of a directory** gives the same on disks that agree on its clusters. -/
theorem scanDir_agree {ρ σ : Type} {visit : σ → SlotPos × DirSlot → ρ ⊕ σ}
    (h : AgreeOn info used d d') (hdir : DirWithin info d used c) (fuel : ℕ) (st : σ) :
    scanDir visit info d' fuel c st = scanDir visit info d fuel c st := by
  unfold scanDir
  split_ifs with hc
  · rw [scanSectors_congr h.root]
  · obtain ⟨l, hl, hused⟩ := hdir.resolve_left hc
    clear hc hdir
    induction hl generalizing fuel st with
    | @last c hend =>
      have hcused := hused c List.mem_cons_self
      cases fuel with
      | zero => rfl
      | succ fuel =>
        unfold scanChain
        rw [scanSectors_congr (h.sectors c hcused), h.entry c hcused]
        -- The next cluster ends the chain on both disks.
        have hstop : ∀ st', scanChain visit info d' fuel (fatReadEntry info d c) st' =
            scanChain visit info d fuel (fatReadEntry info d c) st' := by
          intro st'
          cases fuel with
          | zero => rfl
          | succ fuel =>
            unfold scanChain
            rw [if_neg (by rw [hend]; exact Bool.false_ne_true),
              if_neg (by rw [hend]; exact Bool.false_ne_true)]
        simp only [hstop]
    | @cons c l _ _ ih =>
      have hcused := hused c List.mem_cons_self
      have ih := fun fuel st => ih fuel st fun x hx => hused x (List.mem_cons_of_mem _ hx)
      cases fuel with
      | zero => rfl
      | succ fuel =>
        unfold scanChain
        rw [scanSectors_congr (h.sectors c hcused), h.entry c hcused]
        simp only [ih]

theorem readDir_agree (h : AgreeOn info used d d') (hdir : DirWithin info d used c) (max : ℕ) :
    readDir info n d' c max = readDir info n d c max := by
  unfold readDir
  rw [scanDir_agree h hdir]

theorem findEntryInDir_agree (h : AgreeOn info used d d') (hdir : DirWithin info d used c)
    (name : List UInt8) : findEntryInDir info n d' c name = findEntryInDir info n d c name := by
  unfold findEntryInDir
  rw [scanDir_agree h hdir]

theorem findFreeDirSlots_agree (h : AgreeOn info used d d') (hdir : DirWithin info d used c)
    (count : ℕ) : findFreeDirSlots info n d' c count = findFreeDirSlots info n d c count := by
  unfold findFreeDirSlots
  rw [scanDir_agree h hdir]

/-- The scans of a directory in order end. -/
theorem DirWithin.scanEnds {ρ σ : Type} {visit : σ → SlotPos × DirSlot → ρ ⊕ σ} {st : σ}
    (h : DirWithin info d used c) : ScanEnds visit info d c st := by
  rcases h with hc | ⟨l, hl, -⟩
  · exact Or.inl hc
  · refine Or.inr (Or.inl ?_)
    induction hl with
    | last hend => exact ⟨1, hend⟩
    | cons _ _ ih =>
      obtain ⟨k, hk⟩ := ih
      exact ⟨k + 1, hk⟩

/-- An entry can be added to a directory in order. -/
theorem DirWithin.addEnds (h : DirWithin info d used c) (filename : List UInt8) :
    AddEnds info d c filename := by
  have hshort : ∀ k seq, ShortNamesEnd info d c filename k seq := by
    intro k
    induction k with
    | zero => exact fun _ => trivial
    | succ k ih => exact fun seq => ⟨h.scanEnds, fun _ _ _ => ih (seq + 1)⟩
  exact ⟨fun _ => hshort 99 1, fun _ _ _ => h.scanEnds⟩

/-! ## The walk -/

theorem WalkInOrder.dir {cs : List (List UInt8)} (h : WalkInOrder info d c cs) :
    DirWithin info d (Occupied info d) c := by
  cases cs with
  | nil => exact h
  | cons component rest => exact h.1

/-- **The walk along a path** gives the same on disks that agree on the clusters in use. -/
theorem navigateLoop_agree {cs : List (List UInt8)} (h : AgreeOn info (Occupied info d) d d') :
    ∀ {c : ℕ}, WalkInOrder info d c cs →
      navigateLoop info n d' c cs = navigateLoop info n d c cs := by
  induction cs with
  | nil => exact fun _ => rfl
  | cons component rest ih =>
    intro c hwalk
    unfold navigateLoop
    rw [readDir_agree h hwalk.1]
    apply Option.bind_congr
    intro entries hentries
    cases hfind : entries.find? (·.isNamed component) with
    | none => rfl
    | some e =>
      dsimp only
      split_ifs with hdir
      · exact ih (hwalk.2 entries ⟨n, hentries⟩ e hfind hdir)
      · rfl

/-- The walk comes to a directory in order. -/
theorem dirWithin_of_navigateLoop {cs : List (List UInt8)} {r : ℕ} (hr : r ≠ 0xFFFF) :
    ∀ {c : ℕ}, WalkInOrder info d c cs → navigateLoop info n d c cs = some r →
      DirWithin info d (Occupied info d) r := by
  induction cs with
  | nil =>
    intro c hwalk h
    cases h
    exact hwalk
  | cons component rest ih =>
    intro c hwalk h
    obtain ⟨entries, hentries, h⟩ := Option.bind_eq_some_iff.mp h
    cases hfind : entries.find? (·.isNamed component) with
    | none =>
      rw [hfind] at h
      exact absurd (Option.some.inj h).symm hr
    | some e =>
      rw [hfind] at h
      dsimp only at h
      split_ifs at h with hdir
      · exact ih (hwalk.2 entries ⟨n, hentries⟩ e hfind hdir) h
      · exact absurd (Option.some.inj h).symm hr

end

end Microkernel

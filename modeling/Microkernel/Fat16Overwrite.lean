/-
# FAT16: failed overwrites

`fat16_write_file` in `src/fat16.c` frees the clusters of an old file of the same name and deletes
its entry before it looks for room for the new one.  When there is no room the clusters of the new
file are given back, but the old file is gone.
-/
import Microkernel.Fat16InOrder
import Microkernel.Fat16DirSlots

namespace Microkernel

open Rounds

/-! ## What is kept -/

/-- What mounting computes for the places of the tables, the root directory and the clusters. -/
structure Fat16Info.Laid (info : Fat16Info) : Prop where
  fats : 1 ≤ info.numFats
  root : info.rootDirLba = info.fatStartLba + info.numFats * info.fatSizeSectors
  data : info.dataStartLba = info.rootDirLba + info.rootDirSectors
  cluster : info.clusterSize = info.sectorsPerCluster * 512
  small : info.clusterSize ≤ 255 * 512

theorem laid_of_mount {boot : Disk} {info : Fat16Info} (h : fat16Mount boot = some info) :
    info.Laid := by
  have hsmall := clusterSize_le h
  unfold fat16Mount at h
  dsimp only at h
  split_ifs at h with h₁ h₂ h₃ h₄ h₅ <;> cases h <;>
    exact ⟨Nat.pos_of_ne_zero fun hzero => h₃ (Or.inl hzero), rfl, rfl, rfl, hsmall⟩

section

variable {info : Fat16Info} {used : ℕ → Prop} {d d' : Disk} {c : ℕ}

/-- Writing entries of the table keeps the clusters whose entries it keeps. -/
theorem EntriesWritten.agreeOn (h : EntriesWritten info d d') (hlaid : info.Laid)
    (heq : ∀ x, used x → fatReadEntry info d' x = fatReadEntry info d x) :
    AgreeOn info used d d' := by
  have hroot := hlaid.root
  have hdata := hlaid.data
  refine ⟨fun i _ => h.kept hlaid.fats (by omega), heq, fun x _ i _ => h.kept hlaid.fats ?_⟩
  unfold Fat16Info.clusterToLba
  omega

/-- The entries of the first table lie before the data. -/
theorem fatReadEntry_congr (hlaid : info.Laid) (h : ∀ s < info.rootDirLba, d' s = d s) {x : ℕ}
    (hx : x < info.fatEntries) : fatReadEntry info d' x = fatReadEntry info d x := by
  have hone : 1 * info.fatSizeSectors ≤ info.numFats * info.fatSizeSectors :=
    Nat.mul_le_mul_right _ hlaid.fats
  have hroot := hlaid.root
  unfold Fat16Info.fatEntries at hx
  unfold fatReadEntry
  dsimp only
  rw [h _ (by omega)]

/-! ## Writing the data -/

theorem writeSectors_kept {n lba s : ℕ} {data : List UInt8} (h : s < lba ∨ lba + n ≤ s) :
    (writeSectors d lba n data).1 s = d s := by
  induction n generalizing d lba data with
  | zero => rfl
  | succ n ih =>
    unfold writeSectors
    split_ifs
    · rfl
    · rw [ih (by omega), Disk.write_of_ne _ _ (by omega)]

/-- The sector belongs to the cluster. -/
def Fat16Info.InCluster (info : Fat16Info) (x s : ℕ) : Prop :=
  info.clusterToLba x ≤ s ∧ s < info.clusterToLba x + info.sectorsPerCluster

/-- Clusters do not overlap. -/
theorem eq_of_inCluster {x y s : ℕ} (hx : 2 ≤ x) (hy : 2 ≤ y) (h : info.InCluster x s)
    (h' : info.InCluster y s) : x = y := by
  unfold Fat16Info.InCluster Fat16Info.clusterToLba at h h'
  rcases Nat.lt_trichotomy x y with hlt | heq | hlt
  · have hstep : (x - 2 + 1) * info.sectorsPerCluster ≤ (y - 2) * info.sectorsPerCluster :=
      Nat.mul_le_mul_right _ (by omega)
    rw [Nat.succ_mul] at hstep
    omega
  · exact heq
  · have hstep : (y - 2 + 1) * info.sectorsPerCluster ≤ (x - 2) * info.sectorsPerCluster :=
      Nat.mul_le_mul_right _ (by omega)
    rw [Nat.succ_mul] at hstep
    omega

/-- **Writing data** changes sectors of the chain only, and writes no more than it has room for. -/
theorem writeChain_chain (hlaid : info.Laid) {l : List ℕ} (hcover : ∀ x ∈ l, x < info.fatEntries)
    (h : FatChain info d c l) {fuel : ℕ} {data left : List UInt8}
    (hrun : writeChain info fuel d c data = some (d', left)) :
    (∀ s, (∀ x ∈ l, ¬ info.InCluster x s) → d' s = d s) ∧
      data.length ≤ left.length + l.length * (info.sectorsPerCluster * 512) := by
  induction l generalizing c d fuel data with
  | nil => cases h
  | cons b l ih =>
    obtain rfl : c = b := by
      cases h <;> rfl
    cases fuel with
    | zero => cases hrun
    | succ fuel =>
      unfold writeChain at hrun
      split_ifs at hrun with hc
      · dsimp only at hrun
        have hkept : ∀ s, ¬ info.InCluster c s →
            (writeSectors d (info.clusterToLba c) info.sectorsPerCluster data).1 s = d s := by
          intro s hs
          apply writeSectors_kept
          unfold Fat16Info.InCluster at hs
          omega
        have hleft := writeSectors_left info.sectorsPerCluster d (info.clusterToLba c) data
        generalize writeSectors d (info.clusterToLba c) info.sectorsPerCluster data = r
          at hrun hkept hleft
        have htables : ∀ x, x < info.fatEntries → fatReadEntry info r.1 x = fatReadEntry info d x := by
          intro x hx
          refine fatReadEntry_congr hlaid (fun s hs => hkept s fun hin => ?_) hx
          have hdata := hlaid.data
          unfold Fat16Info.InCluster Fat16Info.clusterToLba at hin
          omega
        rw [htables c (hcover c List.mem_cons_self)] at hrun
        have hlen : data.length ≤ r.2.length + info.sectorsPerCluster * 512 := by
          rw [hleft, List.length_drop]
          omega
        cases h with
        | last hend =>
          -- The chain ends here.
          obtain ⟨rfl, rfl⟩ : d' = r.1 ∧ left = r.2 := by
            cases fuel with
            | zero => cases hrun
            | succ fuel =>
              unfold writeChain at hrun
              rw [if_neg (by rw [hend]; exact Bool.false_ne_true)] at hrun
              cases hrun
              exact ⟨rfl, rfl⟩
          refine ⟨fun s hs => hkept s (hs c List.mem_cons_self), ?_⟩
          rw [List.length_singleton, Nat.one_mul]
          exact hlen
        | cons _ hrest =>
          have hcover' : ∀ x ∈ l, x < info.fatEntries :=
            fun x hx => hcover x (List.mem_cons_of_mem _ hx)
          obtain ⟨hsectors, hroom⟩ := ih hcover'
            (FatChain.congr hrest fun x hx => htables x (hcover' x hx)) hrun
          refine ⟨fun s hs => ?_, ?_⟩
          · rw [hsectors s fun x hx => hs x (List.mem_cons_of_mem _ hx)]
            exact hkept s (hs c List.mem_cons_self)
          · rw [List.length_cons, Nat.succ_mul]
            omega
      · cases hrun
        exact ⟨fun _ _ => rfl, Nat.le_add_right _ _⟩

/-! ## Adding the entry -/

/-- The slots that the entries of a file of this name take. -/
def slotsNeeded (filename : List UInt8) : ℕ :=
  if needsLfn filename then lfnCount filename + 1 else 1

/-- The name has no more pieces than `build_lfn_entries` makes. -/
def NameFits (filename : List UInt8) : Prop := needsLfn filename = true → lfnCount filename ≤ 20

theorem newLfns_eq_nil {filename name11 : List UInt8} (hname : filename ≠ [])
    (hlfn : needsLfn filename = true) : newLfns filename name11 = [] ↔ ¬ NameFits filename := by
  have hpos := List.length_pos_iff.mpr hname
  unfold newLfns NameFits buildLfnEntries
  rw [if_pos hlfn]
  dsimp only
  split_ifs with hmany
  · exact ⟨fun _ hfits => absurd (hfits hlfn) (by omega), fun _ => rfl⟩
  · refine ⟨fun hnil => ?_, fun hnot => absurd (fun _ => by omega) hnot⟩
    have hlen := congrArg List.length hnil
    rw [List.length_map, List.length_range, List.length_nil] at hlen
    unfold lfnCount at hlen
    omega

theorem length_newLfns {filename name11 : List UInt8} (hfits : NameFits filename) :
    (newLfns filename name11).length + 1 = slotsNeeded filename := by
  unfold newLfns slotsNeeded buildLfnEntries
  split_ifs with hlfn
  · have hcount := hfits hlfn
    dsimp only
    rw [if_neg (by omega), List.length_map, List.length_range]
  · rfl

/-- **Adding an entry** succeeds exactly if the name fits and there are free slots for it;
otherwise the chain is freed. -/
theorem addEntry_cases {filename : List UInt8} {attr : UInt8} {first size n : ℕ} {ok : Bool}
    (hname : filename ≠ []) (h : addEntry info n d c filename attr first size = some (ok, d')) :
    (ok = true ∧ NameFits filename ∧
      ∃ p, findFreeDirSlots info n d c (slotsNeeded filename) = some (some p)) ∨
    (ok = false ∧ fatFreeChain info n d first = some d' ∧
      (NameFits filename → findFreeDirSlots info n d c (slotsNeeded filename) = some none)) := by
  rw [addEntry_eq] at h
  obtain ⟨name11, -, h⟩ := Option.bind_eq_some_iff.mp h
  split_ifs at h with hnone
  · obtain ⟨d₁, hfree, heq⟩ := Option.map_eq_some_iff.mp h
    cases heq
    rw [Bool.and_eq_true, decide_eq_true_eq] at hnone
    exact Or.inr ⟨rfl, hfree, fun hfits => absurd hfits ((newLfns_eq_nil hname hnone.1).mp hnone.2)⟩
  · have hfits : NameFits filename := by
      by_contra hnot
      have hlfn : needsLfn filename = true := by
        by_contra hshort
        exact hnot fun hlfn => absurd hlfn hshort
      apply hnone
      rw [Bool.and_eq_true, decide_eq_true_eq]
      exact ⟨hlfn, (newLfns_eq_nil hname hlfn).mpr hnot⟩
    obtain ⟨slot, hslot, h⟩ := Option.bind_eq_some_iff.mp h
    rw [length_newLfns hfits] at hslot
    cases slot with
    | none =>
      obtain ⟨d₁, hfree, heq⟩ := Option.map_eq_some_iff.mp h
      cases heq
      exact Or.inr ⟨rfl, hfree, fun _ => hslot⟩
    | some p =>
      cases h
      exact Or.inl ⟨rfl, hfits, p, hslot⟩

/-! ## Storing the new file -/

/-- What `fat16_write_file` does after the old file: the result and the disk after it. -/
def storeFile (info : Fat16Info) (fuel : ℕ) (d : Disk) (c : ℕ) (filename data : List UInt8) :
    Option (ℤ × Disk) :=
  (allocChainLoop info fuel (clustersNeeded info data.length) d 0 0).bind fun (first, d) =>
    if first = 0 then some (-1, d)
    else
      (writeChain info fuel d first data).bind fun (d, left) =>
        (addEntry info fuel d c filename 0x20 first data.length).map
          fun (ok, d) => (if ok then toInt32 (data.length - left.length) else -1, d)

/-- There is room for a file: its name has no more pieces than there may be, there are enough free
clusters, and enough free slots in a row in the directory. -/
structure Fits (info : Fat16Info) (d : Disk) (c : ℕ) (filename : List UInt8) (size : ℕ) : Prop where
  name : NameFits filename
  space : clustersNeeded info size ≤ freeClusters info (fatReadEntry info d)
  slots : ∃ p, Gives (fun n => findFreeDirSlots info n d c (slotsNeeded filename)) (some p)

theorem toInt32_ne {w : ℕ} (hw : w < 2 ^ 32 - 1) : toInt32 w ≠ -1 := by
  unfold toInt32
  split_ifs <;> omega

theorem clustersNeeded_pos (size : ℕ) : 0 < clustersNeeded info size := by
  unfold clustersNeeded
  dsimp only
  split_ifs with hzero
  · exact Nat.one_pos
  · exact Nat.pos_of_ne_zero hzero

/-- The number of bytes written is not taken for an error: for the largest size, where the sum for
the number of clusters wraps around, the one cluster is too small. -/
theorem written_ne (hlaid : info.Laid) (hspc : 0 < info.sectorsPerCluster) {size left : ℕ}
    (hsize : size < 2 ^ 32)
    (hroom : size ≤ left + clustersNeeded info size * (info.sectorsPerCluster * 512)) :
    toInt32 (size - left) ≠ -1 := by
  apply toInt32_ne
  have hcluster := hlaid.cluster
  have hsmall := hlaid.small
  rw [← hcluster] at hroom
  by_contra hfull
  obtain ⟨hmax, rfl⟩ : size = 2 ^ 32 - 1 ∧ left = 0 := by omega
  have hone : clustersNeeded info size = 1 := by
    unfold clustersNeeded
    have hwrap : (size + info.clusterSize - 1) % 2 ^ 32 = info.clusterSize - 2 := by omega
    dsimp only
    rw [hwrap, Nat.div_eq_of_lt (by omega), if_pos rfl]
  rw [hone] at hroom
  omega

/-- The new data is written to clusters that were free. -/
theorem ChainBuilt.agreeOn (hlaid : info.Laid) (hcover : info.totalClusters + 2 ≤ info.fatEntries)
    {cs : List ℕ} {d₂ : Disk} (h : ChainBuilt info d (fatReadEntry info d) cs d₂)
    (hkept : ∀ s, (∀ x ∈ cs, ¬ info.InCluster x s) → d' s = d₂ s) :
    AgreeOn info (Occupied info d) d d' := by
  have hroot := hlaid.root
  have hdata := hlaid.data
  have hbefore : ∀ s < info.dataStartLba, d' s = d₂ s := by
    intro s hs
    refine hkept s fun x _ hin => ?_
    unfold Fat16Info.InCluster Fat16Info.clusterToLba at hin
    omega
  have hnot : ∀ x, Occupied info d x → x ∉ cs :=
    fun x hx hmem => hx.2.2 (h.linkable.free x hmem).2.2
  constructor
  · intro i hi
    rw [hbefore _ (by omega)]
    exact h.writes.kept hlaid.fats (by omega)
  · intro x hx
    have hentry : x < info.fatEntries := lt_of_lt_of_le hx.2.1 hcover
    rw [fatReadEntry_congr hlaid (fun s hs => hbefore s (by omega)) hentry, h.table x hentry]
    exact linkCells_of_not_mem (hnot x hx)
  · intro x hx i hi
    have hin : info.InCluster x (info.clusterToLba x + i) :=
      ⟨Nat.le_add_right _ _, Nat.add_lt_add_left hi _⟩
    rw [hkept _ fun y hy hin' => ?_]
    · apply h.writes.kept hlaid.fats
      unfold Fat16Info.clusterToLba
      omega
    · rw [eq_of_inCluster hx.1 (h.linkable.free y hy).1 hin hin'] at hx
      exact hnot y hx hy

section

variable (hlaid : info.Laid) (hclusters : info.totalClusters ≤ 65524)
  (hcover : info.totalClusters + 2 ≤ info.fatEntries)

include hclusters hcover

/-- Clusters were allocated: they are linked. -/
theorem chainBuilt_of_alloc {first size n : ℕ} {d₂ : Disk}
    (h : allocChainLoop info n (clustersNeeded info size) d 0 0 = some (first, d₂)) :
    (∃ cs, cs.length + 1 = clustersNeeded info size ∧ 2 ≤ first ∧
      ChainBuilt info d (fatReadEntry info d) (first :: cs) d₂) ∨
    (first = 0 ∧ ChainBuilt info d (fatReadEntry info d) [] d₂ ∧
      freeClusters info (fatReadEntry info d) < clustersNeeded info size) := by
  have hstart : ChainBuilt info d (fatReadEntry info d) [] d :=
    ⟨⟨List.nodup_nil, fun c hc => absurd hc List.not_mem_nil⟩, fun _ _ => rfl, .refl⟩
  have hneeded := @clustersNeeded_pos info size
  rcases chainBuilt_allocChainLoop hclusters hcover _ hstart rfl (fun l p heq => by simp at heq)
    h with ⟨cs, hlen, hhead, hbuilt⟩ | ⟨hzero, hbuilt, hfew⟩
  · rw [List.length_nil, Nat.zero_add] at hlen
    cases cs with
    | nil =>
      rw [List.length_nil] at hlen
      omega
    | cons b cs =>
      obtain rfl : first = b := hhead
      exact Or.inl ⟨cs, hlen, (hbuilt.linkable.free first List.mem_cons_self).1, hbuilt⟩
  · rw [List.length_nil, Nat.zero_add] at hfew
    exact Or.inr ⟨hzero, hbuilt, hfew⟩

include hlaid

/-- The data was written to them: the clusters in use are as they were, and so is the table. -/
theorem ChainBuilt.written {first n : ℕ} {cs : List ℕ} {d₂ : Disk} {data left : List UInt8}
    (h : ChainBuilt info d (fatReadEntry info d) (first :: cs) d₂)
    (hwrite : writeChain info n d₂ first data = some (d', left)) :
    AgreeOn info (Occupied info d) d d' ∧ FirstTable info d' (fatReadEntry info d₂) ∧
      data.length ≤ left.length + (cs.length + 1) * (info.sectorsPerCluster * 512) := by
  have hrange := h.linkable.range hclusters hcover
  obtain ⟨hkept, hroom⟩ :=
    writeChain_chain hlaid (fun x hx => (hrange x hx).2) (h.fatChain hclusters hcover) hwrite
  refine ⟨h.agreeOn hlaid hcover hkept, fun x hx => ?_, hroom⟩
  refine fatReadEntry_congr hlaid (fun s hs => hkept s fun y _ hin => ?_) hx
  have hdata := hlaid.data
  unfold Fat16Info.InCluster Fat16Info.clusterToLba at hin
  omega

/-- **Storing a file** succeeds exactly if there is room for it; otherwise the clusters in use and
the table are as they were. -/
theorem storeFile_cases (hspc : 0 < info.sectorsPerCluster)
    (hdir : DirWithin info d (Occupied info d) c) {filename data : List UInt8} (hname : filename ≠ [])
    (hsize : data.length < 2 ^ 32) {n : ℕ} {r : ℤ}
    (h : storeFile info n d c filename data = some (r, d')) :
    (r ≠ -1 ∧ Fits info d c filename data.length) ∨
    (r = -1 ∧ ¬ Fits info d c filename data.length ∧ AgreeOn info (Occupied info d) d d' ∧
      FirstTable info d' (fatReadEntry info d)) := by
  obtain ⟨⟨first, d₂⟩, halloc, h⟩ := Option.bind_eq_some_iff.mp h
  dsimp only at h
  rcases chainBuilt_of_alloc hclusters hcover halloc with
    ⟨cs, hlen, hpos, hbuilt⟩ | ⟨hzero, hbuilt, hfew⟩
  · rw [if_neg (by omega)] at h
    obtain ⟨⟨d₃, left⟩, hwrite, h⟩ := Option.bind_eq_some_iff.mp h
    obtain ⟨⟨ok, d₄⟩, hadd, heq⟩ := Option.map_eq_some_iff.mp h
    cases heq
    obtain ⟨hagree, hsame, hroom⟩ := hbuilt.written hlaid hclusters hcover hwrite
    have hslots := fun count => @findFreeDirSlots_agree _ _ _ _ _ n hagree hdir count
    rcases addEntry_cases hname hadd with ⟨rfl, hfits, p, hp⟩ | ⟨rfl, hfree, hnone⟩
    · left
      rw [hlen] at hroom
      refine ⟨?_, hfits, ?_, p, n, ?_⟩
      · rw [if_pos rfl]
        exact written_ne hlaid hspc hsize hroom
      · rw [← hlen]
        exact hbuilt.linkable.length_le
      · dsimp only
        rw [← hslots]
        exact hp
    · -- The entry could not be added: the chain is freed again.
      right
      have hrange := hbuilt.linkable.range hclusters hcover
      obtain ⟨hwrites, hfreed⟩ := fatFreeChain_chain
        ((hbuilt.fatChain hclusters hcover).congr fun x hx => hsame x (hrange x hx).2)
        (hrange first List.mem_cons_self).1 (fun x hx => (hrange x hx).2) hfree
      have htable : FirstTable info d₄ (fatReadEntry info d) := by
        intro x hx
        refine (hfreed x hx).trans ?_
        by_cases hmem : x ∈ first :: cs
        · exact (if_pos hmem).trans (hbuilt.linkable.free x hmem).2.2.symm
        · refine (if_neg hmem).trans ?_
          rw [hsame x hx, hbuilt.table x hx]
          exact linkCells_of_not_mem hmem
      refine ⟨rfl, fun hfits => ?_, hagree.trans (hwrites.agreeOn hlaid fun x hx => ?_), htable⟩
      · obtain ⟨p, hp⟩ := hfits.slots
        have hnone := hnone hfits.name
        rw [hslots] at hnone
        have heq := (steady_findFreeDirSlots _).unique hp ⟨n, hnone⟩
        cases heq
      · rw [hagree.entry x hx]
        exact htable x (lt_of_lt_of_le hx.2.1 hcover)
  · rw [if_pos hzero] at h
    cases h
    refine Or.inr ⟨rfl, fun hfits => ?_, ?_, hbuilt.table⟩
    · have hspace := hfits.space
      omega
    · refine hbuilt.writes.agreeOn hlaid fun x hx => ?_
      exact hbuilt.table x (lt_of_lt_of_le hx.2.1 hcover)

end

/-! ## Removing the old file -/

/-- The disk `d'` is `d` without the file with its entry at `p` and the clusters `l`. -/
structure Without (info : Fat16Info) (d : Disk) (p : SlotPos) (l : List ℕ) (d' : Disk) : Prop where
  place : info.rootDirLba ≤ p.lba
  table : FirstTable info d' fun x => if x ∈ l then 0 else fatReadEntry info d x
  sectors : ∀ s, info.rootDirLba ≤ s → d' s = markDeleted d p s

/-- There is room for a new file of this name when the old one is gone: the entry of the old one is
at `p` in the directory, and its clusters are `l`. -/
structure Room (info : Fat16Info) (d : Disk) (c : ℕ) (p : SlotPos) (l : List ℕ)
    (filename : List UInt8) (size : ℕ) : Prop where
  name : NameFits filename
  space : clustersNeeded info size ≤ freeClusters info (fatReadEntry info d) + l.length
  slots : ∃ q, Gives (fun n => findFreeDirSlots info n (markDeleted d p) c (slotsNeeded filename))
    (some q)

/-- The entries of a directory do not lie in the tables. -/
theorem place_of_findEntryInDir (hlaid : info.Laid) {name : List UInt8} {n : ℕ} {p : SlotPos}
    {e : DirSlot} (h : findEntryInDir info n d c name = some (some (p, e))) :
    info.rootDirLba ≤ p.lba := by
  obtain ⟨r, hr, heq⟩ := Option.map_eq_some_iff.mp h
  have hfold := foldUntil_dirSlots hr
  cases r with
  | inr st => cases heq
  | inl found =>
    obtain rfl : found = some (p, e) := heq
    obtain ⟨a, ha, st, hvisit⟩ := exists_of_foldUntil hfold
    obtain rfl : a.1 = p := by
      unfold visitEntry at hvisit
      dsimp only at hvisit
      split_ifs at hvisit
      · cases hvisit
      · cases hvisit
        rfl
    obtain ⟨i, hi⟩ := List.mem_iff_getElem?.mp ha
    have hdata := hlaid.data
    rw [(dirSlots_getElem? hi).1]
    unfold dirSlotPos slotPos Fat16Info.clusterToLba
    split_ifs <;> dsimp only <;> omega

/-- Freeing the clusters and marking the entry removes the file. -/
theorem without_of_fatFreeChain (hlaid : info.Laid) (hclusters : info.totalClusters ≤ 65524)
    (hcover : info.totalClusters + 2 ≤ info.fatEntries) {first n : ℕ} {l : List ℕ} {p : SlotPos}
    (hl : FatChain info d first l) (hused : ∀ x ∈ l, Occupied info d x)
    (hplace : info.rootDirLba ≤ p.lba) (h : fatFreeChain info n d first = some d') :
    Without info d p l (markDeleted d' p) := by
  have hfirst : isChained first = true := by
    have hoccupied := hused first hl.head_mem
    unfold Occupied at hoccupied
    rw [isChained_iff]
    omega
  obtain ⟨hwrites, htable⟩ :=
    fatFreeChain_chain hl hfirst (fun x hx => lt_of_lt_of_le (hused x hx).2.1 hcover) h
  have hroot := hlaid.root
  constructor
  · exact hplace
  · intro x hx
    rw [← htable x hx]
    apply fatReadEntry_congr hlaid _ hx
    intro s hs
    exact Disk.write_of_ne _ _ (by omega)
  · intro s hs
    have hkept : ∀ s, info.rootDirLba ≤ s → d' s = d s :=
      fun s hs => hwrites.kept hlaid.fats (by omega)
    unfold markDeleted
    by_cases hp : s = p.lba
    · rw [hp, Disk.write_same, Disk.write_same, hkept _ hplace]
    · rw [Disk.write_of_ne _ _ hp, Disk.write_of_ne _ _ hp, hkept s hs]

theorem freeClusters_congr {t t' : ℕ → ℕ} (h : ∀ x < info.totalClusters + 2, t' x = t x) :
    freeClusters info t' = freeClusters info t := by
  unfold freeClusters
  congr 1
  apply Finset.filter_congr
  intro x hx
  rw [h x (Finset.mem_range.mp hx)]

/-- The clusters of the file are free without it. -/
theorem Without.freeClusters {p : SlotPos} {l : List ℕ} (h : Without info d p l d')
    (hcover : info.totalClusters + 2 ≤ info.fatEntries) (hnodup : l.Nodup)
    (hused : ∀ x ∈ l, Occupied info d x) :
    freeClusters info (fatReadEntry info d') =
      freeClusters info (fatReadEntry info d) + l.length := by
  have hdisjoint : Disjoint ((Finset.range (info.totalClusters + 2)).filter fun x =>
      2 ≤ x ∧ fatReadEntry info d x = 0) l.toFinset := by
    rw [Finset.disjoint_left]
    intro x hx hmem
    exact (hused x (List.mem_toFinset.mp hmem)).2.2 (Finset.mem_filter.mp hx).2.2
  rw [← List.toFinset_card_of_nodup hnodup]
  unfold Microkernel.freeClusters
  rw [← Finset.card_union_of_disjoint hdisjoint]
  congr 1
  ext x
  rw [Finset.mem_union, Finset.mem_filter, Finset.mem_filter, Finset.mem_range, List.mem_toFinset]
  constructor
  · rintro ⟨hhi, hlo, hzero⟩
    rw [h.table x (by omega)] at hzero
    dsimp only at hzero
    split_ifs at hzero with hmem
    · exact Or.inr hmem
    · exact Or.inl ⟨hhi, hlo, hzero⟩
  · rintro (⟨hhi, hlo, hzero⟩ | hmem)
    · refine ⟨hhi, hlo, (h.table x (by omega)).trans ?_⟩
      dsimp only
      rw [hzero, ite_self]
    · obtain ⟨hlo, hhi, -⟩ := hused x hmem
      exact ⟨hhi, hlo, (h.table x (by omega)).trans (if_pos hmem)⟩

/-- The directory of the file is in order without it, if it has none of its clusters. -/
theorem Without.dirWithin {p : SlotPos} {l : List ℕ} (h : Without info d p l d')
    (hcover : info.totalClusters + 2 ≤ info.fatEntries)
    (hdir : DirWithin info d (fun x => Occupied info d x ∧ x ∉ l) c) :
    DirWithin info d' (Occupied info d') c := by
  have hentry : ∀ x, Occupied info d x ∧ x ∉ l → fatReadEntry info d' x = fatReadEntry info d x := by
    rintro x ⟨hx, hnot⟩
    exact (h.table x (lt_of_lt_of_le hx.2.1 hcover)).trans (if_neg hnot)
  refine hdir.congr hentry fun x hx => ⟨hx.1.1, hx.1.2.1, ?_⟩
  rw [hentry x hx]
  exact hx.1.2.2

/-- **There is room without the file** exactly if the old disk says so. -/
theorem Without.fits_iff {p : SlotPos} {l : List ℕ} (h : Without info d p l d') (hlaid : info.Laid)
    (hcover : info.totalClusters + 2 ≤ info.fatEntries) (hnodup : l.Nodup)
    (hused : ∀ x ∈ l, Occupied info d x)
    (hdir : DirWithin info d (fun x => Occupied info d x ∧ x ∉ l) c) {filename : List UInt8}
    {size : ℕ} : Fits info d' c filename size ↔ Room info d c p l filename size := by
  have hdata := hlaid.data
  have hmark : ∀ x < info.fatEntries, fatReadEntry info (markDeleted d p) x = fatReadEntry info d x := by
    intro x hx
    apply fatReadEntry_congr hlaid _ hx
    intro s hs
    have hplace := h.place
    exact Disk.write_of_ne _ _ (by omega)
  have hagree : AgreeOn info (fun x => Occupied info d x ∧ x ∉ l) (markDeleted d p) d' := by
    constructor
    · exact fun i _ => h.sectors _ (Nat.le_add_right _ _)
    · rintro x ⟨hx, hnot⟩
      have hentry : x < info.fatEntries := lt_of_lt_of_le hx.2.1 hcover
      rw [hmark x hentry]
      exact (h.table x hentry).trans (if_neg hnot)
    · intro x _ i _
      apply h.sectors
      unfold Fat16Info.clusterToLba
      omega
  have hdir' : DirWithin info (markDeleted d p) (fun x => Occupied info d x ∧ x ∉ l) c :=
    hdir.congr (fun x hx => hmark x (lt_of_lt_of_le hx.1.2.1 hcover)) fun _ hx => hx
  have hslots : ∀ n, findFreeDirSlots info n d' c (slotsNeeded filename) =
      findFreeDirSlots info n (markDeleted d p) c (slotsNeeded filename) :=
    fun n => findFreeDirSlots_agree hagree hdir' _
  have hfree := h.freeClusters hcover hnodup hused
  constructor
  · rintro ⟨hname, hspace, hgives⟩
    refine ⟨hname, hfree ▸ hspace, ?_⟩
    simp only [← hslots]
    exact hgives
  · rintro ⟨hname, hspace, hgives⟩
    refine ⟨hname, hfree ▸ hspace, ?_⟩
    simp only [hslots]
    exact hgives

/-- What removing an old file of the name does. -/
theorem removeExisting_cases {name : List UInt8} {n : ℕ}
    (h : removeExisting info n d c name = some d') :
    (d' = d ∧ ∃ found, findEntryInDir info n d c name = some found ∧
      ∀ p entry, found = some (p, entry) → entry.isDir = true) ∨
    ∃ p entry d₁, findEntryInDir info n d c name = some (some (p, entry)) ∧ entry.isDir = false ∧
      fatFreeChain info n d entry.clusterLo = some d₁ ∧ d' = markDeleted d₁ p := by
  obtain ⟨found, hfound, h⟩ := Option.bind_eq_some_iff.mp h
  rcases found with _ | ⟨p, entry⟩
  · cases h
    exact Or.inl ⟨rfl, none, hfound, fun p entry heq => by cases heq⟩
  · dsimp only at h
    split_ifs at h with hdir
    · cases h
      refine Or.inl ⟨rfl, _, hfound, fun p entry heq => ?_⟩
      cases heq
      exact hdir
    · obtain ⟨d₁, hfree, rfl⟩ := Option.map_eq_some_iff.mp h
      exact Or.inr ⟨p, entry, d₁, hfound, Bool.eq_false_of_not_eq_true hdir, hfree, rfl⟩

end

/-! ## The whole call -/

/-- The path leads to a file: its entry is at `p` in the directory `c`. -/
structure OldFile (info : Fat16Info) (d : Disk) (path : List UInt8) (c : ℕ) (p : SlotPos)
    (entry : DirSlot) : Prop where
  name : (splitPath path).2 ≠ []
  dir : Gives (fun n => navigateToDir info n d (splitPath path).1) c
  valid : c ≠ 0xFFFF
  found : Gives (fun n => findEntryInDir info n d c (splitPath path).2) (some (p, entry))
  regular : entry.isDir = false

/-- **The volume is in order** on the way of a path: the table has entries for all clusters, the
directories are chains of clusters in use, and so is the file that the path leads to, whose
clusters its directory does not share. -/
structure VolumeInOrder (info : Fat16Info) (d : Disk) (path : List UInt8) : Prop where
  clusters : info.totalClusters ≤ 65524
  cover : info.totalClusters + 2 ≤ info.fatEntries
  walk : WalkInOrder info d 0 (components (splitPath path).1)
  file : ∀ c p entry, OldFile info d path c p entry → ∃ l, FatChain info d entry.clusterLo l ∧
    (∀ x ∈ l, Occupied info d x) ∧ DirWithin info d (fun x => Occupied info d x ∧ x ∉ l) c

/-- **A failed overwrite keeps the old file**: when `fat16_write_file` gives -1, reading the path
gives what it gave before, and as many clusters are free. -/
def KeepsOldFile (info : Fat16Info) (d : Disk) (path data : List UInt8) : Prop :=
  ∀ d', Gives (fun n => fat16WriteFile info n d path data) (-1, d') →
    (∀ max r, Gives (fun n => fat16ReadFile info n d' path max) r ↔
      Gives (fun n => fat16ReadFile info n d path max) r) ∧
    freeClusters info (fatReadEntry info d') = freeClusters info (fatReadEntry info d)

section

variable {info : Fat16Info} {d d' : Disk} {path data : List UInt8} {n : ℕ}

/-- The runs of `fat16_write_file`. -/
theorem fat16WriteFile_cases {r : ℤ} (h : fat16WriteFile info n d path data = some (r, d')) :
    (r = -1 ∧ d' = d ∧ ∀ c p entry, ¬ OldFile info d path c p entry) ∨
    ∃ c d₁, (splitPath path).2 ≠ [] ∧
      navigateToDir info n d (splitPath path).1 = some c ∧ c ≠ 0xFFFF ∧
      removeExisting info n d c (splitPath path).2 = some d₁ ∧
      storeFile info n d₁ c (splitPath path).2 data = some (r, d') := by
  unfold fat16WriteFile at h
  dsimp only at h
  split_ifs at h with hname
  · cases h
    exact Or.inl ⟨rfl, rfl, fun c p entry hold => hold.name hname⟩
  · obtain ⟨c, hc, h⟩ := Option.bind_eq_some_iff.mp h
    split_ifs at h with hvalid
    · cases h
      refine Or.inl ⟨rfl, rfl, fun c' p entry hold => hold.valid ?_⟩
      rw [(steady_navigateToDir _).unique hold.dir ⟨n, hc⟩]
      exact hvalid
    · obtain ⟨d₁, hd₁, h⟩ := Option.bind_eq_some_iff.mp h
      exact Or.inr ⟨c, d₁, hname, hc, hvalid, hd₁, h⟩

/-- Where the path leads to no file, reading it gives the same on disks that agree on the clusters
in use. -/
theorem fat16ReadFile_agree {c : ℕ} {found : Option (SlotPos × DirSlot)}
    (hagree : AgreeOn info (Occupied info d) d d')
    (hwalk : WalkInOrder info d 0 (components (splitPath path).1))
    (hdir : DirWithin info d (Occupied info d) c)
    (hc : navigateToDir info n d (splitPath path).1 = some c)
    (hfound : findEntryInDir info n d c (splitPath path).2 = some found)
    (hnone : ∀ p entry, found = some (p, entry) → entry.isDir = true) (m max : ℕ) :
    fat16ReadFile info m d' path max = fat16ReadFile info m d path max := by
  unfold fat16ReadFile
  dsimp only
  split_ifs with hname
  · rfl
  · have hsame : navigateToDir info m d' (splitPath path).1 =
        navigateToDir info m d (splitPath path).1 := navigateLoop_agree hagree hwalk
    rw [hsame]
    apply Option.bind_congr
    intro c' hc'
    obtain rfl := navigateToDir_unique hc hc'
    rw [findEntryInDir_agree hagree hdir]
    split_ifs
    · rfl
    · apply Option.bind_congr
      intro found' hfound'
      obtain rfl := findEntryInDir_unique hfound hfound'
      rcases found with _ | ⟨p, entry⟩
      · rfl
      · dsimp only
        rw [if_pos (hnone p entry rfl), if_pos (hnone p entry rfl)]

/-- The volume in order without the old file. -/
theorem VolumeInOrder.removed (h : VolumeInOrder info d path) (hlaid : info.Laid) {c : ℕ}
    {p : SlotPos} {entry : DirSlot} {l : List ℕ} {d₁ : Disk} (hold : OldFile info d path c p entry)
    (hl : FatChain info d entry.clusterLo l)
    (hd₁ : removeExisting info n d c (splitPath path).2 = some d₁) :
    (∀ x ∈ l, Occupied info d x) ∧ DirWithin info d (fun x => Occupied info d x ∧ x ∉ l) c ∧
      Without info d p l d₁ := by
  obtain ⟨l', hl', hused, hdir⟩ := h.file c p entry hold
  obtain rfl := hl.unique hl'
  refine ⟨hused, hdir, ?_⟩
  have hsteady := @steady_findEntryInDir info d c (splitPath path).2
  rcases removeExisting_cases hd₁ with
    ⟨-, found, hfound, hnone⟩ | ⟨p', entry', d₂, hfound, -, hfree, rfl⟩
  · have hisDir := hnone p entry (hsteady.unique ⟨n, hfound⟩ hold.found)
    rw [hold.regular] at hisDir
    cases hisDir
  · have heq := hsteady.unique ⟨n, hfound⟩ hold.found
    cases heq
    exact without_of_fatFreeChain hlaid h.clusters h.cover hl hused
      (place_of_findEntryInDir hlaid hfound) hfree

/-- The loops of `fat16_write_file` end on a volume in order. -/
theorem VolumeInOrder.writeEnds (h : VolumeInOrder info d path) (hlaid : info.Laid) {c : ℕ}
    {p : SlotPos} {entry : DirSlot} {l : List ℕ} (hold : OldFile info d path c p entry)
    (hl : FatChain info d entry.clusterLo l) : WriteEnds info d path data := by
  refine fun _ => ⟨returns_navigateToDir.mp ⟨c, hold.dir⟩, fun c' hc' _ => ?_⟩
  obtain rfl := (steady_navigateToDir _).unique hold.dir hc'
  refine ⟨returns_findEntryInDir.mp ⟨_, hold.found⟩, ?_⟩
  rintro d₁ ⟨m, hd₁⟩
  obtain ⟨-, hdir, hwithout⟩ := h.removed hlaid hold hl hd₁
  have hdir₁ := hwithout.dirWithin h.cover hdir
  refine ⟨allocChainEnds_of_clusters h.clusters _ d₁ 0 0, ?_⟩
  rintro first d₂ ⟨m₂, halloc⟩ hfirst d₃ left ⟨m₃, hwrite⟩
  rcases chainBuilt_of_alloc h.clusters h.cover halloc with ⟨cs, -, -, hbuilt⟩ | ⟨hzero, -⟩
  · have hagree := (hbuilt.written hlaid h.clusters h.cover hwrite).1
    exact (hdir₁.congr hagree.entry fun _ hx => hx).addEnds _
  · exact absurd hzero hfirst

end

/-- A small volume of two clusters with one file, `A`, in the first of them. -/
def smallDisk : Disk := fun s =>
  match s with
  | 0 => fun x => match x with
    | 12 => 2 | 13 => 1 | 14 => 1 | 16 => 1 | 17 => 16 | 19 => 5 | 22 => 1
    | 510 => 0x55 | 511 => 0xAA | _ => 0
  | 1 => fun x => if x = 4 ∨ x = 5 then 0xFF else 0
  | 2 => fun x => match x with
    | 0 => 0x41 | 11 => 0x20 | 26 => 2 | 28 => 5 | x => if x < 11 then 0x20 else 0
  | _ => fun _ => 7

def smallInfo : Fat16Info := (fat16Mount smallDisk).get (by decide)

theorem mount_smallDisk : fat16Mount smallDisk = some smallInfo := (Option.some_get _).symm

theorem oldFile_smallDisk {c : ℕ} {p : SlotPos} {entry : DirSlot}
    (h : OldFile smallInfo smallDisk [0x2F, 0x41] c p entry) :
    c = 0 ∧ p = ⟨2, 0⟩ ∧ entry = slotAt smallDisk ⟨2, 0⟩ := by
  obtain ⟨n, hc⟩ := h.dir
  have hroot : navigateToDir smallInfo n smallDisk (splitPath [0x2F, 0x41]).1 = some 0 := rfl
  obtain rfl : 0 = c := Option.some.inj (hroot.symm.trans hc)
  obtain ⟨m, hfound⟩ := h.found
  have hentry : findEntryInDir smallInfo m smallDisk 0 (splitPath [0x2F, 0x41]).2 =
      some (some (⟨2, 0⟩, slotAt smallDisk ⟨2, 0⟩)) := by
    have hfirst : findEntryInDir smallInfo 0 smallDisk 0 (splitPath [0x2F, 0x41]).2 =
        some (some (⟨2, 0⟩, slotAt smallDisk ⟨2, 0⟩)) := by decide
    exact hfirst
  have heq := Option.some.inj (Option.some.inj (hentry.symm.trans hfound))
  cases heq
  exact ⟨rfl, rfl, rfl⟩

theorem chain_smallDisk : FatChain smallInfo smallDisk 2 [2] := LinkedChain.last (by decide)

theorem inOrder_smallDisk : VolumeInOrder smallInfo smallDisk [0x2F, 0x41] := by
  refine ⟨by decide, by decide, Or.inl rfl, fun c p entry hold => ?_⟩
  obtain ⟨rfl, -, rfl⟩ := oldFile_smallDisk hold
  have hfirst : (slotAt smallDisk ⟨2, 0⟩).clusterLo = 2 := by decide
  rw [hfirst]
  refine ⟨[2], chain_smallDisk, fun x hx => ?_, Or.inl rfl⟩
  rw [List.mem_singleton.mp hx]
  exact ⟨by decide, by decide, by decide⟩

end Microkernel

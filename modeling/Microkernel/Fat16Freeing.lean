/-
# FAT16: freeing a chain

`fat_free_chain` in `src/fat16.c` follows the links of the table and sets each entry on the way to
zero.  Whatever the table holds, cycles and chains that run together included, it comes to an end:
a cell that it has been at before has no link any more.
-/
import Microkernel.Fat16Table

namespace Microkernel

open Rounds

/-- The entries that `fat_free_chain` comes to from `start`: the links from it on, through values in
the range of clusters. -/
def FreedFrom (info : Fat16Info) (d : Disk) (start x : ℕ) : Prop :=
  LinkReach (fatReadEntry info d) (fun c => isChained c = true) start x

section

variable {info : Fat16Info} {d d' : Disk} {start c x : ℕ} {t : ℕ → ℕ}

/-- **Freeing a chain in a table**: the entries that are reached are zero, the others as before. -/
theorem fatFreeChain_table (hcover : 0xFFF8 ≤ info.fatEntries) {fuel : ℕ}
    (htable : FirstTable info d t) (hfree : fatFreeChain info fuel d c = some d') :
    EntriesWritten info d d' ∧ ∀ x < info.fatEntries,
      (LinkReach t (fun c => isChained c = true) c x → fatReadEntry info d' x = 0) ∧
        (¬ LinkReach t (fun c => isChained c = true) c x → fatReadEntry info d' x = t x) := by
  induction fuel generalizing d c t with
  | zero => cases hfree
  | succ fuel ih =>
    unfold fatFreeChain at hfree
    split_ifs at hfree with hc
    · have hlt : c < info.fatEntries := lt_of_lt_of_le (isChained_iff.mp hc).2 hcover
      have hzero : (0 : ℕ) < 2 ^ 16 := by norm_num
      rw [htable c hlt] at hfree
      obtain ⟨hwritten, hentries⟩ := ih (htable.write hzero) hfree
      refine ⟨(EntriesWritten.write .refl hlt hzero).trans hwritten, ?_⟩
      intro x hx
      obtain ⟨hreached, hothers⟩ := hentries x hx
      have hstop : ¬ isChained 0 = true := Bool.false_ne_true
      have hstep := @linkReach_update ℕ t (fun c => isChained c = true) c x _ 0 hstop hc
      by_cases hnext : LinkReach (Function.update t c 0) (fun c => isChained c = true) (t c) x
      · exact ⟨fun _ => hreached hnext, fun hnot => absurd (hstep.mpr (Or.inr hnext)) hnot⟩
      · have hold := hothers hnext
        constructor
        · intro hreach
          obtain rfl := (hstep.mp hreach).resolve_right hnext
          rw [hold, Function.update_self]
        · intro hnot
          have hne : x ≠ c := fun heq => hnot (hstep.mpr (Or.inl heq))
          rw [hold, Function.update_of_ne hne]
    · obtain rfl := Option.some.inj hfree
      refine ⟨.refl, fun x hx => ⟨fun hreach => absurd hreach (not_linkReach hc), fun _ => htable x hx⟩⟩

end

/-- **Freeing a chain.**  For every contents of a table that covers the cluster numbers and every
start, `fat_free_chain` returns, the entries reached from the start are zero after it, and every
other entry of the table is as before.  Where there is a second table it gets the sectors that were
written, so if it was a copy of the first before it is one after. -/
theorem fatFreeChain_frees {info : Fat16Info} (hcover : 0xFFF8 ≤ info.fatEntries) (d : Disk)
    (start : ℕ) :
    Returns (fun fuel => fatFreeChain info fuel d start) ∧
    ∀ d', Gives (fun fuel => fatFreeChain info fuel d start) d' →
      (∀ x, FreedFrom info d start x → fatReadEntry info d' x = 0) ∧
      (∀ x < info.fatEntries, ¬ FreedFrom info d start x →
        fatReadEntry info d' x = fatReadEntry info d x) ∧
      (info.numFats > 1 → Mirrored info d d' ∧
        ((∀ x < info.fatEntries, fatEntry info d 1 x = fatEntry info d 0 x) →
          ∀ x < info.fatEntries, fatEntry info d' 1 x = fatEntry info d' 0 x)) := by
  have hsize : info.numFats > 1 → 0 < info.fatSizeSectors := by
    intro _
    unfold Fat16Info.fatEntries at hcover
    omega
  refine ⟨returns_fatFreeChain hsize d start, ?_⟩
  rintro d' ⟨fuel, hfree⟩
  obtain ⟨hwritten, hentries⟩ := fatFreeChain_table hcover (fun _ _ => rfl) hfree
  refine ⟨?_, fun x hx => (hentries x hx).2, ?_⟩
  · intro x hx
    exact (hentries x (lt_of_lt_of_le (isChained_iff.mp hx.is_link).2 hcover)).1 hx
  · intro hfats
    have hmirrored := hwritten.mirrored hfats
    exact ⟨hmirrored, hmirrored.agrees⟩

/-! ## A chain that goes round -/

/-- The geometry of a volume with a whole table, twice. -/
def wholeInfo : Fat16Info where
  bytesPerSector := 512
  sectorsPerCluster := 4
  reservedSectors := 1
  numFats := 2
  rootEntryCount := 512
  totalSectors := 262144
  fatSizeSectors := 256
  fatStartLba := 1
  rootDirLba := 513
  rootDirSectors := 32
  dataStartLba := 545
  clusterSize := 2048
  totalClusters := 65399
  volumeLabel := []

/-- Cluster 2 is linked to cluster 3 and cluster 3 to cluster 2, in both tables. -/
def roundTables : Disk := fun s =>
  if s = 1 ∨ s = 257 then fun x => match x with
    | 4 => 3 | 6 => 2 | _ => 0
  else fun _ => 0

theorem fatFreeChain_frees_round : 0xFFF8 ≤ wholeInfo.fatEntries ∧
    fatReadEntry wholeInfo roundTables 2 = 3 ∧ fatReadEntry wholeInfo roundTables 3 = 2 ∧
    Returns (fun fuel => fatFreeChain wholeInfo fuel roundTables 2) ∧
    ∀ d', Gives (fun fuel => fatFreeChain wholeInfo fuel roundTables 2) d' →
      (∀ x, FreedFrom wholeInfo roundTables 2 x → fatReadEntry wholeInfo d' x = 0) ∧
      (∀ x < wholeInfo.fatEntries, ¬ FreedFrom wholeInfo roundTables 2 x →
        fatReadEntry wholeInfo d' x = fatReadEntry wholeInfo roundTables x) ∧
      (wholeInfo.numFats > 1 → Mirrored wholeInfo roundTables d' ∧
        ((∀ x < wholeInfo.fatEntries,
            fatEntry wholeInfo roundTables 1 x = fatEntry wholeInfo roundTables 0 x) →
          ∀ x < wholeInfo.fatEntries, fatEntry wholeInfo d' 1 x = fatEntry wholeInfo d' 0 x)) :=
  ⟨by decide, by decide, by decide, fatFreeChain_frees (by decide) roundTables 2⟩

end Microkernel

/-
# FAT16: the slots found and the slots written

`find_free_dir_slots` goes through a directory in its own order, from cluster to cluster along the
chain; `write_dir_entries` goes on to the next 32 bytes of the disk.  The two agree exactly if the
stretch of free slots does not pass from a cluster to one that is not the next on the disk.
-/
import Microkernel.Fat16Halts
import Microkernel.Stretches

namespace Microkernel

/-! ## A directory in order -/

/-- The slots of the first `k` clusters of a chain, or of all if it ends before. -/
def slotsAlong (info : Fat16Info) (d : Disk) : ℕ → ℕ → List (SlotPos × DirSlot)
  | _, 0 => []
  | c, k + 1 =>
    if isChained c then clusterSlots info d c ++ slotsAlong info d (fatReadEntry info d c) k else []

/-- The slots of a directory in order, as far as the first `k` clusters go. -/
def dirSlots (info : Fat16Info) (d : Disk) (c k : ℕ) : List (SlotPos × DirSlot) :=
  if c = 0 then
    (List.range (16 * info.rootDirSectors)).map fun i =>
      (slotPos info.rootDirLba i, slotAt d (slotPos info.rootDirLba i))
  else slotsAlong info d c k

section

variable {info : Fat16Info} {d : Disk} {c k : ℕ}

/-- A scan that returns has gone through the slots in order. -/
theorem foldUntil_dirSlots {ρ σ : Type} {visit : σ → SlotPos × DirSlot → ρ ⊕ σ} {fuel : ℕ} {st : σ}
    {r : ρ ⊕ σ} (h : scanDir visit info d fuel c st = some r) :
    foldUntil visit (dirSlots info d c fuel) st = r := by
  unfold scanDir at h
  unfold dirSlots
  split_ifs at h ⊢ with hc
  · rw [← foldUntil_map]
    exact Option.some.inj h
  · clear hc
    induction fuel generalizing c st with
    | zero => cases h
    | succ n ih =>
      unfold slotsAlong
      cases hchain : isChained c with
      | false =>
        unfold scanChain at h
        rw [hchain] at h
        exact Option.some.inj h
      | true =>
        rw [scanChain_succ hchain] at h
        rw [if_pos rfl, foldUntil_append]
        cases hslots : foldUntil visit (clusterSlots info d c) st with
        | inl r' =>
          rw [hslots] at h
          exact Option.some.inj h
        | inr st' =>
          rw [hslots] at h
          exact ih h

/-- Where slot `i` of a directory lies, if the directory goes so far. -/
def dirSlotPos (info : Fat16Info) (d : Disk) (c i : ℕ) : SlotPos :=
  if c = 0 then slotPos info.rootDirLba i
  else
    slotPos (info.clusterToLba (chainAt info d c (i / (16 * info.sectorsPerCluster))))
      (i % (16 * info.sectorsPerCluster))

theorem getElem?_map_range {α : Type} (f : ℕ → α) (n i : ℕ) {a : α}
    (h : ((List.range n).map f)[i]? = some a) : i < n ∧ a = f i := by
  rw [List.getElem?_map, Option.map_eq_some_iff] at h
  obtain ⟨j, hj, rfl⟩ := h
  obtain ⟨hlt, rfl⟩ := List.getElem?_eq_some_iff.mp hj
  rw [List.length_range] at hlt
  rw [List.getElem_range]
  exact ⟨hlt, rfl⟩

theorem length_clusterSlots : (clusterSlots info d c).length = 16 * info.sectorsPerCluster := by
  unfold clusterSlots
  rw [List.length_map, List.length_range]

/-- Clusters of no sectors have no slots. -/
theorem slotsAlong_of_zero (hzero : 16 * info.sectorsPerCluster = 0) : slotsAlong info d c k = [] := by
  induction k generalizing c with
  | zero => rfl
  | succ k ih =>
    unfold slotsAlong
    split_ifs
    · rw [ih, List.append_nil]
      exact List.eq_nil_of_length_eq_zero (length_clusterSlots.trans hzero)
    · rfl

/-- Slot `i` along a chain. -/
theorem slotsAlong_getElem? {i : ℕ} {a : SlotPos × DirSlot}
    (h : (slotsAlong info d c k)[i]? = some a) :
    (a.1 = slotPos (info.clusterToLba (chainAt info d c (i / (16 * info.sectorsPerCluster))))
      (i % (16 * info.sectorsPerCluster)) ∧ a.2 = slotAt d a.1) ∧
    isChained (chainAt info d c (i / (16 * info.sectorsPerCluster))) = true ∧
    0 < 16 * info.sectorsPerCluster := by
  have hpos : 0 < 16 * info.sectorsPerCluster := by
    by_contra hzero
    rw [slotsAlong_of_zero (by omega)] at h
    cases h
  have hlen : ∀ c, (clusterSlots info d c).length = 16 * info.sectorsPerCluster :=
    fun _ => length_clusterSlots
  induction k generalizing c i with
  | zero => cases h
  | succ k ih =>
    unfold slotsAlong at h
    split_ifs at h with hchained
    · by_cases hi : i < 16 * info.sectorsPerCluster
      · rw [List.getElem?_append_left (by rw [hlen]; exact hi)] at h
        obtain ⟨_, rfl⟩ := getElem?_map_range _ _ _ h
        rw [Nat.div_eq_of_lt hi, Nat.mod_eq_of_lt hi]
        exact ⟨⟨rfl, rfl⟩, hchained, hpos⟩
      · rw [List.getElem?_append_right (by rw [hlen]; omega), hlen] at h
        have hrest := ih h
        have hmod : (i - 16 * info.sectorsPerCluster) % (16 * info.sectorsPerCluster) =
            i % (16 * info.sectorsPerCluster) := (Nat.mod_eq_sub_mod (by omega)).symm
        have hdiv : i / (16 * info.sectorsPerCluster) =
            (i - 16 * info.sectorsPerCluster) / (16 * info.sectorsPerCluster) + 1 :=
          Nat.div_eq_sub_div hpos (by omega)
        rw [hmod] at hrest
        rw [hdiv]
        exact hrest
    · cases h

/-- Slot `i` of a directory. -/
theorem dirSlots_getElem? {i : ℕ} {a : SlotPos × DirSlot} (h : (dirSlots info d c k)[i]? = some a) :
    a.1 = dirSlotPos info d c i ∧ a.2 = slotAt d a.1 := by
  unfold dirSlots at h
  unfold dirSlotPos
  split_ifs at h ⊢
  · obtain ⟨_, rfl⟩ := getElem?_map_range _ _ _ h
    exact ⟨rfl, rfl⟩
  · exact (slotsAlong_getElem? h).1

/-! ## The stretch that is found -/

/-- The slots met in a row are the stretch that is looked for, as soon as there are enough. -/
theorem first_of_visitFree {count : ℕ} {p : SlotPos} {rest : List (SlotPos × DirSlot)} :
    ∀ {run : List (SlotPos × DirSlot)} {first : SlotPos}, run.length < count →
      (∀ a ∈ run, a.2.isFree = true) → (∀ a, run[0]? = some a → a.1 = first) →
      foldUntil (visitFree count) rest (run.length, first) = .inl p →
      ∃ s, Stretch.First (fun a => a.2.isFree) count (run ++ rest) s ∧
        ∃ a, (run ++ rest)[s]? = some a ∧ a.1 = p := by
  induction rest with
  | nil =>
    intro run first _ _ _ h
    cases h
  | cons a rest ih =>
    intro run first hlen hfree hfirst h
    unfold foldUntil visitFree at h
    dsimp only at h
    cases ha : a.2.isFree with
    | false =>
      rw [ha, if_neg Bool.false_ne_true] at h
      obtain ⟨s, hs, b, hb, hbp⟩ := @ih [] first (by simp only [List.length_nil]; omega)
        (fun b hb => by cases hb) (fun b hb => by cases hb) h
      refine ⟨run.length + 1 + s, hs.skip hlen ha, b, ?_, hbp⟩
      rw [List.getElem?_append_right (by omega),
        show run.length + 1 + s - run.length = s + 1 by omega, List.getElem?_cons_succ]
      exact hb
    | true =>
      rw [ha, if_pos rfl] at h
      have hfree' : ∀ b ∈ run ++ [a], b.2.isFree = true := by
        intro b hb
        rcases List.mem_append.mp hb with hb | hb
        · exact hfree b hb
        · rw [List.mem_singleton.mp hb]
          exact ha
      have hfirst' : ∀ b, (run ++ [a])[0]? = some b →
          b.1 = if run.length = 0 then a.1 else first := by
        intro b hb
        cases run with
        | nil =>
          cases hb
          rfl
        | cons x xs => exact hfirst b hb
      generalize (if run.length = 0 then a.1 else first) = first' at h hfirst'
      have hlen' : (run ++ [a]).length = run.length + 1 := by
        rw [List.length_append, List.length_singleton]
      have happend : run ++ a :: rest = run ++ [a] ++ rest := by
        rw [List.append_assoc, List.singleton_append]
      rw [happend]
      split_ifs at h with henough
      · refine ⟨0, Stretch.first_of_all hfree' (by omega), ?_⟩
        have hlt : 0 < (run ++ [a]).length := by omega
        refine ⟨(run ++ [a])[0], ?_, ?_⟩
        · rw [List.getElem?_append_left hlt, List.getElem?_eq_getElem hlt]
        · rw [hfirst' _ (List.getElem?_eq_getElem hlt)]
          exact Sum.inl.inj h
      · rw [← hlen'] at h
        exact ih (by omega) hfree' hfirst' h

/-- **What `find_free_dir_slots` finds**: the start of the first stretch of free slots. -/
theorem findFreeDirSlots_first {fuel count : ℕ} {p : SlotPos} (hcount : 1 ≤ count)
    (h : findFreeDirSlots info fuel d c count = some (some p)) :
    ∃ s, Stretch.First (fun a => a.2.isFree) count (dirSlots info d c fuel) s ∧
      p = dirSlotPos info d c s := by
  unfold findFreeDirSlots at h
  obtain ⟨r, hr, hleft⟩ := Option.map_eq_some_iff.mp h
  have hfold := foldUntil_dirSlots hr
  cases r with
  | inr st => cases hleft
  | inl q =>
    obtain rfl : q = p := Option.some.inj hleft
    obtain ⟨s, hs, a, ha, rfl⟩ := @first_of_visitFree count q (dirSlots info d c fuel) [] ⟨0, 0⟩
      hcount (fun b hb => by cases hb) (fun b hb => by cases hb) hfold
    exact ⟨s, hs, (dirSlots_getElem? ha).1⟩

end

/-! ## Writing slots -/

/-- A position of a slot: a multiple of 32 in a sector. -/
def SlotPos.Aligned (p : SlotPos) : Prop := p.off % 32 = 0 ∧ p.off < 512

instance (p : SlotPos) : Decidable p.Aligned := inferInstanceAs (Decidable (_ ∧ _))

/-- The slots of a disk, counted from its start. -/
def SlotPos.index (p : SlotPos) : ℕ := 16 * p.lba + p.off / 32

theorem aligned_slotPos (start i : ℕ) : (slotPos start i).Aligned := by
  unfold slotPos SlotPos.Aligned
  dsimp only
  omega

theorem SlotPos.Aligned.next {p : SlotPos} (h : p.Aligned) : p.next.Aligned := by
  unfold SlotPos.Aligned at h ⊢
  unfold SlotPos.next
  split_ifs <;> dsimp only <;> omega

theorem SlotPos.Aligned.index_next {p : SlotPos} (h : p.Aligned) : p.next.index = p.index + 1 := by
  unfold SlotPos.Aligned at h
  unfold SlotPos.next SlotPos.index
  split_ifs <;> dsimp only <;> omega

theorem SlotPos.Aligned.eq_of_index {p q : SlotPos} (hp : p.Aligned) (hq : q.Aligned)
    (h : p.index = q.index) : p = q := by
  unfold SlotPos.Aligned at hp hq
  unfold SlotPos.index at h
  obtain ⟨plba, poff⟩ := p
  obtain ⟨qlba, qoff⟩ := q
  dsimp only at hp hq h
  have hlba : plba = qlba := by omega
  have hoff : poff = qoff := by omega
  rw [hlba, hoff]

/-- The byte belongs to the slot. -/
def SlotPos.Has (p : SlotPos) (lba off : ℕ) : Prop := lba = p.lba ∧ p.off ≤ off ∧ off < p.off + 32

instance decidableSlotHas (p : SlotPos) (lba off : ℕ) : Decidable (p.Has lba off) :=
  inferInstanceAs (Decidable (_ ∧ _ ∧ _))

theorem SlotPos.Aligned.eq_of_has {p q : SlotPos} (hp : p.Aligned) (hq : q.Aligned) {lba off : ℕ}
    (h : p.Has lba off) (h' : q.Has lba off) : p = q := by
  unfold SlotPos.Aligned at hp hq
  obtain ⟨plba, poff⟩ := p
  obtain ⟨qlba, qoff⟩ := q
  obtain ⟨rfl, h₁, h₂⟩ := h
  obtain ⟨rfl, h₃, h₄⟩ := h'
  dsimp only at hp hq h₁ h₂ h₃ h₄
  congr 1
  omega

theorem writeSlot_of_not_has {d : Disk} {p : SlotPos} {s : DirSlot} {lba off : ℕ}
    (h : ¬ p.Has lba off) : writeSlot d p s lba off = d lba off := by
  unfold writeSlot
  by_cases hlba : lba = p.lba
  · subst hlba
    rw [Disk.write_same]
    unfold storeSlot
    rw [dif_neg]
    exact fun hin => h ⟨rfl, hin⟩
  · rw [Disk.write_of_ne _ _ hlba]

theorem slotAt_writeSlot_same (d : Disk) (p : SlotPos) (s : DirSlot) :
    slotAt (writeSlot d p s) p = s := by
  funext k
  unfold slotAt slotOf writeSlot storeSlot
  rw [Disk.write_same, dif_pos (by omega)]
  congr 1
  apply Fin.ext
  dsimp only
  omega

/-- A slot is unchanged when its bytes are. -/
theorem slotAt_congr {d d' : Disk} {p : SlotPos}
    (h : ∀ lba off, p.Has lba off → d' lba off = d lba off) : slotAt d' p = slotAt d p := by
  funext k
  exact h p.lba (p.off + k) ⟨rfl, by omega, by omega⟩

/-- The position `i` slots further on the disk. -/
def SlotPos.after (p : SlotPos) (i : ℕ) : SlotPos := SlotPos.next^[i] p

theorem SlotPos.after_succ (p : SlotPos) (i : ℕ) : p.after (i + 1) = p.next.after i :=
  Function.iterate_succ_apply SlotPos.next i p

theorem SlotPos.next_after (p : SlotPos) (i : ℕ) : (p.after i).next = p.after (i + 1) :=
  (Function.iterate_succ_apply' SlotPos.next i p).symm

theorem SlotPos.Aligned.after {p : SlotPos} (h : p.Aligned) (i : ℕ) :
    (p.after i).Aligned ∧ (p.after i).index = p.index + i := by
  induction i generalizing p with
  | zero => exact ⟨h, rfl⟩
  | succ i ih =>
    obtain ⟨haligned, hindex⟩ := ih h.next
    rw [SlotPos.after_succ]
    refine ⟨haligned, ?_⟩
    rw [hindex, h.index_next]
    omega

/-- Bytes of no slot that is written are kept. -/
theorem writeDirEntries_of_not_has {slots : List DirSlot} {lba off : ℕ} :
    ∀ {d : Disk} {p : SlotPos}, (∀ i < slots.length, ¬ (p.after i).Has lba off) →
      writeDirEntries d p slots lba off = d lba off := by
  induction slots with
  | nil => exact fun _ => rfl
  | cons s slots ih =>
    intro d p h
    show writeDirEntries (writeSlot d p s) p.next slots lba off = _
    have hzero : ¬ p.Has lba off := h 0 (Nat.succ_pos _)
    rw [ih, writeSlot_of_not_has hzero]
    intro i hi
    rw [← SlotPos.after_succ]
    exact h (i + 1) (Nat.succ_lt_succ hi)

/-- Each slot is written in its place. -/
theorem slotAt_writeDirEntries {slots : List DirSlot} :
    ∀ {d : Disk} {p : SlotPos}, p.Aligned → ∀ i (hi : i < slots.length),
      slotAt (writeDirEntries d p slots) (p.after i) = slots[i] := by
  induction slots with
  | nil =>
    intro d p _ i hi
    cases hi
  | cons s slots ih =>
    intro d p hp i hi
    show slotAt (writeDirEntries (writeSlot d p s) p.next slots) (p.after i) = _
    cases i with
    | zero =>
      refine Eq.trans (slotAt_congr fun lba off hhas => ?_) (slotAt_writeSlot_same d p s)
      apply writeDirEntries_of_not_has
      intro j _ hj
      -- The slots behind have larger numbers.
      have heq := hp.eq_of_has (hp.next.after j).1 hhas hj
      have hindex := (hp.next.after j).2
      rw [← heq, hp.index_next] at hindex
      omega
    | succ i =>
      rw [SlotPos.after_succ]
      exact ih hp.next i (Nat.lt_of_succ_lt_succ hi)

/-! ## Found and written -/

section

variable (info : Fat16Info) (d : Disk) (c start count : ℕ)

/-- **The slots found are the slots written**: entries that are written from the first slot of the
stretch on overwrite its slots, in the order of the directory, and nothing else. -/
structure WritesFound (p : SlotPos) : Prop where
  written : ∀ slots : List DirSlot, slots.length = count → ∀ i (hi : i < slots.length),
    slotAt (writeDirEntries d p slots) (dirSlotPos info d c (start + i)) = slots[i]
  kept : ∀ slots : List DirSlot, slots.length = count → ∀ lba off,
    (∀ i < count, ¬ (dirSlotPos info d c (start + i)).Has lba off) →
      writeDirEntries d p slots lba off = d lba off

/-- Wherever the stretch passes from a cluster of the directory to the next of its chain, that is
the next cluster of the disk. -/
def Unbroken : Prop :=
  c = 0 ∨ ∀ j, start ≤ j → j + 1 < start + count → 16 * info.sectorsPerCluster ∣ j + 1 →
    chainAt info d c ((j + 1) / (16 * info.sectorsPerCluster)) =
      chainAt info d c (j / (16 * info.sectorsPerCluster)) + 1

variable {info d c start count}

theorem next_slotPos (first i : ℕ) : (slotPos first i).next = slotPos first (i + 1) := by
  unfold slotPos SlotPos.next
  dsimp only
  split_ifs <;> congr 1 <;> omega

theorem aligned_dirSlotPos (i : ℕ) : (dirSlotPos info d c i).Aligned := by
  unfold dirSlotPos
  split_ifs <;> exact aligned_slotPos _ _

/-- A slot is followed on the disk by the next one of its directory, but for the end of a cluster
that is not followed by the next one of its chain. -/
theorem next_dirSlotPos {j : ℕ} (hpos : c ≠ 0 → 0 < 16 * info.sectorsPerCluster)
    (hchained : c ≠ 0 → ∀ i, i = j ∨ i = j + 1 →
      isChained (chainAt info d c (i / (16 * info.sectorsPerCluster))) = true) :
    dirSlotPos info d c (j + 1) = (dirSlotPos info d c j).next ↔
      c = 0 ∨ (16 * info.sectorsPerCluster ∣ j + 1 →
        chainAt info d c ((j + 1) / (16 * info.sectorsPerCluster)) =
          chainAt info d c (j / (16 * info.sectorsPerCluster)) + 1) := by
  unfold dirSlotPos
  by_cases hc : c = 0
  · rw [if_pos hc, if_pos hc, next_slotPos]
    exact ⟨fun _ => Or.inl hc, fun _ => rfl⟩
  · rw [if_neg hc, if_neg hc, next_slotPos, or_iff_right hc]
    have h₁ := hchained hc j (Or.inl rfl)
    have h₂ := hchained hc (j + 1) (Or.inr rfl)
    have hpos := hpos hc
    by_cases hdvd : 16 * info.sectorsPerCluster ∣ j + 1
    · -- The last slot of a cluster.
      have hlast : j % (16 * info.sectorsPerCluster) + 1 = 16 * info.sectorsPerCluster := by
        obtain ⟨k, hk⟩ := hdvd
        obtain ⟨k, rfl⟩ : ∃ k', k = k' + 1 := by
          refine ⟨k - 1, ?_⟩
          have hne : k ≠ 0 := by
            rintro rfl
            omega
          omega
        rw [Nat.mul_succ] at hk
        have hj : j = 16 * info.sectorsPerCluster - 1 + 16 * info.sectorsPerCluster * k := by omega
        rw [hj, Nat.add_mul_mod_self_left, Nat.mod_eq_of_lt (by omega)]
        omega
      rw [Nat.mod_eq_zero_of_dvd hdvd, hlast]
      generalize chainAt info d c ((j + 1) / (16 * info.sectorsPerCluster)) = b at h₂ ⊢
      generalize chainAt info d c (j / (16 * info.sectorsPerCluster)) = a at h₁ ⊢
      rw [isChained_iff] at h₁ h₂
      have hlba : slotPos (info.clusterToLba b) 0 =
          slotPos (info.clusterToLba a) (16 * info.sectorsPerCluster) ↔
          (b - 2) * info.sectorsPerCluster = (a - 2 + 1) * info.sectorsPerCluster := by
        unfold slotPos Fat16Info.clusterToLba
        rw [SlotPos.mk.injEq, Nat.mul_mod_right, Nat.mul_div_cancel_left _ (by norm_num), add_mul,
          one_mul]
        simp only [Nat.zero_mod, Nat.zero_div, and_true]
        omega
      rw [hlba, Nat.mul_left_inj (by omega)]
      constructor
      · exact fun h _ => by omega
      · intro h
        have heq := h hdvd
        omega
    · have hdiv : (j + 1) / (16 * info.sectorsPerCluster) = j / (16 * info.sectorsPerCluster) :=
        Nat.succ_div_of_not_dvd hdvd
      have hmod : (j + 1) % (16 * info.sectorsPerCluster) = j % (16 * info.sectorsPerCluster) + 1 := by
        have hj := Nat.div_add_mod j (16 * info.sectorsPerCluster)
        have hj' := Nat.div_add_mod (j + 1) (16 * info.sectorsPerCluster)
        rw [hdiv] at hj'
        omega
      rw [hmod, hdiv]
      exact ⟨fun _ h => absurd h hdvd, fun _ => rfl⟩

/-- Slots that lie one after the other on the disk are overwritten, and no others. -/
theorem writesFound_of_after {p : SlotPos} (hp : p.Aligned)
    (h : ∀ i < count, dirSlotPos info d c (start + i) = p.after i) :
    WritesFound info d c start count p where
  written := by
    intro slots hlen i hi
    rw [h i (by omega)]
    exact slotAt_writeDirEntries hp i hi
  kept := by
    intro slots hlen lba off hnot
    apply writeDirEntries_of_not_has
    intro i hi
    rw [← h i (by omega)]
    exact hnot i (by omega)

/-- A slot in which a mark can be put is the one that is written for it. -/
theorem WritesFound.after {p : SlotPos} (hp : p.Aligned) (h : WritesFound info d c start count p) :
    ∀ i < count, dirSlotPos info d c (start + i) = p.after i := by
  intro i hi
  -- Two fillings that differ in slot `i` alone, and in it from what is on the disk.
  obtain ⟨mark, hmark⟩ : ∃ mark : DirSlot, mark ≠ slotAt d (dirSlotPos info d c (start + i)) := by
    refine ⟨fun k => slotAt d (dirSlotPos info d c (start + i)) k + 1, fun heq => ?_⟩
    have hzero := congrFun heq 0
    simp at hzero
  set slots : List DirSlot :=
    (List.replicate count (slotAt d (dirSlotPos info d c (start + i)))).set i mark with hslots
  have hlen : slots.length = count := by
    rw [hslots, List.length_set, List.length_replicate]
  have hin : i < slots.length := by omega
  have hwritten := h.written slots hlen i hin
  have hget : slots[i] = mark := by
    simp only [hslots, List.getElem_set_self]
  rw [hget] at hwritten
  by_contra hne
  apply hmark
  rw [← hwritten]
  -- If slot `i` is written at all, then with what was there.
  by_cases hin : ∃ j < slots.length, dirSlotPos info d c (start + i) = p.after j
  · obtain ⟨j, hj, heq⟩ := hin
    have hji : i ≠ j := by
      rintro rfl
      exact hne heq
    rw [heq, slotAt_writeDirEntries hp j hj]
    simp only [hslots, List.getElem_set_ne hji, List.getElem_replicate]
    rw [heq]
  · apply slotAt_congr
    intro lba off hhas
    apply writeDirEntries_of_not_has
    intro j hj hhas'
    exact hin ⟨j, hj, (aligned_dirSlotPos _).eq_of_has (hp.after j).1 hhas hhas'⟩

/-- **When the slots found are the slots written.**  For every directory, chain and number of
slots: the first stretch of so many free slots is found, and it is overwritten exactly if it is
unbroken. -/
theorem slotsFound_written_iff (info : Fat16Info) (fuel : ℕ) (d : Disk) (c count : ℕ) (p : SlotPos)
    (hcount : 1 ≤ count) (hfind : findFreeDirSlots info fuel d c count = some (some p)) :
    ∃ start, Stretch.First (fun a => a.2.isFree) count (dirSlots info d c fuel) start ∧
      p = dirSlotPos info d c start ∧
      (WritesFound info d c start count p ↔ Unbroken info d c start count) := by
  obtain ⟨start, hfirst, hp⟩ := findFreeDirSlots_first hcount hfind
  refine ⟨start, hfirst, hp, ?_⟩
  have haligned : p.Aligned := by
    rw [hp]
    exact aligned_dirSlotPos _
  -- The slots of the stretch are there, so the clusters they lie in belong to the chain.
  have hslot : c ≠ 0 → ∀ i < count,
      isChained (chainAt info d c ((start + i) / (16 * info.sectorsPerCluster))) = true ∧
        0 < 16 * info.sectorsPerCluster := by
    intro hc i hi
    obtain ⟨a, ha, _⟩ := hfirst.1 i hi
    unfold dirSlots at ha
    rw [if_neg hc] at ha
    exact (slotsAlong_getElem? ha).2
  have hnext : ∀ i, i + 1 < count →
      (dirSlotPos info d c (start + i + 1) = (dirSlotPos info d c (start + i)).next ↔
        c = 0 ∨ (16 * info.sectorsPerCluster ∣ start + i + 1 →
          chainAt info d c ((start + i + 1) / (16 * info.sectorsPerCluster)) =
            chainAt info d c ((start + i) / (16 * info.sectorsPerCluster)) + 1)) := by
    intro i hi
    refine next_dirSlotPos (fun hc => (hslot hc 0 hcount).2) fun hc j hj => ?_
    rcases hj with rfl | rfl
    · exact (hslot hc i (by omega)).1
    · exact (hslot hc (i + 1) hi).1
  constructor
  · intro hwrites
    have hafter := hwrites.after haligned
    by_cases hc : c = 0
    · exact Or.inl hc
    · refine Or.inr fun j hstart hj hdvd => ?_
      obtain ⟨i, rfl⟩ : ∃ i, j = start + i := ⟨j - start, by omega⟩
      have hstep : dirSlotPos info d c (start + i + 1) = (dirSlotPos info d c (start + i)).next := by
        rw [hafter i (by omega), SlotPos.next_after]
        exact hafter (i + 1) (by omega)
      exact ((hnext i (by omega)).mp hstep).resolve_left hc hdvd
  · intro hunbroken
    apply writesFound_of_after haligned
    intro i
    induction i with
    | zero => exact fun _ => hp.symm
    | succ i ih =>
      intro hi
      rw [← SlotPos.next_after, ← ih (by omega)]
      refine (hnext i hi).mpr ?_
      rcases hunbroken with hc | h
      · exact Or.inl hc
      · exact Or.inr fun hdvd => h (start + i) (by omega) (by omega) hdvd

end

/-! ## A directory in two pieces -/

/-- A small volume with an empty root directory.  Clusters 2 and 4 are a directory whose last free
slot of the first cluster is a deleted entry; cluster 3 belongs to a file. -/
def piecesDisk : Disk := fun s =>
  match s with
  | 0 => fun x => match x with
    | 12 => 2 | 13 => 1 | 14 => 1 | 16 => 1 | 17 => 16 | 19 => 100 | 22 => 1
    | 510 => 0x55 | 511 => 0xAA | _ => 0
  | 1 => fun x => match x with
    | 4 => 4 | 6 => 0xFF | 7 => 0xFF | 8 => 0xFF | 9 => 0xFF | _ => 0
  | 3 => fun x => if x % 32 = 0 then if x = 480 then 0xE5 else 0x41 else 0
  | 4 => fun _ => 0x46
  | _ => fun _ => 0

/-- What the mount of it gives. -/
def piecesInfo : Fat16Info := (fat16Mount piecesDisk).get (by decide)

/-- Three slots of the root directory are found and written. -/
theorem slotsFound_written_root :
    ∃ start, Stretch.First (fun a => a.2.isFree) 3 (dirSlots piecesInfo piecesDisk 0 0) start ∧
      (⟨2, 0⟩ : SlotPos) = dirSlotPos piecesInfo piecesDisk 0 start ∧
      (WritesFound piecesInfo piecesDisk 0 start 3 ⟨2, 0⟩ ↔ Unbroken piecesInfo piecesDisk 0 start 3) :=
  slotsFound_written_iff piecesInfo 0 piecesDisk 0 3 ⟨2, 0⟩ (by decide) (by decide)

/-- Two slots of the directory in two pieces are found, the second in cluster 4, and the second one
is written to cluster 3. -/
theorem slot_written_astray :
    findFreeDirSlots piecesInfo 2 piecesDisk 2 2 = some (some ⟨3, 480⟩) ∧
    dirSlotPos piecesInfo piecesDisk 2 15 = ⟨3, 480⟩ ∧
    dirSlotPos piecesInfo piecesDisk 2 16 = ⟨5, 0⟩ ∧
    (∀ s : DirSlot, slotAt (writeDirEntries piecesDisk ⟨3, 480⟩ [s, s]) ⟨4, 0⟩ = s) ∧
    ¬ WritesFound piecesInfo piecesDisk 2 15 2 ⟨3, 480⟩ := by
  refine ⟨by decide, by decide, by decide, fun s => ?_, fun h => ?_⟩
  · exact @slotAt_writeDirEntries [s, s] piecesDisk ⟨3, 480⟩ (by decide) 1 Nat.one_lt_two
  · have hwritten := h.written [fun _ => 1, fun _ => 1] rfl 1 (by decide)
    have hbyte := congrFun hwritten 0
    revert hbyte
    decide

end Microkernel

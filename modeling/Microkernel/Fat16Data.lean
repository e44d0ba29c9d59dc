/-
# FAT16: the data of a file

The loop of `fat16_write_file` in `src/fat16.c` that writes the data along a chain and the loop of
`fat16_read_file` that reads it back.
-/
import Microkernel.Fat16Overwrite

namespace Microkernel

open Rounds

/-- A chain of clusters, each once, that is linked in the table and has room for `size` bytes; it
may go on behind them. -/
structure DataChain (info : Fat16Info) (d : Disk) (size : ℕ) (l : List ℕ) : Prop where
  nodup : l.Nodup
  chained : ∀ x ∈ l, isChained x = true
  covered : ∀ x ∈ l, x < info.fatEntries
  linked : l.IsChain fun a b => fatReadEntry info d a = b
  room : size ≤ l.length * (info.sectorsPerCluster * 512)

section

variable {info : Fat16Info} {d d' : Disk} {c size : ℕ} {l : List ℕ} {data : List UInt8}

/-! ## One cluster -/

theorem readSectors_congr {n lba todo : ℕ} (h : ∀ s, lba ≤ s → s < lba + n → d' s = d s) :
    readSectors d' lba n todo = readSectors d lba n todo := by
  induction n generalizing lba todo with
  | zero => rfl
  | succ n ih =>
    unfold readSectors
    rw [h lba le_rfl (by omega), ih fun s hs hlt => h s (by omega) (by omega)]

/-- A sector with the beginning of the data in it. -/
theorem map_storeBytes_take (n : ℕ) :
    (List.range (min data.length n)).map (Memory.storeBytes (fun _ => 0) 0 (data.take n)) = data.take n := by
  apply List.ext_getElem
  · rw [List.length_map, List.length_range, List.length_take, Nat.min_comm]
  · intro i _ hi
    have hbyte := @Memory.storeBytes_of_inside (fun _ => 0) 0 i (data.take n) hi
    rw [Nat.zero_add] at hbyte
    rw [List.getElem_map, List.getElem_range, hbyte]

/-- **A cluster gives back what was written to it.** -/
theorem readSectors_writeSectors {n lba : ℕ} :
    readSectors (writeSectors d lba n data).1 lba n data.length = data.take (n * 512) := by
  induction n generalizing d lba data with
  | zero => rw [Nat.zero_mul, List.take_zero]; rfl
  | succ n ih =>
    unfold readSectors writeSectors
    by_cases hnil : data = []
    · rw [hnil]
      rfl
    · rw [if_neg hnil, if_neg (fun h => hnil (List.length_eq_zero_iff.mp h)),
        writeSectors_kept (Or.inl (Nat.lt_succ_self lba)), Disk.write_same, map_storeBytes_take,
        ← List.length_drop, ih, Nat.succ_mul, Nat.add_comm, ← List.take_add]

/-! ## The chain -/

/-- The table is not changed by what is written to clusters. -/
theorem fatReadEntry_of_clusters (hlaid : info.Laid)
    (h : ∀ s, (∀ x ∈ l, ¬ info.InCluster x s) → d' s = d s) {x : ℕ} (hx : x < info.fatEntries) :
    fatReadEntry info d' x = fatReadEntry info d x := by
  refine fatReadEntry_congr hlaid (fun s hs => h s fun x _ hin => ?_) hx
  have hdata := hlaid.data
  unfold Fat16Info.InCluster Fat16Info.clusterToLba at hin
  omega

/-- The chain behind its first cluster, for what is left of the data. -/
theorem DataChain.next (h : DataChain info d size (c :: l))
    (hleft : size - info.sectorsPerCluster * 512 ≠ 0)
    (htable : ∀ x < info.fatEntries, fatReadEntry info d' x = fatReadEntry info d x) :
    ∃ b l', l = b :: l' ∧ fatReadEntry info d' c = b ∧ c ∉ l ∧
      DataChain info d' (size - info.sectorsPerCluster * 512) l := by
  have hroom := h.room
  rw [List.length_cons, Nat.succ_mul] at hroom
  have hlinked : (c :: l).IsChain fun a b => fatReadEntry info d' a = b := by
    refine List.IsChain.imp_of_mem_imp ?_ h.linked
    intro a b ha _ hab
    exact (htable a (h.covered a ha)).trans hab
  cases l with
  | nil =>
    rw [List.length_nil] at hroom
    omega
  | cons b l =>
    obtain ⟨hnext, hrest⟩ := List.isChain_cons_cons.mp hlinked
    obtain ⟨hc, hnodup⟩ := List.nodup_cons.mp h.nodup
    refine ⟨b, l, rfl, hnext, hc, hnodup, fun x hx => h.chained x (List.mem_cons_of_mem _ hx),
      fun x hx => h.covered x (List.mem_cons_of_mem _ hx), hrest, ?_⟩
    omega

/-- The disk after the first cluster is written. -/
def afterCluster (info : Fat16Info) (d : Disk) (c : ℕ) (data : List UInt8) : Disk :=
  (writeSectors d (info.clusterToLba c) info.sectorsPerCluster data).1

theorem afterCluster_kept {s : ℕ} (hs : ¬ info.InCluster c s) : afterCluster info d c data s = d s := by
  unfold Fat16Info.InCluster at hs
  exact writeSectors_kept (by omega)

theorem writeChain_succ {n : ℕ} (hc : isChained c = true) (hdata : data ≠ []) :
    writeChain info (n + 1) d c data =
      writeChain info n (afterCluster info d c data) (fatReadEntry info (afterCluster info d c data) c)
        (data.drop (info.sectorsPerCluster * 512)) := by
  have hcond : (isChained c && decide (data ≠ [])) = true := by
    rw [hc, decide_eq_true hdata]
    rfl
  show (if (isChained c && decide (data ≠ [])) = true then _ else _) = _
  rw [if_pos hcond]
  dsimp only
  rw [writeSectors_left]
  rfl

/-- Reading the first cluster, on a disk that has it as it was written. -/
theorem readChain_succ {n : ℕ} (hc : isChained c = true) (hdata : data ≠ [])
    (hsame : ∀ s, info.InCluster c s → d' s = afterCluster info d c data s) :
    readChain info d' (n + 1) c data.length =
      (readChain info d' n (fatReadEntry info d' c) (data.length - info.sectorsPerCluster * 512)).map
        (data.take (info.sectorsPerCluster * 512) ++ ·) := by
  have hlen : data.length ≠ 0 := fun h => hdata (List.length_eq_zero_iff.mp h)
  have hbytes : readSectors d' (info.clusterToLba c) info.sectorsPerCluster data.length =
      data.take (info.sectorsPerCluster * 512) := by
    rw [readSectors_congr fun s hlo hhi => hsame s ⟨hlo, hhi⟩]
    exact readSectors_writeSectors
  have hcond : (isChained c && decide (data.length ≠ 0)) = true := by
    rw [hc, decide_eq_true hlen]
    rfl
  show (if (isChained c && decide (data.length ≠ 0)) = true then _ else _) = _
  rw [if_pos hcond]
  dsimp only
  rw [sub_length_readSectors, hbytes]

theorem writeChain_nil (d : Disk) (c : ℕ) : writeChain info 1 d c [] = some (d, []) := by
  unfold writeChain
  rw [decide_eq_false (fun h => h rfl), Bool.and_false, if_neg Bool.false_ne_true]

theorem readChain_zero (d : Disk) (c : ℕ) : readChain info d 1 c 0 = some [] := by
  unfold readChain
  rw [decide_eq_false (fun h => h rfl), Bool.and_false, if_neg Bool.false_ne_true]

/-- Data that fits in the first cluster. -/
theorem DataChain.roundTrip_of_le (h : DataChain info d data.length (c :: l))
    (hle : data.length ≤ info.sectorsPerCluster * 512) :
    ∃ d', Gives (fun n => writeChain info n d c data) (d', []) ∧
      Gives (fun n => readChain info d' n c data.length) data ∧
      ∀ s, (∀ x ∈ c :: l, ¬ info.InCluster x s) → d' s = d s := by
  have hc := h.chained c List.mem_cons_self
  by_cases hdata : data = []
  · subst hdata
    exact ⟨d, ⟨1, writeChain_nil d c⟩, ⟨1, readChain_zero d c⟩, fun _ _ => rfl⟩
  · refine ⟨afterCluster info d c data, ⟨2, ?_⟩, ⟨2, ?_⟩, ?_⟩
    · dsimp only
      rw [writeChain_succ hc hdata, List.drop_eq_nil_of_le hle]
      exact writeChain_nil _ _
    · dsimp only
      rw [readChain_succ hc hdata fun _ _ => rfl, Nat.sub_eq_zero_of_le hle, readChain_zero,
        Option.map_some, List.append_nil, List.take_of_length_le hle]
    · exact fun s hs => afterCluster_kept (hs c List.mem_cons_self)

/-- **Writing along a chain and reading it back**, by induction on the chain: what is written behind
the first cluster changes neither this cluster nor the table. -/
theorem DataChain.roundTrip (hlaid : info.Laid) (h : DataChain info d data.length (c :: l)) :
    ∃ d', Gives (fun n => writeChain info n d c data) (d', []) ∧
      Gives (fun n => readChain info d' n c data.length) data ∧
      ∀ s, (∀ x ∈ c :: l, ¬ info.InCluster x s) → d' s = d s := by
  induction l generalizing c d data with
  | nil =>
    have hroom := h.room
    rw [List.length_singleton, Nat.one_mul] at hroom
    exact h.roundTrip_of_le hroom
  | cons b l ih =>
    by_cases hle : data.length ≤ info.sectorsPerCluster * 512
    · exact h.roundTrip_of_le hle
    have hc := h.chained c List.mem_cons_self
    have hdata : data ≠ [] := by
      rintro rfl
      exact hle (Nat.zero_le _)
    have hcovered := h.covered c List.mem_cons_self
    have hfirst : ∀ s, (∀ x ∈ [c], ¬ info.InCluster x s) → afterCluster info d c data s = d s :=
      fun s hs => afterCluster_kept (hs c List.mem_cons_self)
    have htable : ∀ x < info.fatEntries,
        fatReadEntry info (afterCluster info d c data) x = fatReadEntry info d x :=
      fun x hx => fatReadEntry_of_clusters hlaid hfirst hx
    obtain ⟨_, _, heq, hnext, hnot, hrest⟩ := h.next (by omega) htable
    obtain ⟨rfl, rfl⟩ := List.cons.inj heq
    rw [← List.length_drop] at hrest
    obtain ⟨d', ⟨n, hwrite⟩, ⟨m, hread⟩, hkept⟩ := ih hrest
    have hlink : fatReadEntry info d' c = b := by
      rw [fatReadEntry_of_clusters hlaid hkept hcovered, hnext]
    have hsame : ∀ s, info.InCluster c s → d' s = afterCluster info d c data s := by
      intro s hs
      refine hkept s fun x hx hin => hnot ?_
      have hchained := h.chained x (List.mem_cons_of_mem _ hx)
      rw [eq_of_inCluster (isChained_iff.mp hc).1 (isChained_iff.mp hchained).1 hs hin]
      exact hx
    refine ⟨d', ⟨n + 1, ?_⟩, ⟨m + 1, ?_⟩, ?_⟩
    · dsimp only
      rw [writeChain_succ hc hdata, hnext]
      exact hwrite
    · rw [List.length_drop] at hread
      dsimp only at hread ⊢
      rw [readChain_succ hc hdata hsame, hlink, hread, Option.map_some, List.take_append_drop]
    · intro s hs
      rw [hkept s fun x hx => hs x (List.mem_cons_of_mem _ hx)]
      exact afterCluster_kept (hs c List.mem_cons_self)

end

/-! ## Writing and reading -/

/-- **The data of a file comes back.**  On a mounted volume, for every chain of clusters without
repetition that has room for the data, the write loop of `fat16_write_file` writes all of it, the
read loop of `fat16_read_file` with room for at least as much gives exactly the data, and the sectors
outside the clusters of the chain are as before. -/
theorem fat16_data_roundTrip {boot : Disk} {info : Fat16Info} (hmount : fat16Mount boot = some info)
    (d : Disk) (c : ℕ) (l : List ℕ)
    (data : List UInt8) (hchain : DataChain info d data.length (c :: l)) :
    ∃ d', Gives (fun fuel => writeChain info fuel d c data) (d', []) ∧
      (∀ maxSize ≥ data.length,
        Gives (fun fuel => readChain info d' fuel c (min data.length maxSize)) data) ∧
      ∀ s, (∀ x ∈ c :: l, ¬ info.InCluster x s) → d' s = d s := by
  obtain ⟨d', hwrite, hread, hkept⟩ := hchain.roundTrip (laid_of_mount hmount)
  refine ⟨d', hwrite, fun maxSize hmax => ?_, hkept⟩
  rw [Nat.min_eq_left hmax]
  exact hread

/-- A table in which cluster 2 is linked to cluster 5. -/
def linkedDisk : Disk := fun s => if s = 1 then fun x => if x = 4 then 5 else 0 else fun _ => 0

theorem dataChain_linkedDisk : DataChain unequalInfo linkedDisk 600 [2, 5] where
  nodup := by decide
  chained := by decide
  covered := by decide
  linked := List.isChain_pair.mpr (by decide)
  room := by decide

theorem fat16_data_roundTrip_twoClusters :
    ∃ d', Gives (fun fuel => writeChain unequalInfo fuel linkedDisk 2 (List.replicate 600 7)) (d', []) ∧
      (∀ maxSize ≥ (List.replicate 600 (7 : UInt8)).length,
        Gives (fun fuel => readChain unequalInfo d' fuel 2 (min (List.replicate 600 (7 : UInt8)).length maxSize))
          (List.replicate 600 7)) ∧
      ∀ s, (∀ x ∈ [2, 5], ¬ unequalInfo.InCluster x s) → d' s = linkedDisk s :=
  fat16_data_roundTrip mount_unequalDisk linkedDisk 2 [5] (List.replicate 600 7)
    (List.length_replicate ▸ dataChain_linkedDisk)

end Microkernel

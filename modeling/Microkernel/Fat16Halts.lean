/-
# FAT16: loops that may not end

When the operations of the FAT16 driver return, for any contents of the tables and directories.
The loops that free, read or write a chain end whatever the table holds.  A scan of a directory
goes on for ever along a chain without an end when no slot on it ends the scan, and the search
for a free cluster when its bound is more than its 16-bit counter can reach and no entry is free.
`ScanEnds` and `AllocEnds` say so of the disk.
-/
import Microkernel.Fat16Lookup
import Microkernel.Rounds

namespace Microkernel

open Rounds

/-! ## Scans of a directory -/

/-- The `k`-th cluster of the chain from `c` on. -/
def chainAt (info : Fat16Info) (d : Disk) : ℕ → ℕ → ℕ
  | c, 0 => c
  | c, k + 1 => chainAt info d (fatReadEntry info d c) k

/-- The slots of a cluster. -/
def clusterSlots (info : Fat16Info) (d : Disk) (c : ℕ) : List (SlotPos × DirSlot) :=
  (List.range (16 * info.sectorsPerCluster)).map fun i =>
    (slotPos (info.clusterToLba c) i, slotAt d (slotPos (info.clusterToLba c) i))

/-- The slots of the first `k` clusters of the chain from `c` on. -/
def chainSlots (info : Fat16Info) (d : Disk) : ℕ → ℕ → List (SlotPos × DirSlot)
  | _, 0 => []
  | c, k + 1 => clusterSlots info d c ++ chainSlots info d (fatReadEntry info d c) k

section

variable {ρ σ : Type} (visit : σ → SlotPos × DirSlot → ρ ⊕ σ) (info : Fat16Info) (d : Disk)

/-- A scan of a directory ends: the directory is the root, or its chain ends, or some slot of the
chain ends the scan. -/
def ScanEnds (c : ℕ) (st : σ) : Prop :=
  c = 0 ∨ (∃ k, isChained (chainAt info d c k) = false) ∨
    ∃ k, (foldUntil visit (chainSlots info d c k) st).isLeft = true

variable {visit info d}

theorem foldUntil_map {α β : Type} (visit : σ → β → ρ ⊕ σ) (h : α → β) (l : List α) (st : σ) :
    foldUntil (fun st a => visit st (h a)) l st = foldUntil visit (l.map h) st := by
  induction l generalizing st with
  | nil => rfl
  | cons a l ih =>
    unfold foldUntil
    rw [List.map_cons]
    dsimp only
    cases visit st (h a) with
    | inl r => rfl
    | inr st' => exact ih st'

theorem foldUntil_append {α : Type} (visit : σ → α → ρ ⊕ σ) (l l' : List α) (st : σ) :
    foldUntil visit (l ++ l') st = (foldUntil visit l st).elim .inl (foldUntil visit l') := by
  induction l generalizing st with
  | nil => rfl
  | cons a l ih =>
    rw [List.cons_append]
    unfold foldUntil
    cases visit st a with
    | inl r => rfl
    | inr st' => exact ih st'

theorem scanSectors_eq (c : ℕ) (st : σ) :
    scanSectors visit d (info.clusterToLba c) info.sectorsPerCluster st =
      foldUntil visit (clusterSlots info d c) st :=
  foldUntil_map visit _ _ st

theorem scanChain_succ {n c : ℕ} {st : σ} (hc : isChained c = true) :
    scanChain visit info d (n + 1) c st =
      (foldUntil visit (clusterSlots info d c) st).elim (fun r => some (.inl r))
        (scanChain visit info d n (fatReadEntry info d c)) := by
  rw [← scanSectors_eq]
  show (if isChained c = true then _ else _) = _
  rw [if_pos hc]
  cases scanSectors visit d (info.clusterToLba c) info.sectorsPerCluster st <;> rfl

/-- A scan that returns met the end of the chain or a slot that ended it. -/
theorem ends_of_scanChain {n : ℕ} : ∀ {c : ℕ} {st : σ} {r : ρ ⊕ σ},
    scanChain visit info d n c st = some r → (∃ k, isChained (chainAt info d c k) = false) ∨
      ∃ k, (foldUntil visit (chainSlots info d c k) st).isLeft = true := by
  induction n with
  | zero =>
    intro c st r h
    cases h
  | succ n ih =>
    intro c st r h
    cases hc : isChained c with
    | false => exact Or.inl ⟨0, hc⟩
    | true =>
      rw [scanChain_succ hc] at h
      cases hslots : foldUntil visit (clusterSlots info d c) st with
      | inl r' =>
        refine Or.inr ⟨1, ?_⟩
        unfold chainSlots
        rw [foldUntil_append, hslots]
        rfl
      | inr st' =>
        rw [hslots] at h
        rcases ih h with ⟨k, hk⟩ | ⟨k, hk⟩
        · exact Or.inl ⟨k + 1, hk⟩
        · refine Or.inr ⟨k + 1, ?_⟩
          unfold chainSlots
          rw [foldUntil_append, hslots]
          exact hk

/-- A scan returns when its first cluster ends it or the rest of it returns. -/
theorem returns_scanChain_of_rest {c : ℕ} {st : σ}
    (h : ∀ st', foldUntil visit (clusterSlots info d c) st = .inr st' →
      Returns fun n => scanChain visit info d n (fatReadEntry info d c) st') :
    Returns fun n => scanChain visit info d n c st := by
  cases hc : isChained c with
  | false =>
    refine ⟨.inr st, 1, ?_⟩
    show (if isChained c = true then _ else _) = _
    rw [hc]
    rfl
  | true =>
    cases hslots : foldUntil visit (clusterSlots info d c) st with
    | inl r =>
      refine ⟨.inl r, 1, ?_⟩
      dsimp only
      rw [scanChain_succ hc, hslots]
      rfl
    | inr st' =>
      obtain ⟨r, n, hn⟩ := h st' hslots
      refine ⟨r, n + 1, ?_⟩
      dsimp only
      rw [scanChain_succ hc, hslots]
      exact hn

theorem returns_scanChain_of_chain {k : ℕ} : ∀ {c : ℕ} {st : σ},
    isChained (chainAt info d c k) = false → Returns fun n => scanChain visit info d n c st := by
  induction k with
  | zero =>
    intro c st h
    refine ⟨.inr st, 1, ?_⟩
    show (if isChained c = true then _ else _) = _
    rw [show isChained c = false from h]
    rfl
  | succ k ih =>
    intro c st h
    exact returns_scanChain_of_rest fun st' _ => ih h

theorem returns_scanChain_of_slot {k : ℕ} : ∀ {c : ℕ} {st : σ},
    (foldUntil visit (chainSlots info d c k) st).isLeft = true →
      Returns fun n => scanChain visit info d n c st := by
  induction k with
  | zero =>
    intro c st h
    cases h
  | succ k ih =>
    intro c st h
    refine returns_scanChain_of_rest fun st' hslots => ih ?_
    unfold chainSlots at h
    rw [foldUntil_append, hslots] at h
    exact h

/-- **A scan returns** exactly if the disk makes it end. -/
theorem returns_scanDir {c : ℕ} {st : σ} :
    Returns (fun n => scanDir visit info d n c st) ↔ ScanEnds visit info d c st := by
  unfold ScanEnds scanDir
  by_cases hc : c = 0
  · simp only [if_pos hc]
    exact ⟨fun _ => Or.inl hc, fun _ => returns_some _⟩
  · simp only [if_neg hc]
    constructor
    · rintro ⟨r, n, hn⟩
      exact Or.inr (ends_of_scanChain hn)
    · rintro (h0 | ⟨k, hk⟩ | ⟨k, hk⟩)
      · exact absurd h0 hc
      · exact returns_scanChain_of_chain hk
      · exact returns_scanChain_of_slot hk

end

/-- The scans of the driver end: reading up to 128 entries, the search for a name, and the search
for free slots. -/
def ReadEnds (info : Fat16Info) (d : Disk) (c : ℕ) : Prop :=
  ScanEnds (ρ := List ExtEntry) (visitEntry id fun es _ e =>
    if 128 ≤ es.length + 1 then .inl (es ++ [e]) else .inr (es ++ [e])) info d c ([], none)

def FindEnds (info : Fat16Info) (d : Disk) (c : ℕ) (name : List UInt8) : Prop :=
  ScanEnds (ρ := Option (SlotPos × DirSlot)) (visitEntry (fun _ => none) fun _ p e =>
    if e.matches name then .inl (some (p, e.sfn)) else .inr ()) info d c ((), none)

def SlotsEnd (info : Fat16Info) (d : Disk) (c count : ℕ) : Prop :=
  ScanEnds (visitFree count) info d c (0, ⟨0, 0⟩)

section

variable {info : Fat16Info} {d : Disk} {c : ℕ}

theorem steady_readDir (max : ℕ) : Steady fun n => readDir info n d c max :=
  fun _ _ _ hle h => readDir_mono hle h

theorem steady_findEntryInDir (name : List UInt8) :
    Steady fun n => findEntryInDir info n d c name :=
  fun _ _ _ hle h => findEntryInDir_mono hle h

theorem steady_findFreeDirSlots (count : ℕ) : Steady fun n => findFreeDirSlots info n d c count := by
  have hscan : Steady fun n => scanDir (visitFree count) info d n c (0, ⟨0, 0⟩) :=
    fun _ _ _ hle h => scanDir_mono hle h
  exact hscan.map _

theorem returns_readDir : Returns (fun n => readDir info n d c 128) ↔ ReadEnds info d c :=
  returns_map.trans returns_scanDir

theorem returns_findEntryInDir {name : List UInt8} :
    Returns (fun n => findEntryInDir info n d c name) ↔ FindEnds info d c name :=
  returns_map.trans returns_scanDir

theorem returns_findFreeDirSlots {count : ℕ} :
    Returns (fun n => findFreeDirSlots info n d c count) ↔ SlotsEnd info d c count :=
  returns_map.trans returns_scanDir

end

/-! ## Allocating -/

/-- The search for a free cluster ends: its bound fits in the counter, or an entry is free. -/
def AllocEnds (info : Fat16Info) (d : Disk) : Prop :=
  (info.totalClusters + 2) % 2 ^ 32 < 2 ^ 16 ∨ ∃ c < 2 ^ 16, fatReadEntry info d c = 0

section

variable {info : Fat16Info} {d : Disk}

theorem fatAllocLoop_succ (n c : ℕ) : fatAllocLoop info d (n + 1) c =
    if c < (info.totalClusters + 2) % 2 ^ 32 then
      if fatReadEntry info d c = 0 then some (c, fatWriteEntry info d c 0xFFFF)
      else fatAllocLoop info d n ((c + 1) % 2 ^ 16)
    else some (0, d) := rfl

theorem fatAllocLoop_of_free {n c : ℕ} (hlt : c < (info.totalClusters + 2) % 2 ^ 32)
    (hfree : fatReadEntry info d c = 0) :
    fatAllocLoop info d (n + 1) c = some (c, fatWriteEntry info d c 0xFFFF) := by
  rw [fatAllocLoop_succ, if_pos hlt, if_pos hfree]

theorem fatAllocLoop_of_bound {n c : ℕ} (hge : ¬ c < (info.totalClusters + 2) % 2 ^ 32) :
    fatAllocLoop info d (n + 1) c = some (0, d) := by
  rw [fatAllocLoop_succ, if_neg hge]

theorem fatAllocLoop_of_used {n c : ℕ} (hlt : c < (info.totalClusters + 2) % 2 ^ 32)
    (hused : fatReadEntry info d c ≠ 0) :
    fatAllocLoop info d (n + 1) c = fatAllocLoop info d n ((c + 1) % 2 ^ 16) := by
  rw [fatAllocLoop_succ, if_pos hlt, if_neg hused]

theorem steady_fatAllocCluster : Steady fun n => fatAllocCluster info n d := by
  have hloop : ∀ n m c a, n ≤ m → fatAllocLoop info d n c = some a →
      fatAllocLoop info d m c = some a := by
    intro n
    induction n with
    | zero =>
      intro m c a _ h
      cases h
    | succ n ih =>
      intro m c a hle h
      obtain ⟨m, rfl⟩ : ∃ k, m = k + 1 := ⟨m - 1, by omega⟩
      rw [fatAllocLoop_succ] at h ⊢
      split_ifs at h ⊢
      · exact h
      · exact ih _ _ _ (by omega) h
      · exact h
  exact fun n m a hle h => hloop n m 2 a hle h

/-- The counter reaches the bound. -/
theorem returns_fatAllocLoop_of_bound (hbound : (info.totalClusters + 2) % 2 ^ 32 < 2 ^ 16)
    (k : ℕ) : ∀ {c : ℕ}, (info.totalClusters + 2) % 2 ^ 32 - c = k →
      Returns fun n => fatAllocLoop info d n c := by
  induction k with
  | zero => exact fun hk => ⟨_, 1, fatAllocLoop_of_bound (by omega)⟩
  | succ k ih =>
    intro c hk
    by_cases hfree : fatReadEntry info d c = 0
    · exact ⟨_, 1, fatAllocLoop_of_free (by omega) hfree⟩
    · have hmod : (c + 1) % 2 ^ 16 = c + 1 := Nat.mod_eq_of_lt (by omega)
      obtain ⟨a, n, hn⟩ := ih (c := c + 1) (by omega)
      rw [← hmod] at hn
      exact ⟨a, n + 1, (fatAllocLoop_of_used (by omega) hfree).trans hn⟩

/-- The counter, which wraps around, reaches the free entry. -/
theorem returns_fatAllocLoop_of_free {free : ℕ} (hfree : fatReadEntry info d free = 0)
    (hlt : free < 2 ^ 16) (k : ℕ) : ∀ {c : ℕ}, c < 2 ^ 16 → (free + 2 ^ 16 - c) % 2 ^ 16 = k →
      Returns fun n => fatAllocLoop info d n c := by
  induction k with
  | zero =>
    intro c hc hk
    have heq : c = free := by omega
    subst heq
    by_cases hbound : c < (info.totalClusters + 2) % 2 ^ 32
    · exact ⟨_, 1, fatAllocLoop_of_free hbound hfree⟩
    · exact ⟨_, 1, fatAllocLoop_of_bound hbound⟩
  | succ k ih =>
    intro c hc hk
    obtain ⟨a, n, hn⟩ := ih (c := (c + 1) % 2 ^ 16) (Nat.mod_lt _ (by norm_num)) (by omega)
    by_cases hbound : c < (info.totalClusters + 2) % 2 ^ 32
    · by_cases hzero : fatReadEntry info d c = 0
      · exact ⟨_, 1, fatAllocLoop_of_free hbound hzero⟩
      · exact ⟨a, n + 1, (fatAllocLoop_of_used hbound hzero).trans hn⟩
    · exact ⟨_, 1, fatAllocLoop_of_bound hbound⟩

/-- Without a free entry and with a bound that it cannot reach, the counter goes round and
round. -/
theorem fatAllocLoop_eq_none (hbound : 2 ^ 16 ≤ (info.totalClusters + 2) % 2 ^ 32)
    (hfull : ∀ c < 2 ^ 16, fatReadEntry info d c ≠ 0) (n : ℕ) :
    ∀ {c : ℕ}, c < 2 ^ 16 → fatAllocLoop info d n c = none := by
  induction n with
  | zero => exact fun _ => rfl
  | succ n ih =>
    intro c hc
    rw [fatAllocLoop_succ, if_pos (by omega), if_neg (hfull c hc)]
    exact ih (Nat.mod_lt _ (by norm_num))

/-- **The search for a free cluster returns** exactly if the disk makes it end. -/
theorem returns_fatAllocCluster : Returns (fun n => fatAllocCluster info n d) ↔ AllocEnds info d := by
  unfold AllocEnds
  constructor
  · rintro ⟨a, n, hn⟩
    by_contra hends
    rw [not_or] at hends
    have hnone := fatAllocLoop_eq_none (not_lt.mp hends.1)
      (fun c hc hzero => hends.2 ⟨c, hc, hzero⟩) n (c := 2) (by norm_num)
    have hsome : fatAllocLoop info d n 2 = some a := hn
    rw [hnone] at hsome
    cases hsome
  · rintro (hbound | ⟨c, hc, hzero⟩)
    · exact returns_fatAllocLoop_of_bound hbound _ rfl
    · exact returns_fatAllocLoop_of_free hzero hc _ (by norm_num) rfl

/-! ## Chains -/

/-- The entries in sector `k` of the table that are not free. -/
def usedEntries (info : Fat16Info) (d : Disk) (k : ℕ) : ℕ :=
  ((Finset.range 256).filter fun i => (d (info.fatStartLba + k)).loadLE (i * 2) 2 ≠ 0).card

/-- Freeing an entry in use leaves one fewer in its sector, and the sectors before it as they
were; a sector behind it may get the contents of this one as the second table. -/
theorem usedEntries_fatWriteEntry (hsize : info.numFats > 1 → 0 < info.fatSizeSectors) {c : ℕ}
    (hused : fatReadEntry info d c ≠ 0) :
    (∀ k < c / 256, usedEntries info (fatWriteEntry info d c 0) k = usedEntries info d k) ∧
      usedEntries info (fatWriteEntry info d c 0) (c / 256) < usedEntries info d (c / 256) := by
  have hsector : c * 2 / 512 = c / 256 := by omega
  have hoffset : c * 2 % 512 = c % 256 * 2 := by omega
  have hother : ∀ k < c / 256, fatWriteEntry info d c 0 (info.fatStartLba + k) =
      d (info.fatStartLba + k) := by
    intro k hk
    unfold fatWriteEntry
    rw [hsector]
    split_ifs
    · rw [Disk.write_of_ne _ _ (by omega), Disk.write_of_ne _ _ (by omega)]
    · rw [Disk.write_of_ne _ _ (by omega)]
  have hsame : fatWriteEntry info d c 0 (info.fatStartLba + c / 256) =
      (d (info.fatStartLba + c / 256)).storeLE (c % 256 * 2) 0 2 := by
    unfold fatWriteEntry
    rw [hsector, hoffset]
    split_ifs with hfats
    · have hpos := hsize hfats
      rw [Disk.write_of_ne _ _ (by omega), Disk.write_same]
    · rw [Disk.write_same]
  refine ⟨fun k hk => ?_, ?_⟩
  · unfold usedEntries
    rw [hother k hk]
  · unfold usedEntries
    rw [hsame]
    apply Finset.card_lt_card
    constructor
    · intro i hi
      rw [Finset.mem_filter] at hi ⊢
      refine ⟨hi.1, ?_⟩
      by_cases heq : i = c % 256
      · subst heq
        rw [Memory.loadLE_storeLE_same] at hi
        exact absurd rfl hi.2
      · rw [Memory.loadLE_storeLE_of_disjoint _ _ (by omega)] at hi
        exact hi.2
    · intro hsub
      have hmem := hsub (Finset.mem_filter.mpr ⟨Finset.mem_range.mpr (Nat.mod_lt c (by norm_num)), by
        unfold fatReadEntry at hused
        dsimp only at hused
        rwa [hsector, hoffset] at hused⟩)
      rw [Finset.mem_filter, Memory.loadLE_storeLE_same] at hmem
      exact hmem.2 rfl

/-- **Freeing a chain returns**, whatever the table holds: each round but the last frees an entry
in use, and an entry comes back only in a later sector. -/
theorem returns_fatFreeChain (hsize : info.numFats > 1 → 0 < info.fatSizeSectors) (d : Disk)
    (c : ℕ) : Returns fun n => fatFreeChain info n d c := by
  have hwf : WellFounded (Pi.Lex (· < ·) fun {_ : Fin 256} (a b : ℕ) => a < b) :=
    Pi.Lex.wellFounded (· < ·) fun _ => wellFounded_lt
  generalize hm : (fun k : Fin 256 => usedEntries info d k) = m
  induction m using hwf.induction generalizing d c with
  | h m ih =>
    cases hc : isChained c with
    | false =>
      refine ⟨d, 1, ?_⟩
      show (if isChained c = true then _ else _) = _
      rw [hc]
      rfl
    | true =>
      have hnext : ∀ n, fatFreeChain info (n + 1) d c =
          fatFreeChain info n (fatWriteEntry info d c 0) (fatReadEntry info d c) := by
        intro n
        show (if isChained c = true then _ else _) = _
        rw [if_pos hc]
      have hrest : Returns fun n =>
          fatFreeChain info n (fatWriteEntry info d c 0) (fatReadEntry info d c) := by
        by_cases hused : fatReadEntry info d c = 0
        · rw [hused]
          exact ⟨fatWriteEntry info d c 0, 1, rfl⟩
        · obtain ⟨hbefore, hfewer⟩ := usedEntries_fatWriteEntry hsize hused
          have hlt : c / 256 < 256 := by
            have hrange := isChained_iff.mp hc
            omega
          refine ih _ ?_ _ _ rfl
          rw [← hm]
          exact ⟨⟨c / 256, hlt⟩, fun k hk => hbefore k hk, hfewer⟩
      obtain ⟨a, n, hn⟩ := hrest
      exact ⟨a, n + 1, (hnext n).trans hn⟩

theorem steady_fatFreeChain (d : Disk) (c : ℕ) : Steady fun n => fatFreeChain info n d c := by
  have hloop : ∀ n m d c a, n ≤ m → fatFreeChain info n d c = some a →
      fatFreeChain info m d c = some a := by
    intro n
    induction n with
    | zero =>
      intro m d c a _ h
      cases h
    | succ n ih =>
      intro m d c a hle h
      obtain ⟨m, rfl⟩ : ∃ k, m = k + 1 := ⟨m - 1, by omega⟩
      unfold fatFreeChain at h ⊢
      split_ifs at h ⊢
      · exact ih _ _ _ _ (by omega) h
      · exact h
  exact fun n m a hle h => hloop n m d c a hle h

/-- **Reading a chain returns**: each round reads a sector at least. -/
theorem returns_readChain (hspc : 0 < info.sectorsPerCluster) (n : ℕ) :
    ∀ {c todo : ℕ}, todo ≤ n → Returns fun k => readChain info d k c todo := by
  induction n with
  | zero =>
    intro c todo hn
    refine ⟨[], 1, ?_⟩
    show (if (isChained c && decide (todo ≠ 0)) = true then _ else _) = _
    rw [if_neg (by simp; omega)]
  | succ n ih =>
    intro c todo hn
    by_cases hc : (isChained c && decide (todo ≠ 0)) = true
    · have hless : todo - info.sectorsPerCluster * 512 ≤ n := by omega
      obtain ⟨a, k, hk⟩ := ih (c := fatReadEntry info d c) hless
      refine ⟨readSectors d (info.clusterToLba c) info.sectorsPerCluster todo ++ a, k + 1, ?_⟩
      show (if (isChained c && decide (todo ≠ 0)) = true then _ else _) = _
      dsimp only at hk ⊢
      rw [if_pos hc, sub_length_readSectors, hk]
      rfl
    · refine ⟨[], 1, ?_⟩
      show (if (isChained c && decide (todo ≠ 0)) = true then _ else _) = _
      rw [if_neg hc]

theorem steady_readChain {c todo : ℕ} : Steady fun n => readChain info d n c todo :=
  fun n _ _ hle h => readChain_mono n hle h

theorem writeSectors_left (n : ℕ) : ∀ (d : Disk) (lba : ℕ) (data : List UInt8),
    (writeSectors d lba n data).2 = data.drop (n * 512) := by
  induction n with
  | zero => exact fun d lba data => List.drop_zero.symm
  | succ n ih =>
    intro d lba data
    unfold writeSectors
    split_ifs with hnil
    · rw [hnil, List.drop_nil]
    · rw [ih, List.drop_drop, Nat.succ_mul, Nat.add_comm 512]

/-- **Writing a chain returns**: each round writes a sector at least. -/
theorem returns_writeChain (hspc : 0 < info.sectorsPerCluster) (n : ℕ) :
    ∀ {d : Disk} {c : ℕ} {data : List UInt8}, data.length ≤ n →
      Returns fun k => writeChain info k d c data := by
  induction n with
  | zero =>
    intro d c data hn
    refine ⟨(d, data), 1, ?_⟩
    have hnil := List.length_eq_zero_iff.mp (Nat.le_zero.mp hn)
    show (if (isChained c && decide (data ≠ [])) = true then _ else _) = _
    rw [if_neg (by simp [hnil])]
  | succ n ih =>
    intro d c data hn
    by_cases hc : (isChained c && decide (data ≠ [])) = true
    · have hless : (writeSectors d (info.clusterToLba c) info.sectorsPerCluster data).2.length ≤ n := by
        rw [writeSectors_left, List.length_drop]
        omega
      obtain ⟨a, k, hk⟩ := ih (d := (writeSectors d (info.clusterToLba c) info.sectorsPerCluster
        data).1) (c := fatReadEntry info (writeSectors d (info.clusterToLba c)
        info.sectorsPerCluster data).1 c) hless
      refine ⟨a, k + 1, ?_⟩
      show (if (isChained c && decide (data ≠ [])) = true then _ else _) = _
      rw [if_pos hc]
      exact hk
    · refine ⟨(d, data), 1, ?_⟩
      show (if (isChained c && decide (data ≠ [])) = true then _ else _) = _
      rw [if_neg hc]

theorem steady_writeChain (d : Disk) (c : ℕ) (data : List UInt8) :
    Steady fun n => writeChain info n d c data := by
  have hloop : ∀ n m d c data a, n ≤ m → writeChain info n d c data = some a →
      writeChain info m d c data = some a := by
    intro n
    induction n with
    | zero =>
      intro m d c data a _ h
      cases h
    | succ n ih =>
      intro m d c data a hle h
      obtain ⟨m, rfl⟩ : ∃ k, m = k + 1 := ⟨m - 1, by omega⟩
      unfold writeChain at h ⊢
      split_ifs at h ⊢
      · exact ih _ _ _ _ _ (by omega) h
      · exact h
  exact fun n m a hle h => hloop n m d c data a hle h

theorem steady_navigateToDir (path : List UInt8) :
    Steady fun n => navigateToDir info n d path :=
  fun _ _ _ hle h => navigateToDir_mono hle h

end

end Microkernel

/-
# FAT16: lookups and rounds

The loops of the FAT16 driver that follow a cluster chain take a number of rounds.  More rounds
do not change a result, so that a result is one of the disk alone; and reading a file gives all
bytes that were asked for exactly if its chain is long enough.
-/
import Microkernel.Fat16Files

namespace Microkernel

/-! ## More rounds -/

section

variable {info : Fat16Info} {d : Disk}

theorem scanChain_mono {ρ σ : Type} {visit : σ → SlotPos × DirSlot → ρ ⊕ σ} {r : ρ ⊕ σ}
    (fuel : ℕ) : ∀ {fuel' c : ℕ} {st : σ}, fuel ≤ fuel' →
      scanChain visit info d fuel c st = some r → scanChain visit info d fuel' c st = some r := by
  induction fuel with
  | zero => intro fuel' c st _ h; cases h
  | succ n ih =>
    intro fuel' c st hle h
    obtain ⟨k, rfl⟩ : ∃ k, fuel' = k + 1 := ⟨fuel' - 1, by omega⟩
    unfold scanChain at h ⊢
    split_ifs at h ⊢
    · cases hs : scanSectors visit d (info.clusterToLba c) info.sectorsPerCluster st with
      | inl r' =>
        rw [hs] at h
        exact h
      | inr st' =>
        rw [hs] at h
        exact ih (by omega) h
    · exact h

theorem scanDir_mono {ρ σ : Type} {visit : σ → SlotPos × DirSlot → ρ ⊕ σ} {r : ρ ⊕ σ}
    {fuel fuel' c : ℕ} {st : σ} (hle : fuel ≤ fuel') (h : scanDir visit info d fuel c st = some r) :
    scanDir visit info d fuel' c st = some r := by
  unfold scanDir at h ⊢
  split_ifs at h ⊢
  · exact h
  · exact scanChain_mono fuel hle h

theorem readDir_mono {fuel fuel' c max : ℕ} {es : List ExtEntry} (hle : fuel ≤ fuel')
    (h : readDir info fuel d c max = some es) : readDir info fuel' d c max = some es := by
  obtain ⟨r, hr, rfl⟩ := Option.map_eq_some_iff.mp h
  exact Option.map_eq_some_iff.mpr ⟨r, scanDir_mono hle hr, rfl⟩

theorem findEntryInDir_mono {fuel fuel' c : ℕ} {name : List UInt8}
    {found : Option (SlotPos × DirSlot)} (hle : fuel ≤ fuel')
    (h : findEntryInDir info fuel d c name = some found) :
    findEntryInDir info fuel' d c name = some found := by
  obtain ⟨r, hr, rfl⟩ := Option.map_eq_some_iff.mp h
  exact Option.map_eq_some_iff.mpr ⟨r, scanDir_mono hle hr, rfl⟩

theorem navigateLoop_mono {fuel fuel' : ℕ} (hle : fuel ≤ fuel') (cs : List (List UInt8)) :
    ∀ {c r : ℕ}, navigateLoop info fuel d c cs = some r → navigateLoop info fuel' d c cs = some r := by
  induction cs with
  | nil => exact fun h => h
  | cons component rest ih =>
    intro c r h
    obtain ⟨es, hes, h⟩ := Option.bind_eq_some_iff.mp h
    refine Option.bind_eq_some_iff.mpr ⟨es, readDir_mono hle hes, ?_⟩
    cases hf : es.find? (·.isNamed component) with
    | none =>
      rw [hf] at h
      exact h
    | some e =>
      rw [hf] at h
      dsimp only at h ⊢
      split_ifs at h ⊢
      · exact ih h
      · exact h

theorem navigateToDir_mono {fuel fuel' r : ℕ} {path : List UInt8} (hle : fuel ≤ fuel')
    (h : navigateToDir info fuel d path = some r) : navigateToDir info fuel' d path = some r :=
  navigateLoop_mono hle _ h

/-- Two lookups of a directory agree. -/
theorem navigateToDir_unique {fuel fuel' r r' : ℕ} {path : List UInt8}
    (h : navigateToDir info fuel d path = some r) (h' : navigateToDir info fuel' d path = some r') :
    r = r' := by
  have h₁ := navigateToDir_mono (Nat.le_max_left fuel fuel') h
  have h₂ := navigateToDir_mono (Nat.le_max_right fuel fuel') h'
  exact Option.some.inj (h₁.symm.trans h₂)

theorem findEntryInDir_unique {fuel fuel' c : ℕ} {name : List UInt8}
    {found found' : Option (SlotPos × DirSlot)} (h : findEntryInDir info fuel d c name = some found)
    (h' : findEntryInDir info fuel' d c name = some found') : found = found' := by
  have h₁ := findEntryInDir_mono (Nat.le_max_left fuel fuel') h
  have h₂ := findEntryInDir_mono (Nat.le_max_right fuel fuel') h'
  exact Option.some.inj (h₁.symm.trans h₂)

/-! ## The bytes of a chain -/

/-- The chain from a cluster on has room for `n` bytes. -/
inductive Supplies (info : Fat16Info) (d : Disk) : ℕ → ℕ → Prop
  | nothing (c : ℕ) : Supplies info d c 0
  | cluster {c n : ℕ} (hc : isChained c = true)
    (h : Supplies info d (fatReadEntry info d c) (n - info.sectorsPerCluster * 512)) :
    Supplies info d c n

theorem length_readSectors (n : ℕ) :
    ∀ lba todo, (readSectors d lba n todo).length = min todo (n * 512) := by
  induction n with
  | zero => intro lba todo; simp [readSectors]
  | succ n ih =>
    intro lba todo
    unfold readSectors
    split_ifs with h
    · simp [h]
    · rw [List.length_append, List.length_map, List.length_range, ih, Nat.succ_mul]
      omega

/-- What is left to read after a cluster. -/
theorem sub_length_readSectors (lba todo : ℕ) :
    todo - (readSectors d lba info.sectorsPerCluster todo).length =
      todo - info.sectorsPerCluster * 512 := by
  rw [length_readSectors]
  omega

theorem readChain_mono (fuel : ℕ) : ∀ {fuel' c n : ℕ} {bs : List UInt8}, fuel ≤ fuel' →
    readChain info d fuel c n = some bs → readChain info d fuel' c n = some bs := by
  induction fuel with
  | zero => intro fuel' c n bs _ h; cases h
  | succ k ih =>
    intro fuel' c n bs hle h
    obtain ⟨k', rfl⟩ : ∃ k', fuel' = k' + 1 := ⟨fuel' - 1, by omega⟩
    unfold readChain at h ⊢
    split_ifs at h ⊢
    · obtain ⟨rest, hrest, rfl⟩ := Option.map_eq_some_iff.mp h
      exact Option.map_eq_some_iff.mpr ⟨rest, ih (by omega) hrest, rfl⟩
    · exact h

theorem supplies_of_readChain (fuel : ℕ) : ∀ {c n : ℕ} {bs : List UInt8},
    readChain info d fuel c n = some bs → bs.length = n → Supplies info d c n := by
  induction fuel with
  | zero => intro c n bs h; cases h
  | succ k ih =>
    intro c n bs h hlen
    unfold readChain at h
    split_ifs at h with hc
    · obtain ⟨rest, hrest, rfl⟩ := Option.map_eq_some_iff.mp h
      rw [Bool.and_eq_true] at hc
      refine .cluster hc.1 ?_
      rw [sub_length_readSectors] at hrest
      refine ih hrest ?_
      rw [List.length_append, length_readSectors] at hlen
      omega
    · cases h
      subst hlen
      exact .nothing c

theorem readChain_of_supplies {c n : ℕ} (h : Supplies info d c n) :
    ∃ fuel bs, readChain info d fuel c n = some bs ∧ bs.length = n := by
  induction h with
  | nothing c => exact ⟨1, [], by simp [readChain], rfl⟩
  | @cluster c n hc _ ih =>
    obtain ⟨fuel, rest, hrest, hlen⟩ := ih
    by_cases hn : n = 0
    · subst hn
      exact ⟨1, [], by simp [readChain], rfl⟩
    · refine ⟨fuel + 1, readSectors d (info.clusterToLba c) info.sectorsPerCluster n ++ rest, ?_, ?_⟩
      · unfold readChain
        rw [if_pos (by simp [hc, hn])]
        dsimp only
        rw [sub_length_readSectors, hrest]
        rfl
      · rw [List.length_append, length_readSectors, hlen]
        omega

end

end Microkernel

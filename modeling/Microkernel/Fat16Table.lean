/-
# FAT16: allocating is all or nothing

The allocation loop of `fat16_write_file` in `src/fat16.c`: the first table is a table of cells
that is written one entry at a time, the clusters of the loop are a chain in it, and taking the
chain apart from its start gives the old table back.  The second table gets whole sectors of the
first.
-/
import Microkernel.Fat16Returns
import Microkernel.Fat16Mounting
import Microkernel.LinkedChain

namespace Microkernel

open Rounds

/-! ## The tables -/

/-- Entry `x` of copy `k` of the table. -/
def fatEntry (info : Fat16Info) (d : Disk) (k x : ℕ) : ℕ :=
  (d (info.fatStartLba + k * info.fatSizeSectors + x * 2 / 512)).loadLE (x * 2 % 512) 2

/-- The number of entries of a table. -/
def Fat16Info.fatEntries (info : Fat16Info) : ℕ := 256 * info.fatSizeSectors

/-- **All or nothing**, for a table with `entries` entries that was `t` and is `t'`: `n` clusters
that were free are a chain that begins with `first` and ends with the mark, and the other entries
are as they were; or there is no first cluster, and all entries are as they were. -/
def AllOrNothing (info : Fat16Info) (n : ℕ) (t t' : ℕ → ℕ) (first : ℕ) : Prop :=
  (first ≠ 0 ∧ ∃ cs : List ℕ, cs.length = n ∧ cs.Nodup ∧
    (∀ c ∈ cs, 2 ≤ c ∧ c < info.totalClusters + 2 ∧ t c = 0) ∧
    LinkedChain t' (· = 0xFFFF) first cs ∧
    ∀ x < info.fatEntries, x ∉ cs → t' x = t x) ∨
  (first = 0 ∧ ∀ x < info.fatEntries, t' x = t x)

/-- What a run makes of the second table: an entry is as it was, as is the first table's, or it is
the first table's. -/
def Mirrored (info : Fat16Info) (d₀ d : Disk) : Prop :=
  ∀ x < info.fatEntries,
    (fatEntry info d 0 x = fatEntry info d₀ 0 x ∧ fatEntry info d 1 x = fatEntry info d₀ 1 x) ∨
      fatEntry info d 1 x = fatEntry info d 0 x

/-- The first table. -/
def FirstTable (info : Fat16Info) (d : Disk) (t : ℕ → ℕ) : Prop :=
  ∀ x < info.fatEntries, fatReadEntry info d x = t x

/-- Entries of the table are written, one after the other. -/
def EntriesWritten (info : Fat16Info) : Disk → Disk → Prop :=
  Relation.ReflTransGen fun d d' => ∃ c < info.fatEntries, ∃ v < 2 ^ 16, d' = fatWriteEntry info d c v

/-- The clusters from `c` on, as the loops that follow a chain meet them. -/
abbrev FatChain (info : Fat16Info) (d : Disk) : ℕ → List ℕ → Prop :=
  LinkedChain (fatReadEntry info d) fun x => isChained x = false

/-- The number of free clusters in a table. -/
def freeClusters (info : Fat16Info) (t : ℕ → ℕ) : ℕ :=
  ((Finset.range (info.totalClusters + 2)).filter fun x => 2 ≤ x ∧ t x = 0).card

section

variable {info : Fat16Info} {d d₀ : Disk} {t : ℕ → ℕ} {c v x : ℕ}

theorem fatReadEntry_eq (x : ℕ) : fatReadEntry info d x = fatEntry info d 0 x := by
  unfold fatReadEntry fatEntry
  rw [Nat.zero_mul, Nat.add_zero]

/-- The sectors of the first table after an entry is written. -/
theorem fatWriteEntry_first {k : ℕ} (hk : k < info.fatSizeSectors) :
    fatWriteEntry info d c v (info.fatStartLba + k) =
      if k = c * 2 / 512 then (d (info.fatStartLba + k)).storeLE (c * 2 % 512) v 2
      else d (info.fatStartLba + k) := by
  unfold fatWriteEntry
  by_cases hc : k = c * 2 / 512
  · rw [if_pos hc, hc]
    split_ifs
    · rw [Disk.write_of_ne _ _ (by omega), Disk.write_same]
    · rw [Disk.write_same]
  · rw [if_neg hc]
    split_ifs
    · rw [Disk.write_of_ne _ _ (by omega), Disk.write_of_ne _ _ (by omega)]
    · rw [Disk.write_of_ne _ _ (by omega)]

/-- The sectors of the second table after an entry is written: one is a copy. -/
theorem fatWriteEntry_second {k : ℕ} (hfats : info.numFats > 1) (hk : k < info.fatSizeSectors)
    (hc : c * 2 / 512 < info.fatSizeSectors) :
    fatWriteEntry info d c v (info.fatStartLba + info.fatSizeSectors + k) =
      if k = c * 2 / 512 then fatWriteEntry info d c v (info.fatStartLba + k)
      else d (info.fatStartLba + info.fatSizeSectors + k) := by
  rw [fatWriteEntry_first hk]
  unfold fatWriteEntry
  rw [if_pos hfats]
  by_cases heq : k = c * 2 / 512
  · have hsector : info.fatStartLba + info.fatSizeSectors + k =
        info.fatStartLba + c * 2 / 512 + info.fatSizeSectors := by omega
    rw [if_pos heq, if_pos heq, hsector, Disk.write_same, heq]
  · rw [if_neg heq, Disk.write_of_ne _ _ (by omega), Disk.write_of_ne _ _ (by omega)]

/-- Writing an entry changes this entry of the first table. -/
theorem FirstTable.write (h : FirstTable info d t) (hv : v < 2 ^ 16) :
    FirstTable info (fatWriteEntry info d c v) (Function.update t c v) := by
  intro x hx
  unfold Fat16Info.fatEntries at hx
  have hsector : x * 2 / 512 < info.fatSizeSectors := by omega
  have hold := h x hx
  unfold fatReadEntry at hold ⊢
  dsimp only at hold ⊢
  rw [fatWriteEntry_first hsector]
  by_cases hxc : x = c
  · rw [if_pos (by rw [hxc]), hxc, Memory.loadLE_storeLE_same, Function.update_self]
    exact Nat.mod_eq_of_lt hv
  · rw [Function.update_of_ne hxc, ← hold]
    split_ifs
    · exact Memory.loadLE_storeLE_of_disjoint _ _ (by omega)
    · rfl

/-- Writing an entry copies its sector. -/
theorem Mirrored.write (h : Mirrored info d₀ d) (hfats : info.numFats > 1)
    (hc : c < info.fatEntries) : Mirrored info d₀ (fatWriteEntry info d c v) := by
  intro x hx
  have hold := h x hx
  unfold Fat16Info.fatEntries at hx hc
  have hsector : x * 2 / 512 < info.fatSizeSectors := by omega
  unfold fatEntry at hold ⊢
  rw [Nat.zero_mul, Nat.add_zero, Nat.one_mul] at hold ⊢
  rw [fatWriteEntry_second hfats hsector (by omega)]
  by_cases heq : x * 2 / 512 = c * 2 / 512
  · rw [if_pos heq]
    exact Or.inr rfl
  · rw [if_neg heq, fatWriteEntry_first hsector, if_neg heq]
    exact hold

theorem EntriesWritten.write (h : EntriesWritten info d₀ d) (hc : c < info.fatEntries)
    (hv : v < 2 ^ 16) : EntriesWritten info d₀ (fatWriteEntry info d c v) :=
  h.tail ⟨c, hc, v, hv, rfl⟩

theorem EntriesWritten.mirrored {d' : Disk} (h : EntriesWritten info d d')
    (hfats : info.numFats > 1) : Mirrored info d d' := by
  induction h with
  | refl => exact fun _ _ => Or.inl ⟨rfl, rfl⟩
  | tail _ hstep ih =>
    obtain ⟨c, hc, v, -, rfl⟩ := hstep
    exact ih.write hfats hc

/-- The sectors behind the tables are kept. -/
theorem EntriesWritten.kept {d' : Disk} (h : EntriesWritten info d d') (hfats : 1 ≤ info.numFats)
    {s : ℕ} (hs : info.fatStartLba + info.numFats * info.fatSizeSectors ≤ s) : d' s = d s := by
  induction h with
  | refl => rfl
  | tail _ hstep ih =>
    obtain ⟨c, hc, v, -, rfl⟩ := hstep
    unfold Fat16Info.fatEntries at hc
    rw [← ih]
    unfold fatWriteEntry
    split_ifs with htwo
    · have hboth : 2 * info.fatSizeSectors ≤ info.numFats * info.fatSizeSectors :=
        Nat.mul_le_mul_right _ htwo
      rw [Disk.write_of_ne _ _ (by omega), Disk.write_of_ne _ _ (by omega)]
    · have hone : 1 * info.fatSizeSectors ≤ info.numFats * info.fatSizeSectors :=
        Nat.mul_le_mul_right _ hfats
      rw [Disk.write_of_ne _ _ (by omega)]

/-! ## One cluster -/

/-- What the search for a free cluster gives. -/
theorem fatAllocCluster_cases {fuel : ℕ} {d' : Disk} (hclusters : info.totalClusters ≤ 65524)
    (h : fatAllocCluster info fuel d = some (c, d')) :
    (c = 0 ∧ d' = d ∧ ∀ x, 2 ≤ x → x < info.totalClusters + 2 → fatReadEntry info d x ≠ 0) ∨
      (2 ≤ c ∧ c < info.totalClusters + 2 ∧ fatReadEntry info d c = 0 ∧
        d' = fatWriteEntry info d c 0xFFFF) := by
  have hbound : (info.totalClusters + 2) % 2 ^ 32 = info.totalClusters + 2 := by omega
  have hloop : ∀ n b, 2 ≤ b → (∀ x, 2 ≤ x → x < b → fatReadEntry info d x ≠ 0) →
      fatAllocLoop info d n b = some (c, d') →
      (c = 0 ∧ d' = d ∧ ∀ x, 2 ≤ x → x < info.totalClusters + 2 → fatReadEntry info d x ≠ 0) ∨
        (2 ≤ c ∧ c < info.totalClusters + 2 ∧ fatReadEntry info d c = 0 ∧
          d' = fatWriteEntry info d c 0xFFFF) := by
    intro n
    induction n with
    | zero =>
      intro b _ _ h
      cases h
    | succ n ih =>
      intro b hb hused h
      rw [fatAllocLoop_succ, hbound] at h
      split_ifs at h with hlt hfree
      · cases h
        exact Or.inr ⟨hb, hlt, hfree, rfl⟩
      · -- The counter does not wrap around before it reaches the bound.
        rw [Nat.mod_eq_of_lt (by omega)] at h
        refine ih (b + 1) (by omega) (fun x hx hxb => ?_) h
        rcases Nat.lt_succ_iff_lt_or_eq.mp hxb with hxb | rfl
        · exact hused x hx hxb
        · exact hfree
      · cases h
        exact Or.inl ⟨rfl, rfl, fun x hx hxb => hused x hx (by omega)⟩
  exact hloop fuel 2 le_rfl (fun x hx hxb => by omega) h

/-! ## The chain so far -/

/-- Clusters that may be linked: they are different ones of the volume, and were free. -/
structure Linkable (info : Fat16Info) (t : ℕ → ℕ) (cs : List ℕ) : Prop where
  nodup : cs.Nodup
  free : ∀ c ∈ cs, 2 ≤ c ∧ c < info.totalClusters + 2 ∧ t c = 0

/-- After some rounds: the clusters `cs` are linked in the table that was `t`. -/
structure ChainBuilt (info : Fat16Info) (d₀ : Disk) (t : ℕ → ℕ) (cs : List ℕ) (d : Disk) : Prop where
  linkable : Linkable info t cs
  table : FirstTable info d (linkCells t 0xFFFF cs)
  writes : EntriesWritten info d₀ d

/-- Clusters that may be linked are free ones. -/
theorem Linkable.length_le {cs : List ℕ} (h : Linkable info t cs) :
    cs.length ≤ freeClusters info t := by
  rw [← List.toFinset_card_of_nodup h.nodup]
  apply Finset.card_le_card
  intro x hx
  obtain ⟨hlo, hhi, hfree⟩ := h.free x (List.mem_toFinset.mp hx)
  exact Finset.mem_filter.mpr ⟨Finset.mem_range.mpr hhi, hlo, hfree⟩

/-- There are at most as many free clusters as in a list that has them all. -/
theorem freeClusters_le {cs : List ℕ}
    (h : ∀ x, 2 ≤ x → x < info.totalClusters + 2 → t x = 0 → x ∈ cs) :
    freeClusters info t ≤ cs.length := by
  refine (Finset.card_le_card fun x hx => ?_).trans cs.toFinset_card_le
  obtain ⟨hhi, hlo, hfree⟩ := Finset.mem_filter.mp hx
  exact List.mem_toFinset.mpr (h x hlo (Finset.mem_range.mp hhi) hfree)

/-- **Freeing a chain** sets the entries of its clusters to zero. -/
theorem fatFreeChain_chain {l : List ℕ} (h : FatChain info d c l) (hc : isChained c = true)
    (hcover : ∀ x ∈ l, x < info.fatEntries) {fuel : ℕ} {d' : Disk}
    (hfree : fatFreeChain info fuel d c = some d') :
    EntriesWritten info d d' ∧
      FirstTable info d' fun x => if x ∈ l then 0 else fatReadEntry info d x := by
  induction l generalizing c d fuel with
  | nil => cases h
  | cons b l ih =>
    obtain rfl : c = b := by
      cases h <;> rfl
    have hcover' := hcover c List.mem_cons_self
    have hnodup := (List.nodup_cons.mp h.nodup).1
    have htable : FirstTable info (fatWriteEntry info d c 0)
        (Function.update (fatReadEntry info d) c 0) :=
      FirstTable.write (fun _ _ => rfl) (by norm_num)
    have hwrite : EntriesWritten info d (fatWriteEntry info d c 0) :=
      EntriesWritten.write .refl hcover' (by norm_num)
    cases fuel with
    | zero => cases hfree
    | succ fuel =>
      unfold fatFreeChain at hfree
      rw [if_pos hc] at hfree
      cases h with
      | last hend =>
        -- The chain ends here.
        have hstop : d' = fatWriteEntry info d c 0 := by
          cases fuel with
          | zero => cases hfree
          | succ fuel =>
            unfold fatFreeChain at hfree
            rw [if_neg (by rw [hend]; exact Bool.false_ne_true)] at hfree
            exact (Option.some.inj hfree).symm
        rw [hstop]
        refine ⟨hwrite, fun x hx => (htable x hx).trans ?_⟩
        dsimp only
        by_cases hxc : x = c
        · rw [hxc, Function.update_self, if_pos (List.mem_singleton_self c)]
        · rw [Function.update_of_ne hxc, if_neg (by rwa [List.mem_singleton])]
      | cons hne hrest =>
        have hothers : ∀ x ∈ l, fatReadEntry info (fatWriteEntry info d c 0) x =
            fatReadEntry info d x := by
          intro x hx
          rw [htable x (hcover x (List.mem_cons_of_mem _ hx)), Function.update_of_ne]
          rintro rfl
          exact hnodup hx
        obtain ⟨hwrites, hzero⟩ := ih (LinkedChain.congr hrest hothers)
          (Bool.not_eq_false _ ▸ hne) (fun x hx => hcover x (List.mem_cons_of_mem _ hx)) hfree
        refine ⟨hwrite.trans hwrites, fun x hx => (hzero x hx).trans ?_⟩
        dsimp only
        by_cases hxl : x ∈ l
        · rw [if_pos hxl, if_pos (List.mem_cons_of_mem _ hxl)]
        · rw [if_neg hxl, htable x hx]
          by_cases hxc : x = c
          · rw [hxc, Function.update_self, if_pos List.mem_cons_self]
          · rw [Function.update_of_ne hxc, if_neg]
            rw [List.mem_cons, not_or]
            exact ⟨hxc, hxl⟩

/-- Linked clusters are ones that the loops over a chain follow, and have entries. -/
theorem Linkable.range (hclusters : info.totalClusters ≤ 65524)
    (hcover : info.totalClusters + 2 ≤ info.fatEntries) {cs : List ℕ} (h : Linkable info t cs) :
    ∀ x ∈ cs, isChained x = true ∧ x < info.fatEntries := by
  intro x hx
  obtain ⟨hlo, hhi, -⟩ := h.free x hx
  rw [isChained_iff]
  omega

/-- The linked clusters are a chain for the loops that follow one. -/
theorem ChainBuilt.fatChain (hclusters : info.totalClusters ≤ 65524)
    (hcover : info.totalClusters + 2 ≤ info.fatEntries) {cs : List ℕ}
    (h : ChainBuilt info d₀ t (c :: cs) d) : FatChain info d c (c :: cs) := by
  have hrange := h.linkable.range hclusters hcover
  have hstop : 0xFFFF ∉ c :: cs := by
    intro hmem
    have hchained := (hrange _ hmem).1
    cases hchained
  have hcells := (@linkedChain_linkCells t 0xFFFF c cs h.linkable.nodup hstop).congr
    fun x hx => h.table x (hrange x hx).2
  apply hcells.congr_ended
  intro x hx
  rw [h.table x (hrange x hx).2]
  rcases @linkCells_of_mem t 0xFFFF x (c :: cs) hx with heq | hmem
  · rw [heq]
    exact ⟨fun _ => rfl, fun _ => rfl⟩
  · rw [(hrange _ hmem).1]
    exact ⟨fun hf => (nomatch hf), fun heq => absurd (heq ▸ hmem) hstop⟩

/-- `fat_free_chain` takes the chain apart from its start. -/
theorem chainBuilt_fatFreeChain (hclusters : info.totalClusters ≤ 65524)
    (hcover : info.totalClusters + 2 ≤ info.fatEntries) {cs : List ℕ} {fuel : ℕ} {d' : Disk}
    (h : ChainBuilt info d₀ t cs d) (hfree : fatFreeChain info fuel d (cs.headD 0xFFFF) = some d') :
    ChainBuilt info d₀ t [] d' := by
  have hnil : Linkable info t [] := ⟨List.nodup_nil, fun x hx => absurd hx List.not_mem_nil⟩
  cases cs with
  | nil =>
    cases fuel with
    | zero => cases hfree
    | succ fuel =>
      cases hfree
      exact h
  | cons c cs =>
    have hrange := h.linkable.range hclusters hcover
    obtain ⟨hwrites, hzero⟩ := fatFreeChain_chain (h.fatChain hclusters hcover)
      (hrange c List.mem_cons_self).1 (fun x hx => (hrange x hx).2) hfree
    refine ⟨hnil, fun x hx => (hzero x hx).trans ?_, h.writes.trans hwrites⟩
    by_cases hmem : x ∈ c :: cs
    · refine (if_pos hmem).trans ?_
      exact (h.linkable.free x hmem).2.2.symm
    · refine (if_neg hmem).trans ?_
      exact (h.table x hx).trans (linkCells_of_not_mem hmem)

/-- A free cluster is linked behind the last one, as the loop does it. -/
theorem ChainBuilt.push {cs : List ℕ} {first prev : ℕ} (hclusters : info.totalClusters ≤ 65524)
    (hcover : info.totalClusters + 2 ≤ info.fatEntries) (h : ChainBuilt info d₀ t cs d)
    (hfirst : first = cs.headD 0) (hprev : ∀ l p, cs = l ++ [p] → prev = p)
    (hlo : 2 ≤ c) (hhi : c < info.totalClusters + 2) (hfree : fatReadEntry info d c = 0) :
    ChainBuilt info d₀ t (cs ++ [c])
      (if first = 0 then fatWriteEntry info d c 0xFFFF
        else fatWriteEntry info (fatWriteEntry info d c 0xFFFF) prev c) := by
  rw [h.table c (by omega)] at hfree
  -- A cluster of the chain is not free.
  have hnot : c ∉ cs := by
    intro hmem
    rcases @linkCells_of_mem t 0xFFFF c cs hmem with hstop | hin
    · omega
    · have hpos := (h.linkable.free _ hin).1
      omega
  have hzero : t c = 0 := by
    rw [← hfree]
    exact (linkCells_of_not_mem hnot).symm
  have hlinkable : Linkable info t (cs ++ [c]) := by
    constructor
    · rw [List.nodup_append]
      refine ⟨h.linkable.nodup, List.nodup_singleton c, fun x hx y hy => ?_⟩
      rw [List.mem_singleton.mp hy]
      rintro rfl
      exact hnot hx
    · intro x hx
      rcases List.mem_append.mp hx with hx | hx
      · exact h.linkable.free x hx
      · rw [List.mem_singleton.mp hx]
        exact ⟨hlo, hhi, hzero⟩
  have hmark := h.table.write (c := c) (v := 0xFFFF) (by norm_num)
  have hwrites : EntriesWritten info d₀ (fatWriteEntry info d c 0xFFFF) :=
    h.writes.write (by omega) (by norm_num)
  rcases List.eq_nil_or_concat' cs with rfl | ⟨l, p, rfl⟩
  · have hnone : first = 0 := hfirst
    rw [if_pos hnone]
    exact ⟨hlinkable, hmark, hwrites⟩
  · obtain rfl : prev = p := hprev l p rfl
    obtain ⟨b, hb, hbmem⟩ : ∃ b, first = b ∧ b ∈ l ++ [prev] := by
      cases l with
      | nil => exact ⟨prev, hfirst, List.mem_singleton_self _⟩
      | cons b l => exact ⟨b, hfirst, List.mem_cons_self⟩
    have hne : first ≠ 0 := by
      have hpos := (h.linkable.free b hbmem).1
      omega
    have hp := h.linkable.free prev (List.mem_append_right l (List.mem_singleton_self _))
    rw [if_neg hne]
    refine ⟨hlinkable, ?_, hwrites.write (by omega) (by omega)⟩
    rw [linkCells_snoc hlinkable.nodup]
    exact hmark.write (by omega)

/-! ## The loop -/

/-- **The allocation loop**: all its clusters are linked, or there are not enough free ones and the
chain is taken apart again. -/
theorem chainBuilt_allocChainLoop {fuel : ℕ} (hclusters : info.totalClusters ≤ 65524)
    (hcover : info.totalClusters + 2 ≤ info.fatEntries) (n : ℕ) :
    ∀ {cs : List ℕ} {d d' : Disk} {first prev first' : ℕ}, ChainBuilt info d₀ t cs d →
      first = cs.headD 0 → (∀ l p, cs = l ++ [p] → prev = p) →
      allocChainLoop info fuel n d first prev = some (first', d') →
      (∃ cs', cs'.length = cs.length + n ∧ first' = cs'.headD 0 ∧ ChainBuilt info d₀ t cs' d') ∨
        (first' = 0 ∧ ChainBuilt info d₀ t [] d' ∧ freeClusters info t < cs.length + n) := by
  induction n with
  | zero =>
    intro cs d d' first prev first' h hfirst _ hrun
    cases hrun
    exact Or.inl ⟨cs, rfl, hfirst, h⟩
  | succ n ih =>
    intro cs d d' first prev first' h hfirst hprev hrun
    obtain ⟨⟨c, d₁⟩, halloc, hrest⟩ := Option.bind_eq_some_iff.mp hrun
    dsimp only at hrest
    have hheadD : first ≠ 0 → cs.headD 0xFFFF = first := by
      intro hne
      cases cs with
      | nil => exact absurd hfirst hne
      | cons b l => exact hfirst.symm
    have hnil : first = 0 → cs = [] := by
      intro hzero
      cases cs with
      | nil => rfl
      | cons b l =>
        have hpos := (h.linkable.free b List.mem_cons_self).1
        rw [hfirst, List.headD_cons] at hzero
        omega
    rcases fatAllocCluster_cases hclusters halloc with ⟨rfl, rfl, hfull⟩ | ⟨hlo, hhi, hfree, rfl⟩
    · -- No cluster is free: the chain so far has them all, and is given back.
      have hfew : freeClusters info t < cs.length + (n + 1) := by
        have hle : freeClusters info t ≤ cs.length := by
          apply freeClusters_le
          intro x hlo hhi hx
          by_contra hnot
          apply hfull x hlo hhi
          rw [h.table x (by omega), linkCells_of_not_mem hnot]
          exact hx
        omega
      rw [if_pos rfl] at hrest
      by_cases hzero : first = 0
      · rw [if_pos hzero] at hrest
        cases hrest
        rw [hnil hzero] at h hfew
        rw [hnil hzero]
        exact Or.inr ⟨rfl, h, hfew⟩
      · rw [if_neg hzero] at hrest
        obtain ⟨d₂, hundo, heq⟩ := Option.map_eq_some_iff.mp hrest
        cases heq
        rw [← hheadD hzero] at hundo
        exact Or.inr ⟨rfl, chainBuilt_fatFreeChain hclusters hcover h hundo, hfew⟩
    · have hpush := h.push hclusters hcover hfirst hprev hlo hhi hfree
      have hlast : ∀ l p, cs ++ [c] = l ++ [p] → c = p := fun l p heq =>
        List.singleton_injective (List.append_inj' heq rfl).2
      have hlen : (cs ++ [c]).length + n = cs.length + (n + 1) := by
        rw [List.length_append, List.length_singleton]
        omega
      have hc : c ≠ 0 := by omega
      rw [if_neg hc] at hrest
      rw [← hlen]
      by_cases hzero : first = 0
      · rw [if_pos hzero] at hrest hpush
        refine ih hpush ?_ hlast hrest
        rw [hnil hzero]
        rfl
      · rw [if_neg hzero] at hrest hpush
        refine ih hpush ?_ hlast hrest
        rw [hfirst]
        cases cs with
        | nil => exact absurd hfirst hzero
        | cons b l => rfl

theorem clusterSize_le {boot : Disk} (hmount : fat16Mount boot = some info) :
    info.clusterSize ≤ 255 * 512 := by
  have hbyte := (boot 0).loadLE_lt 13 1
  unfold fat16Mount at hmount
  dsimp only at hmount
  split_ifs at hmount <;> cases hmount <;> dsimp only <;> omega

/-- The number of clusters of a file of this size. -/
theorem clustersNeeded_eq {boot : Disk} {size : ℕ} (hmount : fat16Mount boot = some info)
    (hsize : size ≤ 0x7FFFFFFF) : clustersNeeded info size = max 1 (size ⌈/⌉ info.clusterSize) := by
  have hcluster := clusterSize_le hmount
  unfold clustersNeeded
  dsimp only
  rw [Nat.mod_eq_of_lt (by omega), Nat.ceilDiv_eq_add_pred_div]
  split_ifs with hzero
  · rw [hzero]
    rfl
  · exact (max_eq_right (Nat.pos_of_ne_zero hzero)).symm

/-- The searches of the loop end, since their counter reaches the bound. -/
theorem allocChainEnds_of_clusters (hclusters : info.totalClusters ≤ 65524) (n : ℕ) :
    ∀ (d : Disk) (first prev : ℕ), AllocChainEnds info n d first prev := by
  induction n with
  | zero => exact fun _ _ _ => trivial
  | succ n ih =>
    intro d first prev
    refine ⟨Or.inl (by omega), fun c d' _ _ => ?_⟩
    split_ifs
    · exact ih d' c c
    · exact ih _ first c

theorem AllOrNothing.congr {n first : ℕ} {t t' s s' : ℕ → ℕ}
    (hcover : info.totalClusters + 2 ≤ info.fatEntries) (h : AllOrNothing info n t t' first)
    (hs : ∀ x < info.fatEntries, s x = t x) (hs' : ∀ x < info.fatEntries, s' x = t' x) :
    AllOrNothing info n s s' first := by
  rcases h with ⟨hne, cs, hlen, hnodup, hfree, hchain, hothers⟩ | ⟨hzero, hall⟩
  · refine Or.inl ⟨hne, cs, hlen, hnodup, fun c hc => ?_, hchain.congr fun x hx => ?_, ?_⟩
    · obtain ⟨hlo, hhi, hc⟩ := hfree c hc
      exact ⟨hlo, hhi, (hs c (by omega)).trans hc⟩
    · have hx := (hfree x hx).2.1
      exact hs' x (by omega)
    · intro x hx hnot
      rw [hs x hx, hs' x hx]
      exact hothers x hx hnot
  · refine Or.inr ⟨hzero, fun x hx => ?_⟩
    rw [hs x hx, hs' x hx]
    exact hall x hx

/-- A mirrored table agrees with the first if it did. -/
theorem Mirrored.agrees {d' : Disk} (h : Mirrored info d d')
    (hagree : ∀ x < info.fatEntries, fatEntry info d 1 x = fatEntry info d 0 x) :
    ∀ x < info.fatEntries, fatEntry info d' 1 x = fatEntry info d' 0 x := by
  intro x hx
  rcases h x hx with ⟨hfirst, hsecond⟩ | hcopy
  · rw [hfirst, hsecond]
    exact hagree x hx
  · exact hcopy

/-- What the linked clusters are for the claim. -/
theorem ChainBuilt.allOrNothing {cs : List ℕ} {first : ℕ} {d' : Disk}
    (hclusters : info.totalClusters ≤ 65524) (hcover : info.totalClusters + 2 ≤ info.fatEntries)
    (h : ChainBuilt info d (fatEntry info d 0) cs d') (hfirst : first = cs.headD 0)
    (hne : cs ≠ []) :
    AllOrNothing info cs.length (fatEntry info d 0) (fatEntry info d' 0) first := by
  have htable : ∀ x < info.fatEntries,
      fatEntry info d' 0 x = linkCells (fatEntry info d 0) 0xFFFF cs x := by
    intro x hx
    rw [← fatReadEntry_eq]
    exact h.table x hx
  cases cs with
  | nil => exact absurd rfl hne
  | cons c cs =>
    obtain rfl : first = c := hfirst
    have hpos := (h.linkable.free first List.mem_cons_self).1
    have hstop : 0xFFFF ∉ first :: cs := by
      intro hmem
      have hlt := (h.linkable.free _ hmem).2.1
      omega
    refine Or.inl ⟨by omega, first :: cs, rfl, h.linkable.nodup, h.linkable.free, ?_, ?_⟩
    · have hlinked := @linkedChain_linkCells (fatEntry info d 0) 0xFFFF first cs h.linkable.nodup hstop
      refine hlinked.congr fun x hx => ?_
      have hlt := (h.linkable.free x hx).2.1
      exact htable x (by omega)
    · intro x hx hnot
      rw [htable x hx]
      exact linkCells_of_not_mem hnot

end

/-- **Allocating the clusters of a file is all or nothing** in the first table; the second one is
mirrored, and if it agreed with the first, all or nothing too. -/
theorem allocChainLoop_allOrNothing {boot : Disk} {info : Fat16Info}
    (hmount : fat16Mount boot = some info) (hclusters : info.totalClusters ≤ 65524)
    (hcover : (info.totalClusters + 2) * 2 ≤ info.fatSizeSectors * 512) (d : Disk) {size : ℕ}
    (hsize : size ≤ 0x7FFFFFFF) :
    Returns (fun fuel => allocChainLoop info fuel (clustersNeeded info size) d 0 0) ∧
    ∀ first d', Gives (fun fuel => allocChainLoop info fuel (clustersNeeded info size) d 0 0)
        (first, d') →
      AllOrNothing info (max 1 (size ⌈/⌉ info.clusterSize)) (fatEntry info d 0)
        (fatEntry info d' 0) first ∧
      (info.numFats > 1 → Mirrored info d d' ∧
        ((∀ x < info.fatEntries, fatEntry info d 1 x = fatEntry info d 0 x) →
          AllOrNothing info (max 1 (size ⌈/⌉ info.clusterSize)) (fatEntry info d 1)
            (fatEntry info d' 1) first)) := by
  have hcover' : info.totalClusters + 2 ≤ info.fatEntries := by
    unfold Fat16Info.fatEntries
    omega
  have hpos : info.numFats > 1 → 0 < info.fatSizeSectors := fun _ => by omega
  refine ⟨(returns_allocChainLoop hpos _).mpr (allocChainEnds_of_clusters hclusters _ d 0 0), ?_⟩
  rintro first d' ⟨fuel, hrun⟩
  rw [← clustersNeeded_eq hmount hsize]
  have hneeded : 0 < clustersNeeded info size := by
    rw [clustersNeeded_eq hmount hsize]
    exact lt_max_of_lt_left Nat.one_pos
  have hstart : ChainBuilt info d (fatEntry info d 0) [] d :=
    ⟨⟨List.nodup_nil, fun c hc => absurd hc List.not_mem_nil⟩, fun x _ => fatReadEntry_eq x, .refl⟩
  obtain ⟨hfirst, hmirror⟩ : AllOrNothing info (clustersNeeded info size) (fatEntry info d 0)
      (fatEntry info d' 0) first ∧ (info.numFats > 1 → Mirrored info d d') := by
    rcases chainBuilt_allocChainLoop hclusters hcover' _ hstart rfl (fun l p heq => by simp at heq)
      hrun with ⟨cs, hlen, hhead, hbuilt⟩ | ⟨hzero, hbuilt, -⟩
    · rw [List.length_nil, Nat.zero_add] at hlen
      rw [← hlen]
      refine ⟨hbuilt.allOrNothing hclusters hcover' hhead ?_, fun hfats => hbuilt.writes.mirrored hfats⟩
      rintro rfl
      rw [List.length_nil] at hlen
      omega
    · refine ⟨Or.inr ⟨hzero, fun x hx => ?_⟩, fun hfats => hbuilt.writes.mirrored hfats⟩
      rw [← fatReadEntry_eq]
      exact hbuilt.table x hx
  refine ⟨hfirst, fun hfats => ⟨hmirror hfats, fun hagree => ?_⟩⟩
  exact hfirst.congr hcover' hagree ((hmirror hfats).agrees hagree)

/-! ## Two tables that differ -/

/-- A small volume with two tables; entry 0 of the second is not that of the first. -/
def unequalDisk : Disk := fun s =>
  match s with
  | 0 => fun x => match x with
    | 12 => 2 | 13 => 1 | 14 => 1 | 16 => 2 | 17 => 16 | 19 => 100 | 22 => 1
    | 510 => 0x55 | 511 => 0xAA | _ => 0
  | 2 => fun x => if x = 0 then 7 else 0
  | _ => fun _ => 0

def unequalInfo : Fat16Info := (fat16Mount unequalDisk).get (by decide)

theorem mount_unequalDisk : fat16Mount unequalDisk = some unequalInfo := (Option.some_get _).symm

theorem allocChainLoop_allOrNothing_unequal :
    Returns (fun fuel => allocChainLoop unequalInfo fuel (clustersNeeded unequalInfo 600)
      unequalDisk 0 0) ∧
    ∀ first d', Gives (fun fuel => allocChainLoop unequalInfo fuel
        (clustersNeeded unequalInfo 600) unequalDisk 0 0) (first, d') →
      AllOrNothing unequalInfo (max 1 (600 ⌈/⌉ unequalInfo.clusterSize))
        (fatEntry unequalInfo unequalDisk 0) (fatEntry unequalInfo d' 0) first ∧
      (unequalInfo.numFats > 1 → Mirrored unequalInfo unequalDisk d' ∧
        ((∀ x < unequalInfo.fatEntries,
            fatEntry unequalInfo unequalDisk 1 x = fatEntry unequalInfo unequalDisk 0 x) →
          AllOrNothing unequalInfo (max 1 (600 ⌈/⌉ unequalInfo.clusterSize))
            (fatEntry unequalInfo unequalDisk 1) (fatEntry unequalInfo d' 1) first)) :=
  allocChainLoop_allOrNothing mount_unequalDisk (by decide) (by decide) unequalDisk (by decide)

/-- One cluster is allocated, and entry 0 of the second table is another one after it. -/
theorem second_table_overwritten :
    fat16Mount unequalDisk = some unequalInfo ∧ unequalInfo.totalClusters ≤ 65524 ∧
    (unequalInfo.totalClusters + 2) * 2 ≤ unequalInfo.fatSizeSectors * 512 ∧
    unequalInfo.numFats > 1 ∧ ∃ d',
      allocChainLoop unequalInfo 1 (clustersNeeded unequalInfo 1) unequalDisk 0 0 = some (2, d') ∧
      ¬ AllOrNothing unequalInfo 1 (fatEntry unequalInfo unequalDisk 1)
        (fatEntry unequalInfo d' 1) 2 := by
  refine ⟨mount_unequalDisk, by decide, by decide, by decide,
    fatWriteEntry unequalInfo unequalDisk 2 0xFFFF, ?_, ?_⟩
  · have hneeded : clustersNeeded unequalInfo 1 = 1 := by decide
    have halloc : fatAllocCluster unequalInfo 1 unequalDisk =
        some (2, fatWriteEntry unequalInfo unequalDisk 2 0xFFFF) :=
      fatAllocLoop_of_free (by decide) (by decide)
    rw [hneeded]
    unfold allocChainLoop
    rw [halloc]
    rfl
  · have hbefore : fatEntry unequalInfo unequalDisk 1 0 = 7 := by decide
    have hafter :
        fatEntry unequalInfo (fatWriteEntry unequalInfo unequalDisk 2 0xFFFF) 1 0 = 0 := by decide
    rintro (⟨-, cs, -, -, hfree, -, hothers⟩ | ⟨h, -⟩)
    · have hnot : 0 ∉ cs := fun hmem => absurd (hfree 0 hmem).1 (by decide)
      have hsame := hothers 0 (by decide) hnot
      rw [hbefore, hafter] at hsame
      cases hsame
    · cases h

end Microkernel

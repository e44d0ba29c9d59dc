/-
# The pages of a load

While a binary is loaded the kernel's directory leads to the kernel's tables, and outside
the entries 256 to 767 so does the directory of the new address space.  Mapping a page
there takes no page from the allocator, so a load uses up one page for its directory and
one for each page it maps.
-/
import Microkernel.Elf
import Microkernel.PagingRuns

namespace Microkernel

open AddressSpaces (Private)

/-- The state in which `elf_load` is called: the kernel's directory is in place and its
pages are in use.  Page 0 is left open. -/
structure Ready (k : KernelImage) (s : Paging) : Prop where
  kernelDir : KernelDir k s.mem
  total_le : s.pmm.totalPages ≤ maxPages
  kernelUsed : ∀ q, 0 < q → q < Pmm.firstPage k.toKernelEnd → s.pmm.bitmap.test q = true

/-- The state while the address space with its directory in page `a` is filled. -/
structure Loading (k : KernelImage) (a : ℕ) (s : Paging) : Prop where
  kernelDir : KernelDir k s.mem
  total_le : s.pmm.totalPages ≤ maxPages
  kernelUsed : ∀ q, q < Pmm.firstPage k.toKernelEnd → s.pmm.bitmap.test q = true
  dir_ge : Pmm.firstPage k.toKernelEnd ≤ a
  dir_lt : a < s.pmm.totalPages
  dir_used : s.pmm.bitmap.test a = true
  shared : ∀ i < 1024, ¬ Private i → s.mem a i = tableLink (k.pageTables + i)

namespace Loading

variable {k : KernelImage} {a : ℕ} {s : Paging}

theorem zeroUsed (h : Loading k a s) : s.pmm.bitmap.test 0 = true :=
  h.kernelUsed 0 k.firstPage_pos

theorem dir_lt_pow (h : Loading k a s) : a < 2 ^ 20 := by
  have h₁ := h.dir_lt
  have h₂ := h.total_le
  unfold maxPages at h₂
  omega

theorem not_isTable (h : Loading k a s) : ¬ k.IsTable a := fun ht =>
  absurd ht.lt_firstPage (Nat.not_lt.mpr h.dir_ge)

theorem ne_dir (h : Loading k a s) : a ≠ k.pageDirectory := fun heq => h.not_isTable (Or.inl heq)

theorem ne_windowTable (h : Loading k a s) : a ≠ Paging.windowTable k := fun heq => by
  apply h.not_isTable
  refine Or.inr ⟨?_, ?_⟩ <;> rw [heq] <;> unfold Paging.windowTable <;> omega

/-- Writing words of a page that is neither the directory nor a table of the kernel keeps
the state. -/
theorem of_mem (h : Loading k a s) {m : PageMemory} (hdir : m k.pageDirectory = s.mem k.pageDirectory)
    (ha : ∀ i < 1024, ¬ Private i → m a i = s.mem a i) : Loading k a ⟨m, s.pmm⟩ where
  kernelDir := fun t ht => (congrFun hdir t).trans (h.kernelDir t ht)
  total_le := h.total_le
  kernelUsed := h.kernelUsed
  dir_ge := h.dir_ge
  dir_lt := h.dir_lt
  dir_used := h.dir_used
  shared := fun i hi hpriv => (ha i hi hpriv).trans (h.shared i hi hpriv)

/-- `pmm_alloc_page` during a load. -/
theorem alloc (h : Loading k a s) :
    (s.pmm.available = 0 ∧ s.pmm.pmmAllocPage = (s.pmm, 0)) ∨
    ∃ q, Pmm.firstPage k.toKernelEnd ≤ q ∧ q < s.pmm.totalPages ∧ s.pmm.bitmap.test q = false ∧
      q ≠ a ∧ s.pmm.pmmAllocPage = (s.pmm.mark q, q * 4096) ∧
      (s.pmm.mark q).available + 1 = s.pmm.available ∧ Loading k a ⟨s.mem, s.pmm.mark q⟩ := by
  rcases Pmm.pmmAllocPage_available h.total_le h.zeroUsed with hnone | ⟨q, _, hq, hbit, heq, hav⟩
  · exact Or.inl hnone
  · refine Or.inr ⟨q, ?_, hq, hbit, ?_, heq, hav, ?_⟩
    · by_contra hlt
      rw [h.kernelUsed q (Nat.lt_of_not_le hlt)] at hbit
      cases hbit
    · rintro rfl
      rw [h.dir_used] at hbit
      cases hbit
    · exact
        { kernelDir := h.kernelDir
          total_le := h.total_le
          kernelUsed := fun q' hq' => by simp [h.kernelUsed q' hq']
          dir_ge := h.dir_ge
          dir_lt := h.dir_lt
          dir_used := by simp [h.dir_used]
          shared := h.shared }

/-- Filling a page taken from the allocator keeps the state. -/
theorem fillPage (h : Loading k a s) {q : ℕ} (hq : Pmm.firstPage k.toKernelEnd ≤ q) (hqa : q ≠ a)
    (b : Memory) : Loading k a ⟨s.mem.fillPage q b, s.pmm⟩ := by
  have hdir : k.pageDirectory ≠ q := fun heq => absurd
    (show k.IsTable q from Or.inl heq.symm).lt_firstPage (Nat.not_lt.mpr hq)
  refine h.of_mem ?_ fun i _ _ => if_neg hqa.symm
  funext i
  exact if_neg hdir

/-- The entries that are shared are present. -/
theorem present (h : Loading k a s) {i : ℕ} (hi : i < 1024) (hpriv : ¬ Private i) :
    hasFlag (s.mem a i) pagePresent = true := by
  rw [h.shared i hi hpriv, hasFlag_present, tableLink_flag (by norm_num)]

/-- **Mapping a page outside the entries 256 to 767** takes no page and keeps the state. -/
theorem mapUser (h : Loading k a s) {virt : BitVec 32} (hpriv : ¬ Private (pdIdx virt))
    (phys flags : BitVec 32) :
    (s.pagingMapUser k (a * 4096) virt phys flags).pmm = s.pmm ∧
      Loading k a (s.pagingMapUser k (a * 4096) virt phys flags) ∧
      ∀ i, Private i → (s.pagingMapUser k (a * 4096) virt phys flags).mem a i = s.mem a i := by
  have hidx := pdIdx_lt virt
  have htables := k.tables_lt_pow
  obtain ⟨hpmm, hmem⟩ := Paging.mem_pagingMapUser_of_present h.kernelDir h.dir_lt_pow h.ne_dir
    h.ne_windowTable virt phys flags (h.present hidx hpriv)
  have hentry : frameOf (s.mem a (pdIdx virt)) = k.pageTables + pdIdx virt := by
    rw [h.shared _ hidx hpriv, frameOf_tableLink (by omega)]
  rw [hentry] at hmem
  have hnot : ∀ i, ¬ (a = k.pageTables + pdIdx virt ∧ i = ptIdx virt) := by
    rintro i ⟨heq, _⟩
    apply h.not_isTable
    exact Or.inr ⟨by omega, by omega⟩
  refine ⟨hpmm, ?_, fun i hi => ?_⟩
  rotate_left
  · rw [hmem, if_neg fun hw => h.ne_windowTable hw.1, if_neg (hnot i), if_neg ?_]
    rintro ⟨_, rfl⟩
    exact hpriv hi
  have heta : s.pagingMapUser k (a * 4096) virt phys flags =
      ⟨(s.pagingMapUser k (a * 4096) virt phys flags).mem, s.pmm⟩ := by rw [← hpmm]
  rw [heta]
  apply h.of_mem
  · funext i
    rw [hmem, if_neg fun hw => Paging.windowTable_ne_dir hw.1.symm,
      if_neg fun hw => k.table_ne_dir hidx hw.1.symm, if_neg fun hw => h.ne_dir hw.1.symm]
  · intro i hi hi'
    rw [hmem, if_neg fun hw => h.ne_windowTable hw.1, if_neg (hnot i)]
    by_cases heq : i = pdIdx virt
    · subst heq
      rw [if_pos ⟨rfl, rfl⟩, h.shared _ hi hi', tableLink_or_user]
    · rw [if_neg fun hw => heq hw.2]

end Loading

/-- `paging_create_isolated_space` at the start of a load: there is no page, or page 0 was
free and is lost, or the load goes on with a page less. -/
theorem Ready.create {k : KernelImage} {s : Paging} (h : Ready k s) :
    (s.pmm.available = 0 ∧ (s.pagingCreateIsolatedSpace k).2 = 0) ∨
    ∃ a, Pmm.firstPage k.toKernelEnd ≤ a ∧ s.pmm.bitmap.test a = false ∧
      s.pagingCreateIsolatedSpace k = (⟨fun f i => if f = a ∧ i < 1024 then
          if 256 ≤ i ∧ i < 768 then 0 else s.mem k.pageDirectory i else s.mem f i, s.pmm.mark a⟩,
        a * 4096) ∧
      (s.pmm.mark a).available + 1 = s.pmm.available ∧
      Loading k a (s.pagingCreateIsolatedSpace k).1 := by
  have hnone : s.pmm.pmmAllocPage.2 = 0 → (s.pagingCreateIsolatedSpace k).2 = 0 := by
    intro h₀
    unfold Paging.pagingCreateIsolatedSpace
    simp only [h₀, if_true]
  cases hzero : s.pmm.bitmap.test 0 with
  | false =>
    -- The address of page 0 is `NULL`.
    refine Or.inl ⟨by simp [Pmm.available, hzero], hnone ?_⟩
    rcases Pmm.pmmAllocPage_cases h.total_le with ⟨_, heq⟩ | ⟨q, _, _, hfirst, heq⟩
    · rw [heq]
    · rw [heq]
      obtain rfl : q = 0 := by
        by_contra hq
        rw [hfirst 0 (Nat.pos_of_ne_zero hq)] at hzero
        cases hzero
      rfl
  | true =>
    rcases Pmm.pmmAllocPage_available h.total_le hzero with ⟨hav, heq⟩ | ⟨a, hpos, hlt, hbit, heq, hav⟩
    · exact Or.inl ⟨hav, hnone (by rw [heq])⟩
    · have hfirst : Pmm.firstPage k.toKernelEnd ≤ a := by
        by_contra hlt'
        rw [h.kernelUsed a hpos (Nat.lt_of_not_le hlt')] at hbit
        cases hbit
      have hdir : k.pageDirectory ≠ a := fun hda => absurd
        (show k.IsTable a from Or.inl hda.symm).lt_firstPage (Nat.not_lt.mpr hfirst)
      have hcreate : s.pagingCreateIsolatedSpace k = (⟨fun f i => if f = a ∧ i < 1024 then
          if 256 ≤ i ∧ i < 768 then 0 else s.mem k.pageDirectory i else s.mem f i, s.pmm.mark a⟩,
        a * 4096) := by
        unfold Paging.pagingCreateIsolatedSpace
        simp only [heq]
        rw [if_neg (by omega), Nat.mul_div_cancel a (by norm_num)]
      refine Or.inr ⟨a, hfirst, hbit, hcreate, hav, ?_⟩
      rw [hcreate]
      exact
        { kernelDir := fun t ht => (if_neg fun h => hdir h.1).trans (h.kernelDir t ht)
          total_le := h.total_le
          kernelUsed := fun q hq => by
            rcases Nat.eq_zero_or_pos q with rfl | hq'
            · simp [hzero]
            · simp [h.kernelUsed q hq' hq]
          dir_ge := hfirst
          dir_lt := hlt
          dir_used := by simp
          shared := fun i hi hpriv =>
            ((if_pos ⟨rfl, hi⟩).trans (if_neg hpriv)).trans (h.kernelDir i hi) }

/-- The state after `pmm_init` and `paging_init`. -/
theorem Ready.init (k : KernelImage) (m : PageMemory) (pmmKb memKb : ℕ) :
    Ready k (AddressSpaces.init k m pmmKb memKb).paging :=
  have h := AddressSpaces.Inv.init k m pmmKb memKb
  ⟨h.kernelDir, h.total_le, fun q _ => h.kernelUsed q⟩

end Microkernel

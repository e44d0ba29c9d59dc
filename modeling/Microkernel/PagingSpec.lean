/-
# What the paging functions write

The entries that the paging functions build, bit by bit, and the words of memory that
`paging_map_page`, `paging_unmap_page` and `paging_map_user` change while the kernel's
directory leads to the kernel's tables.
-/
import Microkernel.Paging

namespace Microkernel

/-! ## Entries -/

theorem hasFlag_twoPow {e : BitVec 32} {j : ℕ} (hj : j < 32) :
    hasFlag e (1#32 <<< j) = e.getLsbD j := by
  unfold hasFlag
  cases hbit : e.getLsbD j with
  | true =>
    refine bne_iff_ne.mpr fun hzero => ?_
    have h₀ := congrArg (fun x : BitVec 32 => x.getLsbD j) hzero
    simp only [BitVec.getLsbD_and, hbit, Bitmap.getLsbD_one_shiftLeft hj, decide_true,
      Bool.and_self, BitVec.getLsbD_zero] at h₀
    cases h₀
  | false =>
    refine Bool.eq_false_iff.mpr fun hne => bne_iff_ne.mp hne ?_
    apply BitVec.eq_of_getLsbD_eq
    intro i hi
    rw [BitVec.getLsbD_and, Bitmap.getLsbD_one_shiftLeft hi, BitVec.getLsbD_zero]
    by_cases hij : i = j
    · subst hij
      rw [hbit]
      rfl
    · simp [hij]

theorem hasFlag_present (e : BitVec 32) : hasFlag e pagePresent = e.getLsbD 0 :=
  hasFlag_twoPow (j := 0) (by norm_num)

theorem hasFlag_write (e : BitVec 32) : hasFlag e pageWrite = e.getLsbD 1 :=
  hasFlag_twoPow (j := 1) (by norm_num)

theorem hasFlag_user (e : BitVec 32) : hasFlag e pageUser = e.getLsbD 2 :=
  hasFlag_twoPow (j := 2) (by norm_num)

/-- The page an entry names depends on its upper 20 bits. -/
theorem frameOf_congr {e e' : BitVec 32} (h : ∀ i, 12 ≤ i → i < 32 → e.getLsbD i = e'.getLsbD i) :
    frameOf e = frameOf e' := by
  have hshift : e >>> 12 = e' >>> 12 := by
    apply BitVec.eq_of_getLsbD_eq
    intro i hi
    rw [BitVec.getLsbD_ushiftRight, BitVec.getLsbD_ushiftRight]
    by_cases hlt : 12 + i < 32
    · exact h _ (by omega) hlt
    · rw [BitVec.getLsbD_of_ge _ _ (by omega), BitVec.getLsbD_of_ge _ _ (by omega)]
  have hnat := congrArg BitVec.toNat hshift
  rw [BitVec.toNat_ushiftRight, BitVec.toNat_ushiftRight, Nat.shiftRight_eq_div_pow,
    Nat.shiftRight_eq_div_pow] at hnat
  exact hnat

/-- The bits of the masks. -/
theorem getLsbD_addrMask : ∀ i < 32, (0xFFFFF000#32).getLsbD i = decide (12 ≤ i) := by decide

theorem getLsbD_flagMask : ∀ i < 32, (0xFFF#32).getLsbD i = decide (i < 12) := by decide

theorem getLsbD_seven : ∀ i < 32,
    (pagePresent ||| pageWrite ||| pageUser).getLsbD i = decide (i < 3) := by decide

theorem getLsbD_pagePresent : ∀ i < 32, pagePresent.getLsbD i = decide (i = 0) := by decide

theorem getLsbD_pageUser : ∀ i < 32, pageUser.getLsbD i = decide (i = 2) := by decide

theorem frameOf_mask (e : BitVec 32) : frameOf (e &&& 0xFFFFF000#32) = frameOf e := by
  apply frameOf_congr
  intro i h₁ h₂
  rw [BitVec.getLsbD_and, getLsbD_addrMask i h₂, decide_eq_true h₁, Bool.and_true]

theorem frameOf_or_user (e : BitVec 32) : frameOf (e ||| pageUser) = frameOf e := by
  apply frameOf_congr
  intro i h₁ h₂
  rw [BitVec.getLsbD_or, getLsbD_pageUser i h₂, decide_eq_false (by omega), Bool.or_false]

/-- The entry for a page of memory with flags. -/
theorem frameOf_entry (phys flags : BitVec 32) :
    frameOf ((phys &&& 0xFFFFF000#32) ||| (flags &&& 0xFFF#32)) = frameOf phys := by
  apply frameOf_congr
  intro i h₁ h₂
  rw [BitVec.getLsbD_or, BitVec.getLsbD_and, BitVec.getLsbD_and, getLsbD_addrMask i h₂,
    getLsbD_flagMask i h₂, decide_eq_true h₁, decide_eq_false (by omega), Bool.and_true,
    Bool.and_false, Bool.or_false]

theorem getLsbD_entry {phys flags : BitVec 32} {j : ℕ} (hj : j < 12) :
    ((phys &&& 0xFFFFF000#32) ||| (flags &&& 0xFFF#32)).getLsbD j = flags.getLsbD j := by
  rw [BitVec.getLsbD_or, BitVec.getLsbD_and, BitVec.getLsbD_and, getLsbD_addrMask j (by omega),
    getLsbD_flagMask j (by omega), decide_eq_false (by omega), decide_eq_true hj, Bool.and_true,
    Bool.and_false, Bool.false_or]

/-- The link to a table: its address with all three flags. -/
def tableLink (f : ℕ) : BitVec 32 :=
  BitVec.ofNat 32 (f * 4096) ||| pagePresent ||| pageWrite ||| pageUser

theorem tableLink_eq (f : ℕ) :
    tableLink f = BitVec.ofNat 32 (f * 4096) ||| (pagePresent ||| pageWrite ||| pageUser) := by
  unfold tableLink
  rw [BitVec.or_assoc, BitVec.or_assoc, BitVec.or_assoc]

theorem frameOf_ofNat {f : ℕ} (hf : f < 2 ^ 20) : frameOf (BitVec.ofNat 32 (f * 4096)) = f := by
  unfold frameOf
  rw [BitVec.toNat_ofNat]
  omega

theorem frameOf_tableLink {f : ℕ} (hf : f < 2 ^ 20) : frameOf (tableLink f) = f := by
  refine Eq.trans ?_ (frameOf_ofNat hf)
  apply frameOf_congr
  intro i h₁ h₂
  rw [tableLink_eq, BitVec.getLsbD_or, getLsbD_seven i h₂, decide_eq_false (by omega),
    Bool.or_false]

theorem tableLink_flag {f j : ℕ} (hj : j < 3) : (tableLink f).getLsbD j = true := by
  rw [tableLink_eq, BitVec.getLsbD_or, getLsbD_seven j (by omega), decide_eq_true hj,
    Bool.or_true]

theorem hasFlag_tableLink (q : ℕ) : hasFlag (tableLink q) pagePresent = true := by
  rw [hasFlag_present, tableLink_flag (by norm_num)]

theorem tableLink_ne_zero (q : ℕ) : tableLink q ≠ 0 := fun hzero => by
  have hflag := hasFlag_tableLink q
  rw [hzero] at hflag
  cases hflag

theorem tableLink_or_user (f : ℕ) : tableLink f ||| pageUser = tableLink f := by
  apply BitVec.eq_of_getLsbD_eq
  intro i hi
  rw [BitVec.getLsbD_or, getLsbD_pageUser i hi]
  by_cases h : i = 2
  · subst h
    rw [tableLink_flag (by norm_num)]
    rfl
  · rw [decide_eq_false h, Bool.or_false]

/-- The entry of a window. -/
def windowEntry (phys : BitVec 32) : BitVec 32 :=
  (phys &&& 0xFFFFF000#32) ||| ((pagePresent ||| pageWrite) &&& 0xFFF#32) ||| pagePresent

theorem frameOf_windowEntry (phys : BitVec 32) : frameOf (windowEntry phys) = frameOf phys := by
  refine Eq.trans ?_ (frameOf_entry phys (pagePresent ||| pageWrite))
  apply frameOf_congr
  intro i h₁ h₂
  unfold windowEntry
  rw [BitVec.getLsbD_or, getLsbD_pagePresent i h₂, decide_eq_false (by omega), Bool.or_false]

theorem pdIdx_lt (virt : BitVec 32) : pdIdx virt < 1024 := by
  unfold pdIdx
  rw [BitVec.toNat_ushiftRight, Nat.shiftRight_eq_div_pow]
  have := virt.isLt
  omega

theorem pdIdx_eq (virt : BitVec 32) : pdIdx virt = virt.toNat / 4096 / 1024 := by
  unfold pdIdx
  rw [BitVec.toNat_ushiftRight, Nat.shiftRight_eq_div_pow, Nat.div_div_eq_div_mul]

theorem ptIdx_eq (virt : BitVec 32) : ptIdx virt = virt.toNat / 4096 % 1024 := by
  unfold ptIdx
  rw [BitVec.toNat_and, BitVec.toNat_ushiftRight, Nat.shiftRight_eq_div_pow]
  exact Nat.and_two_pow_sub_one_eq_mod _ 10

/-! ## Stores -/

@[simp] theorem Paging.store_pmm (s : Paging) (f i : ℕ) (v : BitVec 32) :
    (s.store f i v).pmm = s.pmm := rfl

theorem Paging.store_same (s : Paging) (f i : ℕ) (v : BitVec 32) : (s.store f i v).mem f i = v :=
  if_pos ⟨rfl, rfl⟩

theorem Paging.store_other (s : Paging) {f i f' i' : ℕ} (v : BitVec 32) (h : ¬ (f' = f ∧ i' = i)) :
    (s.store f i v).mem f' i' = s.mem f' i' := if_neg h

/-- Every entry of the kernel's directory leads to its static table. -/
def KernelDir (k : KernelImage) (m : PageMemory) : Prop :=
  ∀ t < 1024, m k.pageDirectory t = tableLink (k.pageTables + t)

namespace KernelImage

variable (k : KernelImage)

/-- The page belongs to the kernel's directory or tables. -/
def IsTable (f : ℕ) : Prop :=
  f = k.pageDirectory ∨ (k.pageTables ≤ f ∧ f < k.pageTables + 1024)

theorem tables_lt_pow : k.pageTables + 1024 ≤ 2 ^ 18 := by
  have h : (k.pageTables + 1024) * 4096 ≤ 2 ^ 18 * 4096 := k.tables_lt.trans k.low
  exact Nat.le_of_mul_le_mul_right h (by norm_num)

theorem table_ne_dir {t : ℕ} (ht : t < 1024) : k.pageTables + t ≠ k.pageDirectory := by
  have := k.apart
  omega

end KernelImage

namespace Paging

variable {k : KernelImage} {s : Paging}

theorem kernelDir_store (hk : KernelDir k s.mem) {f i : ℕ} {v : BitVec 32}
    (hf : f ≠ k.pageDirectory) : KernelDir k (s.store f i v).mem := fun t ht =>
  (s.store_other v fun h => hf h.1.symm).trans (hk t ht)

/-- `paging_map_page` writes one word of a kernel table. -/
theorem pagingMapPage_eq (hk : KernelDir k s.mem) (virt phys flags : BitVec 32) :
    s.pagingMapPage k virt phys flags = s.store (k.pageTables + pdIdx virt) (ptIdx virt)
      ((phys &&& 0xFFFFF000#32) ||| (flags &&& 0xFFF#32) ||| pagePresent) := by
  have hlt := pdIdx_lt virt
  have htables := k.tables_lt_pow
  unfold pagingMapPage
  simp only [hk _ hlt, hasFlag_present, tableLink_flag (show 0 < 3 by norm_num), if_true]
  unfold writePte
  rw [frameOf_tableLink (by omega)]

/-- What a virtual address of the kernel shows. -/
theorem viewed_eq (hk : KernelDir k s.mem) (virt : BitVec 32) :
    s.viewed k virt = frameOf (s.mem (k.pageTables + pdIdx virt) (ptIdx virt)) := by
  have hlt := pdIdx_lt virt
  have htables := k.tables_lt_pow
  unfold viewed
  rw [hk _ hlt, frameOf_tableLink (by omega)]

theorem pdIdx_tempPdVa : pdIdx tempPdVa = 255 := by decide

theorem ptIdx_tempPdVa : ptIdx tempPdVa = 512 := by decide

theorem pdIdx_tempPtVa : pdIdx tempPtVa = 255 := by decide

theorem ptIdx_tempPtVa : ptIdx tempPtVa = 513 := by decide

/-- The table of the windows. -/
def windowTable (k : KernelImage) : ℕ := k.pageTables + 255

theorem windowTable_ne_dir : windowTable k ≠ k.pageDirectory := k.table_ne_dir (by norm_num)

/-- Open the first window. -/
theorem map_tempPdVa (hk : KernelDir k s.mem) (phys : BitVec 32) :
    s.pagingMapPage k tempPdVa phys (pagePresent ||| pageWrite) =
      s.store (windowTable k) 512 (windowEntry phys) := by
  rw [pagingMapPage_eq hk, pdIdx_tempPdVa, ptIdx_tempPdVa]
  rfl

/-- Open the second window. -/
theorem map_tempPtVa (hk : KernelDir k s.mem) (phys : BitVec 32) :
    s.pagingMapPage k tempPtVa phys (pagePresent ||| pageWrite) =
      s.store (windowTable k) 513 (windowEntry phys) := by
  rw [pagingMapPage_eq hk, pdIdx_tempPtVa, ptIdx_tempPtVa]
  rfl

theorem viewed_tempPdVa (hk : KernelDir k s.mem) :
    s.viewed k tempPdVa = frameOf (s.mem (windowTable k) 512) := by
  rw [viewed_eq hk, pdIdx_tempPdVa, ptIdx_tempPdVa]
  rfl

theorem viewed_tempPtVa (hk : KernelDir k s.mem) :
    s.viewed k tempPtVa = frameOf (s.mem (windowTable k) 513) := by
  rw [viewed_eq hk, pdIdx_tempPtVa, ptIdx_tempPtVa]
  rfl

theorem unmap_tempPdVa : s.pagingUnmapPage k tempPdVa = s.store (windowTable k) 512 0 := by
  unfold pagingUnmapPage
  rw [pdIdx_tempPdVa, ptIdx_tempPdVa]
  rfl

theorem unmap_tempPtVa : s.pagingUnmapPage k tempPtVa = s.store (windowTable k) 513 0 := by
  unfold pagingUnmapPage
  rw [pdIdx_tempPtVa, ptIdx_tempPtVa]
  rfl

/-- The entry `paging_map_user` writes. -/
def userEntry (virt phys flags : BitVec 32) : BitVec 32 :=
  (phys &&& 0xFFFFF000#32) ||| (finalFlags virt flags &&& 0xFFF#32)

/-- The end of `paging_map_user`, after the table is there: through the second window the
entry is written in the table `q`, and the windows are closed. -/
def finishMap (s : Paging) (k : KernelImage) (q : ℕ) (virt phys flags : BitVec 32) (w : BitVec 32) :
    Paging :=
  (((s.store (windowTable k) 513 w).store q (ptIdx virt) (userEntry virt phys flags)).store
    (windowTable k) 513 0).store (windowTable k) 512 0

/-- `paging_map_user` where the directory has a table for the address. -/
theorem pagingMapUser_of_present (hk : KernelDir k s.mem) {a : ℕ} (ha : a < 2 ^ 20)
    (hdir : a ≠ k.pageDirectory) (hwin : a ≠ windowTable k) {virt phys flags : BitVec 32}
    (hpresent : hasFlag (s.mem a (pdIdx virt)) pagePresent = true) :
    ∃ w₁ w₂, s.pagingMapUser k (a * 4096) virt phys flags =
      ((s.store (windowTable k) 512 w₁).store a (pdIdx virt)
        (s.mem a (pdIdx virt) ||| pageUser)).finishMap k (frameOf (s.mem a (pdIdx virt))) virt phys
          flags w₂ := by
  set s₁ := s.store (windowTable k) 512 (windowEntry (BitVec.ofNat 32 (a * 4096))) with hs₁
  have hk₁ : KernelDir k s₁.mem := kernelDir_store hk windowTable_ne_dir
  have hview₁ : s₁.viewed k tempPdVa = a := by
    rw [viewed_tempPdVa hk₁, hs₁, store_same, frameOf_windowEntry, frameOf_ofNat ha]
  have hpde : s₁.mem a (pdIdx virt) = s.mem a (pdIdx virt) :=
    s.store_other _ fun h => hwin h.1
  set s₂ := s₁.store a (pdIdx virt) (s.mem a (pdIdx virt) ||| pageUser) with hs₂
  have hens : s₁.ensureTable k virt = s₂ := by
    unfold ensureTable
    simp only [hview₁, hpde]
    rw [if_neg (by simp [hpresent])]
  have hk₂ : KernelDir k s₂.mem := kernelDir_store hk₁ hdir
  set pt := s₂.mem a (pdIdx virt) &&& 0xFFFFF000#32 with hpt
  set s₃ := s₂.store (windowTable k) 513 (windowEntry pt) with hs₃
  have hk₃ : KernelDir k s₃.mem := kernelDir_store hk₂ windowTable_ne_dir
  have hview₃ : s₃.viewed k tempPtVa = frameOf (s.mem a (pdIdx virt)) := by
    rw [viewed_tempPtVa hk₃, hs₃, store_same, frameOf_windowEntry, hpt, frameOf_mask, hs₂,
      store_same, frameOf_or_user]
  refine ⟨windowEntry (BitVec.ofNat 32 (a * 4096)), windowEntry pt, ?_⟩
  unfold pagingMapUser finishMap
  simp only [map_tempPdVa hk, ← hs₁, hview₁, hens, map_tempPtVa hk₂, ← hpt, ← hs₃, hview₃,
    unmap_tempPtVa, unmap_tempPdVa]
  rfl

/-- `paging_map_user` where a table has to be made: `pmm_alloc_page` returned `r`. -/
theorem pagingMapUser_of_absent (hk : KernelDir k s.mem) {a q : ℕ} (ha : a < 2 ^ 20)
    (hdir : a ≠ k.pageDirectory) (hwin : a ≠ windowTable k) (hq : q < 2 ^ 20)
    (hqdir : q ≠ k.pageDirectory) {virt phys flags : BitVec 32}
    (habsent : hasFlag (s.mem a (pdIdx virt)) pagePresent = false)
    (halloc : s.pmm.pmmAllocPage.2 = q * 4096) :
    ∃ w₁ w₂ w₃, s.pagingMapUser k (a * 4096) virt phys flags =
      (((Paging.mk ((((s.store (windowTable k) 512 w₁).store (windowTable k) 513 w₂).mem).zeroPage q)
        s.pmm.pmmAllocPage.1).store a (pdIdx virt) (tableLink q)).store (windowTable k) 513
          0).finishMap k q virt phys flags w₃ := by
  set s₁ := s.store (windowTable k) 512 (windowEntry (BitVec.ofNat 32 (a * 4096))) with hs₁
  have hk₁ : KernelDir k s₁.mem := kernelDir_store hk windowTable_ne_dir
  have hview₁ : s₁.viewed k tempPdVa = a := by
    rw [viewed_tempPdVa hk₁, hs₁, store_same, frameOf_windowEntry, frameOf_ofNat ha]
  have hpde : s₁.mem a (pdIdx virt) = s.mem a (pdIdx virt) :=
    s.store_other _ fun h => hwin h.1
  have hpmm : s₁.pmm = s.pmm := rfl
  set s₁' : Paging := ⟨s₁.mem, s.pmm.pmmAllocPage.1⟩ with hs₁'
  have hk₁' : KernelDir k s₁'.mem := hk₁
  set s₂ := s₁'.store (windowTable k) 513 (windowEntry (BitVec.ofNat 32 (q * 4096))) with hs₂
  have hk₂ : KernelDir k s₂.mem := kernelDir_store hk₁' windowTable_ne_dir
  have hview₂ : s₂.viewed k tempPtVa = q := by
    rw [viewed_tempPtVa hk₂, hs₂, store_same, frameOf_windowEntry, frameOf_ofNat hq]
  set s₃ : Paging := ⟨s₂.mem.zeroPage q, s₂.pmm⟩ with hs₃
  have hk₃ : KernelDir k s₃.mem := fun t ht => (if_neg hqdir.symm).trans (hk₂ t ht)
  set s₄ := s₃.store a (pdIdx virt) (tableLink q) with hs₄
  have hk₄ : KernelDir k s₄.mem := kernelDir_store hk₃ hdir
  set s₅ := s₄.store (windowTable k) 513 0 with hs₅
  have hk₅ : KernelDir k s₅.mem := kernelDir_store hk₄ windowTable_ne_dir
  have hens : s₁.ensureTable k virt = s₅ := by
    unfold ensureTable
    simp only [hview₁, hpde, hpmm, halloc, habsent, if_true]
    rw [map_tempPtVa hk₁', ← hs₂, hview₂, unmap_tempPtVa]
    rfl
  have hpde₅ : s₅.mem a (pdIdx virt) = tableLink q := by
    rw [hs₅, store_other _ _ fun h => hwin h.1, hs₄, store_same]
  set pt := s₅.mem a (pdIdx virt) &&& 0xFFFFF000#32 with hpt
  set s₆ := s₅.store (windowTable k) 513 (windowEntry pt) with hs₆
  have hk₆ : KernelDir k s₆.mem := kernelDir_store hk₅ windowTable_ne_dir
  have hview₆ : s₆.viewed k tempPtVa = q := by
    rw [viewed_tempPtVa hk₆, hs₆, store_same, frameOf_windowEntry, hpt, frameOf_mask, hpde₅,
      frameOf_tableLink hq]
  refine ⟨windowEntry (BitVec.ofNat 32 (a * 4096)), windowEntry (BitVec.ofNat 32 (q * 4096)),
    windowEntry pt, ?_⟩
  unfold pagingMapUser finishMap
  simp only [map_tempPdVa hk, ← hs₁, hview₁, hens, map_tempPtVa hk₅, ← hpt, ← hs₆, hview₆,
    unmap_tempPtVa, unmap_tempPdVa]
  rfl

/-- A word of one of the windows. -/
def IsWindow (k : KernelImage) (f i : ℕ) : Prop := f = windowTable k ∧ (i = 512 ∨ i = 513)

instance (f i : ℕ) : Decidable (IsWindow k f i) := by
  unfold IsWindow
  infer_instance

/-- The end of `paging_map_user` writes the entry and clears the windows. -/
theorem finishMap_mem (q : ℕ) (virt phys flags w : BitVec 32) (f i : ℕ) :
    (s.finishMap k q virt phys flags w).mem f i =
      if IsWindow k f i then 0
      else if f = q ∧ i = ptIdx virt then userEntry virt phys flags else s.mem f i := by
  unfold finishMap
  by_cases hwin : IsWindow k f i
  · rw [if_pos hwin]
    obtain ⟨rfl, rfl | rfl⟩ := hwin
    · rw [store_same]
    · rw [store_other _ _ (by omega), store_same]
  · have h₁ : ¬ (f = windowTable k ∧ i = 512) := fun h => hwin ⟨h.1, Or.inl h.2⟩
    have h₂ : ¬ (f = windowTable k ∧ i = 513) := fun h => hwin ⟨h.1, Or.inr h.2⟩
    rw [if_neg hwin, store_other _ _ h₁, store_other _ _ h₂]
    by_cases hq : f = q ∧ i = ptIdx virt
    · rw [if_pos hq]
      obtain ⟨rfl, rfl⟩ := hq
      rw [store_same]
    · rw [if_neg hq, store_other _ _ hq, store_other _ _ h₂]

/-- **What `paging_map_user` changes** where the directory has a table for the address. -/
theorem mem_pagingMapUser_of_present (hk : KernelDir k s.mem) {a : ℕ} (ha : a < 2 ^ 20)
    (hdir : a ≠ k.pageDirectory) (hwin : a ≠ windowTable k) (virt phys flags : BitVec 32)
    (hpresent : hasFlag (s.mem a (pdIdx virt)) pagePresent = true) :
    (s.pagingMapUser k (a * 4096) virt phys flags).pmm = s.pmm ∧
    ∀ f i, (s.pagingMapUser k (a * 4096) virt phys flags).mem f i =
      if IsWindow k f i then 0
      else if f = frameOf (s.mem a (pdIdx virt)) ∧ i = ptIdx virt then userEntry virt phys flags
      else if f = a ∧ i = pdIdx virt then s.mem a (pdIdx virt) ||| pageUser
      else s.mem f i := by
  obtain ⟨w₁, w₂, heq⟩ := @pagingMapUser_of_present _ _ hk _ ha hdir hwin _ phys flags hpresent
  rw [heq]
  refine ⟨rfl, fun f i => ?_⟩
  rw [finishMap_mem]
  by_cases hw : IsWindow k f i
  · rw [if_pos hw, if_pos hw]
  · rw [if_neg hw, if_neg hw]
    congr 1
    by_cases hfa : f = a ∧ i = pdIdx virt
    · rw [if_pos hfa]
      obtain ⟨rfl, rfl⟩ := hfa
      rw [store_same]
    · rw [if_neg hfa, store_other _ _ hfa, store_other _ _ fun h => hw ⟨h.1, Or.inl h.2⟩]

/-- **What `paging_map_user` changes** where it makes a table, in the page `q`. -/
theorem mem_pagingMapUser_of_absent (hk : KernelDir k s.mem) {a q : ℕ} (ha : a < 2 ^ 20)
    (hdir : a ≠ k.pageDirectory) (hwin : a ≠ windowTable k) (hq : q < 2 ^ 20)
    (hqdir : q ≠ k.pageDirectory) (virt phys flags : BitVec 32)
    (habsent : hasFlag (s.mem a (pdIdx virt)) pagePresent = false)
    (halloc : s.pmm.pmmAllocPage.2 = q * 4096) :
    (s.pagingMapUser k (a * 4096) virt phys flags).pmm = s.pmm.pmmAllocPage.1 ∧
    ∀ f i, (s.pagingMapUser k (a * 4096) virt phys flags).mem f i =
      if IsWindow k f i then 0
      else if f = q ∧ i = ptIdx virt then userEntry virt phys flags
      else if f = a ∧ i = pdIdx virt then tableLink q
      else if f = q then 0 else s.mem f i := by
  obtain ⟨w₁, w₂, w₃, heq⟩ :=
    @pagingMapUser_of_absent _ _ hk _ _ ha hdir hwin hq hqdir _ phys flags habsent halloc
  rw [heq]
  refine ⟨rfl, fun f i => ?_⟩
  rw [finishMap_mem]
  by_cases hw : IsWindow k f i
  · rw [if_pos hw, if_pos hw]
  · have h₁ : ¬ (f = windowTable k ∧ i = 512) := fun h => hw ⟨h.1, Or.inl h.2⟩
    have h₂ : ¬ (f = windowTable k ∧ i = 513) := fun h => hw ⟨h.1, Or.inr h.2⟩
    rw [if_neg hw, if_neg hw]
    congr 1
    rw [store_other _ _ h₂]
    by_cases hfa : f = a ∧ i = pdIdx virt
    · rw [if_pos hfa]
      obtain ⟨rfl, rfl⟩ := hfa
      rw [store_same]
    · rw [if_neg hfa, store_other _ _ hfa]
      show (if f = q then 0 else _) = _
      by_cases hfq : f = q
      · rw [if_pos hfq, if_pos hfq]
      · rw [if_neg hfq, if_neg hfq, store_other _ _ h₂, store_other _ _ h₁]

end Paging

end Microkernel

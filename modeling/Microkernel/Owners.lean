/-
# Who has the pages

The pages taken from the allocator are directories of address spaces, tables made for
them, or pages held for something else; no page is two of these.  The calls of the kernel
keep this account.  Page 0 stands outside of it: its address is `NULL`, it is what
`paging_map_user` takes for a table when there is no page left, and it may be freed.
-/
import Microkernel.PagingSpec

namespace Microkernel

/-- The number of a virtual page. -/
def pageOf (virt : BitVec 32) : ℕ := virt.toNat / 4096

/-- The entries 256 to 767 of a directory, which are not shared. -/
def AddressSpaces.Private (i : ℕ) : Prop := 256 ≤ i ∧ i < 768

instance (i : ℕ) : Decidable (AddressSpaces.Private i) := by
  unfold AddressSpaces.Private
  infer_instance

theorem KernelImage.IsTable.lt_firstPage {k : KernelImage} {f : ℕ} (h : k.IsTable f) :
    f < Pmm.firstPage k.toKernelEnd := by
  have hfirst : k.addr ≤ Pmm.firstPage k.toKernelEnd * 4096 := by
    have := k.below
    unfold Pmm.firstPage
    generalize k.addr = x at *
    omega
  have hf : (f + 1) * 4096 ≤ Pmm.firstPage k.toKernelEnd * 4096 := by
    rcases h with rfl | ⟨_, h⟩
    · exact k.dir_lt.trans hfirst
    · exact (Nat.mul_le_mul_right 4096 (by omega)).trans (k.tables_lt.trans hfirst)
  exact Nat.le_of_mul_le_mul_right hf (by norm_num)

theorem KernelImage.firstPage_pos (k : KernelImage) : 0 < Pmm.firstPage k.toKernelEnd :=
  lt_of_le_of_lt (Nat.zero_le _) (show k.IsTable k.pageDirectory from Or.inl rfl).lt_firstPage

open AddressSpaces (Private)

/-! ## The account -/

/-- The pages in use: the directories, the tables (the table, its directory and the entry)
and the pages held for something else. -/
structure PageOwners where
  spaces : List ℕ
  tables : List (ℕ × ℕ × ℕ)
  held : List ℕ

namespace PageOwners

variable (o : PageOwners)

/-- All the pages of the account. -/
def owned : List ℕ := o.spaces ++ (o.tables.map fun t => t.1) ++ o.held

/-- The page `q` is held. -/
def hold (q : ℕ) : PageOwners := { o with held := q :: o.held }

/-- The page `q` is held no more. -/
def release (q : ℕ) : PageOwners := { o with held := o.held.erase q }

/-- The page `q` is a directory. -/
def addSpace (q : ℕ) : PageOwners := { o with spaces := q :: o.spaces }

/-- The table `q` was made for the entry `i` of the directory `a`, unless it is page 0. -/
def addTable (q a i : ℕ) : PageOwners :=
  if q = 0 then o else { o with tables := (q, a, i) :: o.tables }

/-- The account after a call of `paging_map_user` that wrote in the table `q`. -/
def afterMap (q a i : ℕ) (new : Bool) : PageOwners := if new = true then o.addTable q a i else o

/-- The directory `a` and its tables are given back. -/
def dropSpace (a : ℕ) : PageOwners :=
  { o with
    spaces := o.spaces.erase a
    tables := o.tables.filter fun t => t.2.1 ≠ a }

variable {o}

theorem mem_owned {f : ℕ} :
    f ∈ o.owned ↔ f ∈ o.spaces ∨ (∃ a i, (f, a, i) ∈ o.tables) ∨ f ∈ o.held := by
  unfold owned
  rw [List.append_assoc, List.mem_append, List.mem_append, List.mem_map]
  refine or_congr Iff.rfl (or_congr ⟨?_, ?_⟩ Iff.rfl)
  · rintro ⟨⟨q, a, i⟩, hmem, rfl⟩
    exact ⟨a, i, hmem⟩
  · rintro ⟨a, i, hmem⟩
    exact ⟨_, hmem, rfl⟩

theorem mem_owned_of_space {a : ℕ} (h : a ∈ o.spaces) : a ∈ o.owned := mem_owned.mpr (Or.inl h)

theorem mem_owned_of_table {q a i : ℕ} (h : (q, a, i) ∈ o.tables) : q ∈ o.owned :=
  mem_owned.mpr (Or.inr (Or.inl ⟨a, i, h⟩))

theorem mem_owned_of_held {q : ℕ} (h : q ∈ o.held) : q ∈ o.owned :=
  mem_owned.mpr (Or.inr (Or.inr h))

@[simp] theorem addTable_spaces (q a i : ℕ) : (o.addTable q a i).spaces = o.spaces := by
  unfold addTable
  split_ifs <;> rfl

@[simp] theorem addTable_held (q a i : ℕ) : (o.addTable q a i).held = o.held := by
  unfold addTable
  split_ifs <;> rfl

theorem mem_addTable_of_mem {q a i : ℕ} {t : ℕ × ℕ × ℕ} (h : t ∈ o.tables) :
    t ∈ (o.addTable q a i).tables := by
  unfold addTable
  split_ifs
  · exact h
  · exact List.mem_cons_of_mem _ h

theorem owned_hold (q : ℕ) : (o.hold q).owned.Perm (q :: o.owned) := List.perm_middle

theorem owned_addTable {q : ℕ} (a i : ℕ) (hq : q ≠ 0) :
    (o.addTable q a i).owned.Perm (q :: o.owned) := by
  unfold addTable owned
  rw [if_neg hq]
  show (o.spaces ++ (q :: o.tables.map fun t => t.1) ++ o.held).Perm _
  rw [List.append_assoc, List.cons_append, List.append_assoc]
  exact List.perm_middle

theorem owned_release {q : ℕ} (h : q ∈ o.held) : o.owned.Perm (q :: (o.release q).owned) :=
  (List.Perm.append_left _ (List.perm_cons_erase h)).trans List.perm_middle

end PageOwners

/-- **The account is right**: the kernel's directory is in place and its pages are in use;
every page of the account is one page of the allocator's, in use; the shared entries of a
directory lead to the kernel's tables, the others to tables made for them or to page 0. -/
structure Linked (k : KernelImage) (o : PageOwners) (s : Paging) : Prop where
  kernelDir : KernelDir k s.mem
  total_le : s.pmm.totalPages ≤ maxPages
  kernelUsed : ∀ q, 0 < q → q < Pmm.firstPage k.toKernelEnd → s.pmm.bitmap.test q = true
  owned_used : ∀ f ∈ o.owned, Pmm.firstPage k.toKernelEnd ≤ f ∧ f < s.pmm.totalPages ∧
    s.pmm.bitmap.test f = true
  nodup : o.owned.Nodup
  shared : ∀ a ∈ o.spaces, ∀ i < 1024, ¬ Private i → s.mem a i = tableLink (k.pageTables + i)
  own : ∀ a ∈ o.spaces, ∀ i, Private i → s.mem a i = 0 ∨ s.mem a i = tableLink 0 ∨
    ∃ q, (q, a, i) ∈ o.tables ∧ s.mem a i = tableLink q

namespace Linked

variable {k : KernelImage} {o : PageOwners} {s : Paging}

theorem ge_firstPage (h : Linked k o s) {f : ℕ} (hf : f ∈ o.owned) :
    Pmm.firstPage k.toKernelEnd ≤ f := (h.owned_used f hf).1

theorem lt_of_owned (h : Linked k o s) {f : ℕ} (hf : f ∈ o.owned) : f < 2 ^ 20 := by
  have h₁ := (h.owned_used f hf).2.1
  have h₂ := h.total_le
  unfold maxPages at h₂
  omega

theorem not_isTable (h : Linked k o s) {f : ℕ} (hf : f ∈ o.owned) : ¬ k.IsTable f := fun ht =>
  absurd ht.lt_firstPage (Nat.not_lt.mpr (h.ge_firstPage hf))

theorem ne_dir (h : Linked k o s) {f : ℕ} (hf : f ∈ o.owned) : f ≠ k.pageDirectory := fun he =>
  h.not_isTable hf (Or.inl he)

theorem not_kernelTable (h : Linked k o s) {f : ℕ} (hf : f ∈ o.owned) :
    ¬ (k.pageTables ≤ f ∧ f < k.pageTables + 1024) := fun he => h.not_isTable hf (Or.inr he)

theorem ne_windowTable (h : Linked k o s) {f : ℕ} (hf : f ∈ o.owned) : f ≠ Paging.windowTable k := by
  intro he
  apply h.not_kernelTable hf
  unfold Paging.windowTable at he
  omega

theorem ne_zero (h : Linked k o s) {f : ℕ} (hf : f ∈ o.owned) : f ≠ 0 := by
  have h₁ := h.ge_firstPage hf
  have h₂ := k.firstPage_pos
  omega

/-- A table is no directory. -/
theorem table_ne_space (h : Linked k o s) {q a i a' : ℕ} (hq : (q, a, i) ∈ o.tables)
    (ha : a' ∈ o.spaces) : a' ≠ q := by
  rintro rfl
  have hnodup := (List.nodup_append.mp h.nodup).1
  exact (List.nodup_append.mp hnodup).2.2 a' ha a' (List.mem_map.mpr ⟨_, hq, rfl⟩) rfl

/-- A held page is no directory and no table. -/
theorem held_ne (h : Linked k o s) {f : ℕ} (hf : f ∈ o.held) :
    f ∉ o.spaces ∧ ∀ a i, (f, a, i) ∉ o.tables := by
  have hdisjoint := (List.nodup_append.mp h.nodup).2.2
  refine ⟨fun ha => ?_, fun a i hq => ?_⟩
  · exact hdisjoint f (List.mem_append_left _ ha) f hf rfl
  · exact hdisjoint f (List.mem_append_right _ (List.mem_map.mpr ⟨_, hq, rfl⟩)) f hf rfl

/-! ## Changes of memory -/

/-- Words that are neither in the kernel's directory nor in another directory may change. -/
theorem of_mem (h : Linked k o s) {m : PageMemory} (hdir : ∀ i, m k.pageDirectory i = s.mem k.pageDirectory i)
    (hspace : ∀ a ∈ o.spaces, ∀ i, m a i = s.mem a i) : Linked k o ⟨m, s.pmm⟩ where
  kernelDir := fun t ht => (hdir t).trans (h.kernelDir t ht)
  total_le := h.total_le
  kernelUsed := h.kernelUsed
  owned_used := h.owned_used
  nodup := h.nodup
  shared := fun a ha i hi hnot => (hspace a ha i).trans (h.shared a ha i hi hnot)
  own := fun a ha i hi => by
    show m a i = 0 ∨ m a i = tableLink 0 ∨ ∃ q, (q, a, i) ∈ o.tables ∧ m a i = tableLink q
    rw [hspace a ha i]
    exact h.own a ha i hi

/-- A word of a kernel table may change. -/
theorem store_kernel (h : Linked k o s) {t i : ℕ} (ht : t < 1024) (v : BitVec 32) :
    Linked k o (s.store (k.pageTables + t) i v) := by
  refine h.of_mem (fun j => ?_) fun a ha j => ?_
  · exact s.store_other v fun he => k.table_ne_dir ht he.1.symm
  · refine s.store_other v fun he => h.not_kernelTable (PageOwners.mem_owned_of_space ha) ?_
    omega

/-- The words of a page that is no directory may change. -/
theorem of_page (h : Linked k o s) {f : ℕ} (hdir : f ≠ k.pageDirectory) (hspace : f ∉ o.spaces)
    {m : PageMemory} (hm : ∀ f' i, f' ≠ f → m f' i = s.mem f' i) : Linked k o ⟨m, s.pmm⟩ :=
  h.of_mem (fun i => hm _ i hdir.symm) fun a ha i => hm a i fun he => hspace (he ▸ ha)

/-! ## The allocator -/

/-- The allocator may change where no page of the account is freed. -/
theorem of_pmm (h : Linked k o s) {p : Pmm} (htotal : p.totalPages = s.pmm.totalPages)
    (htest : ∀ q, q ≠ 0 → s.pmm.bitmap.test q = true → p.bitmap.test q = true) :
    Linked k o ⟨s.mem, p⟩ where
  kernelDir := h.kernelDir
  total_le := htotal.trans_le h.total_le
  kernelUsed := fun q hpos hq => htest q (by omega) (h.kernelUsed q hpos hq)
  owned_used := fun f hf => by
    obtain ⟨h₁, h₂, h₃⟩ := h.owned_used f hf
    exact ⟨h₁, h₂.trans_eq htotal.symm, htest f (h.ne_zero hf) h₃⟩
  nodup := h.nodup
  shared := h.shared
  own := h.own

/-- What `pmm_alloc_page` finds: `NULL`, with the bits of the other pages as they were, or a page
outside of the account. -/
theorem alloc_cases (h : Linked k o s) :
    (s.pmm.pmmAllocPage.2 = 0 ∧ s.pmm.pmmAllocPage.1.totalPages = s.pmm.totalPages ∧
      (∀ q, q ≠ 0 → s.pmm.pmmAllocPage.1.bitmap.test q = s.pmm.bitmap.test q) ∧
      Linked k o ⟨s.mem, s.pmm.pmmAllocPage.1⟩) ∨
    ∃ q, q < s.pmm.totalPages ∧ Pmm.firstPage k.toKernelEnd ≤ q ∧ s.pmm.bitmap.test q = false ∧
      q ∉ o.owned ∧ s.pmm.pmmAllocPage = (s.pmm.mark q, q * 4096) := by
  rcases Pmm.pmmAllocPage_cases h.total_le with ⟨_, heq⟩ | ⟨q, hq, hbit, _, heq⟩
  · rw [heq]
    exact Or.inl ⟨rfl, rfl, fun q _ => rfl, h⟩
  · rcases Nat.eq_zero_or_pos q with rfl | hpos
    · -- page 0 is free, and its address is `NULL`
      have htest : ∀ f, f ≠ 0 → (s.pmm.mark 0).bitmap.test f = s.pmm.bitmap.test f := by
        intro f hf
        rw [Pmm.test_mark, decide_eq_false hf, Bool.false_or]
      rw [heq]
      exact Or.inl ⟨Nat.zero_mul _, rfl, htest, h.of_pmm rfl fun f hf hu => (htest f hf).trans hu⟩
    · have hfirst : Pmm.firstPage k.toKernelEnd ≤ q := by
        by_contra hlt
        rw [h.kernelUsed q hpos (Nat.lt_of_not_le hlt)] at hbit
        cases hbit
      refine Or.inr ⟨q, hq, hfirst, hbit, fun hmem => ?_, heq⟩
      rw [(h.owned_used q hmem).2.2] at hbit
      cases hbit

/-- A page is taken for something of the account. -/
theorem mark (h : Linked k o s) {q : ℕ} : Linked k o ⟨s.mem, s.pmm.mark q⟩ :=
  h.of_pmm rfl fun f _ hu => by rw [Pmm.test_mark, hu, Bool.or_true]

/-- A page taken from the allocator is held. -/
theorem hold (h : Linked k o s) {q : ℕ} (hfirst : Pmm.firstPage k.toKernelEnd ≤ q)
    (hlt : q < s.pmm.totalPages) (hfresh : q ∉ o.owned) : Linked k (o.hold q) ⟨s.mem, s.pmm.mark q⟩ where
  kernelDir := h.kernelDir
  total_le := h.total_le
  kernelUsed := h.mark.kernelUsed
  owned_used := fun f hf => by
    rcases List.mem_cons.mp (PageOwners.owned_hold q |>.mem_iff.mp hf) with rfl | hf
    · exact ⟨hfirst, hlt, by simp⟩
    · exact h.mark.owned_used f hf
  nodup := (PageOwners.owned_hold q).nodup_iff.mpr (List.nodup_cons.mpr ⟨hfresh, h.nodup⟩)
  shared := h.shared
  own := h.own

/-- `pmm_free_page` of page 0 keeps the account. -/
theorem free_zero (h : Linked k o s) : Linked k o ⟨s.mem, s.pmm.pmmFreePage 0⟩ := by
  unfold Pmm.pmmFreePage
  split_ifs
  · exact h.of_pmm rfl fun q hq hu => by
      rw [Pmm.test_unmark, hu, decide_eq_false (by simpa using hq)]
      rfl
  · exact h

/-- `pmm_free_page` of a page of the account frees it. -/
theorem pmmFreePage_eq (h : Linked k o s) {f : ℕ} (hf : f ∈ o.owned) :
    s.pmm.pmmFreePage (f * 4096) = s.pmm.unmark f := by
  obtain ⟨_, hlt, hbit⟩ := h.owned_used f hf
  unfold Pmm.pmmFreePage
  rw [Nat.mul_div_cancel f (by norm_num), if_pos ⟨hlt, hbit⟩]

/-- The bits after a page of the account is freed. -/
theorem test_free (h : Linked k o s) {f q : ℕ} (hf : f ∈ o.owned) :
    (s.pmm.pmmFreePage (f * 4096)).bitmap.test q = (!decide (q = f) && s.pmm.bitmap.test q) := by
  rw [h.pmmFreePage_eq hf, Pmm.test_unmark]

/-- `pmm_free_page` of a page of the account that it loses. -/
theorem free (h : Linked k o s) {f : ℕ} {o' : PageOwners} (hf : f ∈ o.owned)
    (howned : o.owned.Perm (f :: o'.owned)) (hspaces : ∀ a ∈ o'.spaces, a ∈ o.spaces)
    (hown : ∀ a ∈ o'.spaces, ∀ q i, (q, a, i) ∈ o.tables → (q, a, i) ∈ o'.tables) :
    Linked k o' ⟨s.mem, s.pmm.pmmFreePage (f * 4096)⟩ := by
  have hnodup := List.nodup_cons.mp (howned.nodup_iff.mp h.nodup)
  have hbit : ∀ q, q ≠ f → s.pmm.bitmap.test q = true →
      (s.pmm.unmark f).bitmap.test q = true := fun q hq hu => by
    rw [Pmm.test_unmark, hu, decide_eq_false hq]
    rfl
  rw [h.pmmFreePage_eq hf]
  refine ⟨h.kernelDir, h.total_le, fun q hpos hq => ?_, fun q hq => ?_, hnodup.2,
    fun a ha => h.shared a (hspaces a ha), fun a ha i hi => ?_⟩
  · have hge := h.ge_firstPage hf
    exact hbit q (by omega) (h.kernelUsed q hpos hq)
  · obtain ⟨h₁, h₂, h₃⟩ := h.owned_used q (howned.mem_iff.mpr (List.mem_cons_of_mem _ hq))
    exact ⟨h₁, h₂, hbit q (fun he => hnodup.1 (he ▸ hq)) h₃⟩
  · rcases h.own a (hspaces a ha) i hi with hzero | hlink | ⟨q, hq, hlink⟩
    · exact Or.inl hzero
    · exact Or.inr (Or.inl hlink)
    · exact Or.inr (Or.inr ⟨q, hown a ha q i hq, hlink⟩)

/-- **A held page is freed.** -/
theorem free_held (h : Linked k o s) {f : ℕ} (hf : f ∈ o.held) :
    Linked k (o.release f) ⟨s.mem, s.pmm.pmmFreePage (f * 4096)⟩ :=
  h.free (PageOwners.mem_owned_of_held hf) (PageOwners.owned_release hf) (fun _ ha => ha)
    fun _ _ _ _ hq => hq

end Linked

/-! ## One call of `paging_map_user` -/

/-- The table in which a call of `paging_map_user` writes its entry, and whether it is new: a
kernel table, the table the directory has, a new one or, with no page left, page 0. -/
inductive LinkedTable (k : KernelImage) (o : PageOwners) (s : Paging) (a i : ℕ) : ℕ → Bool → Prop where
  | shared : ¬ Private i → LinkedTable k o s a i (k.pageTables + i) false
  | own (q : ℕ) : Private i → q = 0 ∨ (q, a, i) ∈ o.tables → s.mem a i = tableLink q →
      LinkedTable k o s a i q false
  | noPage : Private i → s.mem a i = 0 → s.pmm.pmmAllocPage.2 = 0 → LinkedTable k o s a i 0 true
  | fresh (q : ℕ) : Private i → s.mem a i = 0 → s.pmm.bitmap.test q = false → q ∉ o.owned →
      Pmm.firstPage k.toKernelEnd ≤ q → q < s.pmm.totalPages →
      s.pmm.pmmAllocPage = (s.pmm.mark q, q * 4096) → LinkedTable k o s a i q true

/-- The words after a call of `paging_map_user` on the directory `a` that writes in the table
`q`: the windows are closed, the entry is in the table, the directory leads to the table, and a
new table has no other entry. -/
def mappedMem (k : KernelImage) (s : Paging) (a q : ℕ) (new : Bool) (virt phys flags : BitVec 32) :
    PageMemory := fun f i =>
  if Paging.IsWindow k f i then 0
  else if f = q ∧ i = ptIdx virt then Paging.userEntry virt phys flags
  else if f = a ∧ i = pdIdx virt then tableLink q
  else if new = true ∧ f = q then 0 else s.mem f i

namespace Linked

variable {k : KernelImage} {o : PageOwners} {s : Paging} {a q : ℕ} {new : Bool}
  {virt phys flags : BitVec 32}

/-- **What `paging_map_user` writes**, and in which table. -/
theorem linkedTable (h : Linked k o s) (ha : a ∈ o.spaces) (virt phys flags : BitVec 32) :
    ∃ q new, LinkedTable k o s a (pdIdx virt) q new ∧
      s.pagingMapUser k (a * 4096) virt phys flags =
        ⟨mappedMem k s a q new virt phys flags,
          if new = true then s.pmm.pmmAllocPage.1 else s.pmm⟩ := by
  have hown := PageOwners.mem_owned_of_space ha
  have hlt := h.lt_of_owned hown
  have hdir := h.ne_dir hown
  have hwin := h.ne_windowTable hown
  have htables := k.tables_lt_pow
  have hidx := pdIdx_lt virt
  have hge := k.dir_ge
  -- a directory entry that is there is the link to a table
  have hpresent : ∀ q, q < 2 ^ 20 → s.mem a (pdIdx virt) = tableLink q →
      s.pagingMapUser k (a * 4096) virt phys flags =
        ⟨mappedMem k s a q false virt phys flags,
          if false = true then s.pmm.pmmAllocPage.1 else s.pmm⟩ := by
    intro q hq hlink
    have hflag : hasFlag (s.mem a (pdIdx virt)) pagePresent = true := by
      rw [hlink]
      exact hasFlag_tableLink q
    obtain ⟨hpmm, hmem⟩ := Paging.mem_pagingMapUser_of_present h.kernelDir hlt hdir hwin virt phys
      flags hflag
    rw [hlink, frameOf_tableLink hq, tableLink_or_user] at hmem
    have heta : s.pagingMapUser k (a * 4096) virt phys flags =
        ⟨(s.pagingMapUser k (a * 4096) virt phys flags).mem, s.pmm⟩ := by rw [← hpmm]
    rw [heta]
    congr 1
    funext f i
    rw [hmem]
    unfold mappedMem
    rw [if_neg (show ¬ (false = true ∧ f = q) from fun hf => by cases hf.1)]
  -- a missing entry gets a table in the page that the allocator found
  have habsent : ∀ q, q < 2 ^ 20 → q ≠ k.pageDirectory → s.mem a (pdIdx virt) = 0 →
      s.pmm.pmmAllocPage.2 = q * 4096 →
      s.pagingMapUser k (a * 4096) virt phys flags =
        ⟨mappedMem k s a q true virt phys flags,
          if true = true then s.pmm.pmmAllocPage.1 else s.pmm⟩ := by
    intro q hq hqdir hzero halloc
    have hflag : hasFlag (s.mem a (pdIdx virt)) pagePresent = false := by
      rw [hzero]
      rfl
    obtain ⟨hpmm, hmem⟩ := Paging.mem_pagingMapUser_of_absent h.kernelDir hlt hdir hwin hq hqdir
      virt phys flags hflag halloc
    have heta : s.pagingMapUser k (a * 4096) virt phys flags =
        ⟨(s.pagingMapUser k (a * 4096) virt phys flags).mem, s.pmm.pmmAllocPage.1⟩ := by rw [← hpmm]
    rw [heta]
    congr 1
    funext f i
    rw [hmem]
    unfold mappedMem
    simp only [true_and]
  by_cases hpriv : Private (pdIdx virt)
  · rcases h.own a ha _ hpriv with hzero | hlink | ⟨q, hq, hlink⟩
    · rcases h.alloc_cases with ⟨halloc, -⟩ | ⟨q, hq, hfirst, hbit, hfresh, halloc⟩
      · exact ⟨0, true, .noPage hpriv hzero halloc,
          habsent 0 (by norm_num) (by omega) hzero (by rw [halloc, Nat.zero_mul])⟩
      · have hqdir : q ≠ k.pageDirectory := by
          have := (show k.IsTable k.pageDirectory from Or.inl rfl).lt_firstPage
          omega
        have htotal := h.total_le
        unfold maxPages at htotal
        exact ⟨q, true, .fresh q hpriv hzero hbit hfresh hfirst hq halloc,
          habsent q (by omega) hqdir hzero (by rw [halloc])⟩
    · exact ⟨0, false, .own 0 hpriv (Or.inl rfl) hlink, hpresent 0 (by norm_num) hlink⟩
    · exact ⟨q, false, .own q hpriv (Or.inr hq) hlink,
        hpresent q (h.lt_of_owned (PageOwners.mem_owned_of_table hq)) hlink⟩
  · have hlink := h.shared a ha _ hidx hpriv
    exact ⟨_, false, .shared hpriv, hpresent _ (by omega) hlink⟩

/-- The table of a call is no directory. -/
theorem linkedTable_ne_space (h : Linked k o s) {i a' : ℕ} (hq : LinkedTable k o s a i q new)
    (hi : i < 1024) (ha' : a' ∈ o.spaces) : a' ≠ q := by
  have hown := PageOwners.mem_owned_of_space ha'
  cases hq with
  | shared _ =>
    rintro rfl
    exact h.not_kernelTable hown (by omega)
  | own q _ hq _ =>
    rcases hq with rfl | hq
    · exact h.ne_zero hown
    · exact h.table_ne_space hq ha'
  | noPage => exact h.ne_zero hown
  | fresh q _ _ _ hfresh =>
    rintro rfl
    exact hfresh hown

theorem linkedTable_ne_dir (h : Linked k o s) {i : ℕ} (hq : LinkedTable k o s a i q new)
    (hi : i < 1024) : k.pageDirectory ≠ q := by
  have hge := k.dir_ge
  cases hq with
  | shared _ => exact fun he => k.table_ne_dir hi he.symm
  | own q _ hq _ =>
    rcases hq with rfl | hq
    · omega
    · exact (h.ne_dir (PageOwners.mem_owned_of_table hq)).symm
  | noPage => omega
  | fresh q _ _ _ _ hfirst =>
    rintro rfl
    have := (show k.IsTable k.pageDirectory from Or.inl rfl).lt_firstPage
    omega

/-- The directories after a call: only the entry of the address may be new. -/
theorem mappedMem_dir (h : Linked k o s) (ha : a ∈ o.spaces) (hq : LinkedTable k o s a (pdIdx virt) q new) :
    (∀ i, mappedMem k s a q new virt phys flags k.pageDirectory i = s.mem k.pageDirectory i) ∧
    ∀ a' ∈ o.spaces, ∀ i, mappedMem k s a q new virt phys flags a' i =
      if a' = a ∧ i = pdIdx virt then tableLink q else s.mem a' i := by
  have hidx := pdIdx_lt virt
  unfold mappedMem
  refine ⟨fun i => ?_, fun a' ha' i => ?_⟩
  · have hwin : ¬ Paging.IsWindow k k.pageDirectory i := fun hw =>
      Paging.windowTable_ne_dir hw.1.symm
    have hne := h.linkedTable_ne_dir hq hidx
    have hda := (h.ne_dir (PageOwners.mem_owned_of_space ha)).symm
    rw [if_neg hwin, if_neg fun hh => hne hh.1, if_neg fun hh => hda hh.1,
      if_neg fun hh => hne hh.2]
  · have hwin : ¬ Paging.IsWindow k a' i := fun hw =>
      h.ne_windowTable (PageOwners.mem_owned_of_space ha') hw.1
    have hne := h.linkedTable_ne_space hq hidx ha'
    rw [if_neg hwin, if_neg fun hh => hne hh.1]
    congr 1
    exact if_neg fun hh => hne hh.2

/-- **`paging_map_user` keeps the account.** -/
theorem mapUser (h : Linked k o s) (ha : a ∈ o.spaces)
    (hq : LinkedTable k o s a (pdIdx virt) q new) :
    Linked k (o.afterMap q a (pdIdx virt) new) ⟨mappedMem k s a q new virt phys flags,
      if new = true then s.pmm.pmmAllocPage.1 else s.pmm⟩ := by
  obtain ⟨hdir, hspace⟩ := @mappedMem_dir k o s a q new virt phys flags h ha hq
  have hidx := pdIdx_lt virt
  -- an entry that is there keeps its table
  have hsame : s.mem a (pdIdx virt) = tableLink q →
      Linked k o ⟨mappedMem k s a q new virt phys flags, s.pmm⟩ := by
    intro hlink
    refine h.of_mem hdir fun a' ha' i => (hspace a' ha' i).trans ?_
    split_ifs with he
    · obtain ⟨rfl, rfl⟩ := he
      exact hlink.symm
    · rfl
  -- a missing entry leads to a new table
  have hnew : s.mem a (pdIdx virt) = 0 → Private (pdIdx virt) → ∀ {o' : PageOwners} {p : Pmm},
      Linked k o ⟨s.mem, p⟩ → o'.spaces = o.spaces → (∀ t ∈ o.tables, t ∈ o'.tables) →
      (q = 0 ∨ (q, a, pdIdx virt) ∈ o'.tables) →
      (∀ f ∈ o'.owned, f ∈ o.owned ∨ Pmm.firstPage k.toKernelEnd ≤ f ∧ f < p.totalPages ∧
        p.bitmap.test f = true) → o'.owned.Nodup →
      Linked k o' ⟨mappedMem k s a q new virt phys flags, p⟩ := by
    intro hzero hpriv o' p hp hspaces htables hlink howned hnodup
    refine ⟨fun t ht => (hdir t).trans (h.kernelDir t ht), hp.total_le, hp.kernelUsed,
      fun f hf => (howned f hf).elim (hp.owned_used f) id, hnodup, fun a' ha' i hi hnot => ?_,
      fun a' ha' i hi => ?_⟩
    · rw [hspaces] at ha'
      refine (hspace a' ha' i).trans ?_
      rw [if_neg fun he : a' = a ∧ i = pdIdx virt => hnot (he.2 ▸ hpriv)]
      exact h.shared a' ha' i hi hnot
    · rw [hspaces] at ha'
      have hmem := hspace a' ha' i
      by_cases he : a' = a ∧ i = pdIdx virt
      · rw [if_pos he] at hmem
        obtain ⟨rfl, rfl⟩ := he
        rcases hlink with rfl | hlink
        · exact Or.inr (Or.inl hmem)
        · exact Or.inr (Or.inr ⟨q, hlink, hmem⟩)
      · rw [if_neg he] at hmem
        rcases h.own a' ha' i hi with h₁ | h₁ | ⟨q', hq', h₁⟩
        · exact Or.inl (hmem.trans h₁)
        · exact Or.inr (Or.inl (hmem.trans h₁))
        · exact Or.inr (Or.inr ⟨q', htables _ hq', hmem.trans h₁⟩)
  unfold PageOwners.afterMap
  cases hq with
  | shared hpriv => exact hsame (h.shared a ha _ hidx hpriv)
  | own q _ _ hlink => exact hsame hlink
  | noPage hpriv hzero halloc =>
    rcases h.alloc_cases with ⟨_, _, _, hkept⟩ | ⟨q, _, hfirst, _, _, heq⟩
    · exact hnew hzero hpriv hkept rfl (fun _ ht => ht) (Or.inl rfl) (fun _ hf => Or.inl hf) h.nodup
    · have hpos := k.firstPage_pos
      rw [heq] at halloc
      dsimp only at halloc
      omega
  | fresh q hpriv hzero _ hfresh hfirst hlt halloc =>
    have hne : q ≠ 0 := by
      have := k.firstPage_pos
      omega
    have hperm : ((if true = true then o.addTable q a (pdIdx virt) else o).owned).Perm
        (q :: o.owned) := PageOwners.owned_addTable a _ hne
    rw [halloc]
    refine hnew hzero hpriv h.mark (PageOwners.addTable_spaces _ _ _)
      (fun t ht => PageOwners.mem_addTable_of_mem ht) (Or.inr ?_) (fun f hf => ?_)
      (hperm.nodup_iff.mpr (List.nodup_cons.mpr ⟨hfresh, h.nodup⟩))
    · rw [if_pos rfl, PageOwners.addTable, if_neg hne]
      exact List.mem_cons_self
    · rcases List.mem_cons.mp (hperm.mem_iff.mp hf) with rfl | hf
      · exact Or.inr ⟨hfirst, hlt, by simp⟩
      · exact Or.inl hf

/-! ## Address spaces come and go -/

/-- **`paging_create_isolated_space`**: with no page to be had nothing changes but page 0, or
the page found becomes a directory. -/
theorem create (h : Linked k o s) :
    ((s.pagingCreateIsolatedSpace k).2 = 0 ∧
      s.pagingCreateIsolatedSpace k = (⟨s.mem, s.pmm.pmmAllocPage.1⟩, 0) ∧
      Linked k o (s.pagingCreateIsolatedSpace k).1) ∨
    ∃ q, s.pmm.bitmap.test q = false ∧ q ∉ o.owned ∧ q ≠ 0 ∧
      (s.pagingCreateIsolatedSpace k).2 = q * 4096 ∧
      (s.pagingCreateIsolatedSpace k).1.pmm = s.pmm.mark q ∧
      (∀ f i, f ≠ q → (s.pagingCreateIsolatedSpace k).1.mem f i = s.mem f i) ∧
      (∀ i, Private i → (s.pagingCreateIsolatedSpace k).1.mem q i = 0) ∧
      Linked k (o.addSpace q) (s.pagingCreateIsolatedSpace k).1 := by
  rcases h.alloc_cases with ⟨halloc, _, _, hkept⟩ | ⟨q, hlt, hfirst, hbit, hfresh, halloc⟩
  · left
    have heq : s.pagingCreateIsolatedSpace k = (⟨s.mem, s.pmm.pmmAllocPage.1⟩, 0) := by
      unfold Paging.pagingCreateIsolatedSpace
      simp only [halloc, if_true]
    rw [heq]
    exact ⟨rfl, rfl, hkept⟩
  · right
    have hpos := k.firstPage_pos
    have hqdir : k.pageDirectory ≠ q := by
      have := (show k.IsTable k.pageDirectory from Or.inl rfl).lt_firstPage
      omega
    have heq : s.pagingCreateIsolatedSpace k = (⟨fun f i => if f = q ∧ i < 1024 then
        if 256 ≤ i ∧ i < 768 then 0 else s.mem k.pageDirectory i else s.mem f i, s.pmm.mark q⟩,
        q * 4096) := by
      unfold Paging.pagingCreateIsolatedSpace
      simp only [halloc]
      rw [if_neg (by omega), Nat.mul_div_cancel q (by norm_num)]
    have hold : ∀ f i, f ≠ q → (s.pagingCreateIsolatedSpace k).1.mem f i = s.mem f i := by
      intro f i hf
      rw [heq]
      exact if_neg fun hh => hf hh.1
    have hnew : ∀ i < 1024, (s.pagingCreateIsolatedSpace k).1.mem q i =
        if Private i then 0 else s.mem k.pageDirectory i := by
      intro i hi
      rw [heq]
      exact if_pos ⟨rfl, hi⟩
    have hspace : ∀ a ∈ o.spaces, a ≠ q := by
      rintro a ha rfl
      exact hfresh (PageOwners.mem_owned_of_space ha)
    have hzero : ∀ i, Private i → (s.pagingCreateIsolatedSpace k).1.mem q i = 0 := by
      intro i hi
      rw [hnew i (by have := hi.2; omega), if_pos hi]
    have hpmm : (s.pagingCreateIsolatedSpace k).1.pmm = s.pmm.mark q := by rw [heq]
    refine ⟨q, hbit, hfresh, by omega, by rw [heq], hpmm, hold, hzero, ?_⟩
    refine ⟨fun t ht => (hold _ t hqdir).trans (h.kernelDir t ht), by rw [hpmm]; exact h.total_le,
      by rw [hpmm]; exact h.mark.kernelUsed, fun f hf => ?_, List.nodup_cons.mpr ⟨hfresh, h.nodup⟩,
      fun a ha i hi hnot => ?_, fun a ha i hi => ?_⟩
    · rw [hpmm]
      rcases List.mem_cons.mp hf with rfl | hf
      · exact ⟨hfirst, hlt, by simp⟩
      · exact h.mark.owned_used f hf
    · rcases List.mem_cons.mp ha with rfl | ha
      · rw [hnew i hi, if_neg hnot]
        exact h.kernelDir i hi
      · exact (hold a i (hspace a ha)).trans (h.shared a ha i hi hnot)
    · rcases List.mem_cons.mp ha with rfl | ha
      · exact Or.inl (hzero i hi)
      · rw [hold a i (hspace a ha)]
        exact h.own a ha i hi

end Linked

end Microkernel

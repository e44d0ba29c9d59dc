/-
# What an address space costs

`paging_create_address_space` clones the kernel's tables, `paging_create_isolated_space` leaves
entries empty that `paging_map_user` fills with new tables, and
`paging_destroy_address_space` frees the tables that are not the kernel's and the directory.
Between the two every page that was taken is given back.

Page 0 is the exception.  Its address is `NULL`, so a caller of `pmm_alloc_page` takes it for a
failure when it is given out, and `paging_map_user`, which does not look, takes a failure for
page 0; then it is freed with the tables.
-/
import Microkernel.PageFrees
import Microkernel.Isolation

namespace Microkernel

open AddressSpaces (Private)

/-! ## The functions -/

namespace Paging

/-- The copy of the kernel's table `i` in the page `q`: the present entries, with
`PAGE_USER`. -/
def cloneTable (k : KernelImage) (s : Paging) (i q : ℕ) : Paging where
  mem := fun f j =>
    if f = q ∧ j < 1024 then
      if hasFlag (s.mem (k.pageTables + i) j) pagePresent then
        s.mem (k.pageTables + i) j ||| pageUser
      else 0
    else s.mem f j
  pmm := s.pmm

/-- The loop of `paging_create_address_space` that frees what was allocated so far. -/
def undoLoop (pd : ℕ) (s : Paging) (j : ℕ) : ℕ → Paging
  | 0 => s
  | n + 1 =>
    let e := s.mem (pd / 4096) j
    undoLoop pd
      (if hasFlag e pagePresent then { s with pmm := s.pmm.pmmFreePage (frameOf e * 4096) } else s)
      (j + 1) n

/-- The loop of `paging_create_address_space`, for `n` entries from `i` on. -/
def cloneLoop (k : KernelImage) (pd : ℕ) (s : Paging) (i : ℕ) : ℕ → Paging × ℕ
  | 0 => (s, pd)
  | n + 1 =>
    if hasFlag (s.mem k.pageDirectory i) pagePresent = false then
      cloneLoop k pd (s.store (pd / 4096) i 0) (i + 1) n
    else
      let r := s.pmm.pmmAllocPage
      if r.2 = 0 then
        let s := undoLoop pd { s with pmm := r.1 } 0 i
        ({ s with pmm := s.pmm.pmmFreePage pd }, 0)
      else
        cloneLoop k pd ((cloneTable k { s with pmm := r.1 } i (r.2 / 4096)).store (pd / 4096) i
          (BitVec.ofNat 32 r.2 ||| pagePresent ||| pageWrite ||| pageUser)) (i + 1) n

/-- `paging_create_address_space`: the address of the new directory, or 0. -/
def pagingCreateAddressSpace (k : KernelImage) (s : Paging) : Paging × ℕ :=
  let r := s.pmm.pmmAllocPage
  if r.2 = 0 then ({ s with pmm := r.1 }, 0)
  else cloneLoop k r.2 { s with pmm := r.1 } 0 1024

/-- A sequence of calls of `paging_map_user` for one directory. -/
def mapUserAll (k : KernelImage) (s : Paging) (pd : ℕ) (us : List UserCall) : Paging :=
  us.foldl (fun s u => s.pagingMapUser k pd u.virt u.phys u.flags) s

end Paging

/-- The two functions that create an address space. -/
inductive SpaceKind where
  | addressSpace
  | isolated
  deriving DecidableEq

/-- Create an address space. -/
def Paging.createSpace (k : KernelImage) (s : Paging) : SpaceKind → Paging × ℕ
  | .addressSpace => s.pagingCreateAddressSpace k
  | .isolated => s.pagingCreateIsolatedSpace k

/-- **The pages are accounted for.**  If no address space can be created, the allocator is as
before; if one is created, used for some mappings and destroyed, the allocator is as before. -/
def Accounted (k : KernelImage) (s : Paging) (kind : SpaceKind) (us : List UserCall) : Prop :=
  ((s.createSpace k kind).2 = 0 → (s.createSpace k kind).1.pmm = s.pmm) ∧
  ((s.createSpace k kind).2 ≠ 0 →
    ((Paging.mapUserAll k (s.createSpace k kind).1 (s.createSpace k kind).2
      us).pagingDestroyAddressSpace k (s.createSpace k kind).2).pmm = s.pmm)

/-- The state of the system between calls: the kernel's directory is in place, the pages of the
kernel are in use, page 0 perhaps not, and the counter is a 32-bit word. -/
structure KernelReady (k : KernelImage) (s : Paging) : Prop where
  kernelDir : KernelDir k s.mem
  total_le : s.pmm.totalPages ≤ maxPages
  kernelUsed : ∀ q, 0 < q → q < Pmm.firstPage k.toKernelEnd → s.pmm.bitmap.test q = true
  used_lt : s.pmm.usedPages < 2 ^ 32

/-- The entries of a new isolated space for which the calls need a table: the private ones that
they use. -/
def neededTables (us : List UserCall) : Finset ℕ :=
  (us.map fun u => pdIdx u.virt).toFinset.filter fun i => 256 ≤ i ∧ i < 768

/-! ## The pages of a directory -/

/-- The page `f` is a table that the directory `a` has for itself, in its first `n` entries. -/
def OwnTable (k : KernelImage) (m : PageMemory) (a n f : ℕ) : Prop :=
  ∃ i < n, m a i = tableLink f ∧ f < 2 ^ 20 ∧ f ≠ k.pageTables + i

/-- The account of one address space: since the allocator was `p`, the directory `a` and its own
tables were taken and nothing else.  Page 0 may be among the tables without having been taken. -/
structure SpaceInv (k : KernelImage) (p : Pmm) (s : Paging) (a n : ℕ) : Prop where
  kernelDir : KernelDir k s.mem
  total_le : p.totalPages ≤ maxPages
  kernelUsed : ∀ q < Pmm.firstPage k.toKernelEnd, p.bitmap.test q = true
  steady : Pmm.Steady p s.pmm
  entries : ∀ i < n, s.mem a i = 0 ∨
    ∃ q, s.mem a i = tableLink q ∧ q < 2 ^ 20 ∧ q ≠ a ∧ q ≠ k.pageDirectory
  bits : ∀ f, s.pmm.bitmap.test f = true ↔
    (f = a ∨ OwnTable k s.mem a n f) ∨ p.bitmap.test f = true
  fresh : ∀ f, f = a ∨ OwnTable k s.mem a n f → f ≠ 0 →
    f < p.totalPages ∧ p.bitmap.test f = false
  dir_ne_zero : a ≠ 0

theorem tableLink_inj {f q : ℕ} (hf : f < 2 ^ 20) (hq : q < 2 ^ 20)
    (h : tableLink f = tableLink q) : f = q := by
  have hframe := congrArg frameOf h
  rwa [frameOf_tableLink hf, frameOf_tableLink hq] at hframe

/-- A directory that gets the table `q` in entry `i`, which it did not have before. -/
theorem ownTable_link {k : KernelImage} {m m' : PageMemory} {a n n' i q : ℕ} (hi : i < n')
    (hle : n ≤ n') (hn : ∀ j < n', j ≠ i → j < n) (hold : i < n → m a i = 0) (hq : q < 2 ^ 20)
    (hkernel : q ≠ k.pageTables + i)
    (hmem : ∀ j < n', m' a j = if j = i then tableLink q else m a j) (f : ℕ) :
    OwnTable k m' a n' f ↔ f = q ∨ OwnTable k m a n f := by
  constructor
  · rintro ⟨j, hj, hlink, hlt, hne⟩
    rw [hmem j hj] at hlink
    split_ifs at hlink with hji
    · exact Or.inl (tableLink_inj hq hlt hlink).symm
    · exact Or.inr ⟨j, hn j hj hji, hlink, hlt, hne⟩
  · rintro (rfl | ⟨j, hj, hlink, hlt, hne⟩)
    · exact ⟨i, hi, (hmem i hi).trans (if_pos rfl), hq, hkernel⟩
    · have hji : j ≠ i := by
        rintro rfl
        exact tableLink_ne_zero f (hlink.symm.trans (hold hj))
      exact ⟨j, by omega, (hmem j (by omega)).trans ((if_neg hji).trans hlink), hlt, hne⟩

namespace SpaceInv

variable {k : KernelImage} {p : Pmm} {s s' : Paging} {a n n' i q : ℕ}

theorem dir_used (h : SpaceInv k p s a n) : s.pmm.bitmap.test a = true :=
  (h.bits a).mpr (Or.inl (Or.inl rfl))

theorem dir_fresh (h : SpaceInv k p s a n) : a < p.totalPages ∧ p.bitmap.test a = false :=
  h.fresh a (Or.inl rfl) h.dir_ne_zero

theorem dir_lt (h : SpaceInv k p s a n) : a < 2 ^ 20 := by
  have hlt := h.dir_fresh.1
  have htotal := h.total_le
  unfold maxPages at htotal
  omega

/-- A page that was free is none of the kernel's. -/
theorem firstPage_le (h : SpaceInv k p s a n) {f : ℕ} (hf : p.bitmap.test f = false) :
    Pmm.firstPage k.toKernelEnd ≤ f := by
  by_contra hlt
  rw [h.kernelUsed f (Nat.lt_of_not_le hlt)] at hf
  cases hf

theorem ne_isTable (h : SpaceInv k p s a n) {f t : ℕ} (hf : p.bitmap.test f = false)
    (ht : k.IsTable t) : f ≠ t := by
  have hle := h.firstPage_le hf
  have hlt := ht.lt_firstPage
  omega

/-- What the allocator finds: nothing, with every page in use, or a page that was free before the
address space was created. -/
theorem alloc_cases (h : SpaceInv k p s a n) :
    (s.pmm.available = 0 ∧ s.pmm.pmmAllocPage = (s.pmm, 0)) ∨
    ∃ q, q ≠ 0 ∧ q < p.totalPages ∧ p.bitmap.test q = false ∧ s.pmm.bitmap.test q = false ∧
      q ≠ a ∧ s.pmm.pmmAllocPage = (s.pmm.mark q, q * 4096) ∧
      (s.pmm.mark q).available + 1 = s.pmm.available := by
  have hzero : s.pmm.bitmap.test 0 = true :=
    (h.bits 0).mpr (Or.inr (h.kernelUsed 0 k.firstPage_pos))
  have htotal : s.pmm.totalPages ≤ maxPages := by
    rw [h.steady.total]
    exact h.total_le
  rcases Pmm.pmmAllocPage_available htotal hzero with hnone | ⟨q, hpos, hlt, hbit, heq, havail⟩
  · exact Or.inl hnone
  · refine Or.inr ⟨q, by omega, by rwa [h.steady.total] at hlt, ?_, hbit, ?_, heq, havail⟩
    · by_contra hp
      rw [(h.bits q).mpr (Or.inr (by simpa using hp))] at hbit
      cases hbit
    · rintro rfl
      rw [h.dir_used] at hbit
      cases hbit

/-- **A table is made**, in a page that the allocator gave. -/
theorem link (h : SpaceInv k p s a n) (hi : i < n') (hle : n ≤ n')
    (hn : ∀ j < n', j ≠ i → j < n) (hold : i < n → s.mem a i = 0) (hidx : i < 1024)
    (hlt : q < p.totalPages) (hfree : p.bitmap.test q = false)
    (hbit : s.pmm.bitmap.test q = false) (hne : q ≠ a) (hpmm : s'.pmm = s.pmm.mark q)
    (hkernel : KernelDir k s'.mem)
    (hmem : ∀ j < n', s'.mem a j = if j = i then tableLink q else s.mem a j) :
    SpaceInv k p s' a n' := by
  have htotal := h.total_le
  unfold maxPages at htotal
  have hq : q < 2 ^ 20 := by omega
  have htable : q ≠ k.pageTables + i :=
    h.ne_isTable hfree (Or.inr ⟨by omega, by omega⟩)
  have hown := ownTable_link hi hle hn hold hq htable hmem
  have hsteady : Pmm.Steady s.pmm s'.pmm := by
    rw [hpmm]
    exact Pmm.steady_mark (by rwa [h.steady.total]) hbit
  refine ⟨hkernel, h.total_le, h.kernelUsed, h.steady.trans hsteady, fun j hj => ?_, fun f => ?_,
    fun f hf hne' => ?_, h.dir_ne_zero⟩
  · rw [hmem j hj]
    split_ifs with hji
    · exact Or.inr ⟨q, rfl, hq, hne, h.ne_isTable hfree (Or.inl rfl)⟩
    · exact h.entries j (hn j hj hji)
  · rw [hpmm, Pmm.test_mark, Bool.or_eq_true, decide_eq_true_iff, h.bits, hown]
    tauto
  · rw [hown] at hf
    rcases hf with hf | rfl | hf
    · exact h.fresh f (Or.inl hf) hne'
    · exact ⟨hlt, hfree⟩
    · exact h.fresh f (Or.inr hf) hne'

/-- **Page 0 is taken for a table**, with no page left. -/
theorem linkZero (h : SpaceInv k p s a n) (hi : i < n) (hold : s.mem a i = 0)
    (hpmm : s'.pmm = s.pmm) (hkernel : KernelDir k s'.mem)
    (hmem : ∀ j < n, s'.mem a j = if j = i then tableLink 0 else s.mem a j) :
    SpaceInv k p s' a n ∧ OwnTable k s'.mem a n 0 := by
  have hge := k.tables_ge
  have hdir := k.dir_ge
  have hown := @ownTable_link k s.mem s'.mem a n n i 0 hi (le_refl n) (fun _ hj _ => hj)
    (fun _ => hold) (by norm_num) (by omega) hmem
  refine ⟨⟨hkernel, h.total_le, h.kernelUsed, ?_, fun j hj => ?_, fun f => ?_,
    fun f hf hne => ?_, h.dir_ne_zero⟩, (hown 0).mpr (Or.inl rfl)⟩
  · rw [hpmm]
    exact h.steady
  · rw [hmem j hj]
    split_ifs
    · exact Or.inr ⟨0, rfl, by norm_num, h.dir_ne_zero.symm, by omega⟩
    · exact h.entries j hj
  · rw [hpmm, h.bits, hown]
    constructor
    · rintro ((hf | hf) | hf)
      · exact Or.inl (Or.inl hf)
      · exact Or.inl (Or.inr (Or.inr hf))
      · exact Or.inr hf
    · rintro ((hf | rfl | hf) | hf)
      · exact Or.inl (Or.inl hf)
      · exact Or.inr (h.kernelUsed 0 k.firstPage_pos)
      · exact Or.inl (Or.inr hf)
      · exact Or.inr hf
  · rw [hown] at hf
    rcases hf with hf | hf | hf
    · exact h.fresh f (Or.inl hf) hne
    · exact absurd hf hne
    · exact h.fresh f (Or.inr hf) hne

/-- Changes that leave the directory and the allocator alone. -/
theorem of_same (h : SpaceInv k p s a n) (hpmm : s'.pmm = s.pmm) (hkernel : KernelDir k s'.mem)
    (hmem : ∀ j < n, s'.mem a j = s.mem a j) : SpaceInv k p s' a n := by
  have hown : ∀ f, OwnTable k s'.mem a n f ↔ OwnTable k s.mem a n f := by
    intro f
    constructor <;> rintro ⟨j, hj, hlink, hrest⟩
    · exact ⟨j, hj, (hmem j hj).symm.trans hlink, hrest⟩
    · exact ⟨j, hj, (hmem j hj).trans hlink, hrest⟩
  refine ⟨hkernel, h.total_le, h.kernelUsed, hpmm ▸ h.steady, fun j hj => ?_, fun f => ?_,
    fun f hf => ?_, h.dir_ne_zero⟩
  · rw [hmem j hj]
    exact h.entries j hj
  · rw [hpmm, h.bits, hown]
  · rw [hown] at hf
    exact h.fresh f hf

/-! ### The pages that are freed -/

theorem mem_ownFrames_iff (h : SpaceInv k p s a n) (hn : n ≤ 1024) (f : ℕ) :
    f ∈ ownFrames k s.mem a 0 n ↔ OwnTable k s.mem a n f := by
  have htables := k.tables_lt_pow
  have hkernel : ∀ j < n, frameOf (s.mem k.pageDirectory j) = k.pageTables + j := by
    intro j hj
    rw [h.kernelDir j (by omega), frameOf_tableLink (by omega)]
  rw [Paging.mem_ownFrames]
  constructor
  · rintro ⟨j, _, hj, hpresent, hne, rfl⟩
    rw [Nat.zero_add] at hj
    rcases h.entries j hj with hzero | ⟨q, hlink, hq, _⟩
    · rw [hzero] at hpresent
      cases hpresent
    · rw [hkernel j hj, hlink, frameOf_tableLink hq] at hne
      rw [hlink, frameOf_tableLink hq]
      exact ⟨j, hj, hlink, hq, hne⟩
  · rintro ⟨j, hj, hlink, hlt, hne⟩
    refine ⟨j, Nat.zero_le j, by omega, ?_, ?_, ?_⟩
    · rw [hlink]
      exact hasFlag_tableLink f
    · rwa [hkernel j hj, hlink, frameOf_tableLink hlt]
    · rw [hlink, frameOf_tableLink hlt]

/-- **Freeing the own tables and the directory** leads back to the allocator that was there
before, exactly if page 0 is not one of the tables. -/
theorem freed_iff (h : SpaceInv k p s a n) (hn : n ≤ 1024) (hused : p.usedPages < 2 ^ 32) :
    s.pmm.freeAll (ownFrames k s.mem a 0 n ++ [a]) = p ↔ ¬ OwnTable k s.mem a n 0 := by
  have hmem : ∀ f, f ∈ ownFrames k s.mem a 0 n ++ [a] ↔ f = a ∨ OwnTable k s.mem a n f := by
    intro f
    rw [List.mem_append, List.mem_singleton, h.mem_ownFrames_iff hn, or_comm]
  constructor
  · intro heq hzero
    have hpos : 0 < p.totalPages := Nat.zero_lt_of_lt h.dir_fresh.1
    have hbit := h.kernelUsed 0 k.firstPage_pos
    rw [← heq, Pmm.test_freeAll,
      decide_eq_true ⟨(hmem 0).mpr (Or.inr hzero), by rwa [h.steady.total]⟩] at hbit
    cases hbit
  · intro hzero
    refine Pmm.freeAll_restores h.steady hused (fun f hf => ?_) fun f => ?_
    · refine h.fresh f ((hmem f).mp hf) ?_
      rintro rfl
      rcases (hmem 0).mp hf with hdir | hown
      · exact h.dir_ne_zero hdir.symm
      · exact hzero hown
    · rw [Bool.eq_iff_iff, h.bits, Bool.or_eq_true, decide_eq_true_iff, hmem]

theorem destroyed_iff (h : SpaceInv k p s a 1024) (hused : p.usedPages < 2 ^ 32) :
    (s.pagingDestroyAddressSpace k (a * 4096)).pmm = p ↔ ¬ OwnTable k s.mem a 1024 0 := by
  have hdir : a ≠ k.pageDirectory := h.ne_isTable h.dir_fresh.2 (Or.inl rfl)
  rw [Paging.pagingDestroyAddressSpace_eq h.dir_ne_zero hdir]
  exact h.freed_iff (le_refl _) hused

/-! ### One call of `paging_map_user` -/

/-- **What one call does to the directory and the allocator.**  An entry that is there stays; a
missing one gets a table in a new page, or, when there is none, in page 0. -/
theorem mapUser (h : SpaceInv k p s a 1024) (virt phys flags : BitVec 32) :
    SpaceInv k p (s.pagingMapUser k (a * 4096) virt phys flags) a 1024 ∧
    ((s.mem a (pdIdx virt) ≠ 0 ∧
        (s.pagingMapUser k (a * 4096) virt phys flags).pmm = s.pmm ∧
        ∀ j < 1024, (s.pagingMapUser k (a * 4096) virt phys flags).mem a j = s.mem a j) ∨
      ∃ q, s.mem a (pdIdx virt) = 0 ∧ q < 2 ^ 20 ∧ q ≠ k.pageTables + pdIdx virt ∧
        (∀ j < 1024, (s.pagingMapUser k (a * 4096) virt phys flags).mem a j =
          if j = pdIdx virt then tableLink q else s.mem a j) ∧
        ((q = 0 ∧ s.pmm.available = 0 ∧
            (s.pagingMapUser k (a * 4096) virt phys flags).pmm = s.pmm) ∨
          (q ≠ 0 ∧ (s.pagingMapUser k (a * 4096) virt phys flags).pmm.available + 1 =
            s.pmm.available))) := by
  have hidx := pdIdx_lt virt
  have hgeT := k.tables_ge
  have hgeD := k.dir_ge
  have htables := k.tables_lt_pow
  have hdir : a ≠ k.pageDirectory := h.ne_isTable h.dir_fresh.2 (Or.inl rfl)
  have hwin : a ≠ Paging.windowTable k :=
    h.ne_isTable h.dir_fresh.2 (Or.inr ⟨by unfold Paging.windowTable; omega,
      by unfold Paging.windowTable; omega⟩)
  have hnotwin : ∀ j, ¬ Paging.IsWindow k a j := fun j hw => hwin hw.1
  have hdirwin : ∀ t, ¬ Paging.IsWindow k k.pageDirectory t := fun t hw =>
    Paging.windowTable_ne_dir hw.1.symm
  rcases h.entries _ hidx with hzero | ⟨q, hlink, hq, hqa, hqd⟩
  · have habsent : hasFlag (s.mem a (pdIdx virt)) pagePresent = false := by
      rw [hzero]
      rfl
    -- what the call writes, with the table in page `q`
    have hcall : ∀ q, q < 2 ^ 20 → q ≠ a → q ≠ k.pageDirectory →
        s.pmm.pmmAllocPage.2 = q * 4096 →
        (s.pagingMapUser k (a * 4096) virt phys flags).pmm = s.pmm.pmmAllocPage.1 ∧
        KernelDir k (s.pagingMapUser k (a * 4096) virt phys flags).mem ∧
        ∀ j < 1024, (s.pagingMapUser k (a * 4096) virt phys flags).mem a j =
          if j = pdIdx virt then tableLink q else s.mem a j := by
      intro q hq hqa hqd halloc
      obtain ⟨hpmm, hmem⟩ := Paging.mem_pagingMapUser_of_absent h.kernelDir h.dir_lt hdir hwin hq
        hqd virt phys flags habsent halloc
      refine ⟨hpmm, fun t ht => ?_, fun j _ => ?_⟩
      · rw [hmem, if_neg (hdirwin t), if_neg fun he => hqd he.1.symm,
          if_neg fun he => hdir he.1.symm, if_neg hqd.symm]
        exact h.kernelDir t ht
      · rw [hmem, if_neg (hnotwin j), if_neg fun he => hqa he.1.symm]
        by_cases hj : j = pdIdx virt
        · rw [if_pos ⟨rfl, hj⟩, if_pos hj]
        · rw [if_neg fun he => hj he.2, if_neg hqa.symm, if_neg hj]
    rcases h.alloc_cases with ⟨hnone, halloc⟩ | ⟨q, hq₀, hlt, hfree, hbit, hqa, halloc, havail⟩
    · obtain ⟨hpmm, hkernel, hmem⟩ := hcall 0 (by norm_num) h.dir_ne_zero.symm (by omega)
        (by rw [halloc])
      rw [halloc] at hpmm
      refine ⟨(h.linkZero hidx hzero hpmm hkernel hmem).1, Or.inr ⟨0, hzero, by norm_num, by omega,
        hmem, Or.inl ⟨rfl, hnone, hpmm⟩⟩⟩
    · have hqd : q ≠ k.pageDirectory := h.ne_isTable hfree (Or.inl rfl)
      have hq : q < 2 ^ 20 := by
        have htotal := h.total_le
        unfold maxPages at htotal
        omega
      obtain ⟨hpmm, hkernel, hmem⟩ := hcall q hq hqa hqd (by rw [halloc])
      rw [halloc] at hpmm
      refine ⟨h.link hidx (le_refl _) (fun _ hj _ => hj) (fun _ => hzero) hidx hlt hfree hbit hqa
        hpmm hkernel hmem, Or.inr ⟨q, hzero, hq,
          h.ne_isTable hfree (Or.inr ⟨by omega, by omega⟩), hmem, Or.inr ⟨hq₀, ?_⟩⟩⟩
      rwa [hpmm]
  · have hpresent : hasFlag (s.mem a (pdIdx virt)) pagePresent = true := by
      rw [hlink]
      exact hasFlag_tableLink q
    obtain ⟨hpmm, hmem⟩ := Paging.mem_pagingMapUser_of_present h.kernelDir h.dir_lt hdir hwin virt
      phys flags hpresent
    rw [hlink, frameOf_tableLink hq, tableLink_or_user] at hmem
    have hsame : ∀ j < 1024,
        (s.pagingMapUser k (a * 4096) virt phys flags).mem a j = s.mem a j := by
      intro j _
      rw [hmem, if_neg (hnotwin j), if_neg fun he => hqa he.1.symm]
      by_cases hj : j = pdIdx virt
      · rw [if_pos ⟨rfl, hj⟩, hj, hlink]
      · rw [if_neg fun he => hj he.2]
    have hkernel : KernelDir k (s.pagingMapUser k (a * 4096) virt phys flags).mem := by
      intro t ht
      rw [hmem, if_neg (hdirwin t), if_neg fun he => hqd he.1.symm, if_neg fun he => hdir he.1.symm]
      exact h.kernelDir t ht
    refine ⟨h.of_same hpmm hkernel hsame, Or.inl ⟨?_, hpmm, hsame⟩⟩
    rw [hlink]
    exact tableLink_ne_zero q

end SpaceInv

/-! ## A sequence of mappings -/

/-- The entries that the calls use and that the directory did not have. -/
def missingTables (m : PageMemory) (a : ℕ) (us : List UserCall) : Finset ℕ :=
  (us.map fun u => pdIdx u.virt).toFinset.filter fun i => m a i = 0

/-- After the calls `us` on the directory `a`, which was as in `s₀`: the entries that were used
are there, and each missing one took a page, until there was none and page 0 was taken. -/
structure Mapped (k : KernelImage) (s₀ s : Paging) (a : ℕ) (us : List UserCall) : Prop where
  entries : ∀ j < 1024, s.mem a j = 0 ↔ s₀.mem a j = 0 ∧ j ∉ us.map fun u => pdIdx u.virt
  pages : (¬ OwnTable k s.mem a 1024 0 ∧
      s.pmm.available + (missingTables s₀.mem a us).card = s₀.pmm.available) ∨
    (OwnTable k s.mem a 1024 0 ∧ s₀.pmm.available < (missingTables s₀.mem a us).card)

theorem missingTables_concat {m : PageMemory} {a : ℕ} {us : List UserCall} {u : UserCall} :
    missingTables m a (us ++ [u]) =
      if m a (pdIdx u.virt) = 0 then insert (pdIdx u.virt) (missingTables m a us)
      else missingTables m a us := by
  ext i
  unfold missingTables
  split_ifs with hzero
  · simp only [Finset.mem_filter, List.mem_toFinset, List.map_append, List.mem_append,
      List.map_cons, List.map_nil, List.mem_singleton, Finset.mem_insert]
    constructor
    · rintro ⟨hi | hi, hm⟩
      · exact Or.inr ⟨hi, hm⟩
      · exact Or.inl hi
    · rintro (rfl | ⟨hi, hm⟩)
      · exact ⟨Or.inr rfl, hzero⟩
      · exact ⟨Or.inl hi, hm⟩
  · simp only [Finset.mem_filter, List.mem_toFinset, List.map_append, List.mem_append,
      List.map_cons, List.map_nil, List.mem_singleton]
    constructor
    · rintro ⟨hi | rfl, hm⟩
      · exact ⟨hi, hm⟩
      · exact absurd hm hzero
    · rintro ⟨hi, hm⟩
      exact ⟨Or.inl hi, hm⟩

namespace SpaceInv

variable {k : KernelImage} {p : Pmm} {s s' : Paging} {a n n' i q : ℕ}

/-- **Every sequence of calls** keeps the account and counts the tables. -/
theorem mapUserAll (h : SpaceInv k p s a 1024) (hzero : ¬ OwnTable k s.mem a 1024 0)
    (us : List UserCall) : SpaceInv k p (Paging.mapUserAll k s (a * 4096) us) a 1024 ∧
      Mapped k s (Paging.mapUserAll k s (a * 4096) us) a us := by
  induction us using List.reverseRecOn with
  | nil =>
    refine ⟨h, fun j _ => ⟨fun hj => ⟨hj, List.not_mem_nil⟩, fun hj => hj.1⟩, Or.inl ⟨hzero, ?_⟩⟩
    rfl
  | append_singleton us u ih =>
    obtain ⟨hinv, hentries, hpages⟩ := ih
    set t := Paging.mapUserAll k s (a * 4096) us with ht
    have hcall : Paging.mapUserAll k s (a * 4096) (us ++ [u]) =
        t.pagingMapUser k (a * 4096) u.virt u.phys u.flags := by
      unfold Paging.mapUserAll at ht ⊢
      rw [List.foldl_append, ← ht]
      rfl
    have hidx := pdIdx_lt u.virt
    have hmemConcat : ∀ j, j ∉ (us ++ [u]).map (fun u => pdIdx u.virt) ↔
        j ∉ us.map (fun u => pdIdx u.virt) ∧ j ≠ pdIdx u.virt := by
      intro j
      rw [List.map_append, List.mem_append, not_or]
      simp
    rw [hcall]
    obtain ⟨hinv', hcases⟩ := hinv.mapUser u.virt u.phys u.flags
    refine ⟨hinv', ?_⟩
    rcases hcases with ⟨hpresent, hpmm, hsame⟩ | ⟨q, hold, hq, hkernel, hmem, hpage⟩
    · -- the entry was there, and so it is not missing or was used before
      have hown : OwnTable k (t.pagingMapUser k (a * 4096) u.virt u.phys u.flags).mem a 1024 0 ↔
          OwnTable k t.mem a 1024 0 := by
        constructor <;> rintro ⟨j, hj, hlink, hrest⟩
        · exact ⟨j, hj, (hsame j hj).symm.trans hlink, hrest⟩
        · exact ⟨j, hj, (hsame j hj).trans hlink, hrest⟩
      have hmissing : missingTables s.mem a (us ++ [u]) = missingTables s.mem a us := by
        rw [missingTables_concat]
        split_ifs with hm
        · refine Finset.insert_eq_of_mem (Finset.mem_filter.mpr ⟨?_, hm⟩)
          rw [List.mem_toFinset]
          by_contra hnot
          exact hpresent ((hentries _ hidx).mpr ⟨hm, hnot⟩)
        · rfl
      refine ⟨fun j hj => ?_, ?_⟩
      · rw [hsame j hj, hentries j hj, hmemConcat]
        refine and_congr_right fun hm => ⟨fun hnot => ⟨hnot, ?_⟩, fun hnot => hnot.1⟩
        rintro rfl
        exact hpresent ((hentries _ hidx).mpr ⟨hm, hnot⟩)
      · rwa [hpmm, hown, hmissing]
    · -- the entry was missing, and gets the table `q`
      have hown := @ownTable_link k t.mem _ a 1024 1024 _ q hidx (le_refl _) (fun _ hj _ => hj)
        (fun _ => hold) hq hkernel hmem 0
      obtain ⟨hm, hnot⟩ := (hentries _ hidx).mp hold
      have hmissing : (missingTables s.mem a (us ++ [u])).card =
          (missingTables s.mem a us).card + 1 := by
        rw [missingTables_concat, if_pos hm]
        refine Finset.card_insert_of_notMem fun hin => hnot ?_
        exact List.mem_toFinset.mp (Finset.mem_filter.mp hin).1
      refine ⟨fun j hj => ?_, ?_⟩
      · rw [hmem j hj, hmemConcat]
        split_ifs with hj'
        · exact iff_of_false (tableLink_ne_zero q) fun hn => hn.2.2 hj'
        · rw [hentries j hj]
          exact and_congr_right fun _ => ⟨fun hn => ⟨hn, hj'⟩, fun hn => hn.1⟩
      · rw [hown, hmissing]
        rcases hpage with ⟨rfl, hnone, hpmm⟩ | ⟨hq₀, havail⟩
        · refine Or.inr ⟨Or.inl rfl, ?_⟩
          rcases hpages with ⟨_, hcount⟩ | ⟨_, hcount⟩ <;> omega
        · rcases hpages with ⟨hno, hcount⟩ | ⟨hyes, hcount⟩
          · refine Or.inl ⟨?_, by omega⟩
            rintro (hq | hyes)
            · exact hq₀ hq.symm
            · exact hno hyes
          · exact Or.inr ⟨Or.inr hyes, by omega⟩

/-- **The end of an address space.**  The allocator is as before exactly if there was a page for
every missing table. -/
theorem restored_iff (h : SpaceInv k p s a 1024) (hzero : ¬ OwnTable k s.mem a 1024 0)
    (hused : p.usedPages < 2 ^ 32) (us : List UserCall) :
    ((Paging.mapUserAll k s (a * 4096) us).pagingDestroyAddressSpace k (a * 4096)).pmm = p ↔
      (missingTables s.mem a us).card ≤ s.pmm.available := by
  obtain ⟨hinv, hmapped⟩ := h.mapUserAll hzero us
  rw [hinv.destroyed_iff hused]
  rcases hmapped.pages with ⟨hno, hcount⟩ | ⟨hyes, hcount⟩
  · exact iff_of_true hno (by omega)
  · exact iff_of_false (not_not.mpr hyes) (by omega)

/-! ## Address spaces are created -/

/-- A page for a directory. -/
theorem create (hready : KernelReady k s) (hzero : s.pmm.bitmap.test 0 = true) {q : ℕ}
    (hq₀ : q ≠ 0) (hlt : q < s.pmm.totalPages) (hbit : s.pmm.bitmap.test q = false) :
    SpaceInv k s.pmm ⟨s.mem, s.pmm.mark q⟩ q 0 := by
  have hnone : ∀ f, ¬ OwnTable k s.mem q 0 f := by
    rintro f ⟨j, hj, _⟩
    omega
  refine ⟨hready.kernelDir, hready.total_le, fun f hf => ?_, Pmm.steady_mark hlt hbit,
    fun j hj => by omega, fun f => ?_, fun f hf _ => ?_, hq₀⟩
  · rcases Nat.eq_zero_or_pos f with rfl | hpos
    · exact hzero
    · exact hready.kernelUsed f hpos hf
  · rw [Pmm.test_mark, Bool.or_eq_true, decide_eq_true_iff]
    exact or_congr_left (or_iff_left (hnone f)).symm
  · rcases hf with rfl | hf
    · exact ⟨hlt, hbit⟩
    · exact absurd hf (hnone f)

/-- The directory of an isolated space has no tables of its own. -/
theorem isolated (h : SpaceInv k p s a 0) (hpmm : s'.pmm = s.pmm)
    (hkernel : KernelDir k s'.mem)
    (hmem : ∀ j < 1024, s'.mem a j = if 256 ≤ j ∧ j < 768 then 0 else s.mem k.pageDirectory j) :
    SpaceInv k p s' a 1024 ∧ ∀ f, ¬ OwnTable k s'.mem a 1024 f := by
  have htables := k.tables_lt_pow
  have hgeT := k.tables_ge
  have hentry : ∀ j < 1024, s'.mem a j = 0 ∨ s'.mem a j = tableLink (k.pageTables + j) := by
    intro j hj
    rw [hmem j hj]
    split_ifs
    · exact Or.inl rfl
    · exact Or.inr (h.kernelDir j hj)
  have hnone : ∀ f, ¬ OwnTable k s'.mem a 1024 f := by
    rintro f ⟨j, hj, hlink, hlt, hne⟩
    rcases hentry j hj with hzero | hshared
    · exact tableLink_ne_zero f (hlink.symm.trans hzero)
    · exact hne (tableLink_inj hlt (by omega) (hlink.symm.trans hshared))
  have hold : ∀ f, ¬ OwnTable k s.mem a 0 f := by
    rintro f ⟨j, hj, _⟩
    omega
  refine ⟨⟨hkernel, h.total_le, h.kernelUsed, hpmm ▸ h.steady, fun j hj => ?_, fun f => ?_,
    fun f hf hne => ?_, h.dir_ne_zero⟩, hnone⟩
  · rcases hentry j hj with hz | hshared
    · exact Or.inl hz
    · exact Or.inr ⟨_, hshared, by omega, (h.ne_isTable h.dir_fresh.2
        (Or.inr ⟨by omega, by omega⟩)).symm, k.table_ne_dir hj⟩
  · rw [hpmm, h.bits]
    exact or_congr_left (or_congr_right (iff_of_false (hold f) (hnone f)))
  · rcases hf with rfl | hf
    · exact h.dir_fresh
    · exact absurd hf (hnone f)

/-- The first `n` entries lead to new tables. -/
def Cloned (k : KernelImage) (m : PageMemory) (a n : ℕ) : Prop :=
  ∀ j < n, ∃ q, m a j = tableLink q ∧ q < 2 ^ 20 ∧ Pmm.firstPage k.toKernelEnd ≤ q

theorem Cloned.not_ownTable_zero {m : PageMemory} (h : Cloned k m a n) :
    ¬ OwnTable k m a n 0 := by
  rintro ⟨j, hj, hlink, hlt, _⟩
  obtain ⟨q, hlink', hq, hfirst⟩ := h j hj
  have hzero := tableLink_inj hlt hq (hlink.symm.trans hlink')
  have hpos := k.firstPage_pos
  omega

/-- With entries of its own only, the directory is undone as it would be destroyed. -/
theorem undoLoop_eq {pd j n : ℕ} (h : ∀ i, j ≤ i → i < j + n →
    frameOf (s.mem (pd / 4096) i) ≠ frameOf (s.mem k.pageDirectory i)) :
    Paging.undoLoop pd s j n = Paging.destroyLoop k pd s j n := by
  induction n generalizing s j with
  | zero => rfl
  | succ n ih =>
    have hj := h j (le_refl j) (by omega)
    have hstep : ∀ s' : Paging, s'.mem = s.mem →
        Paging.undoLoop pd s' (j + 1) n = Paging.destroyLoop k pd s' (j + 1) n := by
      intro s' hs'
      refine ih fun i h₁ h₂ => ?_
      rw [hs']
      exact h i (by omega) (by omega)
    unfold Paging.undoLoop Paging.destroyLoop
    dsimp only
    split_ifs with hpresent hboth hboth
    · exact hstep _ rfl
    · exact absurd ⟨hpresent, hj⟩ hboth
    · exact absurd hboth.1 hpresent
    · exact hstep _ rfl

/-- **The loop of `paging_create_address_space`**: it gives up with everything as before, or
every entry has a new table. -/
theorem cloneLoop (h : SpaceInv k p s a i) (hcloned : Cloned k s.mem a i)
    (hused : p.usedPages < 2 ^ 32) {n : ℕ} (hn : i + n = 1024) :
    ((Paging.cloneLoop k (a * 4096) s i n).2 = 0 ∧
      (Paging.cloneLoop k (a * 4096) s i n).1.pmm = p) ∨
    ((Paging.cloneLoop k (a * 4096) s i n).2 = a * 4096 ∧
      SpaceInv k p (Paging.cloneLoop k (a * 4096) s i n).1 a 1024 ∧
      Cloned k (Paging.cloneLoop k (a * 4096) s i n).1.mem a 1024) := by
  have hgeT := k.tables_ge
  have htables := k.tables_lt_pow
  have hpage : a * 4096 / 4096 = a := Nat.mul_div_cancel a (by norm_num)
  induction n generalizing s i with
  | zero =>
    obtain rfl : i = 1024 := by omega
    exact Or.inr ⟨rfl, h, hcloned⟩
  | succ n ih =>
    have hpresent : hasFlag (s.mem k.pageDirectory i) pagePresent = true := by
      rw [h.kernelDir i (by omega)]
      exact hasFlag_tableLink _
    have hdir : a ≠ k.pageDirectory := h.ne_isTable h.dir_fresh.2 (Or.inl rfl)
    unfold Paging.cloneLoop
    rw [if_neg (by rw [hpresent]; exact fun he => by cases he)]
    dsimp only
    rcases h.alloc_cases with ⟨_, halloc⟩ | ⟨q, hq₀, hlt, hfree, hbit, hqa, halloc, _⟩
    · -- no page is left, and what was taken goes back
      rw [halloc, if_pos rfl]
      refine Or.inl ⟨rfl, ?_⟩
      have hundo : Paging.undoLoop (a * 4096) s 0 i = Paging.destroyLoop k (a * 4096) s 0 i := by
        refine undoLoop_eq fun j _ hj => ?_
        obtain ⟨q, hlink, hq, hfirst⟩ := hcloned j (by omega)
        have hkernel : k.IsTable (k.pageTables + j) := Or.inr ⟨by omega, by omega⟩
        have hlt := hkernel.lt_firstPage
        rw [hpage, hlink, h.kernelDir j (by omega), frameOf_tableLink hq,
          frameOf_tableLink (by omega)]
        omega
      show (Paging.undoLoop (a * 4096) ⟨s.mem, s.pmm⟩ 0 i).pmm.pmmFreePage (a * 4096) = p
      rw [show (⟨s.mem, s.pmm⟩ : Paging) = s from rfl, hundo, Paging.destroyLoop_eq, hpage]
      have hfreed := (h.freed_iff (by omega) hused).mpr hcloned.not_ownTable_zero
      rwa [Pmm.freeAll_append] at hfreed
    · rw [halloc, if_neg (by dsimp only; omega)]
      dsimp only
      rw [Nat.mul_div_cancel q (by norm_num), hpage]
      have hq : q < 2 ^ 20 := by
        have htotal := h.total_le
        unfold maxPages at htotal
        omega
      have hfirst := h.firstPage_le hfree
      have hqd : q ≠ k.pageDirectory := h.ne_isTable hfree (Or.inl rfl)
      have hlinkEq : BitVec.ofNat 32 (q * 4096) ||| pagePresent ||| pageWrite ||| pageUser =
          tableLink q := rfl
      rw [hlinkEq]
      set s' := (Paging.cloneTable k ⟨s.mem, s.pmm.mark q⟩ i q).store a i (tableLink q) with hs'
      have hold : ∀ f j, f ≠ q → ¬ (f = a ∧ j = i) → s'.mem f j = s.mem f j := by
        intro f j hfq hfa
        rw [hs', Paging.store_other _ _ hfa]
        exact if_neg fun he => hfq he.1
      have hmem : ∀ j < i + 1, s'.mem a j = if j = i then tableLink q else s.mem a j := by
        intro j _
        split_ifs with hj
        · rw [hs', hj, Paging.store_same]
        · exact hold a j hqa.symm fun he => hj he.2
      have hkernel : KernelDir k s'.mem := fun t ht =>
        (hold _ t hqd.symm fun he => hdir he.1.symm).trans (h.kernelDir t ht)
      refine ih (h.link (Nat.lt_succ_self i) (Nat.le_succ i) (fun j hj hji => by omega)
        (fun hi => absurd hi (lt_irrefl i)) (by omega) hlt hfree hbit hqa rfl hkernel hmem)
        (fun j hj => ?_) (by omega)
      rw [hmem j hj]
      split_ifs with hji
      · exact ⟨q, rfl, hq, hfirst⟩
      · exact hcloned j (by omega)

end SpaceInv

/-! ## The account of an address space -/

namespace KernelReady

variable {k : KernelImage} {s : Paging}

/-- After `pmm_init` and `paging_init`. -/
theorem boot (k : KernelImage) (m : PageMemory) (pmmKb memKb : ℕ) :
    KernelReady k ⟨pagingInit k m memKb, Pmm.pmmInit k.toKernelEnd pmmKb⟩ := by
  have hinv := AddressSpaces.Inv.init k m pmmKb memKb
  have hcounted := (PageClient.inv_init k.toKernelEnd pmmKb).counted
  refine ⟨hinv.kernelDir, hinv.total_le, hinv.linked.kernelUsed, ?_⟩
  have hlt := hcounted.used_lt
  unfold maxPages at hlt
  exact lt_of_le_of_lt hlt (by norm_num)

/-- Creating an address space when the allocator returns `NULL`. -/
theorem createSpace_of_null (hnull : s.pmm.pmmAllocPage.2 = 0) (kind : SpaceKind) :
    s.createSpace k kind = (⟨s.mem, s.pmm.pmmAllocPage.1⟩, 0) := by
  cases kind with
  | addressSpace =>
    unfold Paging.createSpace Paging.pagingCreateAddressSpace
    dsimp only
    rw [if_pos hnull]
  | isolated =>
    unfold Paging.createSpace Paging.pagingCreateIsolatedSpace
    dsimp only
    rw [if_pos hnull]

theorem accounted_of_null (hnull : s.pmm.pmmAllocPage = (s.pmm, 0)) (kind : SpaceKind)
    (us : List UserCall) : Accounted k s kind us := by
  have hcreate := @createSpace_of_null k s (by rw [hnull]) kind
  unfold Accounted
  rw [hcreate, hnull]
  exact ⟨fun _ => rfl, fun hne => absurd rfl hne⟩

/-- Page 0 is free: it is found first, and its address is `NULL`. -/
theorem not_accounted_of_zero_free (hready : KernelReady k s) (hpos : 0 < s.pmm.totalPages)
    (hfree : s.pmm.bitmap.test 0 = false) (kind : SpaceKind) (us : List UserCall) :
    ¬ Accounted k s kind us := by
  have halloc : s.pmm.pmmAllocPage = (s.pmm.mark 0, 0) := by
    rcases Pmm.pmmAllocPage_cases hready.total_le with ⟨hall, _⟩ | ⟨q, _, _, hfirst, heq⟩
    · rw [hall 0 hpos] at hfree
      cases hfree
    · obtain rfl : q = 0 := by
        by_contra hq
        rw [hfirst 0 (Nat.pos_of_ne_zero hq)] at hfree
        cases hfree
      rw [heq, Nat.zero_mul]
  intro hacc
  have hcreate := @createSpace_of_null k s (by rw [halloc]) kind
  unfold Accounted at hacc
  rw [hcreate, halloc] at hacc
  have hbit : (s.pmm.mark 0).bitmap.test 0 = s.pmm.bitmap.test 0 :=
    congrArg (fun p : Pmm => p.bitmap.test 0) (hacc.1 rfl)
  rw [hfree, Pmm.test_mark] at hbit
  simp at hbit

/-- Isolated spaces: there must be a page for every table that the calls need. -/
theorem accounted_isolated_iff (hready : KernelReady k s) (hzero : s.pmm.bitmap.test 0 = true)
    (us : List UserCall) : Accounted k s .isolated us ↔
      s.pmm.available = 0 ∨ (neededTables us).card + 1 ≤ s.pmm.available := by
  rcases Pmm.pmmAllocPage_available hready.total_le hzero with ⟨hnone, halloc⟩ |
      ⟨q, hpos, hlt, hbit, halloc, havail⟩
  · exact iff_of_true (accounted_of_null halloc _ us) (Or.inl hnone)
  · have hnew := SpaceInv.create hready hzero (Nat.ne_of_gt hpos) hlt hbit
    have hdir : k.pageDirectory ≠ q :=
      (hnew.ne_isTable hbit (Or.inl rfl)).symm
    have hcreate : s.createSpace k .isolated = (⟨fun f i => if f = q ∧ i < 1024 then
        if 256 ≤ i ∧ i < 768 then 0 else s.mem k.pageDirectory i else s.mem f i, s.pmm.mark q⟩,
        q * 4096) := by
      unfold Paging.createSpace Paging.pagingCreateIsolatedSpace
      simp only [halloc]
      rw [if_neg (by omega), Nat.mul_div_cancel q (by norm_num)]
    unfold Accounted
    rw [hcreate]
    dsimp only
    set s' : Paging := ⟨fun f i => if f = q ∧ i < 1024 then
        if 256 ≤ i ∧ i < 768 then 0 else s.mem k.pageDirectory i else s.mem f i, s.pmm.mark q⟩
      with hs'
    have hentry : ∀ j < 1024, s'.mem q j =
        if 256 ≤ j ∧ j < 768 then 0 else s.mem k.pageDirectory j := fun j hj => if_pos ⟨rfl, hj⟩
    have hkernel : KernelDir k s'.mem := fun t ht =>
      (if_neg fun he => hdir he.1).trans (hready.kernelDir t ht)
    have hpmm : s'.pmm = (Paging.mk s.mem (s.pmm.mark q)).pmm := rfl
    obtain ⟨hinv, hnone⟩ := hnew.isolated hpmm hkernel hentry
    have hmissing : missingTables s'.mem q us = neededTables us := by
      apply Finset.filter_congr
      intro i hi
      obtain ⟨u, _, rfl⟩ := List.mem_map.mp (List.mem_toFinset.mp hi)
      rw [hentry _ (pdIdx_lt u.virt)]
      split_ifs with hpriv
      · exact iff_of_true rfl hpriv
      · refine iff_of_false ?_ hpriv
        rw [hready.kernelDir _ (pdIdx_lt u.virt)]
        exact tableLink_ne_zero _
    have hpages : s'.pmm.available + 1 = s.pmm.available := havail
    have hne : q * 4096 ≠ 0 := by omega
    rw [hinv.restored_iff (hnone 0) hready.used_lt us, hmissing]
    constructor
    · rintro ⟨_, hcard⟩
      have := hcard hne
      omega
    · intro hcard
      exact ⟨fun he => absurd he hne, fun _ => by omega⟩

/-- Cloned spaces need no page for a mapping. -/
theorem accounted_addressSpace (hready : KernelReady k s) (hzero : s.pmm.bitmap.test 0 = true)
    (us : List UserCall) : Accounted k s .addressSpace us := by
  rcases Pmm.pmmAllocPage_available hready.total_le hzero with ⟨hnone, halloc⟩ |
      ⟨q, hpos, hlt, hbit, halloc, _⟩
  · exact accounted_of_null halloc _ us
  · have hnew := SpaceInv.create hready hzero (Nat.ne_of_gt hpos) hlt hbit
    have hcreate : s.createSpace k .addressSpace =
        Paging.cloneLoop k (q * 4096) ⟨s.mem, s.pmm.mark q⟩ 0 1024 := by
      unfold Paging.createSpace Paging.pagingCreateAddressSpace
      simp only [halloc]
      rw [if_neg (by omega)]
    have hcloned : SpaceInv.Cloned k s.mem q 0 := fun j hj => absurd hj (Nat.not_lt_zero j)
    unfold Accounted
    rw [hcreate]
    rcases hnew.cloneLoop hcloned hready.used_lt (Nat.zero_add 1024) with ⟨hnull, hpmm⟩ |
        ⟨haddr, hinv, hall⟩
    · exact ⟨fun _ => hpmm, fun hne => absurd hnull hne⟩
    · rw [haddr]
      refine ⟨fun he => absurd he (by omega), fun _ => ?_⟩
      rw [hinv.restored_iff hall.not_ownTable_zero hready.used_lt us]
      have hmissing : missingTables (Paging.cloneLoop k (q * 4096) ⟨s.mem, s.pmm.mark q⟩ 0
          1024).1.mem q us = ∅ := by
        refine Finset.filter_eq_empty_iff.mpr fun i hi hz => ?_
        obtain ⟨u, _, rfl⟩ := List.mem_map.mp (List.mem_toFinset.mp hi)
        obtain ⟨t, hlink, _⟩ := hall _ (pdIdx_lt u.virt)
        exact tableLink_ne_zero t (hlink.symm.trans hz)
      rw [hmissing]
      exact Nat.zero_le _

end KernelReady

/-- **When the pages are accounted for.**  Exactly when page 0 is in use, or the allocator has no
pages at all, and an isolated space either cannot be created or finds a page for each table that
its mappings need. -/
theorem accounted_iff {k : KernelImage} {s : Paging} (hready : KernelReady k s)
    (kind : SpaceKind) (us : List UserCall) :
    Accounted k s kind us ↔
      (s.pmm.totalPages = 0 ∨ s.pmm.bitmap.test 0 = true) ∧
      (kind = .isolated →
        s.pmm.available = 0 ∨ (neededTables us).card + 1 ≤ s.pmm.available) := by
  cases hbit : s.pmm.bitmap.test 0 with
  | true =>
    cases kind with
    | addressSpace =>
      exact iff_of_true (hready.accounted_addressSpace hbit us) ⟨Or.inr rfl, fun he => by cases he⟩
    | isolated =>
      rw [hready.accounted_isolated_iff hbit us]
      exact ⟨fun h => ⟨Or.inr rfl, fun _ => h⟩, fun h => h.2 rfl⟩
  | false =>
    rcases Nat.eq_zero_or_pos s.pmm.totalPages with htotal | hpos
    · have halloc : s.pmm.pmmAllocPage = (s.pmm, 0) := by
        unfold Pmm.pmmAllocPage
        rw [htotal]
        rfl
      have havail : s.pmm.available = 0 := by
        unfold Pmm.available
        rw [hbit]
        rfl
      exact iff_of_true (KernelReady.accounted_of_null halloc kind us)
        ⟨Or.inl htotal, fun _ => Or.inl havail⟩
    · refine iff_of_false (hready.not_accounted_of_zero_free hpos hbit kind us) ?_
      rintro ⟨htotal | htrue, _⟩
      · omega
      · cases htrue

open AddressSpaces (smallImage)

/-- A small machine with `n` pages behind the kernel. -/
def smallMachine (n : ℕ) : Paging :=
  ⟨pagingInit smallImage (fun _ _ => 0) 5200, Pmm.pmmInit smallImage.toKernelEnd (5124 + 4 * n)⟩

/-- Two pages are enough for an isolated space with one table. -/
theorem accounted_two_pages :
    Accounted smallImage (smallMachine 2) .isolated [⟨0x40000000#32, 0x514000#32, 7#32⟩] :=
  (accounted_iff (KernelReady.boot smallImage _ 5132 5200) _ _).mpr (by decide +kernel)

/-- With one page left, an isolated space is created, and its first table is page 0, which is
freed with it. -/
theorem page_zero_freed :
    ¬ Accounted smallImage (smallMachine 1) .isolated [⟨0x40000000#32, 0x514000#32, 7#32⟩] := by
  have hready : KernelReady smallImage (smallMachine 1) :=
    KernelReady.boot smallImage _ 5128 5200
  rw [hready.accounted_isolated_iff (by decide +kernel)]
  decide +kernel

end Microkernel

/-
# What a load takes and gives back

`elf_load` takes a page for the directory, pages for the segments and the stack, tables, a
kernel stack from the heap and a slot of the task table.  On failure, and when the task ends,
`paging_destroy_address_space` gives back the directory and the tables made for it.  It does
not give back the pages that are mapped, and nobody else does: a load conserves memory
exactly if it ends before it has mapped a page.
-/
import Microkernel.ElfReads

namespace Microkernel

open AddressSpaces (Private)

namespace Loader

variable (k : KernelImage) (f : ElfFile)

/-! ## The end of a task -/

/-- `kfree(ptr)`. -/
def kfree (l : Loader) (ptr : ℕ) : Option Loader :=
  (l.heap.kfree ptr).map fun r => { l with heap := r.1 }

/-- What `task_exit` and `task_kill` give back for a task: the user stack if it is on the
heap, the kernel stack and the address space. -/
def releaseTask (l : Loader) (t : Task) : Option Loader :=
  (if t.stackBase ≠ 0 ∧ t.stackBase < 0x40000000 then l.kfree t.stackBase.toNat else some l).bind
    fun l => (if t.kernelStackBase ≠ 0 then l.kfree t.kernelStackBase.toNat else some l).bind
      fun l => some (if t.pageDirectory ≠ 0 then l.destroy k t.pageDirectory.toNat else l)

/-- `task_exit`, up to the switch to another task. -/
def taskExit (l : Loader) : Option Loader :=
  if l.kernel.currentTask = 0 then some l
  else (l.releaseTask k l.kernel.current).map fun l' => { l' with kernel := l.kernel.taskExit.1 }

/-- `task_kill`. -/
def taskKill (l : Loader) (id : UInt32) : Option Loader :=
  match l.kernel.killSlot id with
  | none => some l
  | some i =>
    (l.releaseTask k (l.kernel.tasks i)).map fun l' => { l' with kernel := l.kernel.taskKill id }

/-! ## Conservation -/

/-- Every page that was free before is free, and no more of the heap is used. -/
def Returned (before after : Loader) : Prop :=
  (∀ q < before.paging.pmm.totalPages, before.paging.pmm.bitmap.test q = false →
    after.paging.pmm.bitmap.test q = false) ∧
  after.heap.heapUsedSpace = before.heap.heapUsedSpace

/-- The task in slot `i` of `kernel` has the memory that the loader gave it. -/
def SameMemory (loaded kernel : Kernel) (i : Slot) : Prop :=
  (kernel.tasks i).stackBase = (loaded.tasks i).stackBase ∧
  (kernel.tasks i).kernelStackBase = (loaded.tasks i).kernelStackBase ∧
  (kernel.tasks i).pageDirectory = (loaded.tasks i).pageDirectory

/-- **A load conserves memory**: if it fails, the bitmap, the heap and the task table are as
before; if it makes a task in slot `i`, then `task_exit` by that task and `task_kill` of it, in
any later state of the kernel but with no allocation in between, return all that was taken. -/
def Conserves (args : Args) (l : Loader) : Prop :=
  match elfLoad k f args l with
  | (l', .failed _) =>
    l'.paging.pmm.bitmap = l.paging.pmm.bitmap ∧ l'.heap = l.heap ∧
      l'.kernel.tasks = l.kernel.tasks
  | (l', .pid p) => ∀ i, l.kernel.freeSlot = some i → ∀ later, SameMemory l'.kernel later i →
      (later.currentTask = i → ∃ l'', taskExit k { l' with kernel := later } = some l'' ∧
        l.Returned l'') ∧
      (later.killSlot p = some i → ∃ l'', taskKill k { l' with kernel := later } p = some l'' ∧
        l.Returned l'')
  | (_, .lost) => True

end Loader

/-- Header `i` is passed over or is a segment without pages. -/
def ElfFile.Light (f : ElfFile) (i : ℕ) : Prop :=
  f.Skipped i ∨ f.Accepted i ∧ (f.phdr i).numPages = 0

/-- One of the `n` headers from `i` on is refused, and those before it need no page. -/
def ElfFile.RefusedFrom (f : ElfFile) (i n : ℕ) : Prop :=
  ∃ j, i ≤ j ∧ j < i + n ∧ (∀ j', i ≤ j' → j' < j → f.Light j') ∧ ¬ f.Skipped j ∧ ¬ f.Accepted j

/-- The loader refuses a segment of the file before any page is mapped. -/
def ElfFile.RefusedEarly (f : ElfFile) : Prop := f.RefusedFrom 0 f.phnum

/-! ## Destroying an address space -/

namespace Paging

variable {k : KernelImage} {pd : ℕ} {s : Paging} {i n : ℕ}

/-- The loop goes on with entry `i` alone. -/
theorem destroyLoop_succ : destroyLoop k pd s i (n + 1) = destroyLoop k pd
    (if hasFlag (s.mem (pd / 4096) i) pagePresent = true ∧
        frameOf (s.mem (pd / 4096) i) ≠ frameOf (s.mem k.pageDirectory i) then
      { s with pmm := s.pmm.pmmFreePage (frameOf (s.mem (pd / 4096) i) * 4096) } else s) (i + 1) n :=
  rfl

/-- Where there is no table to free, nothing changes. -/
theorem destroyLoop_of_none (h : ∀ j, i ≤ j → j < i + n →
    hasFlag (s.mem (pd / 4096) j) pagePresent = true →
      frameOf (s.mem (pd / 4096) j) = frameOf (s.mem k.pageDirectory j)) :
    destroyLoop k pd s i n = s := by
  induction n generalizing i with
  | zero => rfl
  | succ n ih =>
    rw [destroyLoop_succ, if_neg fun hfree => hfree.2 (h i (le_refl i) (by omega) hfree.1)]
    exact ih fun j h₁ h₂ => h j (by omega) (by omega)

/-- A page that is not one of the tables stays in use. -/
theorem destroyLoop_test {q : ℕ} (h : ∀ j, i ≤ j → j < i + n →
    hasFlag (s.mem (pd / 4096) j) pagePresent = true →
      frameOf (s.mem (pd / 4096) j) = frameOf (s.mem k.pageDirectory j) ∨
        frameOf (s.mem (pd / 4096) j) ≠ q) (hq : s.pmm.bitmap.test q = true) :
    (destroyLoop k pd s i n).pmm.bitmap.test q = true := by
  induction n generalizing s i with
  | zero => exact hq
  | succ n ih =>
    rw [destroyLoop_succ]
    by_cases hfree : hasFlag (s.mem (pd / 4096) i) pagePresent = true ∧
        frameOf (s.mem (pd / 4096) i) ≠ frameOf (s.mem k.pageDirectory i)
    · rw [if_pos hfree]
      have hne := (h i (le_refl i) (by omega) hfree.1).resolve_left hfree.2
      refine ih (fun j h₁ h₂ => h j (by omega) (by omega)) ?_
      exact Pmm.test_pmmFreePage_of_ne hne.symm hq
    · rw [if_neg hfree]
      exact ih (fun j h₁ h₂ => h j (by omega) (by omega)) hq

end Paging

/-! ## A page that stays in use -/

/-- The state of a load that has mapped the page `q`: the entries of the directory lead to the
kernel's tables or to tables of its own, and none of these is `q`. -/
structure Holding (k : KernelImage) (a q : ℕ) (s : Paging) : Prop extends Loading k a s where
  used : s.pmm.bitmap.test q = true
  ne : q ≠ a
  ne_zero : q ≠ 0
  own : ∀ i, Private i → s.mem a i = 0 ∨
    ∃ t < 2 ^ 20, s.mem a i = tableLink t ∧ t ≠ a ∧ t ≠ q ∧ ¬ k.IsTable t

namespace Holding

variable {k : KernelImage} {a q : ℕ} {s : Paging}

/-- `paging_destroy_address_space` leaves the page in use. -/
theorem destroy (h : Holding k a q s) :
    (s.pagingDestroyAddressSpace k (a * 4096)).pmm.bitmap.test q = true := by
  have hdiv : a * 4096 / 4096 = a := Nat.mul_div_cancel a (by norm_num)
  have hloop : (Paging.destroyLoop k (a * 4096) s 0 1024).pmm.bitmap.test q = true := by
    apply Paging.destroyLoop_test _ h.used
    intro j _ hj hpresent
    rw [hdiv] at hpresent ⊢
    by_cases hpriv : Private j
    · rcases h.own j hpriv with hzero | ⟨t, ht, hlink, _, htq, _⟩
      · rw [hzero] at hpresent
        exact absurd hpresent (by decide)
      · rw [hlink, frameOf_tableLink ht]
        exact Or.inr htq
    · rw [h.shared j (by omega) hpriv, h.kernelDir j (by omega)]
      exact Or.inl rfl
  unfold Paging.pagingDestroyAddressSpace
  generalize Paging.destroyLoop k (a * 4096) s 0 1024 = s' at hloop ⊢
  split_ifs
  · exact h.used
  · exact Pmm.test_pmmFreePage_of_ne h.ne hloop

/-- Taking another page keeps the state. -/
theorem mark (h : Holding k a q s) {q' : ℕ} (hload : Loading k a ⟨s.mem, s.pmm.mark q'⟩) :
    Holding k a q ⟨s.mem, s.pmm.mark q'⟩ where
  toLoading := hload
  used := by simp [h.used]
  ne := h.ne
  ne_zero := h.ne_zero
  own := h.own

/-- Changes of memory that leave the entries 256 to 767 of the directory alone. -/
theorem of_own (h : Holding k a q s) {s' : Paging} (hload : Loading k a s') (hpmm : s'.pmm = s.pmm)
    (hown : ∀ i, Private i → s'.mem a i = s.mem a i) : Holding k a q s' where
  toLoading := hload
  used := by rw [hpmm]; exact h.used
  ne := h.ne
  ne_zero := h.ne_zero
  own := fun i hi => by rw [hown i hi]; exact h.own i hi

/-- The page `pmm_alloc_page` returns for a table: a new one or, if there is none left, page 0. -/
theorem alloc (h : Holding k a q s) : ∃ t < 2 ^ 20, t ≠ a ∧ t ≠ q ∧ ¬ k.IsTable t ∧
    s.pmm.pmmAllocPage.2 = t * 4096 ∧ Holding k a q ⟨s.mem, s.pmm.pmmAllocPage.1⟩ := by
  rcases h.toLoading.alloc with ⟨_, halloc⟩ | ⟨t, hfirst, hlt, hbit, hta, halloc, _, hload⟩
  · rw [halloc]
    refine ⟨0, by norm_num, ?_, h.ne_zero.symm, ?_, rfl, h⟩
    · have h₁ := h.dir_ge
      have h₂ := k.firstPage_pos
      omega
    · have h₁ := k.dir_ge
      have h₂ := k.tables_ge
      rintro (htable | htable) <;> omega
  · rw [halloc]
    have htotal := h.total_le
    unfold maxPages at htotal
    refine ⟨t, by omega, hta, ?_, ?_, rfl, h.mark hload⟩
    · rintro rfl
      rw [h.used] at hbit
      cases hbit
    · exact fun htable => absurd htable.lt_firstPage (Nat.not_lt.mpr hfirst)

/-- **Mapping a page in the entries 256 to 767**: the table is there, or one is made, in a new
page or, if there is none left, in page 0. -/
theorem mapUser_private (h : Holding k a q s) {virt : BitVec 32} (hpriv : Private (pdIdx virt))
    (phys flags : BitVec 32) : Holding k a q (s.pagingMapUser k (a * 4096) virt phys flags) := by
  have hidx := pdIdx_lt virt
  by_cases hpresent : hasFlag (s.mem a (pdIdx virt)) pagePresent = true
  · obtain ⟨hpmm, hmem⟩ := Paging.mem_pagingMapUser_of_present h.kernelDir h.dir_lt_pow h.ne_dir
      h.ne_windowTable virt phys flags hpresent
    obtain ⟨t, ht, hlink, hta, _, htable⟩ := (h.own _ hpriv).resolve_left fun hzero => by
      rw [hzero] at hpresent
      exact absurd hpresent (by decide)
    rw [hlink, frameOf_tableLink ht, tableLink_or_user] at hmem
    have hsame : ∀ i, (s.pagingMapUser k (a * 4096) virt phys flags).mem a i = s.mem a i := by
      intro i
      rw [hmem, if_neg fun hw => h.ne_windowTable hw.1, if_neg fun hw => hta hw.1.symm]
      by_cases hi : i = pdIdx virt
      · rw [if_pos ⟨rfl, hi⟩, hi, hlink]
      · rw [if_neg fun hw => hi hw.2]
    refine h.of_own ?_ hpmm fun i _ => hsame i
    have heta : s.pagingMapUser k (a * 4096) virt phys flags =
        ⟨(s.pagingMapUser k (a * 4096) virt phys flags).mem, s.pmm⟩ := by rw [← hpmm]
    rw [heta]
    refine h.toLoading.of_mem ?_ fun i _ _ => hsame i
    funext i
    rw [hmem, if_neg fun hw => Paging.windowTable_ne_dir hw.1.symm,
      if_neg fun hw => htable (Or.inl hw.1.symm), if_neg fun hw => h.ne_dir hw.1.symm]
  · -- A table is made, in the page `t`.
    obtain ⟨t, ht, hta, htq, htable, halloc, hload⟩ := h.alloc
    obtain ⟨hpmm, hmem⟩ := Paging.mem_pagingMapUser_of_absent h.kernelDir h.dir_lt_pow h.ne_dir
      h.ne_windowTable ht (fun hdir => htable (Or.inl hdir)) virt phys flags
      (Bool.eq_false_iff.mpr hpresent) halloc
    have hown : ∀ i, (s.pagingMapUser k (a * 4096) virt phys flags).mem a i =
        if i = pdIdx virt then tableLink t else s.mem a i := by
      intro i
      rw [hmem, if_neg fun hw => h.ne_windowTable hw.1, if_neg fun hw => hta hw.1.symm]
      by_cases hi : i = pdIdx virt
      · rw [if_pos ⟨rfl, hi⟩, if_pos hi]
      · rw [if_neg fun hw => hi hw.2, if_neg hta.symm, if_neg hi]
    have heta : s.pagingMapUser k (a * 4096) virt phys flags =
        ⟨(s.pagingMapUser k (a * 4096) virt phys flags).mem, s.pmm.pmmAllocPage.1⟩ := by
      rw [← hpmm]
    rw [heta]
    refine ⟨hload.toLoading.of_mem ?_ ?_, hload.used, h.ne, h.ne_zero, ?_⟩
    · funext i
      rw [hmem, if_neg fun hw => Paging.windowTable_ne_dir hw.1.symm,
        if_neg fun hw => htable (Or.inl hw.1.symm), if_neg fun hw => h.ne_dir hw.1.symm,
        if_neg fun hw => htable (Or.inl hw.symm)]
    · intro i _ hi
      rw [hown, if_neg fun heq => hi (by rw [heq]; exact hpriv)]
    · intro i hi
      show (s.pagingMapUser k (a * 4096) virt phys flags).mem a i = 0 ∨ ∃ t < 2 ^ 20,
        (s.pagingMapUser k (a * 4096) virt phys flags).mem a i = tableLink t ∧ _
      rw [hown]
      by_cases heq : i = pdIdx virt
      · rw [if_pos heq]
        exact Or.inr ⟨t, ht, rfl, hta, htq, htable⟩
      · rw [if_neg heq]
        exact h.own i hi

/-- Mapping a page keeps the state. -/
theorem mapUser (h : Holding k a q s) (virt phys flags : BitVec 32) :
    Holding k a q (s.pagingMapUser k (a * 4096) virt phys flags) := by
  by_cases hpriv : Private (pdIdx virt)
  · exact h.mapUser_private hpriv phys flags
  · obtain ⟨hpmm, hload, hown⟩ := h.toLoading.mapUser hpriv phys flags
    exact h.of_own hload hpmm hown

end Holding

namespace Loader

variable {k : KernelImage} {f : ElfFile} {a q : ℕ} {l : Loader} {p : Phdr}

/-- One more page of a segment. -/
theorem holding_mapFrame (h : Holding k a q l.paging) {t va : ℕ}
    (ht : Pmm.firstPage k.toKernelEnd ≤ t) (hta : t ≠ a) :
    Holding k a q (l.mapFrame k f (a * 4096) p va (t * 4096)).paging := by
  have hfill : Holding k a q ⟨l.paging.mem.fillPage t (pageBytes f (pageCopy p va)),
      l.paging.pmm⟩ :=
    h.of_own (h.toLoading.fillPage ht hta _) rfl fun i _ => if_neg hta.symm
  unfold mapFrame Loader.mapUser
  rw [Nat.mul_div_cancel t (by norm_num)]
  exact hfill.mapUser _ _ _

/-- One more page of the stack. -/
theorem holding_mapStackFrame (h : Holding k a q l.paging) {t va : ℕ}
    (ht : Pmm.firstPage k.toKernelEnd ≤ t) (htlt : t < 2 ^ 20) (hta : t ≠ a) :
    Holding k a q (l.mapStackFrame k (a * 4096) va (t * 4096)).paging := by
  have htdir : k.pageDirectory ≠ t := fun hdir => absurd
    (show k.IsTable t from Or.inl hdir.symm).lt_firstPage (Nat.not_lt.mpr ht)
  have hidx := pdIdx_lt tempMapVa
  have hdir := k.table_ne_dir hidx
  have hat : a ≠ k.pageTables + pdIdx tempMapVa := fun heq =>
    h.not_isTable (Or.inr ⟨by omega, by omega⟩)
  unfold mapStackFrame Loader.mapUser
  dsimp only
  apply Holding.mapUser
  rw [Paging.pagingMapPage_eq h.kernelDir]
  set s₁ := l.paging.store (k.pageTables + pdIdx tempMapVa) (ptIdx tempMapVa)
    (windowEntry (BitVec.ofNat 32 (t * 4096))) with hs₁
  have hview : s₁.viewed k tempMapVa = t := by
    rw [Paging.viewed_eq (Paging.kernelDir_store h.kernelDir hdir), Paging.store_same,
      frameOf_windowEntry, frameOf_ofNat htlt]
  show Holding k a q (Paging.pagingUnmapPage k
    ⟨s₁.mem.zeroPage (s₁.viewed k tempMapVa), l.paging.pmm⟩ tempMapVa)
  rw [hview]
  -- The window and the new page are the only pages written.
  have hother : ∀ f i, f ≠ k.pageTables + pdIdx tempMapVa → f ≠ t →
      (Paging.pagingUnmapPage k ⟨s₁.mem.zeroPage t, l.paging.pmm⟩ tempMapVa).mem f i =
        l.paging.mem f i := by
    intro f i h₁ h₂
    unfold Paging.pagingUnmapPage
    rw [Paging.store_other _ _ fun hw => h₁ hw.1]
    show (if f = t then 0 else s₁.mem f i) = _
    rw [if_neg h₂, hs₁, Paging.store_other _ _ fun hw => h₁ hw.1]
  refine h.of_own (h.toLoading.of_mem ?_ fun i _ _ => hother a i hat hta.symm) rfl
    fun i _ => hother a i hat hta.symm
  funext i
  exact hother _ i hdir.symm htdir

/-- A load that comes to its end in a part of the loader still holds the page; one that fails
has left it in use. -/
structure Keeps (k : KernelImage) (a q : ℕ) (r : Loader × Progress) : Prop where
  done : r.2 = .done → Holding k a q r.1.paging
  failed : ∀ e, r.2 = .failed e → r.1.paging.pmm.bitmap.test q = true

/-- The loop of `map_segment` keeps the page, also where it fails. -/
theorem holding_mapSegmentLoop {i n : ℕ} (h : Holding k a q l.paging)
    (hret : (mapSegmentLoop k f (a * 4096) p l i n).2 ≠ .overrun) :
    Holding k a q (mapSegmentLoop k f (a * 4096) p l i n).1.paging := by
  induction n generalizing l i with
  | zero => exact h
  | succ n ih =>
    unfold mapSegmentLoop at hret ⊢
    rcases h.toLoading.alloc with ⟨_, halloc⟩ | ⟨t, hfirst, _, _, hta, halloc, _, hload⟩
    · rw [halloc]
      dsimp only
      rw [if_pos rfl]
      exact h
    · have ht₀ : t * 4096 ≠ 0 := by
        have := k.firstPage_pos
        omega
      rw [halloc] at hret ⊢
      dsimp only at hret ⊢
      rw [if_neg ht₀] at hret ⊢
      by_cases hfits : copyFits (pageCopy p (p.pageVaddr i))
      · rw [if_pos hfits] at hret ⊢
        exact ih (holding_mapFrame (h.mark hload) hfirst hta) hret
      · rw [if_neg hfits] at hret
        exact absurd rfl hret

theorem keeps_loadHeader {i : ℕ} (h : Holding k a q l.paging) :
    Keeps k a q (loadHeader k f (a * 4096) i l) := by
  rcases @loadHeader_cases k f l (a * 4096) i with ⟨_, heq⟩ | ⟨_, _, heq⟩ |
    ⟨_, _, _, heq⟩ | ⟨_, _, _, _, heq⟩ | ⟨_, r, hr, _, hprog, hdone, hfailed⟩
  · rw [heq]
    exact ⟨fun _ => h, nofun⟩
  · rw [heq]
    exact ⟨fun _ => h, nofun⟩
  · rw [heq]
    exact ⟨nofun, fun _ _ => h.destroy⟩
  · rw [heq]
    exact ⟨nofun, fun _ _ => h.destroy⟩
  · have hkeep : r.2 ≠ .overrun → Holding k a q r.1.paging := by
      rw [hr]
      exact holding_mapSegmentLoop h
    refine ⟨fun he => ?_, fun e he => ?_⟩
    · rw [hprog] at he
      rw [hdone he]
      exact hkeep (by rw [he]; exact fun hcontra => by cases hcontra)
    · rw [hprog] at he
      rw [hfailed e he]
      exact (hkeep (by rw [he]; exact fun hcontra => by cases hcontra)).destroy

theorem keeps_loadHeaders {i n : ℕ} (h : Holding k a q l.paging) :
    Keeps k a q (loadHeaders k f (a * 4096) l i n) := by
  induction n generalizing l i with
  | zero => exact ⟨fun _ => h, nofun⟩
  | succ n ih =>
    have hstep := keeps_loadHeader (f := f) (i := i) h
    by_cases hdone : (loadHeader k f (a * 4096) i l).2 = .done
    · rw [loadHeaders_of_done hdone]
      exact ih (hstep.done hdone)
    · rw [loadHeaders_of_stop hdone]
      exact hstep

theorem keeps_mapStack {i n : ℕ} (h : Holding k a q l.paging) :
    Keeps k a q (mapStack k (a * 4096) l i n) := by
  induction n generalizing l i with
  | zero => exact ⟨fun _ => h, fun _ hr => (by cases hr)⟩
  | succ n ih =>
    unfold mapStack
    rcases h.toLoading.alloc with ⟨_, halloc⟩ | ⟨t, hfirst, hlt, _, hta, halloc, _, hload⟩
    · rw [halloc]
      dsimp only
      rw [if_pos rfl]
      exact ⟨fun hr => (by cases hr), fun _ _ => h.destroy⟩
    · have ht₀ : t * 4096 ≠ 0 := by
        have := k.firstPage_pos
        omega
      have htotal := h.total_le
      unfold maxPages at htotal
      rw [halloc]
      dsimp only
      rw [if_neg ht₀]
      exact ih (holding_mapStackFrame (h.mark hload) hfirst (by omega) hta)

theorem holding_mapVga (h : Holding k a q l.paging) :
    Holding k a q (mapVga k (a * 4096) l).paging := (h.mapUser _ _ _).mapUser _ _ _

end Loader

/-! ## A load that has mapped nothing -/

/-- The state right after the address space was made. -/
structure Fresh (k : KernelImage) (a : ℕ) (s : Paging) : Prop extends Loading k a s where
  own : ∀ i, Private i → s.mem a i = 0

namespace Fresh

variable {k : KernelImage} {a : ℕ} {s : Paging}

/-- Destroying it gives back its one page. -/
theorem destroy (h : Fresh k a s) :
    s.pagingDestroyAddressSpace k (a * 4096) = ⟨s.mem, s.pmm.unmark a⟩ := by
  have hdiv : a * 4096 / 4096 = a := Nat.mul_div_cancel a (by norm_num)
  have hloop : Paging.destroyLoop k (a * 4096) s 0 1024 = s := by
    apply Paging.destroyLoop_of_none
    intro j _ hj hpresent
    rw [hdiv] at hpresent ⊢
    by_cases hpriv : Private j
    · rw [h.own j hpriv] at hpresent
      exact absurd hpresent (by decide)
    · rw [h.shared j (by omega) hpriv, h.kernelDir j (by omega)]
  have ha₀ : ¬ (a * 4096 = 0 ∨ a * 4096 = k.pageDirectory * 4096) := by
    have h₁ := h.dir_ge
    have h₂ := k.firstPage_pos
    have h₃ := h.ne_dir
    omega
  unfold Paging.pagingDestroyAddressSpace
  rw [if_neg ha₀, hloop]
  dsimp only
  unfold Pmm.pmmFreePage
  rw [hdiv, if_pos ⟨h.dir_lt, h.dir_used⟩]

/-- The first page it takes is held from then on. -/
theorem alloc (h : Fresh k a s) :
    (s.pmm.available = 0 ∧ s.pmm.pmmAllocPage = (s.pmm, 0)) ∨
    ∃ q, 0 < s.pmm.available ∧ Pmm.firstPage k.toKernelEnd ≤ q ∧ q < s.pmm.totalPages ∧
      s.pmm.bitmap.test q = false ∧ s.pmm.pmmAllocPage = (s.pmm.mark q, q * 4096) ∧
      Holding k a q ⟨s.mem, s.pmm.mark q⟩ := by
  rcases h.toLoading.alloc with hnone | ⟨q, hfirst, hlt, hbit, hqa, halloc, hav, hload⟩
  · exact Or.inl hnone
  · refine Or.inr ⟨q, by omega, hfirst, hlt, hbit, halloc, hload, by simp, hqa, ?_, ?_⟩
    · have := k.firstPage_pos
      omega
    · exact fun i hi => Or.inl (h.own i hi)

end Fresh

namespace Loader

variable {k : KernelImage} {f : ElfFile} {a : ℕ} {l : Loader}

/-- A part of the loader that failed with nothing mapped: the address space is destroyed and
the rest is as before. -/
structure Undone (k : KernelImage) (a : ℕ) (l l' : Loader) : Prop where
  paging : l'.paging = l.paging.pagingDestroyAddressSpace k (a * 4096)
  heap : l'.heap = l.heap
  kernel : l'.kernel = l.kernel

/-- A part of the loader that changed nothing. -/
structure Untouched (l l' : Loader) : Prop where
  paging : l'.paging = l.paging
  heap : l'.heap = l.heap
  kernel : l'.kernel = l.kernel

/-- Some page that was free is kept. -/
def KeepsPage (k : KernelImage) (a : ℕ) (l : Loader) (r : Loader × Progress) : Prop :=
  ∃ q < l.paging.pmm.totalPages, l.paging.pmm.bitmap.test q = false ∧ Keeps k a q r

/-- `map_segment` in an address space with nothing mapped. -/
theorem mapSegment_fresh {p : Phdr} (h : Fresh k a l.paging) :
    (p.numPages = 0 ∧ mapSegment k f (a * 4096) p l = (l, .done)) ∨
    (p.numPages ≠ 0 ∧ l.paging.pmm.available = 0 ∧
      mapSegment k f (a * 4096) p l = (l, .failed .noSegmentMemory)) ∨
    (p.numPages ≠ 0 ∧ 0 < l.paging.pmm.available ∧
      ∃ q < l.paging.pmm.totalPages, l.paging.pmm.bitmap.test q = false ∧
        ((mapSegment k f (a * 4096) p l).2 ≠ .overrun →
          Holding k a q (mapSegment k f (a * 4096) p l).1.paging)) := by
  unfold mapSegment
  cases hpages : p.numPages with
  | zero => exact Or.inl ⟨rfl, rfl⟩
  | succ n =>
    unfold mapSegmentLoop
    rcases h.alloc with ⟨hav, halloc⟩ | ⟨q, hav, hfirst, hlt, hbit, halloc, hhold⟩
    · rw [halloc]
      exact Or.inr (Or.inl ⟨Nat.succ_ne_zero n, hav, if_pos rfl⟩)
    · have hq₀ : q * 4096 ≠ 0 := by
        have := k.firstPage_pos
        omega
      refine Or.inr (Or.inr ⟨Nat.succ_ne_zero n, hav, q, hlt, hbit, ?_⟩)
      rw [halloc]
      dsimp only
      rw [if_neg hq₀]
      by_cases hfits : copyFits (pageCopy p (p.pageVaddr 0))
      · rw [if_pos hfits]
        refine holding_mapSegmentLoop (holding_mapFrame ?_ hfirst hhold.ne)
        exact hhold
      · rw [if_neg hfits]
        exact fun hret => absurd rfl hret

/-- One program header, with nothing mapped before it. -/
theorem loadHeader_fresh {i : ℕ} (h : Fresh k a l.paging) :
    (f.Light i ∧ (loadHeader k f (a * 4096) i l).2 = .done ∧
      Untouched l (loadHeader k f (a * 4096) i l).1) ∨
    ((∃ e, (loadHeader k f (a * 4096) i l).2 = .failed e) ∧
      Undone k a l (loadHeader k f (a * 4096) i l).1 ∧
      (l.paging.pmm.available = 0 ∨ ¬ f.Skipped i ∧ ¬ f.Accepted i)) ∨
    (0 < l.paging.pmm.available ∧ ¬ f.Skipped i ∧ f.Accepted i ∧ (f.phdr i).numPages ≠ 0 ∧
      KeepsPage k a l (loadHeader k f (a * 4096) i l)) := by
  rcases @loadHeader_cases k f l (a * 4096) i with ⟨htype, heq⟩ | ⟨htype, hmem, heq⟩ |
    ⟨htype, hmem, hbase, heq⟩ | ⟨htype, hmem, hbase, hsum, heq⟩ |
    ⟨hacc, r, hr, _, hprog, hdone, hfailed⟩
  · rw [heq]
    exact Or.inl ⟨Or.inl (Or.inl htype), rfl, rfl, rfl, rfl⟩
  · rw [heq]
    exact Or.inl ⟨Or.inl (Or.inr hmem), rfl, rfl, rfl, rfl⟩
  · rw [heq]
    refine Or.inr (Or.inl ⟨⟨_, rfl⟩, ⟨rfl, rfl, rfl⟩, Or.inr ⟨?_, ?_⟩⟩)
    · exact fun hs => hs.elim (fun h => h htype) hmem
    · exact fun hacc => absurd hbase (Nat.not_lt.mpr hacc.2.2.1)
  · rw [heq]
    refine Or.inr (Or.inl ⟨⟨_, rfl⟩, ⟨rfl, rfl, rfl⟩, Or.inr ⟨?_, ?_⟩⟩)
    · exact fun hs => hs.elim (fun h => h htype) hmem
    · exact fun hacc => absurd hsum (Nat.not_lt.mpr hacc.2.2.2)
  · have hskip : ¬ f.Skipped i := fun hs => hs.elim (fun h => h hacc.1) hacc.2.1
    rcases @mapSegment_fresh k f a _ (f.phdr i)
      (show Fresh k a (l.looked f i [pFlags, pFilesz, pOffset, pVaddr, pMemsz, pType]).paging from h)
      with ⟨hpages, heq⟩ | ⟨hpages, hav, heq⟩ | ⟨hpages, hav, q, hlt, hbit, hhold⟩
    · rw [heq] at hr
      rw [hr] at hprog hdone
      rw [hdone rfl, hprog]
      exact Or.inl ⟨Or.inr ⟨hacc, hpages⟩, rfl, rfl, rfl, rfl⟩
    · rw [heq] at hr
      rw [hr] at hprog hfailed
      rw [hfailed _ rfl, hprog]
      exact Or.inr (Or.inl ⟨⟨_, rfl⟩, ⟨rfl, rfl, rfl⟩, Or.inl hav⟩)
    · rw [← hr] at hhold
      refine Or.inr (Or.inr ⟨hav, hskip, hacc, hpages, q, hlt, hbit, fun he => ?_, fun e he => ?_⟩)
      · rw [hprog] at he
        rw [hdone he]
        exact hhold (by rw [he]; nofun)
      · rw [hprog] at he
        rw [hfailed e he]
        exact (hhold (by rw [he]; nofun)).destroy

/-- A header that needs no page does not change what comes after it. -/
theorem refusedFrom_of_light {i n : ℕ} (hlight : f.Light i) :
    f.RefusedFrom i (n + 1) ↔ f.RefusedFrom (i + 1) n := by
  constructor
  · rintro ⟨j, h₁, h₂, hbefore, hskip, hacc⟩
    have hji : j ≠ i := by
      rintro rfl
      exact hlight.elim hskip fun h => hacc h.1
    exact ⟨j, by omega, by omega, fun j' h₃ h₄ => hbefore j' (by omega) h₄, hskip, hacc⟩
  · rintro ⟨j, h₁, h₂, hbefore, hskip, hacc⟩
    refine ⟨j, by omega, by omega, fun j' h₃ h₄ => ?_, hskip, hacc⟩
    by_cases hji : j' = i
    · rw [hji]
      exact hlight
    · exact hbefore j' (by omega) h₄

/-- **The loop over the program headers, with nothing mapped before it**: it fails with nothing
mapped because there is no page or a segment is refused; or it maps nothing; or it maps a
page, which stays in use. -/
theorem loadHeaders_fresh {i n : ℕ} (h : Fresh k a l.paging) :
    ((∃ e, (loadHeaders k f (a * 4096) l i n).2 = .failed e) ∧
      Undone k a l (loadHeaders k f (a * 4096) l i n).1 ∧
      (l.paging.pmm.available = 0 ∨ f.RefusedFrom i n)) ∨
    ((loadHeaders k f (a * 4096) l i n).2 = .done ∧
      Untouched l (loadHeaders k f (a * 4096) l i n).1 ∧ ¬ f.RefusedFrom i n) ∨
    (0 < l.paging.pmm.available ∧ ¬ f.RefusedFrom i n ∧
      KeepsPage k a l (loadHeaders k f (a * 4096) l i n)) := by
  induction n generalizing l i with
  | zero =>
    refine Or.inr (Or.inl ⟨rfl, ⟨rfl, rfl, rfl⟩, ?_⟩)
    rintro ⟨j, h₁, h₂, _⟩
    omega
  | succ n ih =>
    rcases @loadHeader_fresh k f a l i h with ⟨hlight, hdone, hsame⟩ | ⟨⟨e, hfail⟩, hundone, hwhy⟩ |
      ⟨hav, hskip, hacc, hpages, q, hlt, hbit, hkeeps⟩
    · rw [loadHeaders_of_done hdone, refusedFrom_of_light hlight]
      have hfresh : Fresh k a (loadHeader k f (a * 4096) i l).1.paging := by
        rw [hsame.paging]
        exact h
      have hrest := @ih (loadHeader k f (a * 4096) i l).1 (i + 1) hfresh
      rw [hsame.paging] at hrest
      rcases hrest with ⟨hfail, hundone, hwhy⟩ | ⟨hend, hrest, hnot⟩ | ⟨hav, hnot, hkeeps⟩
      · refine Or.inl ⟨hfail, ⟨?_, ?_, ?_⟩, hwhy⟩
        · rw [hundone.paging, hsame.paging]
        · rw [hundone.heap, hsame.heap]
        · rw [hundone.kernel, hsame.kernel]
      · refine Or.inr (Or.inl ⟨hend, ⟨?_, ?_, ?_⟩, hnot⟩)
        · rw [hrest.paging, hsame.paging]
        · rw [hrest.heap, hsame.heap]
        · rw [hrest.kernel, hsame.kernel]
      · unfold KeepsPage at hkeeps
        rw [hsame.paging] at hkeeps
        exact Or.inr (Or.inr ⟨hav, hnot, hkeeps⟩)
    · have hstop : (loadHeader k f (a * 4096) i l).2 ≠ .done := by
        rw [hfail]
        nofun
      rw [loadHeaders_of_stop hstop]
      refine Or.inl ⟨⟨e, hfail⟩, hundone, hwhy.imp_right fun hrefused => ?_⟩
      exact ⟨i, le_refl i, by omega, fun j' h₁ h₂ => by omega, hrefused⟩
    · refine Or.inr (Or.inr ⟨hav, ?_, q, hlt, hbit, ?_⟩)
      · rintro ⟨j, h₁, h₂, hbefore, _, hnot⟩
        by_cases hji : j = i
        · rw [hji] at hnot
          exact hnot hacc
        · exact (hbefore i (le_refl i) (by omega)).elim hskip fun hlight => hpages hlight.2
      · by_cases hdone : (loadHeader k f (a * 4096) i l).2 = .done
        · rw [loadHeaders_of_done hdone]
          exact keeps_loadHeaders (hkeeps.done hdone)
        · rw [loadHeaders_of_stop hdone]
          exact hkeeps

/-- The stack, with nothing mapped before it. -/
theorem mapStack_fresh {i n : ℕ} (h : Fresh k a l.paging) :
    (l.paging.pmm.available = 0 ∧ (∃ e, (mapStack k (a * 4096) l i (n + 1)).2 = .failed e) ∧
      Undone k a l (mapStack k (a * 4096) l i (n + 1)).1) ∨
    (0 < l.paging.pmm.available ∧ KeepsPage k a l (mapStack k (a * 4096) l i (n + 1))) := by
  unfold mapStack
  rcases h.alloc with ⟨hav, halloc⟩ | ⟨q, hav, hfirst, hlt, hbit, halloc, hhold⟩
  · rw [halloc]
    exact Or.inl ⟨hav, ⟨_, by rw [if_pos rfl]⟩, by rw [if_pos rfl]; exact ⟨rfl, rfl, rfl⟩⟩
  · have hq₀ : q * 4096 ≠ 0 := by
      have := k.firstPage_pos
      omega
    have htotal := h.total_le
    unfold maxPages at htotal
    refine Or.inr ⟨hav, q, hlt, hbit, ?_⟩
    rw [halloc]
    dsimp only
    rw [if_neg hq₀]
    refine keeps_mapStack (holding_mapStackFrame ?_ hfirst (by omega) hhold.ne)
    exact hhold

/-! ## The task -/

theorem mapSegmentLoop_kernel {pd i n : ℕ} {p : Phdr} :
    (mapSegmentLoop k f pd p l i n).1.kernel = l.kernel := by
  induction n generalizing l i with
  | zero => rfl
  | succ n ih =>
    unfold mapSegmentLoop
    dsimp only
    split_ifs
    · rfl
    · exact ih
    · rfl

theorem loadSegment_kernel {pd i : ℕ} : (loadSegment k f pd i l).1.kernel = l.kernel := by
  have hmap : ∀ l', (mapSegment k f pd (f.phdr i) l').1.kernel = l'.kernel := fun l' =>
    mapSegmentLoop_kernel
  unfold loadSegment
  dsimp only
  split_ifs
  · rfl
  · have hseg := hmap ((l.read [pFilesz.range (f.phdrBase i), pOffset.range (f.phdrBase i)]).read
      [pFlags.range (f.phdrBase i)])
    generalize mapSegment k f pd (f.phdr i) ((l.read [pFilesz.range (f.phdrBase i),
      pOffset.range (f.phdrBase i)]).read [pFlags.range (f.phdrBase i)]) = r at hseg ⊢
    obtain ⟨l', progress⟩ := r
    cases progress <;> exact hseg

theorem loadHeader_kernel {pd i : ℕ} : (loadHeader k f pd i l).1.kernel = l.kernel := by
  unfold loadHeader
  dsimp only
  split_ifs
  · rfl
  · rfl
  · rfl
  · rw [loadSegment_kernel]
    rfl

theorem loadHeaders_kernel {pd i n : ℕ} : (loadHeaders k f pd l i n).1.kernel = l.kernel := by
  induction n generalizing l i with
  | zero => rfl
  | succ n ih =>
    by_cases hdone : (loadHeader k f pd i l).2 = .done
    · rw [loadHeaders_of_done hdone, ih, loadHeader_kernel]
    · rw [loadHeaders_of_stop hdone, loadHeader_kernel]

theorem mapStack_kernel {pd i n : ℕ} : (mapStack k pd l i n).1.kernel = l.kernel := by
  induction n generalizing l i with
  | zero => rfl
  | succ n ih =>
    unfold mapStack
    dsimp only
    split_ifs
    · rfl
    · exact ih

/-- What the end of `elf_load` leaves, with the page `q` held: on failure the page is in use,
and a new task has the directory in page `a`. -/
structure KeepsLoad (k : KernelImage) (a q : ℕ) (l : Loader) (r : Loader × LoadResult) : Prop where
  failed : ∀ e, r.2 = .failed e → r.1.paging.pmm.bitmap.test q = true
  loaded : ∀ p, r.2 = .pid p → Holding k a q r.1.paging ∧ ∃ i, l.kernel.freeSlot = some i ∧
    (r.1.kernel.tasks i).pageDirectory = UInt32.ofNat (a * 4096)

theorem keepsLoad_createTask {q : ℕ} {args : Args} (h : Holding k a q l.paging) :
    KeepsLoad k a q l (createTask k args (a * 4096) l) := by
  have hlost : ∀ l', KeepsLoad k a q l (l', .lost) := fun _ =>
    ⟨fun _ hr => (by cases hr), fun _ hr => (by cases hr)⟩
  have hfailed : ∀ heap kernel reads e, KeepsLoad k a q l
      (destroy k ⟨l.paging, heap, kernel, reads⟩ (a * 4096), .failed e) := fun _ _ _ _ =>
    ⟨fun _ _ => h.destroy, fun _ hr => by cases hr⟩
  unfold createTask
  generalize l.heap.kmalloc kernelStackSize = r
  cases r with
  | none => exact hlost _
  | some r =>
    obtain ⟨heap, kernelStack⟩ := r
    dsimp only
    by_cases hstack : kernelStack = 0
    · rw [if_pos hstack]
      exact hfailed _ _ _ _
    · rw [if_neg hstack]
      unfold Kernel.taskCreateFromElf
      dsimp only [read]
      cases hslot : l.kernel.freeSlot with
      | none =>
        dsimp only
        split_ifs with hneg
        · -- `kfree` of the new kernel stack does not touch the pages.
          split
          · exact hlost _
          · exact hfailed _ _ _ _
        · exact absurd (by decide) hneg
      | some i =>
        dsimp only
        split_ifs
        · split
          · exact hlost _
          · exact hfailed _ _ _ _
        · refine ⟨fun _ hr => (by cases hr), fun _ _ => ⟨h, i, hslot, ?_⟩⟩
          show ((l.kernel.addTask i _).tasks i).pageDirectory = _
          unfold Kernel.addTask
          simp

theorem keepsLoad_of_mapStack {q : ℕ} {args : Args} {r : Loader × Progress}
    (h : Keeps k a q r) (hkernel : r.1.kernel = l.kernel) : KeepsLoad k a q l
      (match r.2 with
        | .failed e => (r.1, .failed e)
        | .overrun => (r.1, .lost)
        | .done => createTask k args (a * 4096)
            (if args.flags &&& 1 ≠ 0 then mapVga k (a * 4096) r.1 else r.1)) := by
  obtain ⟨l', progress⟩ := r
  cases progress with
  | failed e => exact ⟨fun _ _ => h.failed e rfl, nofun⟩
  | overrun => exact ⟨nofun, nofun⟩
  | done =>
    dsimp only
    have hhold : Holding k a q (if args.flags &&& 1 ≠ 0 then mapVga k (a * 4096) l' else l').paging := by
      split_ifs
      · exact holding_mapVga (h.done rfl)
      · exact h.done rfl
    have hsame : (if args.flags &&& 1 ≠ 0 then mapVga k (a * 4096) l' else l').kernel = l.kernel := by
      split_ifs <;> exact hkernel
    generalize (if args.flags &&& 1 ≠ 0 then mapVga k (a * 4096) l' else l') = l₂ at hhold hsame ⊢
    have hcreate := @keepsLoad_createTask k a l₂ q args hhold
    refine ⟨hcreate.failed, fun p hp => ?_⟩
    rw [← hsame]
    exact hcreate.loaded p hp

/-- If one of the loops keeps a page, so does the load. -/
theorem keepsLoad_loadInto {q : ℕ} {args : Args}
    (h : Keeps k a q (loadHeaders k f (a * 4096) l 0 f.phnum)) :
    KeepsLoad k a q l (loadInto k f args (a * 4096) l) := by
  have hkernel := @loadHeaders_kernel k f l (a * 4096) 0 f.phnum
  unfold loadInto
  generalize loadHeaders k f (a * 4096) l 0 f.phnum = r at h hkernel ⊢
  obtain ⟨l', progress⟩ := r
  cases progress with
  | failed e => exact ⟨fun _ _ => h.failed e rfl, nofun⟩
  | overrun => exact ⟨nofun, nofun⟩
  | done =>
    exact keepsLoad_of_mapStack (keeps_mapStack (h.done rfl)) (mapStack_kernel.trans hkernel)

/-! ## The end of the task -/

/-- What is given back for a task: of the page tables, its address space. -/
theorem releaseTask_eq {l' : Loader} {t : Task} (hrel : l.releaseTask k t = some l') :
    l'.kernel = l.kernel ∧ l'.paging = if t.pageDirectory ≠ 0 then
      l.paging.pagingDestroyAddressSpace k t.pageDirectory.toNat else l.paging := by
  have hkfree : ∀ (l l' : Loader) (c : Prop) [Decidable c] (ptr : ℕ),
      (if c then l.kfree ptr else some l) = some l' → l'.paging = l.paging ∧ l'.kernel = l.kernel := by
    intro l l' c _ ptr hfree
    split_ifs at hfree
    · obtain ⟨r, _, rfl⟩ := Option.map_eq_some_iff.mp hfree
      exact ⟨rfl, rfl⟩
    · rw [Option.some.inj hfree]
      exact ⟨rfl, rfl⟩
  obtain ⟨l₁, h₁, hrel⟩ := Option.bind_eq_some_iff.mp hrel
  obtain ⟨l₂, h₂, hrel⟩ := Option.bind_eq_some_iff.mp hrel
  obtain ⟨hpaging₁, hkernel₁⟩ := hkfree _ _ _ _ h₁
  obtain ⟨hpaging₂, hkernel₂⟩ := hkfree _ _ _ _ h₂
  rw [← hpaging₁, ← hpaging₂, ← hkernel₁, ← hkernel₂, ← Option.some.inj hrel]
  split_ifs
  · exact ⟨rfl, rfl⟩
  · exact ⟨rfl, rfl⟩

/-- Whatever is given back for the task, the page stays in use. -/
theorem test_releaseTask {q : ℕ} {l' : Loader} {t : Task} (h : Holding k a q l.paging)
    (ht : t.pageDirectory = UInt32.ofNat (a * 4096)) (hrel : l.releaseTask k t = some l') :
    l'.paging.pmm.bitmap.test q = true := by
  have hpd : (UInt32.ofNat (a * 4096)).toNat = a * 4096 := by
    have hlt := h.dir_lt_pow
    rw [UInt32.toNat_ofNat']
    omega
  rw [(releaseTask_eq hrel).2, ht, hpd]
  split_ifs
  · exact h.destroy
  · exact h.used

/-- The task that was loaded exits: the page is still in use. -/
theorem test_taskExit {q : ℕ} {l' : Loader} (h : Holding k a q l.paging)
    (ht : l.kernel.current.pageDirectory = UInt32.ofNat (a * 4096))
    (hexit : l.taskExit k = some l') : l'.paging.pmm.bitmap.test q = true := by
  unfold taskExit at hexit
  split_ifs at hexit
  · rw [← Option.some.inj hexit]
    exact h.used
  · obtain ⟨l'', hrel, rfl⟩ := Option.map_eq_some_iff.mp hexit
    have hused := test_releaseTask (k := k) h ht hrel
    exact hused

/-- A load that keeps a page that was free does not conserve memory. -/
theorem not_conserves {q : ℕ} {args : Args} (hlt : q < l.paging.pmm.totalPages)
    (hbit : l.paging.pmm.bitmap.test q = false) (hreturns : (elfLoad k f args l).2 ≠ .lost)
    (hkeeps : KeepsLoad k a q l (elfLoad k f args l)) : ¬ Conserves k f args l := by
  intro hcons
  unfold Conserves at hcons
  generalize elfLoad k f args l = r at hreturns hkeeps hcons
  obtain ⟨l', result⟩ := r
  cases result with
  | lost => exact hreturns rfl
  | failed e =>
    have hused := hkeeps.failed e rfl
    rw [hcons.1, hbit] at hused
    cases hused
  | pid p =>
    obtain ⟨hhold, i, hslot, hpd⟩ := hkeeps.loaded p rfl
    -- The task exits as the next thing that happens.
    obtain ⟨l'', hexit, hret⟩ := (hcons i hslot { l'.kernel with currentTask := i }
      ⟨rfl, rfl, rfl⟩).1 rfl
    have hused := test_taskExit (l := { l' with
      kernel := { l'.kernel with currentTask := i } }) hhold hpd hexit
    rw [hret.1 q hlt hbit] at hused
    cases hused

/-! ## The whole load -/

/-- A load that ends with nothing mapped has given back its directory. -/
theorem conserves_of_undone {args : Args} {l₁ : Loader} {e : ElfError}
    (hfresh : Fresh k a l₁.paging) (hpmm : l₁.paging.pmm = l.paging.pmm.mark a)
    (hbit : l.paging.pmm.bitmap.test a = false) (hheap : l₁.heap = l.heap)
    (hkernel : l₁.kernel = l.kernel) (hundone : Undone k a l₁ (elfLoad k f args l).1)
    (hfail : (elfLoad k f args l).2 = .failed e) : Conserves k f args l := by
  unfold Conserves
  generalize elfLoad k f args l = r at hundone hfail
  obtain ⟨l', result⟩ := r
  cases hfail
  refine ⟨?_, hundone.heap.trans hheap, by rw [hundone.kernel, hkernel]⟩
  rw [hundone.paging, hfresh.destroy, hpmm]
  exact Bitmap.clear_set _ hbit

/-- `elf_load` into a new address space: it ends with nothing mapped, or it keeps a page. -/
theorem loadInto_fresh {args : Args} (h : Fresh k a l.paging) :
    ((∃ e, (loadInto k f args (a * 4096) l).2 = .failed e) ∧
      Undone k a l (loadInto k f args (a * 4096) l).1 ∧
      (l.paging.pmm.available = 0 ∨ f.RefusedEarly)) ∨
    (0 < l.paging.pmm.available ∧ ¬ f.RefusedEarly ∧
      ∃ q < l.paging.pmm.totalPages, l.paging.pmm.bitmap.test q = false ∧
        KeepsLoad k a q l (loadInto k f args (a * 4096) l)) := by
  rcases @loadHeaders_fresh k f a l 0 f.phnum h with ⟨⟨e, hfail⟩, hundone, hwhy⟩ |
    ⟨hdone, hsame, hnot⟩ | ⟨hav, hnot, q, hlt, hbit, hkeeps⟩
  · left
    unfold loadInto
    generalize loadHeaders k f (a * 4096) l 0 f.phnum = r at hfail hundone ⊢
    obtain ⟨l', progress⟩ := r
    cases hfail
    exact ⟨⟨e, rfl⟩, hundone, hwhy⟩
  · -- No header needed a page: the stack is the first to ask for one.
    have hkernel := @loadHeaders_kernel k f l (a * 4096) 0 f.phnum
    unfold loadInto
    generalize loadHeaders k f (a * 4096) l 0 f.phnum = r at hdone hsame hkernel ⊢
    obtain ⟨l', progress⟩ := r
    cases hdone
    obtain ⟨hpaging, hheap, _⟩ := hsame
    have hfresh : Fresh k a l'.paging := by
      rw [show l'.paging = l.paging from hpaging]
      exact h
    rcases @mapStack_fresh k a l' 0 3 hfresh with ⟨hav, ⟨e, hfail⟩, hundone⟩ |
      ⟨hav, q, hlt, hbit, hkeeps⟩
    · left
      dsimp only [userStackPages]
      generalize mapStack k (a * 4096) l' 0 (3 + 1) = r at hfail hundone ⊢
      obtain ⟨l'', progress⟩ := r
      cases hfail
      rw [show l'.paging = l.paging from hpaging] at hav
      exact ⟨⟨e, rfl⟩, ⟨hundone.paging.trans (by rw [show l'.paging = l.paging from hpaging]),
        hundone.heap.trans hheap, hundone.kernel.trans hkernel⟩, Or.inl hav⟩
    · right
      rw [show l'.paging = l.paging from hpaging] at hav hlt hbit
      exact ⟨hav, hnot, q, hlt, hbit,
        keepsLoad_of_mapStack hkeeps (mapStack_kernel.trans hkernel)⟩
  · exact Or.inr ⟨hav, hnot, q, hlt, hbit, keepsLoad_loadInto hkeeps⟩

/-- `elf_load` of a valid file without a page for the directory. -/
theorem elfLoad_of_noPage {args : Args} {pmm : Pmm} (hvalid : (elfValidate f).2 = none)
    (halloc : l.paging.pmm.pmmAllocPage = (pmm, 0)) :
    (elfLoad k f args l).2 = .failed .noAddressSpace ∧
      (elfLoad k f args l).1.paging = ⟨l.paging.mem, pmm⟩ ∧
      (elfLoad k f args l).1.heap = l.heap ∧ (elfLoad k f args l).1.kernel = l.kernel := by
  have hcreate : l.paging.pagingCreateIsolatedSpace k = (⟨l.paging.mem, pmm⟩, 0) := by
    unfold Paging.pagingCreateIsolatedSpace
    rw [halloc]
    exact if_pos rfl
  unfold elfLoad
  simp only [hvalid]
  have hpaging : ((l.read (elfValidate f).1.reverse).read [ePhnum.range 0, eEntry.range 0]).paging =
      l.paging := rfl
  rw [hpaging, hcreate, if_pos rfl]
  exact ⟨rfl, rfl, rfl, rfl⟩

/-- `elf_load` of a valid file with a page for the directory. -/
theorem elfLoad_of_page {args : Args} {s : Paging} (hvalid : (elfValidate f).2 = none) (ha : a ≠ 0)
    (hcreate : l.paging.pagingCreateIsolatedSpace k = (s, a * 4096)) :
    ∃ reads, elfLoad k f args l = loadInto k f args (a * 4096) ⟨s, l.heap, l.kernel, reads⟩ := by
  unfold elfLoad
  simp only [hvalid]
  have hpaging : ((l.read (elfValidate f).1.reverse).read [ePhnum.range 0, eEntry.range 0]).paging =
      l.paging := rfl
  rw [hpaging, hcreate, if_neg (by omega)]
  exact ⟨_, rfl⟩

/-- With page 0 in use and a page for the directory, a load ends early, or it keeps a page. -/
theorem conserves_cases {args : Args} (hready : Ready k l.paging)
    (hreturns : (elfLoad k f args l).2 ≠ .lost) (hvalid : (elfValidate f).2 = none)
    (hav : 0 < l.paging.pmm.available) :
    (Conserves k f args l ∧ (l.paging.pmm.available ≤ 1 ∨ f.RefusedEarly)) ∨
    (¬ Conserves k f args l ∧ 1 < l.paging.pmm.available ∧ ¬ f.RefusedEarly) := by
  rcases hready.create with ⟨hnone, _⟩ | ⟨a, hfirst, hfree, hcreate, hleft, hload⟩
  · omega
  · have ha₀ : a ≠ 0 := by
      have := k.firstPage_pos
      omega
    have hfresh : Fresh k a (l.paging.pagingCreateIsolatedSpace k).1 := by
      refine ⟨hload, fun i hi => ?_⟩
      rw [hcreate]
      exact (if_pos ⟨rfl, by have := hi.2; omega⟩).trans (if_pos hi)
    have hpmm : (l.paging.pagingCreateIsolatedSpace k).1.pmm = l.paging.pmm.mark a := by
      rw [hcreate]
    have hpd : l.paging.pagingCreateIsolatedSpace k =
        ((l.paging.pagingCreateIsolatedSpace k).1, a * 4096) := by rw [hcreate]
    generalize (l.paging.pagingCreateIsolatedSpace k).1 = s at hfresh hpmm hpd
    obtain ⟨reads, heq⟩ := @elfLoad_of_page k f a l args s hvalid ha₀ hpd
    have hsame : (⟨s, l.heap, l.kernel, reads⟩ : Loader).paging.pmm = l.paging.pmm.mark a := hpmm
    rcases @loadInto_fresh k f a ⟨s, l.heap, l.kernel, reads⟩ args hfresh with
      ⟨⟨e, hfail⟩, hundone, hwhy⟩ | ⟨hsome, hnot, t, htlt, htbit, hkeeps⟩
    · rw [← heq] at hfail hundone
      rw [hsame] at hwhy
      refine Or.inl ⟨?_, hwhy.imp_left fun h => by omega⟩
      exact @conserves_of_undone k f a l args ⟨s, l.heap, l.kernel, reads⟩ e hfresh hpmm hfree rfl rfl
        hundone hfail
    · rw [← heq] at hkeeps
      rw [hsame] at hsome htlt htbit
      have htfree : l.paging.pmm.bitmap.test t = false := by
        rw [Pmm.test_mark, Bool.or_eq_false_iff] at htbit
        exact htbit.2
      exact Or.inr ⟨not_conserves htlt htfree hreturns ⟨hkeeps.failed, hkeeps.loaded⟩,
        by omega, hnot⟩

/-- **When a load conserves memory.**  A load that returns does so exactly if the file is not
valid; or page 0 is in use (so that its address is not taken for a failure) and the load ends
before it has mapped a page, because there is no page left after the directory's or because
a segment is refused and no header before it needs a page. -/
theorem conserves_iff (k : KernelImage) (f : ElfFile) (args : Args) (l : Loader)
    (hready : Ready k l.paging) (hreturns : (elfLoad k f args l).2 ≠ .lost) :
    Conserves k f args l ↔ (elfValidate f).2 ≠ none ∨
      ((l.paging.pmm.totalPages = 0 ∨ l.paging.pmm.bitmap.test 0 = true) ∧
        (l.paging.pmm.available ≤ 1 ∨ f.RefusedEarly)) := by
  cases hvalid : (elfValidate f).2 with
  | some e =>
    refine iff_of_true ?_ (Or.inl nofun)
    have hload : elfLoad k f args l = (l.read (elfValidate f).1.reverse, .failed e) := by
      unfold elfLoad
      simp only [hvalid]
    unfold Conserves
    rw [hload]
    exact ⟨rfl, rfl, rfl⟩
  | none =>
    rw [or_iff_right (fun h => h rfl)]
    rcases Pmm.pmmAllocPage_cases hready.total_le with ⟨hall, halloc⟩ |
      ⟨q, hq, hbit, hfirst, halloc⟩
    · -- Every page is in use.
      have hav := Pmm.available_of_full hall
      obtain ⟨hres, hpaging, hheap, hkernel⟩ := @elfLoad_of_noPage k f l args _ hvalid halloc
      have hzero : l.paging.pmm.totalPages = 0 ∨ l.paging.pmm.bitmap.test 0 = true := by
        rcases Nat.eq_zero_or_pos l.paging.pmm.totalPages with h | h
        · exact Or.inl h
        · exact Or.inr (hall 0 h)
      refine iff_of_true ?_ ⟨hzero, Or.inl (by omega)⟩
      unfold Conserves
      generalize elfLoad k f args l = r at hres hpaging hheap hkernel
      obtain ⟨l', result⟩ := r
      cases hres
      exact ⟨by rw [hpaging], hheap, by rw [hkernel]⟩
    · rcases Nat.eq_zero_or_pos q with rfl | hpos
      · -- Page 0 is taken, and its address is `NULL`.
        obtain ⟨hres, hpaging, _, _⟩ := @elfLoad_of_noPage k f l args _ hvalid halloc
        refine iff_of_false ?_ fun h => h.1.elim (by omega) (by simp [hbit])
        unfold Conserves
        generalize elfLoad k f args l = r at hres hpaging
        obtain ⟨l', result⟩ := r
        cases hres
        rintro ⟨hbitmap, _⟩
        have htest : l'.paging.pmm.bitmap.test 0 = true := by
          rw [hpaging]
          simp
        rw [hbitmap, hbit] at htest
        cases htest
      · have hzero := hfirst 0 hpos
        have hav := Pmm.available_mark hzero hq hbit
        rcases conserves_cases hready hreturns hvalid (by omega) with ⟨hcons, hwhy⟩ |
          ⟨hnot, hmore, hrefused⟩
        · exact iff_of_true hcons ⟨Or.inr hzero, hwhy⟩
        · exact iff_of_false hnot fun h => h.2.elim (by omega) hrefused

/-- One segment at `0x08048000`, below `USER_BASE`. -/
def lowFile : ElfFile := fileOf (ehdrBytes ++
  [1, 0, 0, 0, 0, 0, 0, 0, 0, 0x80, 4, 8, 0, 0x80, 4, 8,
   84, 0, 0, 0, 0, 16, 0, 0, 5, 0, 0, 0, 0, 16, 0, 0]) (by decide)

/-- A load that is refused at its first segment conserves memory. -/
theorem conserves_lowFile :
    (elfLoad AddressSpaces.smallImage lowFile smallArgs smallLoader).2 =
      .failed (.segmentBelow 0x8048000) ∧
    Conserves AddressSpaces.smallImage lowFile smallArgs smallLoader := by
  have hres : (elfLoad AddressSpaces.smallImage lowFile smallArgs smallLoader).2 =
      .failed (.segmentBelow 0x8048000) := by decide +kernel
  have hrefused : lowFile.RefusedEarly :=
    ⟨0, le_refl 0, by decide +kernel, fun j' h₁ h₂ => by omega, by decide +kernel, by decide +kernel⟩
  have hreturns : (elfLoad AddressSpaces.smallImage lowFile smallArgs smallLoader).2 ≠ .lost := by
    rw [hres]
    nofun
  have h := conserves_iff AddressSpaces.smallImage lowFile smallArgs smallLoader
    (Ready.init _ _ _ _) hreturns
  have hzero : smallLoader.paging.pmm.bitmap.test 0 = true := by decide +kernel
  refine ⟨hres, ?_⟩
  rw [h]
  right
  constructor
  · right
    exact hzero
  · right
    exact hrefused

/-- The load of a plain file succeeds, and its pages are never given back. -/
theorem pages_never_freed :
    (elfLoad AddressSpaces.smallImage plainFile smallArgs smallLoader).2 = .pid 1 ∧
    ¬ Conserves AddressSpaces.smallImage plainFile smallArgs smallLoader := by
  have hres := elfLoad_plainFile
  have hvalid : (elfValidate plainFile).2 = none := by decide +kernel
  have hfree : smallLoader.paging.pmm.available = 19 := by decide +kernel
  have haccepted : plainFile.Accepted 0 := by decide +kernel
  have hphnum : plainFile.phnum = 1 := by decide +kernel
  refine ⟨hres, ?_⟩
  rcases conserves_cases (Ready.init _ _ _ _ : Ready AddressSpaces.smallImage smallLoader.paging)
    (by rw [hres]; nofun) hvalid (by omega) with ⟨_, hfew | ⟨j, _, hj, _, _, hrefused⟩⟩ | ⟨hnot, _⟩
  · omega
  · obtain rfl : j = 0 := by omega
    exact absurd haccepted hrefused
  · exact hnot

end Loader

end Microkernel

/-
# Address spaces over whole runs

Directories made by `paging_create_isolated_space` and any calls of `paging_map_user` on
them, with the pages that are used as directories and tables.  Every directory shares the
kernel's tables outside the entries 256 to 767: what `paging_map_user` writes there is
seen by the kernel and by every other address space.
-/
import Microkernel.Owners
import Microkernel.PmmRuns

namespace Microkernel

/-- The paging state with the pages in use: the directories, the tables that were made
for them (the table, its directory and the entry) and pages held by others; and the calls
of `paging_map_user` so far, as directory and virtual page. -/
structure AddressSpaces where
  paging : Paging
  spaces : List ℕ
  tables : List (ℕ × ℕ × ℕ)
  held : List ℕ
  calls : List (ℕ × ℕ)

/-- What the kernel does with address spaces and pages. -/
inductive PagingOp where
  | create
  | mapUser (pd : ℕ) (virt phys flags : BitVec 32)
  | allocPage
  | freePage (f : ℕ)

namespace AddressSpaces

variable (k : KernelImage) (c : AddressSpaces)

/-- The entry of the directory for the address is missing. -/
def Absent (pd : ℕ) (virt : BitVec 32) : Prop :=
  hasFlag (c.paging.mem pd (pdIdx virt)) pagePresent = false

instance (pd : ℕ) (virt : BitVec 32) : Decidable (c.Absent pd virt) := by
  unfold Absent
  infer_instance

def mapUser (pd : ℕ) (virt phys flags : BitVec 32) : AddressSpaces :=
  { c with
    paging := c.paging.pagingMapUser k (pd * 4096) virt phys flags
    tables := if c.Absent pd virt ∧ c.paging.pmm.pmmAllocPage.2 ≠ 0 then
        (c.paging.pmm.pmmAllocPage.2 / 4096, pd, pdIdx virt) :: c.tables
      else c.tables
    calls := (pd, pageOf virt) :: c.calls }

def exec : PagingOp → AddressSpaces
  | .create =>
    { c with
      paging := (c.paging.pagingCreateIsolatedSpace k).1
      spaces := if (c.paging.pagingCreateIsolatedSpace k).2 = 0 then c.spaces
        else (c.paging.pagingCreateIsolatedSpace k).2 / 4096 :: c.spaces }
  | .mapUser pd virt phys flags => c.mapUser k pd virt phys flags
  | .allocPage =>
    { c with
      paging := ⟨c.paging.mem, c.paging.pmm.pmmAllocPage.1⟩
      held := if c.paging.pmm.pmmAllocPage.2 = 0 then c.held
        else c.paging.pmm.pmmAllocPage.2 / 4096 :: c.held }
  | .freePage f =>
    { c with
      paging := ⟨c.paging.mem, c.paging.pmm.pmmFreePage (f * 4096)⟩
      held := c.held.erase f }

/-- The calls considered: a page is mapped in a directory that was made, and not over the
kernel's view of its own directory and tables; a page that is freed is held. -/
def Allowed : PagingOp → Prop
  | .create => True
  | .mapUser pd virt _ _ => pd ∈ c.spaces ∧ ¬ k.IsTable (pageOf virt)
  | .allocPage => True
  | .freePage f => f ∈ c.held

/-- After `pmm_init` and `paging_init`. -/
def init (m : PageMemory) (pmmKb memKb : ℕ) : AddressSpaces :=
  ⟨⟨pagingInit k m memKb, Pmm.pmmInit k.toKernelEnd pmmKb⟩, [], [], [], []⟩

def Step (c : AddressSpaces) (op : PagingOp) (c' : AddressSpaces) : Prop :=
  c.Allowed k op ∧ c.exec k op = c'

/-! ## The invariant -/

/-- The pages in use for address spaces or held. -/
def owned : List ℕ := c.spaces ++ (c.tables.map fun t => t.1) ++ c.held

/-- Directories and tables are pages of their own; the shared entries lead to the kernel's
tables, the others to tables made for them or, if there was no page left, to page 0. -/
structure Inv : Prop where
  kernelDir : KernelDir k c.paging.mem
  total_le : c.paging.pmm.totalPages ≤ maxPages
  kernelUsed : ∀ q, q < Pmm.firstPage k.toKernelEnd → c.paging.pmm.bitmap.test q = true
  owned_used : ∀ f ∈ c.owned, Pmm.firstPage k.toKernelEnd ≤ f ∧ f < c.paging.pmm.totalPages ∧
    c.paging.pmm.bitmap.test f = true
  nodup : c.owned.Nodup
  shared : ∀ a ∈ c.spaces, ∀ i < 1024, ¬ Private i →
    c.paging.mem a i = tableLink (k.pageTables + i)
  own : ∀ a ∈ c.spaces, ∀ i, Private i → c.paging.mem a i = 0 ∨
    c.paging.mem a i = tableLink 0 ∨
    ∃ q, (q, a, i) ∈ c.tables ∧ c.paging.mem a i = tableLink q

/-- Who has the pages. -/
def owners : PageOwners := ⟨c.spaces, c.tables, c.held⟩

variable {k c}

/-- The invariant is the account of the pages, with page 0 in use. -/
theorem Inv.linked (h : Inv k c) : Linked k c.owners c.paging where
  kernelDir := h.kernelDir
  total_le := h.total_le
  kernelUsed := fun q _ hq => h.kernelUsed q hq
  owned_used := h.owned_used
  nodup := h.nodup
  shared := h.shared
  own := h.own

theorem Inv.of_linked (h : Linked k c.owners c.paging) (hzero : c.paging.pmm.bitmap.test 0 = true) :
    Inv k c where
  kernelDir := h.kernelDir
  total_le := h.total_le
  kernelUsed := fun q hq => by
    rcases Nat.eq_zero_or_pos q with rfl | hpos
    · exact hzero
    · exact h.kernelUsed q hpos hq
  owned_used := h.owned_used
  nodup := h.nodup
  shared := h.shared
  own := h.own

end AddressSpaces

namespace AddressSpaces.Inv

variable {k : KernelImage} {c : AddressSpaces}

theorem zeroUsed (h : Inv k c) : c.paging.pmm.bitmap.test 0 = true :=
  h.kernelUsed 0 k.firstPage_pos

theorem lt_of_owned (h : Inv k c) {f : ℕ} (hf : f ∈ c.owned) : f < 2 ^ 20 :=
  h.linked.lt_of_owned hf

theorem not_isTable (h : Inv k c) {f : ℕ} (hf : f ∈ c.owned) : ¬ k.IsTable f :=
  h.linked.not_isTable hf

theorem ne_zero (h : Inv k c) {f : ℕ} (hf : f ∈ c.owned) : f ≠ 0 := h.linked.ne_zero hf

theorem mem_owned_of_space {a : ℕ} (ha : a ∈ c.spaces) : a ∈ c.owned :=
  @PageOwners.mem_owned_of_space c.owners a ha

theorem mem_owned_of_table {q a i : ℕ} (hq : (q, a, i) ∈ c.tables) : q ∈ c.owned :=
  @PageOwners.mem_owned_of_table c.owners q a i hq

/-- A table is no directory. -/
theorem table_ne_space (h : Inv k c) {q a i a' : ℕ} (hq : (q, a, i) ∈ c.tables)
    (ha : a' ∈ c.spaces) : q ≠ a' := (h.linked.table_ne_space hq ha).symm

/-- The page `pmm_alloc_page` finds is in no use. -/
theorem alloc_cases (h : Inv k c) :
    c.paging.pmm.pmmAllocPage = (c.paging.pmm, 0) ∨
    ∃ q, q < c.paging.pmm.totalPages ∧ Pmm.firstPage k.toKernelEnd ≤ q ∧ q ∉ c.owned ∧ q ≠ 0 ∧
      c.paging.pmm.pmmAllocPage = (c.paging.pmm.mark q, q * 4096) := by
  rcases Pmm.pmmAllocPage_available h.total_le h.zeroUsed with ⟨_, heq⟩ | ⟨_, _, _, _, heq, _⟩
  · exact Or.inl heq
  · rcases h.linked.alloc_cases with ⟨hnull, _⟩ | ⟨q, hlt, hfirst, _, hfresh, halloc⟩
    · rw [heq] at hnull
      dsimp only at hnull
      omega
    · have hpos := k.firstPage_pos
      exact Or.inr ⟨q, hlt, hfirst, hfresh, by omega, halloc⟩

end AddressSpaces.Inv

/-! ## One call of `paging_map_user` -/

/-- The table in which a call of `paging_map_user` writes its entry: a kernel table, the
table the directory has, or a new one. -/
inductive MapTable (k : KernelImage) (c : AddressSpaces) (a i : ℕ) : ℕ → Bool → Prop where
  | shared : ¬ AddressSpaces.Private i → MapTable k c a i (k.pageTables + i) false
  | own (q : ℕ) : AddressSpaces.Private i → q = 0 ∨ (q, a, i) ∈ c.tables →
      c.paging.mem a i = tableLink q → MapTable k c a i q false
  | noPage : AddressSpaces.Private i → c.paging.mem a i = 0 →
      c.paging.pmm.pmmAllocPage = (c.paging.pmm, 0) → MapTable k c a i 0 true
  | fresh (q : ℕ) : AddressSpaces.Private i → c.paging.mem a i = 0 → q ∉ c.owned → q ≠ 0 →
      Pmm.firstPage k.toKernelEnd ≤ q → q < c.paging.pmm.totalPages →
      c.paging.pmm.pmmAllocPage = (c.paging.pmm.mark q, q * 4096) → MapTable k c a i q true

namespace AddressSpaces.Inv

variable {k : KernelImage} {c : AddressSpaces}

/-- The words after a call: the windows are closed, the entry is in the table, the
directory leads to the table, and a new table has no other entry.  A new table is a page
that was free, unless there was none. -/
theorem mem_mapUser (h : Inv k c) {a : ℕ} (ha : a ∈ c.spaces) (virt phys flags : BitVec 32) :
    ∃ q new, MapTable k c a (pdIdx virt) q new ∧
      (c.mapUser k a virt phys flags).paging.pmm =
        (if new = true then c.paging.pmm.pmmAllocPage.1 else c.paging.pmm) ∧
      (c.mapUser k a virt phys flags).tables =
        (if new = true ∧ q ≠ 0 then (q, a, pdIdx virt) :: c.tables else c.tables) ∧
      ∀ f i, (c.mapUser k a virt phys flags).paging.mem f i =
        if Paging.IsWindow k f i then 0
        else if f = q ∧ i = ptIdx virt then Paging.userEntry virt phys flags
        else if f = a ∧ i = pdIdx virt then tableLink q
        else if new = true ∧ f = q then 0 else c.paging.mem f i := by
  obtain ⟨q, new, hq, heq⟩ := h.linked.linkedTable ha virt phys flags
  have hpaging : (c.mapUser k a virt phys flags).paging = _ := heq
  rw [hpaging]
  -- a table is new where the entry was missing
  have hold : c.paging.mem a (pdIdx virt) = tableLink q →
      ¬ (c.Absent a virt ∧ c.paging.pmm.pmmAllocPage.2 ≠ 0) := by
    rintro hlink ⟨habs, _⟩
    unfold Absent at habs
    rw [hlink, hasFlag_tableLink] at habs
    cases habs
  have habsent : c.paging.mem a (pdIdx virt) = 0 → c.Absent a virt := fun hzero => by
    unfold Absent
    rw [hzero]
    rfl
  have htables : (c.mapUser k a virt phys flags).tables =
      if c.Absent a virt ∧ c.paging.pmm.pmmAllocPage.2 ≠ 0 then
        (c.paging.pmm.pmmAllocPage.2 / 4096, a, pdIdx virt) :: c.tables else c.tables := rfl
  refine ⟨q, new, ?_, rfl, ?_, fun f i => rfl⟩
  · cases hq with
    | shared hpriv => exact .shared hpriv
    | own q hpriv hq hlink => exact .own q hpriv hq hlink
    | noPage hpriv hzero halloc =>
      refine .noPage hpriv hzero ?_
      rcases h.alloc_cases with heq' | ⟨q, _, _, _, hne, heq'⟩
      · exact heq'
      · rw [heq'] at halloc
        dsimp only at halloc
        omega
    | fresh q hpriv hzero _ hfresh hfirst hlt halloc =>
      have hpos := k.firstPage_pos
      exact .fresh q hpriv hzero hfresh (by omega) hfirst hlt halloc
  · rw [htables]
    cases hq with
    | shared hpriv =>
      rw [if_neg (hold (h.shared a ha _ (pdIdx_lt virt) hpriv)), if_neg fun hh => by cases hh.1]
    | own q _ _ hlink => rw [if_neg (hold hlink), if_neg fun hh => by cases hh.1]
    | noPage _ _ halloc => rw [if_neg fun hh => hh.2 halloc, if_neg fun hh => hh.2 rfl]
    | fresh q _ hzero _ _ hfirst _ halloc =>
      have hpos := k.firstPage_pos
      have hdiv : c.paging.pmm.pmmAllocPage.2 / 4096 = q := by
        rw [halloc]
        exact Nat.mul_div_cancel q (by norm_num)
      rw [hdiv, if_pos ⟨habsent hzero, by rw [halloc]; dsimp only; omega⟩,
        if_pos ⟨rfl, by omega⟩]

/-- The table of a call, in the account. -/
theorem linkedTable_of (h : Inv k c) {a i q : ℕ} {new : Bool} (hq : MapTable k c a i q new) :
    LinkedTable k c.owners c.paging a i q new := by
  cases hq with
  | shared hpriv => exact .shared hpriv
  | own q hpriv hq hlink => exact .own q hpriv hq hlink
  | noPage hpriv hzero halloc => exact .noPage hpriv hzero (by rw [halloc])
  | fresh q hpriv hzero hfresh hne hfirst hlt halloc =>
    refine .fresh q hpriv hzero ?_ hfresh hfirst hlt halloc
    rcases Pmm.pmmAllocPage_cases h.total_le with ⟨_, heq⟩ | ⟨q', _, hbit, _, heq⟩
    · rw [heq] at halloc
      have := congrArg Prod.snd halloc
      dsimp only at this
      omega
    · rw [heq] at halloc
      have := congrArg Prod.snd halloc
      dsimp only at this
      obtain rfl : q' = q := by omega
      exact hbit

/-- The directories after a call: only the entry of the address may be new. -/
theorem mem_dir_mapUser (h : Inv k c) {a : ℕ} (ha : a ∈ c.spaces) (virt phys flags : BitVec 32)
    {q : ℕ} {new : Bool} (hq : MapTable k c a (pdIdx virt) q new)
    (hmem : ∀ f i, (c.mapUser k a virt phys flags).paging.mem f i =
        if Paging.IsWindow k f i then 0
        else if f = q ∧ i = ptIdx virt then Paging.userEntry virt phys flags
        else if f = a ∧ i = pdIdx virt then tableLink q
        else if new = true ∧ f = q then 0 else c.paging.mem f i) :
    (∀ i, (c.mapUser k a virt phys flags).paging.mem k.pageDirectory i =
      c.paging.mem k.pageDirectory i) ∧
    ∀ a' ∈ c.spaces, ∀ i, (c.mapUser k a virt phys flags).paging.mem a' i =
      if a' = a ∧ i = pdIdx virt then tableLink q else c.paging.mem a' i := by
  obtain ⟨hdir, hspace⟩ := @Linked.mappedMem_dir k c.owners c.paging a q new virt phys flags
    h.linked ha (h.linkedTable_of hq)
  exact ⟨fun i => (hmem _ i).trans (hdir i), fun a' ha' i => (hmem a' i).trans (hspace a' ha' i)⟩

/-! ## The invariant along runs -/

/-- Taking a page keeps page 0 in use. -/
theorem zeroUsed_alloc (h : Inv k c) : c.paging.pmm.pmmAllocPage.1.bitmap.test 0 = true := by
  rcases h.alloc_cases with heq | ⟨q, _, _, _, _, heq⟩
  · rw [heq]
    exact h.zeroUsed
  · rw [heq, Pmm.test_mark, h.zeroUsed, Bool.or_true]

theorem mapUser (h : Inv k c) {a : ℕ} (ha : a ∈ c.spaces) (virt phys flags : BitVec 32) :
    Inv k (c.mapUser k a virt phys flags) := by
  obtain ⟨q, new, hq, hpmm, htab, hmem⟩ := h.mem_mapUser ha virt phys flags
  have hlinked := @Linked.mapUser k c.owners c.paging a q new virt phys flags h.linked ha
    (h.linkedTable_of hq)
  have hpaging : (c.mapUser k a virt phys flags).paging =
      ⟨mappedMem k c.paging a q new virt phys flags,
        if new = true then c.paging.pmm.pmmAllocPage.1 else c.paging.pmm⟩ := by
    rw [← hpmm]
    have heta : (c.mapUser k a virt phys flags).paging =
        ⟨(c.mapUser k a virt phys flags).paging.mem, (c.mapUser k a virt phys flags).paging.pmm⟩ :=
      rfl
    rw [heta]
    congr 1
    funext f i
    exact hmem f i
  have howners : (c.mapUser k a virt phys flags).owners =
      c.owners.afterMap q a (pdIdx virt) new := by
    unfold owners PageOwners.afterMap PageOwners.addTable
    rw [htab]
    by_cases hnew : new = true
    · by_cases hzero : q = 0
      · rw [if_pos hnew, if_pos hzero, if_neg fun hh => hh.2 hzero]
        rfl
      · rw [if_pos hnew, if_neg hzero, if_pos ⟨hnew, hzero⟩]
        rfl
    · rw [if_neg hnew, if_neg fun hh => hnew hh.1]
      rfl
  apply of_linked
  · rw [howners, hpaging]
    exact hlinked
  · rw [hpmm]
    split_ifs
    · exact h.zeroUsed_alloc
    · exact h.zeroUsed

/-- What `paging_create_isolated_space` does: nothing without a free page, else the free page
becomes a directory. -/
theorem exec_create (h : Inv k c) : c.exec k .create = c ∨
    ∃ q, q < c.paging.pmm.totalPages ∧ Pmm.firstPage k.toKernelEnd ≤ q ∧ q ∉ c.owned ∧ q ≠ 0 ∧
      c.exec k .create = ⟨⟨fun f i => if f = q ∧ i < 1024 then
          if 256 ≤ i ∧ i < 768 then 0 else c.paging.mem k.pageDirectory i
        else c.paging.mem f i, c.paging.pmm.mark q⟩, q :: c.spaces, c.tables, c.held, c.calls⟩ := by
  rcases h.alloc_cases with halloc | ⟨q, hlt, hfirst, hfresh, hne, halloc⟩
  · left
    unfold exec Paging.pagingCreateIsolatedSpace
    rw [halloc]
    rfl
  · have hdiv : q * 4096 / 4096 = q := by omega
    have hq0 : q * 4096 ≠ 0 := by omega
    refine Or.inr ⟨q, hlt, hfirst, hfresh, hne, ?_⟩
    unfold exec Paging.pagingCreateIsolatedSpace
    simp only [halloc, hdiv]
    rw [if_neg hq0]
    simp only [hdiv]
    rw [if_neg hq0]

theorem create (h : Inv k c) : Inv k (c.exec k .create) := by
  have hpaging : (c.exec k .create).paging = (c.paging.pagingCreateIsolatedSpace k).1 := rfl
  have hspaces : (c.exec k .create).spaces =
      if (c.paging.pagingCreateIsolatedSpace k).2 = 0 then c.spaces
        else (c.paging.pagingCreateIsolatedSpace k).2 / 4096 :: c.spaces := rfl
  rcases h.linked.create with ⟨hnull, heq, hlinked⟩ | ⟨q, _, _, hne, haddr, hpmm, _, _, hlinked⟩
  · apply of_linked
    · show Linked k ⟨(c.exec k .create).spaces, c.tables, c.held⟩ _
      rw [hspaces, if_pos hnull]
      exact hlinked
    · rw [hpaging, heq]
      exact h.zeroUsed_alloc
  · apply of_linked
    · show Linked k ⟨(c.exec k .create).spaces, c.tables, c.held⟩ _
      rw [hspaces, haddr, if_neg (by omega), Nat.mul_div_cancel q (by norm_num)]
      exact hlinked
    · rw [hpaging, hpmm, Pmm.test_mark, h.zeroUsed, Bool.or_true]

theorem allocPage (h : Inv k c) : Inv k (c.exec k .allocPage) := by
  rcases h.alloc_cases with halloc | ⟨q, hlt, hfirst, hfresh, hne, halloc⟩
  · have hexec : c.exec k .allocPage = c := by
      unfold exec
      rw [halloc]
      rfl
    rw [hexec]
    exact h
  · have hdiv : q * 4096 / 4096 = q := by omega
    have hexec : c.exec k .allocPage =
        ⟨⟨c.paging.mem, c.paging.pmm.mark q⟩, c.spaces, c.tables, q :: c.held, c.calls⟩ := by
      unfold exec
      rw [halloc]
      simp only [hdiv]
      rw [if_neg (by omega)]
    rw [hexec]
    exact of_linked (h.linked.hold hfirst hlt hfresh) (by
      rw [Pmm.test_mark, h.zeroUsed, Bool.or_true])

theorem freePage (h : Inv k c) {f : ℕ} (hf : f ∈ c.held) : Inv k (c.exec k (.freePage f)) := by
  have hown := PageOwners.mem_owned_of_held (o := c.owners) hf
  refine of_linked (h.linked.free_held hf) ?_
  show (c.paging.pmm.pmmFreePage (f * 4096)).bitmap.test 0 = true
  rw [h.linked.test_free hown, h.zeroUsed, decide_eq_false (h.linked.ne_zero hown).symm]
  rfl

/-- `pmm_init` and `paging_init` establish the invariant. -/
theorem init (k : KernelImage) (m : PageMemory) (pmmKb memKb : ℕ) :
    Inv k (AddressSpaces.init k m pmmKb memKb) := by
  have hpages := PageClient.inv_init k.toKernelEnd pmmKb
  refine ⟨fun t _ => ?_, hpages.counted.total_le, hpages.kernel, fun f hf => ?_, List.nodup_nil,
    fun a ha => ?_, fun a ha => ?_⟩
  · show pagingInit k m memKb k.pageDirectory t = _
    unfold pagingInit
    rw [if_pos rfl]
    rfl
  · cases hf
  · cases ha
  · cases ha

/-- **Every allowed call keeps the invariant.** -/
theorem exec (h : Inv k c) {op : PagingOp} (hop : c.Allowed k op) : Inv k (c.exec k op) := by
  cases op with
  | create => exact h.create
  | mapUser pd virt phys flags => exact h.mapUser hop.1 virt phys flags
  | allocPage => exact h.allocPage
  | freePage f => exact h.freePage hop

theorem of_run {m : PageMemory} {pmmKb memKb : ℕ} {ops : List PagingOp}
    (hrun : Run (Step k) (AddressSpaces.init k m pmmKb memKb) ops c) : Inv k c := by
  refine hrun.invariant (fun c op c' hstep hinv => ?_) (init k m pmmKb memKb)
  rw [← hstep.2]
  exact hinv.exec hstep.1

end AddressSpaces.Inv

end Microkernel

/-
# The pages of the segments of a loaded file

A load that makes a task has made a run of steps that the file alone determines: one for each
page of each segment in the order of the headers, then the stack, then the text buffer.  The
loader compares only the start of a segment with `USER_BASE`.  Its end is a sum of 32 bits, and
a segment that runs past the top of the address space goes on at address 0, or gets no page at
all.
-/
import Microkernel.LoadSteps

namespace Microkernel

/-! ## The steps of a load that succeeds -/

/-- The steps for `n` pages of a segment from page `i` on. -/
def segmentActs (f : ElfFile) (p : Phdr) (i n : ℕ) : List LoadAct :=
  (List.range' i n).map fun j =>
    .segment (pageBytes f (pageCopy p (p.pageVaddr j))) (p.pageVaddr j) p.mapFlags

/-- The steps for header `i`. -/
def ElfFile.headerActs (f : ElfFile) (i : ℕ) : List LoadAct :=
  if f.Skipped i then [] else segmentActs f (f.phdr i) 0 (f.phdr i).numPages

/-- The steps for `n` pages of the stack from page `i` on. -/
def stackActs (i n : ℕ) : List LoadAct :=
  (List.range' i n).map fun j => .stack (userStackTop - userStackPages * 4096 + j * 4096)

/-- The steps for the text buffer, if it is asked for. -/
def vgaActs (args : Loader.Args) : List LoadAct :=
  if args.flags &&& 1 ≠ 0 then
    [.vga userVgaVaddr vgaPhysBase, .vga (userVgaVaddr + 4096) (vgaPhysBase + 4096)]
  else []

/-- The steps of a load. -/
def ElfFile.loadActs (f : ElfFile) (args : Loader.Args) : List LoadAct :=
  (List.range' 0 f.phnum).flatMap f.headerActs ++ stackActs 0 userStackPages ++ vgaActs args

/-- Header `i` is passed over, or it is a segment that passes the checks and whose bytes are
copied page by page. -/
def ElfFile.Loads (f : ElfFile) (i : ℕ) : Prop :=
  f.Skipped i ∨ f.Accepted i ∧
    ∀ j < (f.phdr i).numPages, copyFits (pageCopy (f.phdr i) ((f.phdr i).pageVaddr j))

namespace Loader

variable {k : KernelImage} {f : ElfFile} {pd : ℕ} {l : Loader}

theorem run_mapSegmentLoop {p : Phdr} {i n : ℕ}
    (hdone : (mapSegmentLoop k f pd p l i n).2 = .done) :
    (∀ j, i ≤ j → j < i + n → copyFits (pageCopy p (p.pageVaddr j))) ∧
      Run (LoadAct.Step k pd) l.paging (segmentActs f p i n)
        (mapSegmentLoop k f pd p l i n).1.paging := by
  induction n generalizing l i with
  | zero => exact ⟨fun j h₁ h₂ => by omega, .nil _⟩
  | succ n ih =>
    unfold mapSegmentLoop at hdone ⊢
    dsimp only at hdone ⊢
    by_cases hpage : l.paging.pmm.pmmAllocPage.2 = 0
    · rw [if_pos hpage] at hdone
      cases hdone
    · rw [if_neg hpage] at hdone ⊢
      by_cases hfits : copyFits (pageCopy p (p.pageVaddr i))
      · rw [if_pos hfits] at hdone ⊢
        obtain ⟨hrest, hrun⟩ := ih hdone
        refine ⟨fun j h₁ h₂ => ?_, .cons ⟨hpage, rfl⟩ hrun⟩
        by_cases hji : j = i
        · rw [hji]
          exact hfits
        · exact hrest j (by omega) (by omega)
      · rw [if_neg hfits] at hdone
        cases hdone

theorem run_loadHeader {i : ℕ} (hdone : (loadHeader k f pd i l).2 = .done) :
    f.Loads i ∧
      Run (LoadAct.Step k pd) l.paging (f.headerActs i) (loadHeader k f pd i l).1.paging := by
  unfold ElfFile.headerActs
  rcases @loadHeader_cases k f l pd i with ⟨htype, heq⟩ | ⟨_, hmem, heq⟩ | ⟨_, _, _, heq⟩ |
    ⟨_, _, _, _, heq⟩ | ⟨hacc, r, hr, _, hprogress, hsame, _⟩
  · have hskip : f.Skipped i := Or.inl htype
    rw [heq, if_pos hskip]
    exact ⟨Or.inl hskip, .nil _⟩
  · have hskip : f.Skipped i := Or.inr hmem
    rw [heq, if_pos hskip]
    exact ⟨Or.inl hskip, .nil _⟩
  · rw [heq] at hdone
    cases hdone
  · rw [heq] at hdone
    cases hdone
  · have hskip : ¬ f.Skipped i := fun hs => hs.elim (fun h => h hacc.1) hacc.2.1
    rw [hprogress] at hdone
    rw [if_neg hskip, hsame hdone, hr]
    rw [hr] at hdone
    obtain ⟨hfits, hrun⟩ := run_mapSegmentLoop hdone
    exact ⟨Or.inr ⟨hacc, fun j hj => hfits j (Nat.zero_le j) (by omega)⟩, hrun⟩

theorem run_loadHeaders {i n : ℕ} (hdone : (loadHeaders k f pd l i n).2 = .done) :
    (∀ j, i ≤ j → j < i + n → f.Loads j) ∧
      Run (LoadAct.Step k pd) l.paging ((List.range' i n).flatMap f.headerActs)
        (loadHeaders k f pd l i n).1.paging := by
  induction n generalizing l i with
  | zero => exact ⟨fun j h₁ h₂ => by omega, .nil _⟩
  | succ n ih =>
    by_cases hhead : (loadHeader k f pd i l).2 = .done
    · obtain ⟨hpass, hrun⟩ := run_loadHeader hhead
      rw [loadHeaders_of_done hhead] at hdone ⊢
      obtain ⟨hrest, hruns⟩ := ih hdone
      refine ⟨fun j h₁ h₂ => ?_, ?_⟩
      · by_cases hji : j = i
        · rw [hji]
          exact hpass
        · exact hrest j (by omega) (by omega)
      · rw [List.range'_succ, List.flatMap_cons]
        exact hrun.append hruns
    · rw [loadHeaders_of_stop hhead] at hdone
      exact absurd hdone hhead

theorem run_mapStack {i n : ℕ} (hdone : (mapStack k pd l i n).2 = .done) :
    Run (LoadAct.Step k pd) l.paging (stackActs i n) (mapStack k pd l i n).1.paging := by
  induction n generalizing l i with
  | zero => exact .nil _
  | succ n ih =>
    unfold mapStack at hdone ⊢
    dsimp only at hdone ⊢
    by_cases hpage : l.paging.pmm.pmmAllocPage.2 = 0
    · rw [if_pos hpage] at hdone
      cases hdone
    · rw [if_neg hpage] at hdone ⊢
      exact .cons ⟨hpage, rfl⟩ (ih hdone)

theorem run_vga (args : Args) : Run (LoadAct.Step k pd) l.paging (vgaActs args)
    (if args.flags &&& 1 ≠ 0 then mapVga k pd l else l).paging := by
  unfold vgaActs
  split_ifs
  · exact .cons ⟨trivial, rfl⟩ (.cons ⟨trivial, rfl⟩ (.nil _))
  · exact .nil _

/-- The end of a load that makes a task leaves the page tables alone. -/
theorem paging_createTask {args : Args} {p : UInt32} (hpid : (createTask k args pd l).2 = .pid p) :
    (createTask k args pd l).1.paging = l.paging := by
  unfold createTask at hpid ⊢
  generalize l.heap.kmalloc kernelStackSize = r at hpid ⊢
  cases r with
  | none => cases hpid
  | some r =>
    obtain ⟨heap, kernelStack⟩ := r
    dsimp only at hpid ⊢
    by_cases hstack : kernelStack = 0
    · rw [if_pos hstack] at hpid
      cases hpid
    · rw [if_neg hstack] at hpid ⊢
      dsimp only [read] at hpid ⊢
      generalize l.kernel.taskCreateFromElf _ _ _ _ _ _ _ = made at hpid ⊢
      obtain ⟨kernel, res⟩ := made
      cases res with
      | yields => cases hpid
      | ret pid =>
        dsimp only at hpid ⊢
        by_cases hneg : pid < 0
        · rw [if_pos hneg] at hpid
          generalize heap.kfree kernelStack = r at hpid
          cases r with
          | none => cases hpid
          | some r => cases hpid
        · rw [if_neg hneg]

theorem run_loadInto {args : Args} {p : UInt32} (hpid : (loadInto k f args pd l).2 = .pid p) :
    (∀ i < f.phnum, f.Loads i) ∧
      Run (LoadAct.Step k pd) l.paging (f.loadActs args) (loadInto k f args pd l).1.paging := by
  unfold ElfFile.loadActs
  have hheaders := @run_loadHeaders k f pd l 0 f.phnum
  unfold loadInto at hpid ⊢
  generalize loadHeaders k f pd l 0 f.phnum = r₁ at hheaders hpid ⊢
  obtain ⟨l₁, progress₁⟩ := r₁
  cases progress₁ with
  | failed e => cases hpid
  | overrun => cases hpid
  | done =>
    obtain ⟨hpass, hrun₁⟩ := hheaders rfl
    have hstack := @run_mapStack k pd l₁ 0 userStackPages
    dsimp only at hpid ⊢
    generalize mapStack k pd l₁ 0 userStackPages = r₂ at hstack hpid ⊢
    obtain ⟨l₂, progress₂⟩ := r₂
    cases progress₂ with
    | failed e => cases hpid
    | overrun => cases hpid
    | done =>
      dsimp only at hpid ⊢
      rw [paging_createTask hpid]
      refine ⟨fun i hi => hpass i (Nat.zero_le i) (by omega), ?_⟩
      exact (hrun₁.append (hstack rfl)).append (run_vga args)

/-- **A load that makes a task** comes to every header, and its steps are those of the file, in
the new directory. -/
theorem run_elfLoad {args : Args} {p : UInt32} (hpid : (elfLoad k f args l).2 = .pid p) :
    (l.paging.pagingCreateIsolatedSpace k).2 ≠ 0 ∧ (∀ i < f.phnum, f.Loads i) ∧
      Run (LoadAct.Step k (l.paging.pagingCreateIsolatedSpace k).2)
        (l.paging.pagingCreateIsolatedSpace k).1 (f.loadActs args)
        (elfLoad k f args l).1.paging := by
  unfold elfLoad at hpid ⊢
  dsimp only [read] at hpid ⊢
  generalize (elfValidate f).2 = valid at hpid ⊢
  cases valid with
  | some e => cases hpid
  | none =>
    dsimp only at hpid ⊢
    by_cases hnull : (l.paging.pagingCreateIsolatedSpace k).2 = 0
    · rw [if_pos hnull] at hpid
      cases hpid
    · rw [if_neg hnull] at hpid ⊢
      obtain ⟨hpass, hrun⟩ := run_loadInto hpid
      exact ⟨hnull, hpass, hrun⟩

end Loader

/-! ## The pages of a segment -/

namespace Phdr

variable (p : Phdr)

/-- The page at `va` holds one of the bytes from `p_vaddr` to `p_vaddr + p_memsz`; addresses have
32 bits. -/
def Touches (va : ℕ) : Prop := ∃ j < p.memsz, va = (p.vaddr + j) % 2 ^ 32 / 4096 * 4096

variable {p}

/-- Up to the top of the address space the rounded end is right, or it is 0 for `2 ^ 32`. -/
theorem numPages_of_le (hbase : userBaseAddr ≤ p.vaddr) (hend : p.vaddr + p.memsz ≤ 2 ^ 32) :
    p.numPages = (p.vaddr + p.memsz + 0xFFF) / 4096 - p.vaddr / 4096 := by
  unfold userBaseAddr at hbase
  unfold numPages vaddrEnd vaddrStart sub32
  by_cases htop : p.vaddr + p.memsz + 0xFFF < 2 ^ 32
  · rw [Nat.mod_eq_of_lt htop]
    omega
  · have hzero : (p.vaddr + p.memsz + 0xFFF) % 2 ^ 32 / 4096 = 0 := by omega
    rw [hzero]
    omega

/-- Up to the top of the address space the pages are mapped one after the other. -/
theorem pageVaddr_of_le (hbase : userBaseAddr ≤ p.vaddr) (hend : p.vaddr + p.memsz ≤ 2 ^ 32) {j : ℕ}
    (hj : j < p.numPages) : p.pageVaddr j = p.vaddrStart + j * 4096 ∧
      p.vaddrStart + j * 4096 < p.vaddr + p.memsz := by
  rw [numPages_of_le hbase hend] at hj
  unfold pageVaddr vaddrStart
  omega

/-- A segment up to the top of the address space has the pages of its bytes. -/
theorem mapped_iff_touches (hbase : userBaseAddr ≤ p.vaddr) (hend : p.vaddr + p.memsz ≤ 2 ^ 32)
    (hmem : p.memsz ≠ 0) (va : ℕ) :
    (∃ j < p.numPages, va = p.pageVaddr j) ↔ p.Touches va := by
  have hle := p.vaddrStart_le
  have hlt := p.lt_vaddrStart
  constructor
  · rintro ⟨j, hj, rfl⟩
    obtain ⟨heq, hin⟩ := pageVaddr_of_le hbase hend hj
    rw [heq]
    -- The first byte of the segment in the page.
    refine ⟨max p.vaddr (p.vaddrStart + j * 4096) - p.vaddr, by omega, ?_⟩
    rw [Nat.mod_eq_of_lt (by omega)]
    unfold vaddrStart at *
    omega
  · rintro ⟨b, hb, rfl⟩
    rw [Nat.mod_eq_of_lt (by omega)]
    have hj : (p.vaddr + b - p.vaddrStart) / 4096 < p.numPages := by
      rw [numPages_of_le hbase hend]
      unfold vaddrStart
      omega
    refine ⟨_, hj, ?_⟩
    rw [(pageVaddr_of_le hbase hend hj).1]
    unfold vaddrStart at *
    omega

/-- A segment past the top of the address space has a byte at address 0. -/
theorem touches_zero (hvaddr : p.vaddr < 2 ^ 32) (hend : 2 ^ 32 < p.vaddr + p.memsz) :
    p.Touches 0 := by
  refine ⟨2 ^ 32 - p.vaddr, by omega, ?_⟩
  rw [Nat.add_sub_cancel' (by omega), Nat.mod_self]

end Phdr

/-! ## The segments of a file -/

namespace ElfFile

variable (f : ElfFile)

/-- One of the steps for header `i` maps a page at `va`. -/
def MapsFor (i va : ℕ) : Prop := ∃ bytes flags, LoadAct.segment bytes va flags ∈ f.headerActs i

/-- The pages mapped for each `PT_LOAD` segment are in user space, and they are the pages of its
bytes. -/
def SegmentsInUserSpace : Prop :=
  ∀ i < f.phnum, (f.phdr i).type = 1 →
    (∀ va, f.MapsFor i va → userBaseAddr ≤ va) ∧ ∀ va, f.MapsFor i va ↔ (f.phdr i).Touches va

variable {f}

theorem mapsFor_iff {i va : ℕ} :
    f.MapsFor i va ↔ ¬ f.Skipped i ∧ ∃ j < (f.phdr i).numPages, va = (f.phdr i).pageVaddr j := by
  unfold MapsFor headerActs segmentActs
  by_cases hskip : f.Skipped i
  · rw [if_pos hskip]
    simp [hskip]
  · rw [if_neg hskip]
    simp only [List.mem_map, List.mem_range'_1, LoadAct.segment.injEq, hskip, not_false_eq_true,
      true_and, zero_le, zero_add]
    constructor
    · rintro ⟨bytes, flags, j, hj, _, hva, _⟩
      exact ⟨j, hj, hva.symm⟩
    · rintro ⟨j, hj, hva⟩
      exact ⟨_, _, j, hj, rfl, hva.symm, rfl⟩

end ElfFile

namespace Loader

/-- **When the segments of a loaded file stay in user space.**  A load that makes a task has made
the steps of the file.  The pages mapped for every `PT_LOAD` segment are at or above `USER_BASE`
and cover exactly its bytes, rounded out to pages, if and only if no segment ends past the top
of the address space. -/
theorem segmentsInUserSpace_iff (k : KernelImage) (f : ElfFile) (args : Args) (l : Loader)
    {p : UInt32} (hpid : (elfLoad k f args l).2 = .pid p) :
    Run (LoadAct.Step k (l.paging.pagingCreateIsolatedSpace k).2)
      (l.paging.pagingCreateIsolatedSpace k).1 (f.loadActs args) (elfLoad k f args l).1.paging ∧
    (f.SegmentsInUserSpace ↔
      ∀ i < f.phnum, (f.phdr i).type = 1 → (f.phdr i).vaddr + (f.phdr i).memsz ≤ 2 ^ 32) := by
  obtain ⟨_, hpass, hrun⟩ := run_elfLoad hpid
  refine ⟨hrun, fun h i hi htype => ?_, fun h i hi htype => ?_⟩
  · have hvaddr : (f.phdr i).vaddr < 2 ^ 32 := f.mem.loadLE_lt _ 4
    by_contra hend
    -- The byte at address 0 is below `USER_BASE`, or its page is not mapped.
    obtain ⟨hbase, hpages⟩ := h i hi htype
    have hzero := hbase 0 ((hpages 0).mpr (Phdr.touches_zero hvaddr (by omega)))
    unfold userBaseAddr at hzero
    omega
  · have hend := h i hi htype
    by_cases hmem : (f.phdr i).memsz = 0
    · have hnone : ∀ va, ¬ f.MapsFor i va := fun va hva =>
        (ElfFile.mapsFor_iff.mp hva).1 (Or.inr hmem)
      refine ⟨fun va hva => absurd hva (hnone va), fun va => iff_of_false (hnone va) ?_⟩
      rintro ⟨j, hj, _⟩
      omega
    · have hskip : ¬ f.Skipped i := fun hs => hs.elim (fun hne => hne htype) hmem
      have hbase := ((hpass i hi).resolve_left hskip).1.2.2.1
      have hiff : ∀ va, f.MapsFor i va ↔ (f.phdr i).Touches va := fun va => by
        rw [ElfFile.mapsFor_iff, and_iff_right hskip, Phdr.mapped_iff_touches hbase hend hmem]
      refine ⟨fun va hva => ?_, hiff⟩
      obtain ⟨b, hb, rfl⟩ := (hiff va).mp hva
      rw [Nat.mod_eq_of_lt (by omega)]
      unfold userBaseAddr at *
      omega

/-- A plain file is loaded with its page where it belongs. -/
theorem segmentsInUserSpace_plainFile : plainFile.SegmentsInUserSpace := by
  exact (segmentsInUserSpace_iff AddressSpaces.smallImage plainFile smallArgs smallLoader
    elfLoad_plainFile).2.mpr (by decide +kernel)

/-- One segment of `0x1001` bytes at `0xFFFFF000`, none of them in the file. -/
def topFile : ElfFile := fileOf (ehdrBytes ++
  [1, 0, 0, 0, 0, 0, 0, 0, 0, 0xF0, 0xFF, 0xFF, 0, 0xF0, 0xFF, 0xFF,
   0, 0, 0, 0, 1, 0x10, 0, 0, 5, 0, 0, 0, 0, 16, 0, 0]) (by decide)

/-- The loader accepts it and maps a user page at address 0. -/
theorem page_at_zero :
    (elfLoad AddressSpaces.smallImage topFile smallArgs smallLoader).2 = .pid 1 ∧
    topFile.MapsFor 0 0 ∧ ¬ topFile.SegmentsInUserSpace := by
  have hmaps : topFile.MapsFor 0 0 := by
    rw [ElfFile.mapsFor_iff]
    exact ⟨by decide +kernel, 1, by decide +kernel, by decide +kernel⟩
  refine ⟨by decide +kernel, hmaps, fun h => ?_⟩
  have hbase := (h 0 (by decide +kernel) (by decide +kernel)).1 0 hmaps
  exact absurd hbase (by decide)

end Loader

end Microkernel

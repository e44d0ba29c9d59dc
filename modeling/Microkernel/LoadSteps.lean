/-
# A load, step by step

`elf_load` makes a directory and maps pages in it: pages of segments, pages of the stack and,
perhaps, the text buffer.  At the end the directory belongs to a new task, or it is destroyed.
What a load does to the page tables is a run of these few steps, and what every step keeps
every load keeps.
-/
import Microkernel.Accounts
import Microkernel.ElfMemory

namespace Microkernel

/-! ## The steps -/

/-- The steps of a load that concern the page tables. -/
inductive LoadAct where
  /-- A page is taken, filled and mapped. -/
  | segment (bytes : Memory) (va : ℕ) (flags : BitVec 32)
  /-- A page is taken, cleared through the window at `TEMP_MAP_VA` and mapped. -/
  | stack (va : ℕ)
  /-- A page of the text buffer is mapped. -/
  | vga (va phys : ℕ)
  /-- The allocator has no page. -/
  | noPage

namespace LoadAct

variable (k : KernelImage) (pd : ℕ) (s : Paging)

/-- The frame at `framePhys` is cleared through the window. -/
def clearFrame (framePhys : ℕ) : Paging :=
  let s := s.pagingMapPage k tempMapVa (BitVec.ofNat 32 framePhys) (pagePresent ||| pageWrite)
  let s : Paging := { s with mem := s.mem.zeroPage (s.viewed k tempMapVa) }
  s.pagingUnmapPage k tempMapVa

/-- The state after a step. -/
def exec : LoadAct → Paging
  | .segment bytes va flags =>
    let r := s.pmm.pmmAllocPage
    Paging.pagingMapUser k ⟨s.mem.fillPage (r.2 / 4096) bytes, r.1⟩ pd (BitVec.ofNat 32 va)
      (BitVec.ofNat 32 r.2) flags
  | .stack va =>
    let r := s.pmm.pmmAllocPage
    (clearFrame k ⟨s.mem, r.1⟩ r.2).pagingMapUser k pd (BitVec.ofNat 32 va) (BitVec.ofNat 32 r.2)
      (pagePresent ||| pageWrite ||| pageUser)
  | .vga va phys => s.pagingMapUser k pd (BitVec.ofNat 32 va) (BitVec.ofNat 32 phys)
      (pagePresent ||| pageWrite ||| pageUser)
  | .noPage => ⟨s.mem, s.pmm.pmmAllocPage.1⟩

/-- When a step is made. -/
def Can : LoadAct → Prop
  | .segment .. => s.pmm.pmmAllocPage.2 ≠ 0
  | .stack _ => s.pmm.pmmAllocPage.2 ≠ 0
  | .vga .. => True
  | .noPage => s.pmm.pmmAllocPage.2 = 0

def Step (k : KernelImage) (pd : ℕ) (s : Paging) (act : LoadAct) (s' : Paging) : Prop :=
  act.Can s ∧ act.exec k pd s = s'

end LoadAct

/-! ## What a file maps -/

namespace ElfFile

variable (f : ElfFile)

/-- The loader comes to header `i`, if it does not run out of pages. -/
def Reaches (i : ℕ) : Prop := ∀ j < i, f.Skipped j ∨ f.Accepted j

/-- A segment of the file has the page at the address `va`. -/
def MapsAt (va : ℕ) : Prop :=
  ∃ i < f.phnum, f.Reaches i ∧ f.Accepted i ∧ ∃ j < (f.phdr i).numPages, va = (f.phdr i).pageVaddr j

end ElfFile

/-- The steps a load of the file can make: the stack and the text buffer come after the last
header. -/
def LoadAct.Of (f : ElfFile) : LoadAct → Prop
  | .segment _ va _ => f.MapsAt va
  | .stack va => f.Reaches f.phnum ∧
      ∃ i < userStackPages, va = userStackTop - userStackPages * 4096 + i * 4096
  | .vga va phys => f.Reaches f.phnum ∧ ((va = userVgaVaddr ∧ phys = vgaPhysBase) ∨
      (va = userVgaVaddr + 4096 ∧ phys = vgaPhysBase + 4096))
  | .noPage => True

namespace Loader

variable {k : KernelImage} {f : ElfFile} {pd : ℕ} {l : Loader}

/-- A part of a load is a run of steps. -/
def Steps (k : KernelImage) (f : ElfFile) (pd : ℕ) (s s' : Paging) : Prop :=
  ∃ acts, Run (LoadAct.Step k pd) s acts s' ∧ ∀ act ∈ acts, act.Of f

theorem Steps.refl (s : Paging) : Steps k f pd s s := ⟨[], .nil s, fun _ ha => nomatch ha⟩

theorem Steps.trans {s s' s'' : Paging} (h : Steps k f pd s s') (h' : Steps k f pd s' s'') :
    Steps k f pd s s'' := by
  obtain ⟨as, hrun, has⟩ := h
  obtain ⟨bs, hrun', hbs⟩ := h'
  exact ⟨as ++ bs, hrun.append hrun', fun act ha => (List.mem_append.mp ha).elim (has act) (hbs act)⟩

theorem Steps.one {s s' : Paging} (act : LoadAct) (hof : act.Of f) (hstep : LoadAct.Step k pd s act s') :
    Steps k f pd s s' := by
  refine ⟨[act], .cons hstep (.nil s'), fun act' ha => ?_⟩
  rw [List.mem_singleton.mp ha]
  exact hof

/-- The state after a part of a load: a run of steps, and if the part failed the address space is
destroyed. -/
def Stepped (k : KernelImage) (f : ElfFile) (pd : ℕ) (l : Loader) (r : Loader × Progress) : Prop :=
  match r.2 with
  | .done => Steps k f pd l.paging r.1.paging
  | .failed _ => ∃ s, Steps k f pd l.paging s ∧ r.1.paging = s.pagingDestroyAddressSpace k pd
  | .overrun => True

theorem Stepped.trans {l' : Loader} {r : Loader × Progress} (h : Steps k f pd l.paging l'.paging)
    (h' : Stepped k f pd l' r) : Stepped k f pd l r := by
  obtain ⟨l'', progress⟩ := r
  cases progress with
  | done => exact h.trans h'
  | failed e =>
    obtain ⟨s, hs, heq⟩ := h'
    exact ⟨s, h.trans hs, heq⟩
  | overrun => trivial

/-- `map_segment`; it leaves the address space to the caller. -/
theorem steps_mapSegmentLoop {p : Phdr} {i n : ℕ} (hmaps : ∀ j, i ≤ j → j < i + n → f.MapsAt (p.pageVaddr j))
    (hover : (mapSegmentLoop k f pd p l i n).2 ≠ .overrun) :
    Steps k f pd l.paging (mapSegmentLoop k f pd p l i n).1.paging := by
  induction n generalizing l i with
  | zero => exact .refl _
  | succ n ih =>
    unfold mapSegmentLoop at hover ⊢
    dsimp only at hover ⊢
    by_cases hpage : l.paging.pmm.pmmAllocPage.2 = 0
    · rw [if_pos hpage]
      exact .one .noPage trivial ⟨hpage, rfl⟩
    · rw [if_neg hpage] at hover ⊢
      by_cases hfits : copyFits (pageCopy p (p.pageVaddr i))
      · rw [if_pos hfits] at hover ⊢
        refine Steps.trans ?_ (ih (fun j h₁ h₂ => hmaps j (by omega) (by omega)) hover)
        exact .one (.segment (pageBytes f (pageCopy p (p.pageVaddr i))) (p.pageVaddr i) p.mapFlags)
          (hmaps i (le_refl i) (by omega)) ⟨hpage, rfl⟩
      · rw [if_neg hfits] at hover
        exact absurd rfl hover

/-- One program header. -/
theorem stepped_loadHeader {i : ℕ} (hi : i < f.phnum) (hreach : f.Reaches i) :
    Stepped k f pd l (loadHeader k f pd i l) ∧
      ((loadHeader k f pd i l).2 = .done → f.Skipped i ∨ f.Accepted i) := by
  rcases @loadHeader_cases k f l pd i with ⟨htype, heq⟩ | ⟨_, hmem, heq⟩ | ⟨_, _, _, heq⟩ |
    ⟨_, _, _, _, heq⟩ | ⟨hacc, r, hr, _, hprogress, hdone, hfailed⟩
  · rw [heq]
    exact ⟨Steps.refl _, fun _ => Or.inl (Or.inl htype)⟩
  · rw [heq]
    exact ⟨Steps.refl _, fun _ => Or.inl (Or.inr hmem)⟩
  · rw [heq]
    exact ⟨⟨_, Steps.refl _, rfl⟩, fun h => nomatch h⟩
  · rw [heq]
    exact ⟨⟨_, Steps.refl _, rfl⟩, fun h => nomatch h⟩
  · refine ⟨?_, fun _ => Or.inr hacc⟩
    have hsteps : r.2 ≠ .overrun → Steps k f pd l.paging r.1.paging := by
      intro hover
      rw [hr] at hover ⊢
      refine steps_mapSegmentLoop (fun j _ hj => ?_) hover
      exact ⟨i, hi, hreach, hacc, j, by omega, rfl⟩
    unfold Stepped
    rw [hprogress]
    cases hres : r.2 with
    | done =>
      have hover : r.2 ≠ .overrun := by
        rw [hres]
        exact fun h => nomatch h
      dsimp only
      rw [hdone hres]
      exact hsteps hover
    | failed e =>
      have hover : r.2 ≠ .overrun := by
        rw [hres]
        exact fun h => nomatch h
      dsimp only
      rw [hfailed e hres]
      exact ⟨r.1.paging, hsteps hover, rfl⟩
    | overrun => trivial

/-- The loop over the program headers. -/
theorem stepped_loadHeaders {i n : ℕ} (hn : i + n = f.phnum) (hreach : f.Reaches i) :
    Stepped k f pd l (loadHeaders k f pd l i n) ∧
      ((loadHeaders k f pd l i n).2 = .done → f.Reaches f.phnum) := by
  induction n generalizing l i with
  | zero =>
    obtain rfl : i = f.phnum := hn
    exact ⟨Steps.refl _, fun _ => hreach⟩
  | succ n ih =>
    obtain ⟨hstep, hpass⟩ := @stepped_loadHeader k f pd l i (by omega) hreach
    by_cases hdone : (loadHeader k f pd i l).2 = .done
    · rw [loadHeaders_of_done hdone]
      unfold Stepped at hstep
      rw [hdone] at hstep
      have hreach' : f.Reaches (i + 1) := fun j hj => by
        by_cases hji : j = i
        · rw [hji]
          exact hpass hdone
        · exact hreach j (by omega)
      obtain ⟨hrest, hlast⟩ := @ih (loadHeader k f pd i l).1 (i + 1) (by omega) hreach'
      exact ⟨Stepped.trans hstep hrest, hlast⟩
    · rw [loadHeaders_of_stop hdone]
      exact ⟨hstep, fun h => absurd h hdone⟩

/-- The loop over the pages of the stack. -/
theorem stepped_mapStack (hreach : f.Reaches f.phnum) {i n : ℕ} (hn : i + n = userStackPages) :
    Stepped k f pd l (mapStack k pd l i n) := by
  induction n generalizing l i with
  | zero => exact Steps.refl _
  | succ n ih =>
    unfold mapStack
    dsimp only
    by_cases hpage : l.paging.pmm.pmmAllocPage.2 = 0
    · rw [if_pos hpage]
      exact ⟨_, .one .noPage trivial ⟨hpage, rfl⟩, rfl⟩
    · rw [if_neg hpage]
      refine Stepped.trans ?_ (ih (by omega))
      exact .one (.stack (userStackTop - userStackPages * 4096 + i * 4096))
        ⟨hreach, i, by omega, rfl⟩ ⟨hpage, rfl⟩

theorem steps_mapVga (hreach : f.Reaches f.phnum) :
    Steps k f pd l.paging (mapVga k pd l).paging := by
  have hfirst : Steps k f pd l.paging (l.mapUser k pd userVgaVaddr vgaPhysBase
      (pagePresent ||| pageWrite ||| pageUser)).paging :=
    .one (.vga userVgaVaddr vgaPhysBase) ⟨hreach, Or.inl ⟨rfl, rfl⟩⟩ ⟨trivial, rfl⟩
  apply hfirst.trans
  exact .one (.vga (userVgaVaddr + 4096) (vgaPhysBase + 4096)) ⟨hreach, Or.inr ⟨rfl, rfl⟩⟩
    ⟨trivial, rfl⟩

/-! ## The task -/

/-- Slot `i`, which was free, has a new task with the directory at `pd`. -/
structure TaskMade (before after : Kernel) (pd : ℕ) (i : Slot) : Prop where
  free : before.freeSlot = some i
  active : (after.tasks i).active = true
  id : (after.tasks i).id = before.nextPid
  pageDirectory : (after.tasks i).pageDirectory = UInt32.ofNat pd
  others : ∀ j, j ≠ i → after.tasks j = before.tasks j
  currentTask : after.currentTask = before.currentTask
  nextPid : after.nextPid = before.nextPid + 1

/-- How the end of a load leaves the page tables and the tasks; the PID is no negative
`int32_t`. -/
def Ended (k : KernelImage) (pd : ℕ) (l : Loader) (r : Loader × LoadResult) : Prop :=
  match r.2 with
  | .lost => True
  | .failed _ => r.1.paging = l.paging.pagingDestroyAddressSpace k pd ∧ r.1.kernel = l.kernel
  | .pid _ => r.1.paging = l.paging ∧ ∃ i, TaskMade l.kernel r.1.kernel pd i

theorem ended_createTask {args : Args} (hpid : ¬ l.kernel.nextPid.toInt32 < 0) :
    Ended k pd l (createTask k args pd l) := by
  unfold createTask
  generalize l.heap.kmalloc kernelStackSize = r
  cases r with
  | none => trivial
  | some r =>
    obtain ⟨heap, kernelStack⟩ := r
    dsimp only
    by_cases hstack : kernelStack = 0
    · rw [if_pos hstack]
      exact ⟨rfl, rfl⟩
    · rw [if_neg hstack]
      unfold Kernel.taskCreateFromElf
      dsimp only [read]
      cases hslot : l.kernel.freeSlot with
      | none =>
        dsimp only
        rw [if_pos (by decide)]
        generalize heap.kfree kernelStack = r
        cases r with
        | none => trivial
        | some r => exact ⟨rfl, rfl⟩
      | some i =>
        dsimp only
        rw [if_neg hpid]
        refine ⟨rfl, i, hslot, ?_, ?_, ?_, fun j hj => ?_, rfl, rfl⟩
        · simp [Kernel.addTask, Kernel.newTask]
        · simp [Kernel.addTask, Kernel.newTask]
        · simp [Kernel.addTask]
        · simp [Kernel.addTask, hj]

/-- How a load that has its directory leaves the page tables and the tasks. -/
def LoadEnded (k : KernelImage) (f : ElfFile) (pd : ℕ) (l : Loader) (r : Loader × LoadResult) : Prop :=
  ∃ s, Steps k f pd l.paging s ∧
    ((r.1.paging = s.pagingDestroyAddressSpace k pd ∧ r.1.kernel = l.kernel) ∨
      (r.1.paging = s ∧ ∃ i, TaskMade l.kernel r.1.kernel pd i))

/-- The part after the stack. -/
theorem loadEnded_createTask {args : Args} {l' : Loader} (hpid : ¬ l.kernel.nextPid.toInt32 < 0)
    (hsteps : Steps k f pd l.paging l'.paging) (hkernel : l'.kernel = l.kernel)
    (hlost : (createTask k args pd l').2 ≠ .lost) : LoadEnded k f pd l (createTask k args pd l') := by
  have hended := @ended_createTask k pd l' args (by rw [hkernel]; exact hpid)
  unfold Ended at hended
  generalize createTask k args pd l' = r at hended hlost
  obtain ⟨l'', res⟩ := r
  refine ⟨l'.paging, hsteps, ?_⟩
  cases res with
  | lost => exact absurd rfl hlost
  | failed e => exact Or.inl ⟨hended.1, hended.2.trans hkernel⟩
  | pid p =>
    obtain ⟨hpaging, i, hmade⟩ := hended
    exact Or.inr ⟨hpaging, i, hkernel ▸ hmade⟩

/-- The part after the directory was made. -/
theorem loadEnded_loadInto {args : Args} (hpid : ¬ l.kernel.nextPid.toInt32 < 0)
    (hlost : (loadInto k f args pd l).2 ≠ .lost) : LoadEnded k f pd l (loadInto k f args pd l) := by
  obtain ⟨hheaders, hpassed⟩ := @stepped_loadHeaders k f pd l 0 f.phnum (Nat.zero_add _)
    fun j hj => by omega
  have hkernel := @loadHeaders_kernel k f l pd 0 f.phnum
  unfold loadInto at hlost ⊢
  generalize loadHeaders k f pd l 0 f.phnum = r₁ at hheaders hpassed hkernel hlost ⊢
  obtain ⟨l₁, progress₁⟩ := r₁
  cases progress₁ with
  | failed e =>
    obtain ⟨s, hs, heq⟩ := hheaders
    exact ⟨s, hs, Or.inl ⟨heq, hkernel⟩⟩
  | overrun => exact absurd rfl hlost
  | done =>
    have hreach := hpassed rfl
    have hstack := @stepped_mapStack k f pd l₁ hreach 0 userStackPages (Nat.zero_add _)
    have hkernel₂ := @mapStack_kernel k l₁ pd 0 userStackPages
    dsimp only at hlost hkernel ⊢
    generalize mapStack k pd l₁ 0 userStackPages = r₂ at hstack hkernel₂ hlost ⊢
    obtain ⟨l₂, progress₂⟩ := r₂
    cases progress₂ with
    | failed e =>
      obtain ⟨s, hs, heq⟩ := hstack
      exact ⟨s, Steps.trans hheaders hs, Or.inl ⟨heq, hkernel₂.trans hkernel⟩⟩
    | overrun => exact absurd rfl hlost
    | done =>
      dsimp only at hlost hkernel₂ ⊢
      have hsteps : Steps k f pd l.paging l₂.paging := Steps.trans hheaders hstack
      split_ifs at hlost ⊢ with hvga
      · exact loadEnded_createTask hpid (hsteps.trans (steps_mapVga hreach)) (hkernel₂.trans hkernel) hlost
      · exact loadEnded_createTask hpid hsteps (hkernel₂.trans hkernel) hlost

/-- **A load, step by step**: nothing is done, or there is no page for the directory, or the load
is a run of steps in a new directory that ends. -/
theorem elfLoad_steps {args : Args} (hpid : ¬ l.kernel.nextPid.toInt32 < 0)
    (hlost : (elfLoad k f args l).2 ≠ .lost) :
    ((elfLoad k f args l).1.paging = l.paging ∧ (elfLoad k f args l).1.kernel = l.kernel) ∨
    ((l.paging.pagingCreateIsolatedSpace k).2 = 0 ∧
      (elfLoad k f args l).1.paging = (l.paging.pagingCreateIsolatedSpace k).1 ∧
      (elfLoad k f args l).1.kernel = l.kernel) ∨
    ((elfValidate f).2 = none ∧ (l.paging.pagingCreateIsolatedSpace k).2 ≠ 0 ∧
      ∃ s, Steps k f (l.paging.pagingCreateIsolatedSpace k).2
        (l.paging.pagingCreateIsolatedSpace k).1 s ∧
      (((elfLoad k f args l).1.paging =
          s.pagingDestroyAddressSpace k (l.paging.pagingCreateIsolatedSpace k).2 ∧
        (elfLoad k f args l).1.kernel = l.kernel) ∨
      ((elfLoad k f args l).1.paging = s ∧ ∃ i, TaskMade l.kernel (elfLoad k f args l).1.kernel
        (l.paging.pagingCreateIsolatedSpace k).2 i))) := by
  unfold elfLoad at hlost ⊢
  dsimp only [read] at hlost ⊢
  generalize (elfValidate f).2 = valid at hlost ⊢
  cases valid with
  | some e => exact Or.inl ⟨rfl, rfl⟩
  | none =>
    right
    dsimp only at hlost ⊢
    by_cases hnull : (l.paging.pagingCreateIsolatedSpace k).2 = 0
    · rw [if_pos hnull]
      exact Or.inl ⟨hnull, rfl, rfl⟩
    · rw [if_neg hnull] at hlost ⊢
      have hended := @loadEnded_loadInto k f _ ⟨(l.paging.pagingCreateIsolatedSpace k).1, l.heap,
        l.kernel, _⟩ args hpid hlost
      exact Or.inr ⟨rfl, hnull, hended⟩

end Loader

end Microkernel

/-
# Runs of the desktop

The account of a desktop: the directories are those of the tasks, and the pages that are held
are the frame buffers in the slots and the pages that loads left behind, which nobody gives
back.  Every event keeps the account.
-/
import Microkernel.DesktopPages
import Microkernel.ElfWindows
import Microkernel.Frame

namespace Microkernel

/-! ## Tasks and their directories -/

theorem toNat_dir {a : ℕ} (ha : a < 2 ^ 20) : (UInt32.ofNat (a * 4096)).toNat = a * 4096 := by
  rw [UInt32.toNat_ofNat']
  omega

theorem dir_inj {a b : ℕ} (ha : a < 2 ^ 20) (hb : b < 2 ^ 20)
    (h : UInt32.ofNat (a * 4096) = UInt32.ofNat (b * 4096)) : a = b := by
  have hnat := congrArg UInt32.toNat h
  rw [toNat_dir ha, toNat_dir hb] at hnat
  omega

theorem dir_ne_zero {a : ℕ} (ha : a < 2 ^ 20) (hne : a ≠ 0) : UInt32.ofNat (a * 4096) ≠ 0 := by
  intro h
  have hnat := congrArg UInt32.toNat h
  rw [toNat_dir ha, UInt32.toNat_zero] at hnat
  omega

theorem toNat_of_not_neg {x : UInt32} (h : ¬ x.toInt32 < 0) : x.toNat < 2 ^ 31 := by
  by_contra hge
  apply h
  have hlt := x.toNat_lt
  rw [Int32.lt_iff_toInt_lt, ← Int32.toInt_toBitVec, UInt32.toBitVec_toInt32,
    BitVec.toInt_eq_toNat_cond, if_neg (by rw [UInt32.toNat_toBitVec]; omega),
    UInt32.toNat_toBitVec, Int32.toInt_zero]
  omega

/-- **The directories are those of the tasks**: each task with an address space has a directory
of its own, and no directory is left over.  The idle task has none.  The PIDs of tasks are
different, and those to come are new. -/
structure TaskSpaces (kern : Kernel) (spaces : List ℕ) : Prop where
  idle : (kern.tasks 0).active = true ∧ (kern.tasks 0).pageDirectory = 0
  active : ∀ i, (kern.tasks i).pageDirectory ≠ 0 → (kern.tasks i).active = true
  dir : ∀ i, (kern.tasks i).pageDirectory ≠ 0 →
    ∃ a ∈ spaces, (kern.tasks i).pageDirectory = UInt32.ofNat (a * 4096)
  owner : ∀ a ∈ spaces, ∃ i, (kern.tasks i).pageDirectory = UInt32.ofNat (a * 4096)
  inj : ∀ i j, (kern.tasks i).pageDirectory ≠ 0 →
    (kern.tasks i).pageDirectory = (kern.tasks j).pageDirectory → i = j
  ids : ∀ i j, (kern.tasks i).active = true → (kern.tasks j).active = true →
    (kern.tasks i).id = (kern.tasks j).id → i = j
  fresh : ∀ i, (kern.tasks i).active = true → (kern.tasks i).id.toNat < kern.nextPid.toNat

/-- How the end of the task in slot `i` leaves the tasks. -/
structure TaskEnded (before after : Kernel) (i : Slot) : Prop where
  notIdle : i ≠ 0
  active : (after.tasks i).active = false
  pageDirectory : (after.tasks i).pageDirectory = 0
  others : ∀ j, j ≠ i → after.tasks j = before.tasks j
  nextPid : after.nextPid = before.nextPid

namespace TaskSpaces

variable {kern kern' : Kernel} {spaces : List ℕ} {a : ℕ} {i : Slot}

/-- No task has a directory that is not in the list. -/
theorem pageDirectory_ne (h : TaskSpaces kern spaces) (hspaces : ∀ b ∈ spaces, b < 2 ^ 20 ∧ b ≠ 0)
    (ha : a < 2 ^ 20) (hfresh : a ∉ spaces) (i : Slot) :
    (kern.tasks i).pageDirectory = UInt32.ofNat (a * 4096) → (kern.tasks i).pageDirectory = 0 := by
  intro he
  by_contra hpd
  obtain ⟨b, hb, hdir⟩ := h.dir i hpd
  have hab := dir_inj ha (hspaces b hb).1 (he.symm.trans hdir)
  exact hfresh (hab ▸ hb)

/-- A new task with a new directory. -/
theorem made (h : TaskSpaces kern spaces) (hpid : ¬ kern.nextPid.toInt32 < 0)
    (hspaces : ∀ b ∈ a :: spaces, b < 2 ^ 20 ∧ b ≠ 0) (hfresh : a ∉ spaces)
    (hmade : Loader.TaskMade kern kern' (a * 4096) i) : TaskSpaces kern' (a :: spaces) := by
  obtain ⟨halt, hane⟩ := hspaces a List.mem_cons_self
  have hold : ∀ b ∈ spaces, b < 2 ^ 20 ∧ b ≠ 0 := fun b hb => hspaces b (List.mem_cons_of_mem _ hb)
  have hfree := Kernel.freeSlot_eq_some hmade.free
  have hnone : (kern.tasks i).pageDirectory = 0 := by
    by_contra hpd
    rw [h.active i hpd] at hfree
    cases hfree
  have hidle : (0 : Slot) ≠ i := by
    rintro rfl
    rw [h.idle.1] at hfree
    cases hfree
  have hnext : kern'.nextPid.toNat = kern.nextPid.toNat + 1 := by
    have hlt := toNat_of_not_neg hpid
    rw [hmade.nextPid, UInt32.toNat_add, UInt32.toNat_one]
    omega
  -- no other task has the new directory, or the new PID
  have hother : ∀ j, j ≠ i → (kern.tasks j).pageDirectory ≠ UInt32.ofNat (a * 4096) := by
    intro j hj he
    have hzero := h.pageDirectory_ne hold halt hfresh j he
    exact dir_ne_zero halt hane (he.symm.trans hzero)
  have hid : ∀ j, (kern.tasks j).active = true → (kern.tasks j).id ≠ kern.nextPid := by
    intro j hj he
    have hlt := h.fresh j hj
    rw [he] at hlt
    omega
  refine ⟨?_, fun j hpd => ?_, fun j hpd => ?_, fun b hb => ?_, fun j j' hpd he => ?_,
    fun j j' hj hj' he => ?_, fun j hj => ?_⟩
  · rw [hmade.others 0 hidle]
    exact h.idle
  · by_cases hji : j = i
    · rw [hji]
      exact hmade.active
    · rw [hmade.others j hji] at hpd ⊢
      exact h.active j hpd
  · by_cases hji : j = i
    · rw [hji]
      exact ⟨a, List.mem_cons_self, hmade.pageDirectory⟩
    · rw [hmade.others j hji] at hpd ⊢
      obtain ⟨b, hb, hdir⟩ := h.dir j hpd
      exact ⟨b, List.mem_cons_of_mem _ hb, hdir⟩
  · rcases List.mem_cons.mp hb with rfl | hb
    · exact ⟨i, hmade.pageDirectory⟩
    · obtain ⟨j, hj⟩ := h.owner b hb
      refine ⟨j, (congrArg Task.pageDirectory (hmade.others j ?_)).trans hj⟩
      rintro rfl
      exact dir_ne_zero (hold b hb).1 (hold b hb).2 (hj.symm.trans hnone)
  · by_cases hji : j = i <;> by_cases hji' : j' = i
    · rw [hji, hji']
    · rw [hji, hmade.pageDirectory, hmade.others j' hji'] at he
      exact absurd he.symm (hother j' hji')
    · rw [hji', hmade.pageDirectory, hmade.others j hji] at he
      exact absurd he (hother j hji)
    · rw [hmade.others j hji] at hpd he
      rw [hmade.others j' hji'] at he
      exact h.inj j j' hpd he
  · by_cases hji : j = i <;> by_cases hji' : j' = i
    · rw [hji, hji']
    · rw [hji, hmade.id, hmade.others j' hji'] at he
      rw [hmade.others j' hji'] at hj'
      exact absurd he.symm (hid j' hj')
    · rw [hji', hmade.id, hmade.others j hji] at he
      rw [hmade.others j hji] at hj
      exact absurd he (hid j hj)
    · rw [hmade.others j hji] at hj he
      rw [hmade.others j' hji'] at hj' he
      exact h.ids j j' hj hj' he
  · rw [hnext]
    by_cases hji : j = i
    · rw [hji, hmade.id]
      omega
    · rw [hmade.others j hji] at hj ⊢
      have := h.fresh j hj
      omega

/-- A task is gone: its directory, if it had one, is no more in the list. -/
theorem ended (h : TaskSpaces kern spaces) (hend : TaskEnded kern kern' i) {spaces' : List ℕ}
    (hold : ∀ b, b ∈ spaces' ↔ b ∈ spaces ∧ (kern.tasks i).pageDirectory ≠ UInt32.ofNat (b * 4096)) :
    TaskSpaces kern' spaces' := by
  have hactive : ∀ j, (kern'.tasks j).active = true → j ≠ i := by
    rintro j hj rfl
    rw [hend.active] at hj
    cases hj
  have hdir : ∀ j, (kern'.tasks j).pageDirectory ≠ 0 → j ≠ i := by
    rintro j hj rfl
    exact hj hend.pageDirectory
  refine ⟨?_, fun j hpd => ?_, fun j hpd => ?_, fun b hb => ?_, fun j j' hpd he => ?_,
    fun j j' hj hj' he => ?_, fun j hj => ?_⟩
  · rw [hend.others 0 hend.notIdle.symm]
    exact h.idle
  · have hj := hdir j hpd
    rw [hend.others j hj] at hpd ⊢
    exact h.active j hpd
  · have hj := hdir j hpd
    rw [hend.others j hj] at hpd ⊢
    obtain ⟨b, hb, hb'⟩ := h.dir j hpd
    refine ⟨b, (hold b).mpr ⟨hb, fun he => hj (h.inj j i hpd (hb'.trans he.symm))⟩, hb'⟩
  · obtain ⟨hb, hne⟩ := (hold b).mp hb
    obtain ⟨j, hj⟩ := h.owner b hb
    refine ⟨j, (congrArg Task.pageDirectory (hend.others j ?_)).trans hj⟩
    rintro rfl
    exact hne hj
  · have hj' := hdir j' (he ▸ hpd)
    have hj := hdir j hpd
    rw [hend.others j hj] at hpd he
    rw [hend.others j' hj'] at he
    exact h.inj j j' hpd he
  · have hne := hactive j hj
    have hne' := hactive j' hj'
    rw [hend.others j hne] at hj he
    rw [hend.others j' hne'] at hj' he
    exact h.ids j j' hj hj' he
  · have hne := hactive j hj
    rw [hend.nextPid]
    rw [hend.others j hne] at hj ⊢
    exact h.fresh j hj

end TaskSpaces

/-! ## The end of a task -/

namespace Loader

variable {k : KernelImage} {l l' : Loader}

/-- How the end of the task in slot `i` leaves the tasks and the page tables. -/
structure TaskGone (k : KernelImage) (l l' : Loader) (i : Slot) : Prop where
  ended : TaskEnded l.kernel l'.kernel i
  paging : l'.paging = if (l.kernel.tasks i).pageDirectory ≠ 0 then
    l.paging.pagingDestroyAddressSpace k (l.kernel.tasks i).pageDirectory.toNat else l.paging

/-- `task_exit`: the idle task does not exit. -/
theorem taskExit_gone (h : l.taskExit k = some l') :
    l' = l ∨ TaskGone k l l' l.kernel.currentTask := by
  unfold taskExit at h
  split_ifs at h with hidle
  · exact Or.inl (Option.some.inj h).symm
  · right
    obtain ⟨l₁, hrel, rfl⟩ := Option.map_eq_some_iff.mp h
    refine ⟨?_, (releaseTask_eq hrel).2⟩
    dsimp only
    rw [Kernel.taskExit_of_ne hidle]
    refine ⟨hidle, ?_, ?_, fun j hj => ?_, rfl⟩
    · simp [Kernel.taskYield, Kernel.endTask, Kernel.current]
    · simp [Kernel.taskYield, Kernel.endTask, Kernel.current]
    · simp [Kernel.taskYield, Kernel.endTask, hj]

/-- `task_kill`. -/
theorem taskKill_gone {pid : UInt32} (h : l.taskKill k pid = some l') :
    (l.kernel.killSlot pid = none ∧ l' = l) ∨
    ∃ i, l.kernel.killSlot pid = some i ∧ TaskGone k l l' i := by
  unfold taskKill at h
  cases hslot : l.kernel.killSlot pid with
  | none =>
    rw [hslot] at h
    exact Or.inl ⟨rfl, (Option.some.inj h).symm⟩
  | some i =>
    rw [hslot] at h
    obtain ⟨l₁, hrel, rfl⟩ := Option.map_eq_some_iff.mp h
    refine Or.inr ⟨i, rfl, ?_, (releaseTask_eq hrel).2⟩
    dsimp only
    unfold Kernel.taskKill
    rw [hslot]
    refine ⟨(Kernel.killSlot_eq_some hslot).1, ?_, ?_, fun j hj => ?_, rfl⟩
    · simp [Kernel.endTask]
    · simp [Kernel.endTask]
    · simp [Kernel.endTask, hj]

end Loader

/-! ## The account of a desktop -/

namespace Desktop

/-- How often the page is in the frame buffer of a slot in use. -/
def frameCount (d : Desktop) (f : ℕ) : ℕ := ∑ si : Fin 4,
  if (d.gui.elfGuiSlots si).active then (pagesFrom (d.physPages si) 0 elfFbPages).count f else 0

theorem frameCount_update {d d' : Desktop} {si : Fin 4}
    (h : ∀ sj, sj ≠ si → (d'.gui.elfGuiSlots sj).active = (d.gui.elfGuiSlots sj).active ∧
      d'.physPages sj = d.physPages sj) (f : ℕ) :
    d'.frameCount f + (if (d.gui.elfGuiSlots si).active then
      (pagesFrom (d.physPages si) 0 elfFbPages).count f else 0) =
    d.frameCount f + if (d'.gui.elfGuiSlots si).active then
      (pagesFrom (d'.physPages si) 0 elfFbPages).count f else 0 := by
  refine @sum_add_of_eq_off (Fin 4) _ _
    (fun sj => if (d.gui.elfGuiSlots sj).active then
      (pagesFrom (d.physPages sj) 0 elfFbPages).count f else 0)
    (fun sj => if (d'.gui.elfGuiSlots sj).active then
      (pagesFrom (d'.physPages sj) 0 elfFbPages).count f else 0) si fun sj hj => ?_
  obtain ⟨h₁, h₂⟩ := h sj hj
  rw [h₁, h₂]

theorem frameCount_congr {d d' : Desktop}
    (h : ∀ si, (d'.gui.elfGuiSlots si).active = (d.gui.elfGuiSlots si).active)
    (hp : d'.physPages = d.physPages) (f : ℕ) : d'.frameCount f = d.frameCount f := by
  unfold frameCount
  apply Finset.sum_congr rfl
  intro si _
  rw [h, hp]

/-- A slot has no more of a page than all have. -/
theorem count_le_frameCount {d : Desktop} {si : Fin 4} (h : (d.gui.elfGuiSlots si).active = true)
    (f : ℕ) : (pagesFrom (d.physPages si) 0 elfFbPages).count f ≤ d.frameCount f := by
  have hle := Finset.single_le_sum (f := fun si => if (d.gui.elfGuiSlots si).active then
    (pagesFrom (d.physPages si) 0 elfFbPages).count f else 0) (fun _ _ => Nat.zero_le _)
    (Finset.mem_univ si)
  rw [if_pos h] at hle
  exact hle

end Desktop

/-- **The account of a desktop**: the pages are accounted for, the directories are those of the
tasks, and the pages that are held are pinned or in the frame buffer of a slot in use. -/
structure DesktopInv (k : KernelImage) (o : PageOwners) (pinned : List ℕ) (d : Desktop) : Prop where
  kept : Kept k o d.paging
  spaces : TaskSpaces d.kernel o.spaces
  held : ∀ f, o.held.count f = pinned.count f + d.frameCount f
  aligned : ∀ si, (d.gui.elfGuiSlots si).active = true → ∀ j < elfFbPages, d.physPages si j % 4096 = 0

namespace DesktopInv

variable {k : KernelImage} {o : PageOwners} {pinned : List ℕ} {d : Desktop} {a : ℕ} {si : Fin 4}
  {pid : UInt32}

theorem space_bounds (h : DesktopInv k o pinned d) (ha : a ∈ o.spaces) : a < 2 ^ 20 ∧ a ≠ 0 :=
  ⟨h.kept.lt_of_owned (PageOwners.mem_owned_of_space ha),
    h.kept.ne_zero (PageOwners.mem_owned_of_space ha)⟩

/-- The directory of a task. -/
theorem dir_toNat (h : DesktopInv k o pinned d) {i : Slot} (hpd : (d.kernel.tasks i).pageDirectory ≠ 0) :
    ∃ a ∈ o.spaces, (d.kernel.tasks i).pageDirectory = UInt32.ofNat (a * 4096) ∧
      (d.kernel.tasks i).pageDirectory.toNat = a * 4096 := by
  obtain ⟨a, ha, hdir⟩ := h.spaces.dir i hpd
  refine ⟨a, ha, hdir, ?_⟩
  rw [hdir]
  exact toNat_dir (h.space_bounds ha).1

/-- Windows may change where slots do not. -/
theorem of_slots (h : DesktopInv k o pinned d) {d' : Desktop} (hloader : d'.loader = d.loader)
    (hslots : ∀ si, (d'.gui.elfGuiSlots si).active = (d.gui.elfGuiSlots si).active)
    (hphys : d'.physPages = d.physPages) : DesktopInv k o pinned d' where
  kept := by
    unfold Desktop.paging
    rw [hloader]
    exact h.kept
  spaces := by
    unfold Desktop.kernel
    rw [hloader]
    exact h.spaces
  held := fun f => (h.held f).trans (by rw [Desktop.frameCount_congr hslots hphys])
  aligned := fun si hsi j hj => by
    rw [hphys]
    exact h.aligned si ((hslots si).symm.trans hsi) j hj

/-- **A task is gone.** -/
theorem of_gone (h : DesktopInv k o pinned d) {l' : Loader} {i : Slot}
    (hgone : Loader.TaskGone k d.loader l' i) :
    ((d.kernel.tasks i).pageDirectory = 0 ∧ l'.paging = d.paging ∧
      DesktopInv k o pinned { d with loader := l' }) ∨
    ∃ a ∈ o.spaces, (d.kernel.tasks i).pageDirectory = UInt32.ofNat (a * 4096) ∧
      l'.paging = d.paging.pagingDestroyAddressSpace k (a * 4096) ∧
      DesktopInv k (o.dropSpace a) pinned { d with loader := l' } := by
  have hpaging := hgone.paging
  by_cases hpd : (d.kernel.tasks i).pageDirectory = 0
  · left
    have hpd' : (d.loader.kernel.tasks i).pageDirectory = 0 := hpd
    rw [hpd', if_neg (by simp)] at hpaging
    refine ⟨hpd, hpaging, ⟨?_, ?_, h.held, h.aligned⟩⟩
    · show Kept k o l'.paging
      rw [hpaging]
      exact h.kept
    · refine h.spaces.ended hgone.ended fun b => ⟨fun hb => ⟨hb, fun he => ?_⟩, fun hb => hb.1⟩
      obtain ⟨h₁, h₂⟩ := h.space_bounds hb
      exact dir_ne_zero h₁ h₂ (he.symm.trans hpd)
  · right
    obtain ⟨a, ha, hdir, hnat⟩ := h.dir_toNat hpd
    have hpd' : (d.loader.kernel.tasks i).pageDirectory ≠ 0 := hpd
    have hnat' : (d.loader.kernel.tasks i).pageDirectory.toNat = a * 4096 := hnat
    rw [if_pos hpd', hnat'] at hpaging
    refine ⟨a, ha, hdir, hpaging, ⟨?_, ?_, h.held, h.aligned⟩⟩
    · show Kept k (o.dropSpace a) l'.paging
      rw [hpaging]
      exact (h.kept.destroy ha).2.2.1
    · refine h.spaces.ended hgone.ended fun b => ?_
      have hmem : b ∈ (o.dropSpace a).spaces ↔ b ≠ a ∧ b ∈ o.spaces :=
        h.kept.spaces_nodup.mem_erase_iff
      rw [hmem]
      refine ⟨fun hb => ⟨hb.2, fun he => hb.1 ?_⟩, fun hb => ⟨?_, hb.1⟩⟩
      · exact dir_inj (h.space_bounds hb.2).1 (h.space_bounds ha).1 (he.symm.trans hdir)
      · rintro rfl
        exact hb.2 hdir

/-- **A window is opened** for the process with the directory `a`, if there is a slot and room. -/
theorem guiElfWinOpen (h : DesktopInv k o pinned d) (ha : a ∈ o.spaces) (pid : UInt32) :
    (d.guiElfWinOpen k pid (a * 4096) = d ∧
      (d.gui.freeElfSlot = none ∨ d.gui.findFreeWindow = none)) ∨
    ∃ si o' g, d.gui.freeElfSlot = some si ∧ d.gui.findFreeWindow ≠ none ∧
      g.elfGuiSlots = Function.update d.gui.elfGuiSlots si ⟨true, pid, some 7⟩ ∧
      (∀ p, g.elfCount p = d.gui.elfCount p + if p = pid then 1 else 0) ∧
      Desktop.Opened k o { d with
        gui := g
        latest := Function.update d.latest pid (some si) } si 0 elfFbPages o'
        (d.guiElfWinOpen k pid (a * 4096)) ∧
      DesktopInv k o' pinned (d.guiElfWinOpen k pid (a * 4096)) := by
  unfold Desktop.guiElfWinOpen
  cases hslot : d.gui.freeElfSlot with
  | none => exact Or.inl ⟨rfl, Or.inl rfl⟩
  | some si =>
    dsimp only
    rcases Gui.guiElfWinOpen_cases d.gui pid
      ((d.kernel.taskGetByPid pid).map fun i => (d.kernel.tasks i).name) with
      ⟨heq, hwhy⟩ | ⟨sj, hslot', hroom, hok, hslots, hcount⟩
    · rw [heq, if_pos rfl]
      rw [hslot] at hwhy
      exact Or.inl ⟨rfl, hwhy⟩
    · obtain rfl : sj = si := Option.some.inj (hslot'.symm.trans hslot)
      rw [hok, if_neg (by simp)]
      generalize (d.gui.guiElfWinOpen pid
        ((d.kernel.taskGetByPid pid).map fun i => (d.kernel.tasks i).name)).1 = g at hslots hcount
      set d₁ : Desktop := { d with
        gui := g
        latest := Function.update d.latest pid (some sj) } with hd₁
      have hkept : Kept k o d₁.paging := h.kept
      obtain ⟨o', hopen⟩ := Desktop.opened_openFrames hkept ha sj
        (show 0 + elfFbPages ≤ elfFbPages by omega)
      refine Or.inr ⟨sj, o', g, rfl, hroom, hslots, hcount, hopen, ?_⟩
      have hfree := Gui.freeElfSlot_eq_some hslot
      generalize Desktop.openFrames k (a * 4096) sj d₁ 0 elfFbPages = d₂ at hopen
      -- the slots of the new state
      have hslots₂ : d₂.gui.elfGuiSlots = Function.update d.gui.elfGuiSlots sj ⟨true, pid, some 7⟩ := by
        rw [hopen.same.gui]
        exact hslots
      have hself : (d₂.gui.elfGuiSlots sj).active = true := by
        rw [hslots₂, Function.update_self]
      have hothers : ∀ si, si ≠ sj → (d₂.gui.elfGuiSlots si).active = (d.gui.elfGuiSlots si).active ∧
          d₂.physPages si = d.physPages si := by
        intro si hsi
        rw [hslots₂, Function.update_of_ne hsi]
        exact ⟨rfl, hopen.same.others si hsi⟩
      refine ⟨hopen.advanced.kept, ?_, fun f => ?_, fun si hsi j hj => ?_⟩
      · rw [hopen.same.kernel, hopen.advanced.spaces]
        exact h.spaces
      · have hframes := Desktop.frameCount_update hothers f
        rw [hfree, hself, if_pos rfl, if_neg Bool.false_ne_true] at hframes
        rw [hopen.held, h.held]
        omega
      · by_cases hsj : si = sj
        · rw [hsj]
          exact hopen.aligned j (Nat.zero_le j) (by omega)
        · obtain ⟨h₁, h₂⟩ := hothers si hsj
          rw [h₂]
          exact h.aligned si (h₁.symm.trans hsi) j hj

/-- **The frame buffer of a slot is given back** and the slot becomes free. -/
theorem closeSlotOf (h : DesktopInv k o pinned d) (hslot : d.gui.elfSlotOf pid = some si) {g : Gui}
    (hg : g.elfGuiSlots = (d.gui.freeElfSlotOf pid).elfGuiSlots) :
    ∃ o', Desktop.Closed k o d si 0 elfFbPages o' (d.closeSlotOf k pid) ∧
      DesktopInv k o' pinned { d.closeSlotOf k pid with gui := g } := by
  obtain ⟨hactive, _⟩ := Gui.elfSlotOf_eq_some hslot
  have hslots : g.elfGuiSlots = Function.update d.gui.elfGuiSlots si
      { d.gui.elfGuiSlots si with active := false } := by
    rw [hg]
    unfold Gui.freeElfSlotOf
    rw [hslot]
  unfold Desktop.closeSlotOf
  rw [hslot]
  dsimp only
  obtain ⟨o', hclosed⟩ := Desktop.closed_closeFrames h.kept si
    (show 0 + elfFbPages ≤ elfFbPages by omega)
    (fun j _ hj => h.aligned si hactive j (by omega)) fun f => by
      have hle := Desktop.count_le_frameCount hactive f
      have hheld := h.held f
      omega
  refine ⟨o', hclosed, ?_⟩
  generalize Desktop.closeFrames k si d 0 elfFbPages = d₂ at hclosed
  have hself : (g.elfGuiSlots si).active = false := by
    rw [hslots, Function.update_self]
  have hothers : ∀ sj, sj ≠ si → (g.elfGuiSlots sj).active = (d.gui.elfGuiSlots sj).active ∧
      d₂.physPages sj = d.physPages sj := by
    intro sj hj
    rw [hslots, Function.update_of_ne hj, hclosed.physPages]
    exact ⟨rfl, rfl⟩
  refine ⟨hclosed.kept, ?_, fun f => ?_, fun sj hj j hlt => ?_⟩
  · show TaskSpaces d₂.kernel o'.spaces
    rw [hclosed.same.kernel, hclosed.spaces]
    exact h.spaces
  · have hframes := @Desktop.frameCount_update d { d₂ with gui := g } si hothers f
    dsimp only at hframes
    rw [hactive, hself, if_pos rfl, if_neg Bool.false_ne_true] at hframes
    have hheld := hclosed.held f
    have hbefore := h.held f
    omega
  · have hne : sj ≠ si := by
      rintro rfl
      rw [hself] at hj
      cases hj
    obtain ⟨h₁, h₂⟩ := hothers sj hne
    show d₂.physPages sj j % 4096 = 0
    rw [h₂]
    exact h.aligned sj (h₁.symm.trans hj) j hlt

/-- Nothing is given back for a process without a slot. -/
theorem closeSlotOf_of_none (hslot : d.gui.elfSlotOf pid = none) : d.closeSlotOf k pid = d := by
  unfold Desktop.closeSlotOf
  rw [hslot]

/-- The page tables and the tasks change, the windows do not. -/
theorem of_loader (h : DesktopInv k o pinned d) {o' : PageOwners} {qs : List ℕ} {l' : Loader}
    (hkept : Kept k o' l'.paging) (hspaces : TaskSpaces l'.kernel o'.spaces)
    (hheld : o'.held = qs ++ o.held) : DesktopInv k o' (qs ++ pinned) { d with loader := l' } where
  kept := hkept
  spaces := hspaces
  held := fun f => by
    have hbefore := h.held f
    have hframes : ({ d with loader := l' } : Desktop).frameCount f = d.frameCount f := rfl
    rw [hheld, List.count_append, List.count_append, hframes]
    omega
  aligned := h.aligned

/-- **A load.**  Its pages are pinned from now on; a load that is refused leaves the entries of the
kernel's tables alone, and the others touch the windows and what they map. -/
theorem elfLoad (h : DesktopInv k o pinned d) {f : ElfFile} {args : Loader.Args}
    (hpid : ¬ d.kernel.nextPid.toInt32 < 0) {d' : Desktop} (hload : d.elfLoad k f args = some d') :
    ∃ o' qs l', d' = { d with loader := l' } ∧ o'.held = qs ++ o.held ∧
      DesktopInv k o' (qs ++ pinned) d' ∧
      l'.paging.pmm.totalPages = d.paging.pmm.totalPages ∧
      ∀ v < 2 ^ 20, ¬ ((elfValidate f).2 = none ∧ ∃ act : LoadAct, act.Of f ∧ act.Touches v) →
        kernelEntry k l'.paging.mem v = kernelEntry k d.paging.mem v := by
  unfold Desktop.elfLoad at hload
  dsimp only at hload
  split_ifs at hload with hlost
  obtain rfl := Option.some.inj hload
  have hsteps := @Loader.elfLoad_steps k f d.loader args hpid hlost
  generalize (Loader.elfLoad k f args d.loader).1 = l' at hsteps
  rcases hsteps with ⟨hpaging, hkernel⟩ | ⟨hnull, hpaging, hkernel⟩ |
    ⟨hvalid, hpage, s, hrun, hend⟩
  · have hpaging' : l'.paging = d.paging := hpaging
    refine ⟨o, [], l', rfl, rfl, h.of_loader ?_ ?_ rfl, by rw [hpaging'], fun v _ _ => by rw [hpaging']⟩
    · rw [hpaging']
      exact h.kept
    · rw [hkernel]
      exact h.spaces
  · rcases h.kept.create with ⟨_, heq, hkept⟩ | ⟨a, _, _, hne, haddr, _⟩
    · have hpaging' : l'.paging = ⟨d.paging.mem, d.paging.pmm.pmmAllocPage.1⟩ :=
        hpaging.trans (congrArg Prod.fst heq)
      refine ⟨o, [], l', rfl, rfl, h.of_loader ?_ ?_ rfl, ?_, fun v _ _ => by rw [hpaging']⟩
      · rw [hpaging]
        exact hkept
      · rw [hkernel]
        exact h.spaces
      · rw [hpaging']
        rcases h.kept.alloc with ⟨_, htotal, _⟩ | ⟨q, _, _, _, _, halloc, _⟩
        · exact htotal
        · rw [halloc]
          rfl
    · have hnull' : (d.paging.pagingCreateIsolatedSpace k).2 = 0 := hnull
      omega
  · rcases h.kept.create with ⟨hnull, _⟩ | ⟨a, _, hfresh, hne, haddr, hpmm, hmem, _, hkept⟩
    · exact absurd hnull hpage
    · have haddr' : (d.loader.paging.pagingCreateIsolatedSpace k).2 = a * 4096 := haddr
      rw [haddr'] at hrun hend
      obtain ⟨o₁, hadv⟩ := advanced_steps hkept List.mem_cons_self hrun
      obtain ⟨qs, hheld⟩ := hadv.held
      have hown := PageOwners.mem_owned_of_space
        (show a ∈ (o.addSpace a).spaces from List.mem_cons_self)
      have hbounds : ∀ b ∈ a :: o.spaces, b < 2 ^ 20 ∧ b ≠ 0 := by
        intro b hb
        have hb' := PageOwners.mem_owned_of_space (show b ∈ (o.addSpace a).spaces from hb)
        exact ⟨hkept.lt_of_owned hb', hkept.ne_zero hb'⟩
      have hentries : ∀ v < 2 ^ 20,
          ¬ ((elfValidate f).2 = none ∧ ∃ act : LoadAct, act.Of f ∧ act.Touches v) →
          kernelEntry k s.mem v = kernelEntry k d.paging.mem v := by
        intro v hv hnot
        rw [hadv.entries v hv fun ht => hnot ⟨hvalid, ht⟩]
        exact kernelEntry_of_page hv (hkept.not_kernelTable hown) hmem
      have htotal : s.pmm.totalPages = d.paging.pmm.totalPages := by
        have hcreated : (d.paging.pagingCreateIsolatedSpace k).1.pmm.totalPages =
            d.paging.pmm.totalPages := by
          rw [hpmm]
          rfl
        exact hadv.total.trans hcreated
      rcases hend with ⟨hpaging, hkernel⟩ | ⟨hpaging, i, hmade⟩
      · obtain ⟨hmem', htotal', hkept', _⟩ := hadv.kept.destroy
          (show a ∈ o₁.spaces from hadv.spaces ▸ List.mem_cons_self)
        refine ⟨o₁.dropSpace a, qs, l', rfl, hheld, h.of_loader ?_ ?_ hheld, ?_, fun v hv hnot => ?_⟩
        · rw [hpaging]
          exact hkept'
        · have hdrop : (o₁.dropSpace a).spaces = o.spaces := by
            unfold PageOwners.dropSpace
            dsimp only
            rw [hadv.spaces]
            exact List.erase_cons_head a o.spaces
          rw [hdrop, hkernel]
          exact h.spaces
        · rw [hpaging, htotal', htotal]
        · rw [hpaging, hmem']
          exact hentries v hv hnot
      · refine ⟨o₁, qs, l', rfl, hheld, h.of_loader ?_ ?_ hheld, ?_, fun v hv hnot => ?_⟩
        · rw [hpaging]
          exact hadv.kept
        · rw [hadv.spaces]
          exact h.spaces.made hpid hbounds (fun ha => hfresh (PageOwners.mem_owned_of_space ha)) hmade
        · rw [hpaging, htotal]
        · rw [hpaging]
          exact hentries v hv hnot

/-- `paging_map_user` for a process. -/
theorem mapUser (h : DesktopInv k o pinned d) (ha : a ∈ o.spaces) (virt phys flags : BitVec 32) :
    ∃ o', Advanced k o d.paging (fun v => IsWindowPage v ∨ v = pageOf virt) o'
        (d.paging.pagingMapUser k (a * 4096) virt phys flags) ∧
      DesktopInv k o' pinned
        (d.setPaging (d.paging.pagingMapUser k (a * 4096) virt phys flags)) := by
  obtain ⟨o', hadv, hheld⟩ := advanced_mapUser h.kept ha virt phys flags
  refine ⟨o', hadv, ⟨hadv.kept, ?_, fun f => ?_, h.aligned⟩⟩
  · rw [hadv.spaces]
    exact h.spaces
  · rw [hheld]
    exact h.held f

/-- The scheduler goes on with another task. -/
theorem switchTo (h : DesktopInv k o pinned d) (i : Slot) : DesktopInv k o pinned { d with
    loader := { d.loader with kernel := { d.loader.kernel with currentTask := i } } } :=
  ⟨h.kept, ⟨h.spaces.idle, h.spaces.active, h.spaces.dir, h.spaces.owner, h.spaces.inj,
    h.spaces.ids, h.spaces.fresh⟩, h.held, h.aligned⟩

end DesktopInv

/-! ## A window goes with its process -/

namespace Desktop

variable {k : KernelImage} {d d' : Desktop} {pid : UInt32}

/-- The slot of a process is given back, one window of it is closed, and the process is killed, if
it still lives. -/
def CloseKilled (k : KernelImage) (d : Desktop) (pid : UInt32) (g : Gui) (d' : Desktop) : Prop :=
  Gui.OneClosed d.gui g pid ∧
    ({ d.closeSlotOf k pid with gui := g } : Desktop).taskKill k pid = some d'

theorem closeElfGlWindow_gui (g : Gui)
    (h : (d.closeElfGlWindow k pid).map (fun d' => { d' with gui := g }) = some d') :
    ({ d.closeSlotOf k pid with gui := g } : Desktop).taskKill k pid = some d' := by
  rw [← h]
  unfold closeElfGlWindow taskKill
  rw [Option.map_map]
  rfl

/-- `handle_mouse`: the windows of processes are left alone, or one goes with its process. -/
theorem handleMouse_cases {m : Gui.MouseInput} (h : d.handleMouse k m = some d') :
    (∃ g, Gui.SameElf d.gui g ∧ d' = { d with gui := g }) ∨ ∃ pid g, CloseKilled k d pid g d' := by
  unfold handleMouse at h
  rcases Gui.handleMouse_elf d.gui m with ⟨hnone, hsame⟩ | ⟨pid, hkill, hclosed⟩
  · rw [hnone] at h
    exact Or.inl ⟨_, hsame, (Option.some.inj h).symm⟩
  · rw [hkill] at h
    exact Or.inr ⟨pid, _, hclosed, closeElfGlWindow_gui _ h⟩

/-- One window of `render`'s clean-up. -/
theorem cleanUp_cases {i : WinIdx} (h : d.cleanUp k i = some d') :
    d' = d ∨ ∃ pid g, d.ownerDead pid = true ∧ CloseKilled k d pid g d' := by
  unfold cleanUp at h
  split_ifs at h with hdead
  · obtain ⟨hwin, hdead⟩ := (Bool.and_eq_true _ _).mp hdead
    have helf : d.gui.isElf (d.gui.windows i).ownerPid i = true := by
      unfold Gui.isElf
      rw [hwin, beq_self_eq_true]
      rfl
    exact Or.inr ⟨_, _, hdead, Gui.oneClosed_closeWindow helf, closeElfGlWindow_gui _ h⟩
  · exact Or.inl (Option.some.inj h).symm

/-- What every closing keeps, the clean-up keeps. -/
theorem cleanUpFrom_invariant {I : Desktop → Prop} (hstep : ∀ d pid g d', I d →
      d.ownerDead pid = true → CloseKilled k d pid g d' → I d') {is : List WinIdx} (hd : I d)
    (h : cleanUpFrom k d is = some d') : I d' := by
  induction is generalizing d with
  | nil => exact Option.some.inj h ▸ hd
  | cons i is ih =>
    obtain ⟨d₁, h₁, hrest⟩ := Option.bind_eq_some_iff.mp h
    refine ih ?_ hrest
    rcases cleanUp_cases h₁ with rfl | ⟨pid, g, hdead, hclosed⟩
    · exact hd
    · exact hstep d pid g d₁ hd hdead hclosed

end Desktop

namespace DesktopInv

variable {k : KernelImage} {o : PageOwners} {pinned : List ℕ} {d d' : Desktop} {pid : UInt32}

/-- The process is killed, if it still lives. -/
theorem taskKill (h : DesktopInv k o pinned d) (hkill : d.taskKill k pid = some d') :
    ∃ o' l', d' = { d with loader := l' } ∧ l'.paging.mem = d.paging.mem ∧
      l'.paging.pmm.totalPages = d.paging.pmm.totalPages ∧ DesktopInv k o' pinned d' := by
  obtain ⟨l', hl', rfl⟩ := Option.map_eq_some_iff.mp hkill
  rcases Loader.taskKill_gone hl' with ⟨_, rfl⟩ | ⟨i, _, hgone⟩
  · exact ⟨o, _, rfl, rfl, rfl, h⟩
  · rcases h.of_gone hgone with ⟨_, hpaging, hinv⟩ | ⟨a, ha, _, hpaging, hinv⟩
    · exact ⟨o, l', rfl, by rw [hpaging], by rw [hpaging], hinv⟩
    · obtain ⟨hmem, htotal, _⟩ := h.kept.destroy ha
      exact ⟨o.dropSpace a, l', rfl, by rw [hpaging, hmem], by rw [hpaging, htotal], hinv⟩

/-- `task_exit` by the current task. -/
theorem taskExit (h : DesktopInv k o pinned d) {l' : Loader} (hexit : d.loader.taskExit k = some l') :
    ∃ o', l'.paging.mem = d.paging.mem ∧ l'.paging.pmm.totalPages = d.paging.pmm.totalPages ∧
      DesktopInv k o' pinned { d with loader := l' } := by
  rcases Loader.taskExit_gone hexit with rfl | hgone
  · exact ⟨o, rfl, rfl, h⟩
  · rcases h.of_gone hgone with ⟨_, hpaging, hinv⟩ | ⟨a, ha, _, hpaging, hinv⟩
    · exact ⟨o, by rw [hpaging], by rw [hpaging], hinv⟩
    · obtain ⟨hmem, htotal, _⟩ := h.kept.destroy ha
      exact ⟨o.dropSpace a, by rw [hpaging, hmem], by rw [hpaging, htotal], hinv⟩

/-- **The slot of a process is given back**, if it has one. -/
theorem closed (h : DesktopInv k o pinned d) {g : Gui}
    (hg : g.elfGuiSlots = (d.gui.freeElfSlotOf pid).elfGuiSlots) :
    ∃ o', DesktopInv k o' pinned { d.closeSlotOf k pid with gui := g } ∧
      (d.closeSlotOf k pid).paging.pmm.totalPages = d.paging.pmm.totalPages ∧
      (∀ si, (g.elfGuiSlots si).active = true → (d.gui.elfGuiSlots si).active = true) ∧
      ∀ v < 2 ^ 20, (∀ si, (d.gui.elfGuiSlots si).active = true →
          ∀ j < elfFbPages, v ≠ kernPage si j) →
        kernelEntry k (d.closeSlotOf k pid).paging.mem v = kernelEntry k d.paging.mem v := by
  cases hslot : d.gui.elfSlotOf pid with
  | none =>
    have hslots : g.elfGuiSlots = d.gui.elfGuiSlots := by
      rw [hg]
      unfold Gui.freeElfSlotOf
      rw [hslot]
    rw [closeSlotOf_of_none hslot]
    refine ⟨o, h.of_slots rfl (fun si => ?_) rfl, rfl, fun si hsi => ?_, fun _ _ _ => rfl⟩
    · dsimp only
      rw [hslots]
    · rw [← hslots]
      exact hsi
  | some si =>
    obtain ⟨o', hclosed, hinv⟩ := h.closeSlotOf hslot hg
    obtain ⟨hactive, _⟩ := Gui.elfSlotOf_eq_some hslot
    refine ⟨o', hinv, hclosed.total, fun sj hj => ?_, fun v hv hnot => ?_⟩
    · rw [hg] at hj
      unfold Gui.freeElfSlotOf at hj
      rw [hslot] at hj
      dsimp only at hj
      by_cases hji : sj = si
      · rw [hji]
        exact hactive
      · rwa [Function.update_of_ne hji] at hj
    · rcases hclosed.entries v hv with ⟨⟨j, _, hj, hvj⟩, _⟩ | ⟨_, hsame⟩
      · exact absurd hvj (hnot si hactive j (by omega))
      · exact hsame

end DesktopInv

end Microkernel

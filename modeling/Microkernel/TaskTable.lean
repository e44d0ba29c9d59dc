/-
# The task table

The invariant of the task table over all runs of the scheduled system: at most the
current task is running, the PIDs of the active tasks are distinct, the kernel task
stays in slot 0, and no task has more ticks left than its quantum.

The inductive form numbers the tasks: the PID of an active task is its number modulo
`2^32`, and numbers are given out once.  Distinct PIDs follow while fewer than `2^32`
tasks have been created.
-/
import Microkernel.Evolution

namespace Microkernel

namespace Kernel

/-- The tasks are numbered in the order of their creation. -/
structure Numbering (k : Kernel) : Prop where
  numbered : ∀ i, (k.tasks i).active = true →
    (k.tasks i).serial < k.created ∧ (k.tasks i).id = UInt32.ofNat (k.tasks i).serial
  serials : ∀ i j, (k.tasks i).active = true → (k.tasks j).active = true →
    (k.tasks i).serial = (k.tasks j).serial → i = j
  nextPid : k.nextPid = UInt32.ofNat k.created

/-- The invariant in its inductive form. -/
structure TableInv (k : Kernel) : Prop extends Numbering k where
  running : ∀ i, (k.tasks i).state = .running → i = k.currentTask
  slotZero : (k.tasks 0).active = true ∧ (k.tasks 0).id = 0
  ticks : ∀ i, (k.tasks i).ticksLeft ≤ (k.tasks i).quantum

variable {k k' : Kernel}

/-! ## The start -/

theorem boot_tasks_zero (kernelPd : UInt32) : (boot kernelPd).tasks 0 = kernelTask := by
  simp [boot]

theorem boot_tasks_ne (kernelPd : UInt32) {i : Slot} (h : i ≠ 0) :
    (boot kernelPd).tasks i = Task.zero := by
  simp [boot, h]

theorem eq_zero_of_active_boot {kernelPd : UInt32} {i : Slot}
    (hi : ((boot kernelPd).tasks i).active = true) : i = 0 := by
  by_contra h
  rw [boot_tasks_ne kernelPd h] at hi
  exact absurd hi (by decide)

theorem numbering_boot (kernelPd : UInt32) : Numbering (boot kernelPd) := by
  refine ⟨fun i hi => ?_, fun i j hi hj _ => ?_, rfl⟩
  · obtain rfl := eq_zero_of_active_boot hi
    rw [boot_tasks_zero]
    exact ⟨Nat.one_pos, rfl⟩
  · rw [eq_zero_of_active_boot hi, eq_zero_of_active_boot hj]

theorem tableInv_boot (kernelPd : UInt32) : TableInv (boot kernelPd) := by
  refine ⟨numbering_boot kernelPd, fun i hi => ?_, ?_, fun i => ?_⟩
  · by_contra h
    rw [boot_tasks_ne kernelPd h] at hi
    exact absurd hi (by decide)
  · rw [boot_tasks_zero]
    decide
  · by_cases h : i = 0
    · rw [h, boot_tasks_zero]
      exact UInt32.le_refl _
    · rw [boot_tasks_ne kernelPd h]
      exact UInt32.le_refl _

/-! ## The numbers -/

/-- The numbers of the active tasks do not change. -/
theorem Numbering.of_active (hk : Numbering k)
    (h : ∀ i, (k'.tasks i).active = true → (k.tasks i).active = true ∧
      (k'.tasks i).serial = (k.tasks i).serial ∧ (k'.tasks i).id = (k.tasks i).id)
    (hc : k'.created = k.created) (hn : k'.nextPid = k.nextPid) : Numbering k' where
  numbered := fun i hi => by
    obtain ⟨ha, hs, hid⟩ := h i hi
    rw [hs, hid, hc]
    exact hk.numbered i ha
  serials := fun i j hi hj he => by
    obtain ⟨ha, hs, -⟩ := h i hi
    obtain ⟨ha', hs', -⟩ := h j hj
    rw [hs, hs'] at he
    exact hk.serials i j ha ha' he
  nextPid := by
    rw [hn, hc]
    exact hk.nextPid

theorem Numbering.of_tame (hk : Numbering k) (h : Tame k k') : Numbering k' := by
  refine hk.of_active (fun i hi => ?_) h.created h.nextPid
  rw [(h.tasks i).active] at hi
  exact ⟨hi, (h.tasks i).serial, (h.tasks i).id⟩

theorem numbering_endTask (hk : Numbering k) (i : Slot) (cr3 : UInt32) :
    Numbering { k.endTask i with cr3 := cr3 } := by
  refine hk.of_active (fun j hj => ?_) rfl rfl
  have hne : j ≠ i := ne_of_active_endTask k hj
  have hsame : (k.endTask i).tasks j = k.tasks j := endTask_tasks_ne k hne
  rw [show ({ k.endTask i with cr3 := cr3 } : Kernel).tasks j = k.tasks j from hsame] at hj ⊢
  exact ⟨hj, rfl, rfl⟩

/-- The new number is larger than every number in use. -/
theorem numbering_addTask (hk : Numbering k) {slot : Slot} {t : Task} (ht : k.IsNew t) :
    Numbering (k.addTask slot t) := by
  have hcreated : (k.addTask slot t).created = k.created + 1 := rfl
  refine ⟨fun j hj => ?_, fun j l hj hl hs => ?_, ?_⟩
  · by_cases h : j = slot
    · rw [h, addTask_tasks_self, ht.serial, ht.id, hk.nextPid, hcreated]
      exact ⟨Nat.lt_succ_self _, rfl⟩
    · rw [addTask_tasks_ne k t h] at hj ⊢
      have := hk.numbered j hj
      exact ⟨this.1.trans (Nat.lt_succ_self _), this.2⟩
  · by_cases h : j = slot <;> by_cases h' : l = slot
    · rw [h, h']
    · rw [addTask_tasks_ne k t h'] at hl hs
      rw [h, addTask_tasks_self, ht.serial] at hs
      exact absurd hs.symm (hk.numbered l hl).1.ne
    · rw [addTask_tasks_ne k t h] at hj hs
      rw [h', addTask_tasks_self, ht.serial] at hs
      exact absurd hs (hk.numbered j hj).1.ne
    · rw [addTask_tasks_ne k t h] at hj hs
      rw [addTask_tasks_ne k t h'] at hl hs
      exact hk.serials j l hj hl hs
  · show k.nextPid + 1 = UInt32.ofNat (k.created + 1)
    rw [hk.nextPid, UInt32.ofNat_add]
    rfl

theorem numbering_switchTo (hk : Numbering k) (regs : UInt32) {next : Slot}
    (h : next ≠ k.currentTask) : Numbering (k.switchTo regs next) := by
  refine hk.of_active (fun i hi => ?_) (switchTo_created _ _ _) (switchTo_nextPid _ _ _)
  obtain ⟨ha, hid, hs⟩ := switchTo_identity k regs h i
  rw [ha] at hi
  exact ⟨hi, hs, hid⟩

theorem numbering_taskPreemptCheck (hk : Numbering k) : Numbering k.taskPreemptCheck.1 := by
  refine hk.of_active (fun i hi => ?_) ?_ ?_
  · rw [taskPreemptCheck_tasks] at hi ⊢
    exact ⟨hi, rfl, rfl⟩
  all_goals
    unfold taskPreemptCheck
    split_ifs <;> rfl

/-- Every action keeps the numbers, whoever acts. -/
theorem numbering_act (hk : Numbering k) (c : Slot) (a : Action) : Numbering (k.act c a) := by
  have hc : Numbering (k.onBehalf c) := ⟨hk.numbered, hk.serials, hk.nextPid⟩
  refine (evolves_exec _ a).invariant hc ?_ ?_ ?_ ?_ ?_
  · exact fun _ _ h hk => hk.of_tame h
  · exact fun _ i cr3 _ hk => numbering_endTask hk i cr3
  · exact fun _ _ _ _ ht hk => numbering_addTask hk ht
  · exact fun _ regs h hk => numbering_switchTo hk regs h
  · exact fun _ hk => numbering_taskPreemptCheck hk

/-! ## The whole invariant -/

/-- Tame functions keep the invariant. -/
theorem TableInv.of_tame (hk : TableInv k) (h : Tame k k') : TableInv k' where
  toNumbering := hk.toNumbering.of_tame h
  running := fun i hi => by
    rw [h.currentTask]
    exact hk.running i ((h.tasks i).running hi)
  slotZero := by
    rw [(h.tasks 0).active, (h.tasks 0).id]
    exact hk.slotZero
  ticks := fun i => (h.tasks i).ticks (hk.ticks i)

/-- Ending a task of another slot than 0 keeps the invariant. -/
theorem tableInv_endTask (hk : TableInv k) {i : Slot} (hi : i ≠ 0) (cr3 : UInt32) :
    TableInv { k.endTask i with cr3 := cr3 } := by
  refine ⟨numbering_endTask hk.toNumbering i cr3, fun j hj => ?_, ?_, fun j => ?_⟩
  · show j = k.currentTask
    replace hj : ((k.endTask i).tasks j).state = .running := hj
    by_cases h : j = i
    · rw [h, endTask_tasks_self] at hj
      exact absurd hj (by simp)
    · rw [endTask_tasks_ne k h] at hj
      exact hk.running j hj
  · show ((k.endTask i).tasks 0).active = true ∧ ((k.endTask i).tasks 0).id = 0
    rw [endTask_tasks_ne k hi.symm]
    exact hk.slotZero
  · show ((k.endTask i).tasks j).ticksLeft ≤ ((k.endTask i).tasks j).quantum
    by_cases h : j = i
    · rw [h, endTask_tasks_self]
      exact hk.ticks i
    · rw [endTask_tasks_ne k h]
      exact hk.ticks j

/-- Filling a free slot with a new task keeps the invariant. -/
theorem tableInv_addTask (hk : TableInv k) {slot : Slot} (hslot : k.freeSlot = some slot)
    {t : Task} (ht : k.IsNew t) : TableInv (k.addTask slot t) := by
  refine ⟨numbering_addTask hk.toNumbering ht, fun j hj => ?_, ?_, fun j => ?_⟩
  · by_cases h : j = slot
    · rw [h, addTask_tasks_self, ht.state] at hj
      exact absurd hj (by simp)
    · rw [addTask_tasks_ne k t h] at hj
      exact hk.running j hj
  · have h0 : (0 : Slot) ≠ slot := by
      rintro rfl
      have hfree := freeSlot_eq_some hslot
      rw [hk.slotZero.1] at hfree
      exact absurd hfree (by simp)
    rw [addTask_tasks_ne k t h0]
    exact hk.slotZero
  · by_cases h : j = slot
    · rw [h, addTask_tasks_self]
      exact ht.ticks
    · rw [addTask_tasks_ne k t h]
      exact hk.ticks j

/-- Entering another task keeps the invariant. -/
theorem tableInv_switchTo (hk : TableInv k) (regs : UInt32) {next : Slot}
    (h : next ≠ k.currentTask) : TableInv (k.switchTo regs next) := by
  refine ⟨numbering_switchTo hk.toNumbering regs h, fun i hi => ?_, ?_, fun i => ?_⟩
  · -- Only the current task was running, and it has just been made ready.
    by_contra hn
    rw [switchTo_currentTask] at hn
    by_cases hc : i = k.currentTask
    · rw [hc, switchTo_tasks_current k regs h] at hi
      dsimp only at hi
      split_ifs at hi with hr
      exact hr hi
    · rw [switchTo_tasks_other k regs hn hc] at hi
      exact hc (hk.running i hi)
  · obtain ⟨ha, hid, -⟩ := switchTo_identity k regs h 0
    rw [ha, hid]
    exact hk.slotZero
  · by_cases hn : i = next
    · rw [hn, switchTo_tasks_next k regs h]
      exact UInt32.le_refl _
    · by_cases hc : i = k.currentTask
      · rw [hc, switchTo_tasks_current k regs h]
        exact hk.ticks k.currentTask
      · rw [switchTo_tasks_other k regs hn hc]
        exact hk.ticks i

theorem tableInv_taskPreemptCheck (hk : TableInv k) : TableInv k.taskPreemptCheck.1 := by
  have hcur : k.taskPreemptCheck.1.currentTask = k.currentTask := by
    unfold taskPreemptCheck
    split_ifs <;> rfl
  refine ⟨numbering_taskPreemptCheck hk.toNumbering, ?_, ?_, ?_⟩
  · rw [taskPreemptCheck_tasks, hcur]
    exact hk.running
  · rw [taskPreemptCheck_tasks]
    exact hk.slotZero
  · rw [taskPreemptCheck_tasks]
    exact hk.ticks

/-- With fewer than `2^32` creations a PID belongs to one active task. -/
theorem Numbering.pids (hk : Numbering k) (hcreated : k.created - 1 < 2 ^ 32) {i j : Slot}
    (hi : (k.tasks i).active = true) (hj : (k.tasks j).active = true)
    (hid : (k.tasks i).id = (k.tasks j).id) : i = j := by
  refine hk.serials i j hi hj ?_
  obtain ⟨hlti, hidi⟩ := hk.numbered i hi
  obtain ⟨hltj, hidj⟩ := hk.numbered j hj
  -- Both numbers are below `2^32`, where the PID determines the number.
  rw [hidi, hidj, ← UInt32.toNat_inj, UInt32.toNat_ofNat', UInt32.toNat_ofNat',
    Nat.mod_eq_of_lt (by omega), Nat.mod_eq_of_lt (by omega)] at hid
  exact hid

/-! ## All runs -/

/-- Every action of the current task keeps the invariant. -/
theorem tableInv_exec (hk : TableInv k) (a : Action) : TableInv (a.exec k) := by
  refine (evolves_exec k a).invariant hk ?_ ?_ ?_ ?_ ?_
  · exact fun _ _ h hk => hk.of_tame h
  · exact fun _ i cr3 hi hk => tableInv_endTask hk hi cr3
  · exact fun _ _ _ hslot ht hk => tableInv_addTask hk hslot ht
  · exact fun _ regs h hk => tableInv_switchTo hk regs h
  · exact fun _ hk => tableInv_taskPreemptCheck hk

/-- The invariant holds at the end of every run of the scheduled system. -/
theorem tableInv_run {kernelPd : UInt32} {as : List (Slot × Action)}
    (h : Run (StepIf Scheduled) (boot kernelPd) as k) : TableInv k := by
  refine h.invariant (fun s a t hst hs => ?_) (tableInv_boot kernelPd)
  obtain ⟨hsched, rfl⟩ := hst
  rw [Scheduled] at hsched
  rw [act, hsched]
  exact tableInv_exec hs a.2

/-- **The scheduler invariant.**  After every run of the scheduled system with fewer
than `2^32` creations, only the current task can be running, the PIDs of the active
tasks are distinct, slot 0 holds the active task with PID 0, and `ticks_left` is at most
the quantum in every slot. -/
theorem schedulerInvariant {kernelPd : UInt32} {as : List (Slot × Action)}
    (h : Run (StepIf Scheduled) (boot kernelPd) as k) (hcreated : k.created - 1 < 2 ^ 32) :
    (∀ i, (k.tasks i).state = .running → i = k.currentTask) ∧
    (∀ i j, (k.tasks i).active = true → (k.tasks j).active = true →
      (k.tasks i).id = (k.tasks j).id → i = j) ∧
    ((k.tasks 0).active = true ∧ (k.tasks 0).id = 0) ∧
    (∀ i, (k.tasks i).ticksLeft ≤ (k.tasks i).quantum) := by
  have hk := tableInv_run h
  exact ⟨hk.running, fun i j hi hj hid => hk.pids hcreated hi hj hid, hk.slotZero, hk.ticks⟩

/-- A created task is entered and dies by its own fault. -/
theorem schedulerInvariant_fault :
    ∃ k, Run (StepIf Scheduled) (boot 0x1000)
      [(0, .call (.taskCreateUser [] 1 false 0x10000 0x20000 0x30000)),
        (0, .call .taskYield), (0, .irq 0 0x7000), (1, .call .pageFault), (1, .irq 0 0x7100)] k ∧
      (k.created - 1 < 2 ^ 32 ∧ k.currentTask = 0 ∧ (k.tasks 1).active = false) ∧
      ∀ i, (k.tasks i).state = .running → i = 0 := by
  obtain ⟨k, hrun, hk⟩ : ∃ k, Run (StepIf Scheduled) (boot 0x1000)
      [(0, .call (.taskCreateUser [] 1 false 0x10000 0x20000 0x30000)),
        (0, .call .taskYield), (0, .irq 0 0x7000), (1, .call .pageFault), (1, .irq 0 0x7100)] k ∧
      (k.created - 1 < 2 ^ 32 ∧ k.currentTask = 0 ∧ (k.tasks 1).active = false) :=
    exists_run_followIf _ (by decide +kernel)
  refine ⟨k, hrun, hk, ?_⟩
  rw [← hk.2.1]
  exact (schedulerInvariant hrun hk.1).1

end Kernel

end Microkernel

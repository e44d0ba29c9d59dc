/-
# The machine context follows `current_task`

CR3, the kernel stack of the TSS and the stack pointer that `task_preempt_check` returns
agree with the task table in every run.  `do_switch_context` compares recorded directories
and not the register, so the agreement of register and record is itself part of the
invariant, together with the distinctness of the recorded directories on which
`task_kill` relies.

What the allocators return is an argument of the creation calls here.  The runs
considered are those in which it is memory of its own: page directories that no task has
recorded, and stacks that do not reach the end of the address space.
-/
import Microkernel.Machine

namespace Microkernel

namespace Kernel

variable {k k' : Kernel}

/-- The context of the current task is loaded, and that of the others can be. -/
structure Context (k : Kernel) : Prop where
  cr3 : k.cr3 = k.directoryOf k.current
  tss : k.current.active = true → k.current.isUser = true → k.tssEsp0 = k.current.kernelStackTop
  directories : ∀ i j, (k.tasks i).pageDirectory ≠ 0 →
    (k.tasks i).pageDirectory = (k.tasks j).pageDirectory → i = j
  kernelStacks : ∀ i, (k.tasks i).active = true → (k.tasks i).isUser = true →
    (k.tasks i).kernelStackTop ≠ 0
  saved : ∀ i, (k.tasks i).active = true → i ≠ k.currentTask → (k.tasks i).savedEsp ≠ 0

theorem directoryOf_congr {t t' : Task} (hp : k'.kernelPd = k.kernelPd)
    (ht : t'.pageDirectory = t.pageDirectory) : k'.directoryOf t' = k.directoryOf t := by
  rw [directoryOf, directoryOf, hp, ht]

theorem context_boot (kernelPd : UInt32) : Context (boot kernelPd) := by
  have hcur : (boot kernelPd).current = kernelTask := boot_tasks_zero kernelPd
  refine ⟨?_, ?_, fun i j hi => ?_, fun i hi hu => ?_, fun i hi hne => ?_⟩
  · rw [hcur]
    rfl
  · rw [hcur]
    exact fun _ h => absurd h (by decide)
  · exfalso
    refine hi ?_
    by_cases h : i = 0
    · rw [h, boot_tasks_zero]
      rfl
    · rw [boot_tasks_ne kernelPd h]
      rfl
  · rw [eq_zero_of_active_boot hi, boot_tasks_zero] at hu
    exact absurd hu (by decide)
  · exact absurd (eq_zero_of_active_boot hi) hne

/-- Tame functions keep the context. -/
theorem Context.of_tame (hk : Context k) (h : Tame k k') : Context k' := by
  have hcur : TameTask k.current k'.current := by
    rw [current, current, h.currentTask]
    exact h.tasks _
  refine ⟨?_, fun ha hu => ?_, fun i j hi hij => ?_, fun i ha hu => ?_, fun i ha hi => ?_⟩
  · rw [h.cr3, hk.cr3, directoryOf_congr h.kernelPd hcur.pageDirectory]
  · rw [hcur.active] at ha
    rw [hcur.isUser] at hu
    rw [h.tssEsp0, hcur.kernelStackTop]
    exact hk.tss ha hu
  · rw [(h.tasks i).pageDirectory] at hi hij
    rw [(h.tasks j).pageDirectory] at hij
    exact hk.directories i j hi hij
  · rw [(h.tasks i).active] at ha
    rw [(h.tasks i).isUser] at hu
    rw [(h.tasks i).kernelStackTop]
    exact hk.kernelStacks i ha hu
  · rw [(h.tasks i).active] at ha
    rw [h.currentTask] at hi
    rw [(h.tasks i).savedEsp]
    exact hk.saved i ha hi

/-! ## Ending a task -/

/-- Ending a task, with CR3 set to the kernel's directory if the task is the current one. -/
theorem Context.endTask (hk : Context k) (i : Slot) {cr3 : UInt32}
    (hother : i ≠ k.currentTask → cr3 = k.cr3) (hself : i = k.currentTask → cr3 = k.kernelPd) :
    Context { k.endTask i with cr3 := cr3 } := by
  have hcur : ({ k.endTask i with cr3 := cr3 } : Kernel).current =
      (k.endTask i).tasks k.currentTask := rfl
  have hact : ∀ j, ((k.endTask i).tasks j).active = true → (k.endTask i).tasks j = k.tasks j :=
    fun j hj => endTask_tasks_ne k (ne_of_active_endTask k hj)
  refine ⟨?_, fun ha hu => ?_, fun j l hj hjl => ?_, fun j ha hu => ?_, fun j ha hne => ?_⟩
  · rw [hcur]
    show cr3 = k.directoryOf ((k.endTask i).tasks k.currentTask)
    by_cases h : i = k.currentTask
    · rw [hself h, ← h, endTask_tasks_self]
      rfl
    · rw [hother h, endTask_tasks_ne k (Ne.symm h)]
      exact hk.cr3
  · rw [hcur] at ha hu ⊢
    have heq := hact _ ha
    rw [heq] at ha hu ⊢
    exact hk.tss ha hu
  · replace hj : ((k.endTask i).tasks j).pageDirectory ≠ 0 := hj
    replace hjl : ((k.endTask i).tasks j).pageDirectory =
      ((k.endTask i).tasks l).pageDirectory := hjl
    have hji : j ≠ i := by
      rintro rfl
      rw [endTask_tasks_self] at hj
      exact hj rfl
    have hli : l ≠ i := by
      rintro rfl
      rw [hjl, endTask_tasks_self] at hj
      exact hj rfl
    rw [endTask_tasks_ne k hji] at hj hjl
    rw [endTask_tasks_ne k hli] at hjl
    exact hk.directories j l hj hjl
  · replace ha : ((k.endTask i).tasks j).active = true := ha
    replace hu : ((k.endTask i).tasks j).isUser = true := hu
    show ((k.endTask i).tasks j).kernelStackTop ≠ 0
    have heq := hact j ha
    rw [heq] at ha hu ⊢
    exact hk.kernelStacks j ha hu
  · replace ha : ((k.endTask i).tasks j).active = true := ha
    show ((k.endTask i).tasks j).savedEsp ≠ 0
    have heq := hact j ha
    rw [heq] at ha ⊢
    exact hk.saved j ha hne

theorem context_taskExit (hk : Context k) : Context k.taskExit.1 := by
  by_cases h : k.currentTask = 0
  · rw [taskExit, if_pos h]
    exact hk
  · rw [taskExit_of_ne h]
    refine (hk.endTask k.currentTask (fun hne => absurd rfl hne) fun _ => ?_).of_tame
      (tame_taskYield _)
    by_cases hpd : k.current.pageDirectory = 0
    · rw [if_neg (by simp [hpd]), hk.cr3, directoryOf, if_pos hpd]
    · rw [if_pos hpd]

/-- `task_kill` of another task leaves CR3 alone because directories are not shared. -/
theorem context_taskKill (hk : Context k) (id : UInt32) : Context (k.taskKill id) := by
  unfold taskKill
  split
  · exact hk
  · rename_i i hi
    refine hk.endTask i (fun hne => ?_) fun heq => ?_
    · split_ifs with h
      · by_cases hpd : k.current.pageDirectory = 0
        · rw [hk.cr3, directoryOf, if_pos hpd]
        · have hsame : (k.tasks i).pageDirectory = (k.tasks k.currentTask).pageDirectory := by
            rw [← h.2, hk.cr3, directoryOf, if_neg hpd]
            rfl
          exact absurd (hk.directories i k.currentTask h.1 hsame) hne
      · rfl
    · subst heq
      by_cases hpd : k.current.pageDirectory = 0
      · rw [if_neg (fun h => h.1 hpd), hk.cr3, directoryOf, if_pos hpd]
      · refine if_pos ⟨hpd, ?_⟩
        rw [hk.cr3, directoryOf, if_neg hpd]
        rfl

theorem context_pageFault (hk : Context k) : Context k.pageFault.1 := by
  unfold pageFault
  split_ifs
  · exact (context_taskKill hk _).of_tame (tame_taskYield _)
  · exact hk

/-! ## Creating a task -/

/-- The allocators gave the call memory of its own.  `pmm_alloc_page` returns a page that
is not in use, and a page directory is in use as long as a task has it recorded;
`pmm.c` manages less than 2 GB, so that no stack reaches the end of the address space. -/
def Allocated (k : Kernel) : Call → Prop
  | .taskCreate _ _ stack => stack.toNat + 8192 < 2 ^ 32
  | .taskCreateUser _ _ _ _ kernelStack pd =>
    kernelStack.toNat + 4096 < 2 ^ 32 ∧ ∀ i, pd ≠ 0 → (k.tasks i).pageDirectory ≠ pd
  | .taskCreateFromElf _ _ pageDir kstackBase kstackSize _ _ =>
    64 < kstackSize.toNat ∧ kstackBase.toNat + kstackSize.toNat < 2 ^ 32 ∧
      ∀ i, pageDir ≠ 0 → (k.tasks i).pageDirectory ≠ pageDir
  | _ => True

instance (k : Kernel) (c : Call) : Decidable (k.Allocated c) := by
  unfold Allocated
  split <;> infer_instance

/-- Filling a slot other than the current one. -/
theorem Context.addTask (hk : Context k) {slot : Slot} (hne : slot ≠ k.currentTask) {t : Task}
    (hpd : t.pageDirectory ≠ 0 → ∀ i, (k.tasks i).pageDirectory ≠ t.pageDirectory)
    (hstack : t.isUser = true → t.kernelStackTop ≠ 0) (hesp : t.savedEsp ≠ 0) :
    Context (k.addTask slot t) := by
  have hcur : (k.addTask slot t).current = k.current := addTask_tasks_ne k t hne.symm
  refine ⟨?_, ?_, fun i j hi hij => ?_, fun i ha hu => ?_, fun i ha hi => ?_⟩
  · rw [hcur]
    exact hk.cr3
  · rw [hcur]
    exact hk.tss
  · by_cases his : i = slot <;> by_cases hjs : j = slot
    · rw [his, hjs]
    · rw [his, addTask_tasks_self] at hi hij
      rw [addTask_tasks_ne k t hjs] at hij
      exact absurd hij.symm (hpd hi j)
    · rw [addTask_tasks_ne k t his] at hi hij
      rw [hjs, addTask_tasks_self] at hij
      exact absurd hij (hpd (hij ▸ hi) i)
    · rw [addTask_tasks_ne k t his] at hi hij
      rw [addTask_tasks_ne k t hjs] at hij
      exact hk.directories i j hi hij
  · by_cases his : i = slot
    · rw [his, addTask_tasks_self] at hu ⊢
      exact hstack hu
    · rw [addTask_tasks_ne k t his] at ha hu ⊢
      exact hk.kernelStacks i ha hu
  · by_cases his : i = slot
    · rw [his, addTask_tasks_self]
      exact hesp
    · rw [addTask_tasks_ne k t his] at ha ⊢
      exact hk.saved i ha hi

/-- The top of a stack inside the address space, less the frame that is pushed on it. -/
theorem stack_top_ne_zero {b n f : UInt32} (h : b.toNat + n.toNat < 2 ^ 32)
    (hf : f.toNat < n.toNat) : b + n ≠ 0 ∧ b + n - f ≠ 0 := by
  have hadd : (b + n).toNat = b.toNat + n.toNat := by
    rw [UInt32.toNat_add, Nat.mod_eq_of_lt h]
  have hsub : (b + n - f).toNat = b.toNat + n.toNat - f.toNat := by
    rw [UInt32.toNat_sub_of_le _ _ (by rw [UInt32.le_iff_toNat_le, hadd]; omega), hadd]
  constructor
  · intro h0
    rw [h0] at hadd
    simp only [UInt32.toNat_zero] at hadd
    omega
  · intro h0
    rw [h0] at hsub
    simp only [UInt32.toNat_zero] at hsub
    omega

theorem context_exec_call (hk : Context k) (hact : k.current.active = true) {c : Call}
    (halloc : k.Allocated c) : Context (c.exec k).1 := by
  have hne : ∀ {slot}, k.freeSlot = some slot → slot ≠ k.currentTask := by
    rintro slot hslot rfl
    rw [current, freeSlot_eq_some hslot] at hact
    exact absurd hact (by simp)
  cases hc : changesTasks c with
  | false => exact hk.of_tame (tame_exec k c hc)
  | true =>
    cases c with
    | taskExit => exact context_taskExit hk
    | taskKill id => exact context_taskKill hk id
    | pageFault => exact context_pageFault hk
    | taskCreate name p st =>
      simp only [Call.exec, taskCreate]
      split
      · exact hk
      · split_ifs
        · exact hk
        · refine hk.addTask (hne ‹_›) ?_ ?_ ?_
          · exact fun h => absurd rfl h
          · exact fun h => absurd h (by simp [newTask, Task.zero])
          · exact (stack_top_ne_zero (b := st) (n := 8192) (f := 56) halloc (by decide)).2
    | taskCreateUser name p io u st pd =>
      simp only [Call.exec, taskCreateUser]
      split
      · exact hk
      · split_ifs
        · exact hk
        · have htop := stack_top_ne_zero (n := 4096) (f := 64) halloc.1 (by decide)
          exact hk.addTask (hne ‹_›) (fun h i => halloc.2 i h) (fun _ => htop.1) htop.2
    | taskCreateFromElf name top pd b size p io =>
      simp only [Call.exec, taskCreateFromElf]
      split
      · exact hk
      · have htop := stack_top_ne_zero (b := b) (f := 64) halloc.2.1 halloc.1
        exact hk.addTask (hne ‹_›) (fun h i => halloc.2.2 i h) (fun _ => htop.1) htop.2
    | _ => exact absurd hc (by simp [changesTasks])

/-! ## Switching -/

variable {regs : UInt32} {next : Slot}

theorem switchTo_kernelPd : (k.switchTo regs next).kernelPd = k.kernelPd := by
  simp only [switchTo, doSwitchContext_eq]
  rfl

/-- CR3 is written exactly when the recorded directories differ. -/
theorem switchTo_cr3 (h : next ≠ k.currentTask) :
    (k.switchTo regs next).cr3 = if k.directoryOf (k.tasks next) = k.directoryOf k.current
      then k.cr3 else k.directoryOf (k.tasks next) := by
  simp only [switchTo, doSwitchContext_eq, ne_eq, ite_not]
  simp [directoryOf, current, h, h.symm]
  rfl

theorem switchTo_tssEsp0 (h : next ≠ k.currentTask) :
    (k.switchTo regs next).tssEsp0 = if (k.tasks next).isUser ∧ (k.tasks next).kernelStackTop ≠ 0
      then (k.tasks next).kernelStackTop else k.tssEsp0 := by
  simp [switchTo, doSwitchContext_eq, h]

/-- The stack pointer for `task_preempt_check` is the one the new task was left with. -/
theorem switchTo_switchNewEsp (h : next ≠ k.currentTask) :
    (k.switchTo regs next).switchNewEsp = (k.tasks next).savedEsp := by
  simp [switchTo, h]

/-- What a switch does to the directory, the kernel stack and the kind of a task: nothing. -/
theorem switchTo_tasks_context (regs : UInt32) (h : next ≠ k.currentTask) (i : Slot) :
    ((k.switchTo regs next).tasks i).active = (k.tasks i).active ∧
      ((k.switchTo regs next).tasks i).pageDirectory = (k.tasks i).pageDirectory ∧
      ((k.switchTo regs next).tasks i).isUser = (k.tasks i).isUser ∧
      ((k.switchTo regs next).tasks i).kernelStackTop = (k.tasks i).kernelStackTop := by
  by_cases hn : i = next
  · rw [hn, switchTo_tasks_next k regs h]
    exact ⟨rfl, rfl, rfl, rfl⟩
  · by_cases hc : i = k.currentTask
    · rw [hc, switchTo_tasks_current k regs h]
      exact ⟨rfl, rfl, rfl, rfl⟩
    · rw [switchTo_tasks_other k regs hn hc]
      exact ⟨rfl, rfl, rfl, rfl⟩

/-- A switch to an active task loads its context. -/
theorem Context.switchTo (hk : Context k) (h : next ≠ k.currentTask)
    (hact : (k.tasks next).active = true) (hregs : regs ≠ 0) :
    Context (k.switchTo regs next) := by
  have hf := switchTo_tasks_context regs h
  have hcur : (k.switchTo regs next).current = (k.switchTo regs next).tasks next := rfl
  refine ⟨?_, fun _ hu => ?_, fun i j hi hij => ?_, fun i ha hu => ?_, fun i ha hi => ?_⟩
  · rw [hcur, directoryOf_congr switchTo_kernelPd (hf next).2.1, switchTo_cr3 h]
    -- If the recorded directories agree, the register holds the new one already.
    split_ifs with hd
    · rw [hk.cr3, hd]
    · rfl
  · rw [hcur, (hf next).2.2.1] at hu
    rw [hcur, (hf next).2.2.2, switchTo_tssEsp0 h, if_pos ⟨hu, hk.kernelStacks next hact hu⟩]
  · rw [(hf i).2.1] at hi hij
    rw [(hf j).2.1] at hij
    exact hk.directories i j hi hij
  · rw [(hf i).1] at ha
    rw [(hf i).2.2.1] at hu
    rw [(hf i).2.2.2]
    exact hk.kernelStacks i ha hu
  · rw [(hf i).1] at ha
    rw [switchTo_currentTask] at hi
    by_cases hc : i = k.currentTask
    · rw [hc, switchTo_tasks_current k regs h]
      exact hregs
    · rw [switchTo_tasks_other k regs hi hc]
      exact hk.saved i ha hc

/-- What `find_next_task` chooses is active, if it is not the current task. -/
theorem active_pickNext (h0 : (k.tasks 0).active = true) (h : k.pickNext ≠ k.currentTask) :
    (k.tasks k.pickNext).active = true := by
  rcases k.pickNext_cases with ⟨-, hr, -⟩ | ⟨-, -, he⟩ | ⟨-, -, he⟩
  · exact active_of_canRun hr
  · exact absurd he h
  · rw [he]
    exact h0

/-- The pending switch, if there is one, is to the current task `k'` from another task. -/
def PendingSwitch (k k' : Kernel) : Prop :=
  (k'.switchPending = false ∧ k'.currentTask = k.currentTask) ∨
    (k'.switchPending = true ∧ k'.currentTask ≠ k.currentTask ∧
      k'.switchNewEsp = k'.current.savedEsp ∧ k'.current.savedEsp ≠ 0)

/-- **A tick keeps the context, and it announces a switch exactly when it makes one.** -/
theorem context_timerCallback (hk : Context k) (h0 : (k.tasks 0).active = true)
    (hp : k.switchPending = false) (hregs : regs ≠ 0) :
    Context (k.timerCallback regs) ∧ PendingSwitch k (k.timerCallback regs) := by
  rcases timerCallback_evolution k regs with ht | ⟨k₁, ht, hne, heq⟩
  · exact ⟨hk.of_tame ht, Or.inl ⟨ht.switchPending.trans hp, ht.currentTask⟩⟩
  · have hk₁ := hk.of_tame ht
    have hact := active_pickNext ((ht.tasks 0).active.trans h0) hne
    have hesp : (k₁.switchTo regs k₁.pickNext).current.savedEsp =
        (k₁.tasks k₁.pickNext).savedEsp := by
      rw [current, switchTo_currentTask, switchTo_tasks_next k₁ regs hne]
    rw [heq]
    refine ⟨hk₁.switchTo hne hact hregs, Or.inr ⟨rfl, ?_, ?_, ?_⟩⟩
    · rw [switchTo_currentTask, ← ht.currentTask]
      exact hne
    · rw [hesp, switchTo_switchNewEsp hne]
    · rw [hesp]
      exact hk₁.saved _ hact hne

theorem routeIrq_switchNewEsp (irq : Fin 16) : (k.routeIrq irq).switchNewEsp = k.switchNewEsp := by
  unfold routeIrq ipcNotify
  dsimp only
  split_ifs
  · split
    · rfl
    · split_ifs <;> rfl
  · rfl

theorem PendingSwitch.routeIrq (h : PendingSwitch k k') (irq : Fin 16) :
    PendingSwitch k (k'.routeIrq irq) := by
  have ht := tame_routeIrq k' irq
  have hesp : (k'.routeIrq irq).current.savedEsp = k'.current.savedEsp := by
    rw [current, ht.currentTask]
    exact (ht.tasks _).savedEsp
  unfold PendingSwitch
  rw [ht.switchPending, ht.currentTask, hesp, routeIrq_switchNewEsp]
  exact h

/-- The stack pointer an interrupt returns on is that of the new current task, and `0`
if the current task is the old one. -/
def ReturnsOn (k : Kernel) (r : Kernel × UInt32) : Prop :=
  (r.2 ≠ 0 ↔ r.1.currentTask ≠ k.currentTask) ∧ (r.2 ≠ 0 → r.2 = r.1.current.savedEsp)

instance (k : Kernel) (r : Kernel × UInt32) : Decidable (k.ReturnsOn r) :=
  inferInstanceAs (Decidable (_ ∧ _))

/-- `task_preempt_check` consumes the pending switch. -/
theorem taskPreemptCheck_returnsOn (h : PendingSwitch k k') :
    k.ReturnsOn k'.taskPreemptCheck ∧ k'.taskPreemptCheck.1.switchPending = false := by
  unfold taskPreemptCheck
  rcases h with ⟨hp, hcur⟩ | ⟨hp, hcur, hesp, hne⟩
  · rw [if_neg (by simp [hp])]
    exact ⟨⟨by simp [hcur], fun h => absurd rfl h⟩, hp⟩
  · rw [if_pos hp]
    refine ⟨⟨⟨fun _ => hcur, fun _ => ?_⟩, fun _ => hesp⟩, rfl⟩
    show k'.switchNewEsp ≠ 0
    rw [hesp]
    exact hne

theorem Context.taskPreemptCheck (hk : Context k) : Context k.taskPreemptCheck.1 := by
  unfold Kernel.taskPreemptCheck
  split_ifs
  · exact ⟨hk.cr3, hk.tss, hk.directories, hk.kernelStacks, hk.saved⟩
  · exact hk

/-- An interrupt keeps the context and returns on the stack of the current task. -/
theorem context_irqHandler (hk : Context k) (h0 : (k.tasks 0).active = true)
    (hp : k.switchPending = false) (hregs : regs ≠ 0) (irq : Fin 16) :
    Context (k.irqHandler irq regs).1 ∧ k.ReturnsOn (k.irqHandler irq regs) ∧
      (k.irqHandler irq regs).1.switchPending = false := by
  have htick : Context (if irq = 0 then k.timerCallback regs else k) ∧
      PendingSwitch k (if irq = 0 then k.timerCallback regs else k) := by
    split_ifs
    · exact context_timerCallback hk h0 hp hregs
    · exact ⟨hk, Or.inl ⟨hp, rfl⟩⟩
  unfold irqHandler
  exact ⟨(htick.1.of_tame (tame_routeIrq _ irq)).taskPreemptCheck,
    taskPreemptCheck_returnsOn (htick.2.routeIrq irq)⟩

/-- No call leaves a switch pending. -/
theorem exec_switchPending (c : Call) : (c.exec k).1.switchPending = k.switchPending := by
  rcases exec_cases k c with h | ⟨slot, t, -, -, heq⟩ | ⟨i, cr3, -, heq | heq⟩
  · exact h.switchPending
  all_goals
    rw [heq]
    rfl

end Kernel

namespace Machine

open Kernel

/-- The moves in which the allocators give a new task memory of its own. -/
def Allocates (m : Machine) : Move → Prop
  | .call c => m.kernel.Allocated c
  | _ => True

instance (m : Machine) (a : Move) : Decidable (m.Allocates a) := by
  unfold Allocates
  split <;> infer_instance

/-- The invariant of the runs: the context, with no switch pending between the moves. -/
structure ContextInv (m : Machine) : Prop where
  machine : MachineInv m
  context : Context m.kernel
  pending : m.kernel.switchPending = false

theorem contextInv_step {m m' : Machine} {a : Move} (hm : ContextInv m)
    (h : StepIf Allocates m a m') : ContextInv m' := by
  have hm' := machineInv_step hm.machine h.2
  rcases step_cases h.2 with ⟨c, rfl, hctl, -, rfl⟩ | ⟨n, regs, -, hregs, rfl⟩ | ⟨w, -, -, -, rfl⟩
  · have hact := active_of_canRun (hm.machine.free hctl)
    exact ⟨hm', context_exec_call hm.context hact h.1, (exec_switchPending c).trans hm.pending⟩
  · obtain ⟨hc, -, hp⟩ :=
      context_irqHandler hm.context hm.machine.table.slotZero.1 hm.pending hregs n
    exact ⟨hm', hc, hp⟩
  · exact ⟨hm', hm.context, hm.pending⟩

/-- **The machine context follows `current_task`.**  In every state of every run CR3 is the
directory recorded for the current task, the TSS has the kernel stack of an active user
task that is current, and the next interrupt returns on a new stack exactly when it
changes the current task, the stack being the one saved for that task. -/
theorem contextFollowsCurrent (kernelPd : UInt32) {as : List Move} {m : Machine}
    (h : Run (StepIf Allocates) (start kernelPd) as m) :
    m.kernel.cr3 = m.kernel.directoryOf m.kernel.current ∧
    (m.kernel.current.active = true → m.kernel.current.isUser = true →
      m.kernel.tssEsp0 = m.kernel.current.kernelStackTop) ∧
    ∀ irq regs, regs ≠ 0 → m.kernel.ReturnsOn (m.kernel.irqHandler irq regs) := by
  have hm : ContextInv m := h.invariant
    (fun _ _ _ h hm => contextInv_step hm h) ⟨machineInv_start kernelPd, context_boot kernelPd, rfl⟩
  refine ⟨hm.context.cr3, hm.context.tss, fun irq regs hregs => ?_⟩
  exact (context_irqHandler hm.context hm.machine.table.slotZero.1 hm.pending hregs irq).2.1

/-- A user task is created, entered, and killed by its own page fault; the next tick
returns to the kernel task. -/
theorem contextFollowsCurrent_fault :
    ∃ m, Run (StepIf Allocates) (start 0x1000)
      [.call (.taskCreateUser [] 1 false 0x10000 0x20000 0x30000), .call (.taskSleep 10),
        .irq 0 0x7000, .call .pageFault] m ∧
      (m.kernel.currentTask = 1 ∧ m.kernel.current.active = false ∧
        (m.kernel.irqHandler 0 0x7100).1.currentTask = 0) ∧
      m.kernel.cr3 = 0x1000 ∧ (m.kernel.irqHandler 0 0x7100).2 = 0x7000 := by
  obtain ⟨m, hrun, hm, hdir, hesp⟩ : ∃ m, Run (StepIf Allocates) (start 0x1000)
      [.call (.taskCreateUser [] 1 false 0x10000 0x20000 0x30000), .call (.taskSleep 10),
        .irq 0 0x7000, .call .pageFault] m ∧
      (m.kernel.currentTask = 1 ∧ m.kernel.current.active = false ∧
        (m.kernel.irqHandler 0 0x7100).1.currentTask = 0) ∧
      m.kernel.directoryOf m.kernel.current = 0x1000 ∧
      (m.kernel.irqHandler 0 0x7100).1.current.savedEsp = 0x7000 :=
    exists_run_followIf _ (by decide +kernel)
  obtain ⟨hcr3, -, hirq⟩ := contextFollowsCurrent 0x1000 hrun
  have hret := hirq 0 0x7100 (by decide)
  have hne : (m.kernel.irqHandler 0 0x7100).2 ≠ 0 := by
    rw [hret.1, hm.2.2, hm.1]
    decide
  exact ⟨m, hrun, hm, hcr3.trans hdir, (hret.2 hne).trans hesp⟩

end Machine

end Microkernel

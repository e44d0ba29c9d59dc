/-
# The machine: tasks as threads of control

The kernel state together with where each task is in its program: running, or inside the
wait loop of `task_yield` that its last blocking call ended in.  The machine moves when the
current task makes a call, when an interrupt arrives, and when the current task leaves its
wait loop, which is when the blocking call returns.

A call is atomic up to the wait loop.  Two calls the kernel never makes are left out: a
direct `task_kill` of the calling task (the shell runs in slot 0, which `task_kill`
spares), and a page fault in PID 0, which halts the machine.
-/
import Microkernel.TaskTable

namespace Microkernel

/-- What a task in the wait loop of `task_yield` waits for. -/
inductive Wait where
  | send (n : ℕ)
  | receive (n : ℕ)
  | sendrec (n : ℕ)
  | sleep (n : ℕ) (wakeTick : UInt32)
  | yield
  /-- The task has ended; it never leaves the loop. -/
  | ended
  deriving DecidableEq

/-- Where a task is in its program. -/
inductive Control where
  | running
  | waiting (w : Wait)
  deriving DecidableEq

/-- The kernel and its tasks. -/
structure Machine where
  kernel : Kernel
  control : Slot → Control

/-- The moves of the machine. -/
inductive Move where
  | call (c : Call)
  | irq (n : Fin 16) (regs : UInt32)
  /-- The current task leaves its wait loop. -/
  | resume

/-- What a blocking call, made in state `k`, waits for. -/
def Call.wait (k : Kernel) : Call → Wait
  | .ipcSend .. => .send k.calls
  | .ipcReceive .. => .receive k.calls
  | .ipcSendrec .. => .sendrec k.calls
  | .taskSleep ms => .sleep k.calls (k.tickCount + (ms * 100) / 1000)
  | .gpu3dPresent => .sleep k.calls (k.tickCount + 1)
  | .taskExit => .ended
  | .pageFault => if k.killSlot k.current.id = some k.currentTask then .ended else .yield
  | _ => .yield

/-- The calls a task makes: it does not kill itself by `task_kill`, and PID 0 has no page
faults. -/
def Call.isMade (k : Kernel) : Call → Bool
  | .taskKill id => k.killSlot id != some k.currentTask
  | .pageFault => decide (0 < k.current.id)
  | _ => true

namespace Machine

/-- The machine after `task_init`. -/
def start (kernelPd : UInt32) : Machine where
  kernel := Kernel.boot kernelPd
  control := fun i => if i = 0 then .running else .waiting .ended

/-- Where the tasks are after a call of the current task: a call that yields leaves it in
the wait loop, and a created task starts to run. -/
def controlAfter (m : Machine) (c : Call) : Slot → Control :=
  let r := c.exec m.kernel
  let control := match r.2 with
    | .ret _ => m.control
    | .yields => Function.update m.control m.kernel.currentTask (.waiting (c.wait m.kernel))
  match m.kernel.freeSlot with
  | some slot =>
    if m.kernel.created < r.1.created then Function.update control slot .running else control
  | none => control

/-- The wait loop of `task_yield` ends when the task is ready or running. -/
def leavesLoop (w : Wait) (t : Task) : Bool :=
  w != .ended && (t.state == .ready || t.state == .running)

/-- One move; `none` when the move is not possible.  An interrupt frame has a non-zero
address. -/
def step (m : Machine) : Move → Option Machine
  | .call c =>
    if m.control m.kernel.currentTask = .running ∧ c.isMade m.kernel then
      some ⟨(c.exec m.kernel).1, m.controlAfter c⟩
    else none
  | .irq n regs =>
    if regs ≠ 0 then some ⟨(m.kernel.irqHandler n regs).1, m.control⟩ else none
  | .resume =>
    match m.control m.kernel.currentTask with
    | .running => none
    | .waiting w =>
      if leavesLoop w m.kernel.current then
        some ⟨m.kernel, Function.update m.control m.kernel.currentTask .running⟩
      else none

/-- The moves that meet a condition. -/
def StepIf (P : Machine → Move → Prop) (m : Machine) (a : Move) (m' : Machine) : Prop :=
  P m a ∧ m.step a = some m'

/-- Follow a list of moves as long as they meet the condition. -/
def followIf (P : Machine → Move → Prop) [∀ m a, Decidable (P m a)] (m : Machine)
    (as : List Move) : Option Machine :=
  Run.follow (fun m a => if P m a then m.step a else none) m as

/-- What `followIf` computes is a run. -/
theorem exists_run_followIf (P : Machine → Move → Prop) [∀ m a, Decidable (P m a)]
    {m : Machine} {as : List Move} {Q : Machine → Prop} [DecidablePred Q]
    (h : (m.followIf P as).any (fun m => decide (Q m)) = true) :
    ∃ m', Run (StepIf P) m as m' ∧ Q m' :=
  Run.exists_of_follow h

end Machine

namespace Kernel

variable {k : Kernel}

/-! ## What a call does to its caller -/

/-- A call does not switch tasks. -/
theorem exec_currentTask (c : Call) : (c.exec k).1.currentTask = k.currentTask := by
  rcases exec_cases k c with h | ⟨slot, t, -, -, heq⟩ | ⟨i, cr3, -, heq | heq⟩
  · exact h.currentTask
  all_goals
    rw [heq]
    rfl

/-- A notification does not touch dead slots. -/
theorem ipcNotify_tasks_inactive (destPid : UInt32) (msg : Message) {i : Slot}
    (hi : (k.tasks i).active = false) : (k.ipcNotify destPid msg).1.tasks i = k.tasks i := by
  unfold ipcNotify
  split
  · rfl
  · rename_i d hd
    dsimp only
    split_ifs
    · have hne : i ≠ d := by
        rintro rfl
        rw [findDest, Option.filter_eq_some_iff] at hd
        rw [hi] at hd
        exact absurd hd.2 (by simp)
      simp [fillBuffer, countMessage, record, hne]
    · rfl

theorem routeIrq_tasks_inactive (irq : Fin 16) {i : Slot} (hi : (k.tasks i).active = false) :
    (k.routeIrq irq).tasks i = k.tasks i := by
  unfold routeIrq
  dsimp only
  split_ifs
  · exact ipcNotify_tasks_inactive _ _ hi
  · rfl

/-- A task that can run before a step can run after it. -/
def KeepsRun (k k' : Kernel) (i : Slot) : Prop :=
  canRun (k.tasks i) = true → canRun (k'.tasks i) = true

/-- Filling a buffer makes the task ready. -/
theorem keepsRun_fillBuffer (d i : Slot) (msg : Message) : KeepsRun k (k.fillBuffer d msg) i := by
  intro hi
  by_cases h : i = d
  · subst h
    simpa [fillBuffer, canRun] using active_of_canRun hi
  · simpa [fillBuffer, h] using hi

theorem keepsRun_beginCall (i : Slot) : KeepsRun k k.beginCall i := by
  intro hi
  by_cases h : i = k.currentTask
  · subst h
    simpa [beginCall, canRun, current] using hi
  · simpa [beginCall, h] using hi

theorem keepsRun_ipcNotify (destPid : UInt32) (msg : Message) (i : Slot) :
    KeepsRun k (k.ipcNotify destPid msg).1 i := by
  unfold ipcNotify
  split
  · exact id
  · dsimp only
    split_ifs
    · exact keepsRun_fillBuffer (k := k.countMessage.record _) _ _ _
    · exact id

/-- **A call that returns leaves its caller able to run.** -/
theorem canRun_of_ret (hrun : canRun k.current = true) {c : Call} (hmade : c.isMade k = true)
    {v : Int32} (h : (c.exec k).2 = .ret v) :
    canRun ((c.exec k).1.tasks k.currentTask) = true := by
  have hact : (k.tasks k.currentTask).active = true := active_of_canRun hrun
  -- A slot that is filled is not the caller's.
  have hfree : ∀ {slot t}, k.freeSlot = some slot →
      canRun ((k.addTask slot t).tasks k.currentTask) = true := by
    intro slot t hslot
    have hne : k.currentTask ≠ slot := by
      rintro rfl
      rw [freeSlot_eq_some hslot] at hact
      exact absurd hact (by simp)
    rw [addTask_tasks_ne k t hne]
    exact hrun
  cases c with
  | ipcSend destPid msg =>
    revert h
    simp only [Call.exec, ipcSend]
    split
    · exact fun _ => hrun
    · split
      · exact fun _ => hrun
      · split_ifs
        · exact fun _ => keepsRun_fillBuffer (k := (k.submit destPid false).record _) _ _ _
            (keepsRun_beginCall _ hrun)
        · intro h
          exact absurd h (by simp)
  | ipcReceive fromPid msg =>
    revert h
    have hb : canRun k.beginCall.current = true := keepsRun_beginCall _ hrun
    simp only [Call.exec, ipcReceive]
    split
    · exact fun _ => hrun
    · split_ifs
      · intro _
        simpa [takeNotification, canRun, current, beginCall] using hb
      · split
        · rename_i s hs
          intro _
          have hs' := List.find?_some hs
          simp only [isBlockedSender, Bool.and_eq_true, beq_iff_eq] at hs'
          have hne : s ≠ k.beginCall.currentTask := by
            rintro rfl
            exact state_ne_blocked_of_canRun hb hs'.1.1.1.2
          show canRun ((k.beginCall.takeMessage s).tasks k.beginCall.currentTask) = true
          rw [takeMessage_tasks_current hne]
          exact hb
        · intro h
          exact absurd h (by simp)
  | ipcSendrec destPid msg =>
    revert h
    simp only [Call.exec, ipcSendrec]
    split
    · exact fun _ => hrun
    · split
      · exact fun _ => hrun
      · intro h
        exact absurd h (by simp)
  | ipcReply destPid msg =>
    revert h
    simp only [Call.exec, ipcReply]
    split
    · exact fun _ => hrun
    · split
      · exact fun _ => hrun
      · split_ifs
        · exact fun _ => keepsRun_fillBuffer (k := k.record _) _ _ _ hrun
        · exact fun _ => hrun
  | ipcNotify destPid msg => exact keepsRun_ipcNotify destPid msg _ hrun
  | taskYield | taskSleep | gpu3dPresent => exact absurd h (by simp [Call.exec])
  | taskExit =>
    revert h
    by_cases h0 : k.currentTask = 0
    · simp only [Call.exec, taskExit, if_pos h0]
      exact fun _ => hrun
    · simp only [Call.exec, taskExit_of_ne h0]
      intro h
      exact absurd h (by simp)
  | taskKill id =>
    simp only [Call.isMade, bne_iff_ne] at hmade
    simp only [Call.exec, taskKill]
    split
    · exact hrun
    · rename_i i hi
      have hne : k.currentTask ≠ i := by
        rintro rfl
        exact hmade hi
      show canRun ((k.endTask i).tasks k.currentTask) = true
      rw [endTask_tasks_ne k hne]
      exact hrun
  | pageFault =>
    simp only [Call.isMade, decide_eq_true_eq] at hmade
    rw [Call.exec, pageFault, if_pos hmade] at h
    exact absurd h (by simp)
  | taskCreate name p st =>
    simp only [Call.exec, taskCreate]
    split
    · exact hrun
    · split_ifs
      · exact hrun
      · exact hfree ‹_›
  | taskCreateUser name p io u st pd =>
    simp only [Call.exec, taskCreateUser]
    split
    · exact hrun
    · split_ifs
      · exact hrun
      · exact hfree ‹_›
  | taskCreateFromElf name t pd b st p io =>
    simp only [Call.exec, taskCreateFromElf]
    split
    · exact hrun
    · exact hfree ‹_›
  | registerSvc name =>
    simp only [Call.exec, sysRegisterSvc, ipcRegisterService]
    split
    · exact hrun
    · split <;> exact hrun
  | registerIrq irq =>
    simp only [Call.exec, sysRegisterIrq]
    split_ifs
    · simpa [canRun, current] using hrun
    · exact hrun
  | grantIo pid =>
    simp only [Call.exec, sysGrantIo]
    split
    · rename_i i hi
      by_cases h : k.currentTask = i
      · subst h
        simpa [canRun, current] using hrun
      · simpa [h, current] using hrun
    · exact hrun
  | setQuantum | setPreemptive | lockScheduler | unlockScheduler => exact hrun

/-- A caller that is dead after its call is terminated. -/
theorem terminated_of_call (hact : k.current.active = true) {c : Call}
    (hdead : ((c.exec k).1.tasks k.currentTask).active = false) :
    ((c.exec k).1.tasks k.currentTask).state = .terminated := by
  have habs : (k.tasks k.currentTask).active ≠ false := by
    rw [show (k.tasks k.currentTask).active = true from hact]
    simp
  have hend : ∀ i, ((k.endTask i).tasks k.currentTask).active = false →
      ((k.endTask i).tasks k.currentTask).state = .terminated := by
    intro i h
    by_cases hi : k.currentTask = i
    · rw [← hi, endTask_tasks_self]
    · rw [endTask_tasks_ne k hi] at h
      exact absurd h habs
  rcases exec_cases k c with h | ⟨slot, t, hslot, -, heq⟩ | ⟨i, cr3, -, heq | heq⟩
  · rw [(h.tasks k.currentTask).active] at hdead
    exact absurd hdead habs
  · have hne : k.currentTask ≠ slot := by
      rintro rfl
      exact habs (freeSlot_eq_some hslot)
    rw [heq, addTask_tasks_ne k t hne] at hdead
    exact absurd hdead habs
  · rw [heq] at hdead ⊢
    exact hend i hdead
  · rw [heq, taskYield_tasks] at hdead ⊢
    exact hend i hdead

/-! ## What an interrupt does to the current task -/

/-- A tick keeps the current task, able to run if it was and dead if it was, or it makes
another active task current and running. -/
theorem timerCallback_current (h0 : (k.tasks 0).active = true) (regs : UInt32) :
    ((k.timerCallback regs).currentTask = k.currentTask ∧
      KeepsRun k (k.timerCallback regs) k.currentTask ∧
      (k.current.active = false → ((k.timerCallback regs).tasks k.currentTask).state =
        k.current.state)) ∨
    ((k.timerCallback regs).currentTask ≠ k.currentTask ∧
      (k.timerCallback regs).current.active = true ∧
      (k.timerCallback regs).current.state = .running) := by
  rcases taskTimerTick_cases { k with tickCount := k.tickCount + 1 } regs with
    ⟨h, hcur⟩ | ⟨-, -, -, k', hsame, hcur, -, heq⟩
  · left
    have hs := h k.currentTask
    refine ⟨hcur, fun hrun => ?_, fun _ => hs.state⟩
    have hrun' : canRun (k.tasks k.currentTask) = true := hrun
    rw [timerCallback, canRun, hs.state, hs.active]
    exact hrun'
  · have heq' : k.timerCallback regs = k'.reschedule regs := heq
    have hcur' : k'.currentTask = k.currentTask := hcur
    have hs := hsame k.currentTask
    rw [heq']
    by_cases hn : k'.wakeSleeping.pickNext = k'.currentTask
    · left
      have htask : (k'.reschedule regs).tasks k.currentTask = { wakeTask k'.tickCount
          (k'.tasks k.currentTask) with
          ticksLeft := (wakeTask k'.tickCount (k'.tasks k.currentTask)).quantum } := by
        rw [reschedule_of_eq k' regs hn, hcur', setTask_tasks, Function.update_self]
        simp [wakeSleeping, current, hcur']
      refine ⟨?_, fun hrun => ?_, fun hdead => ?_⟩
      · rw [reschedule_currentTask, hn, hcur']
      · rw [htask]
        show canRun (wakeTask k'.tickCount (k'.tasks k.currentTask)) = true
        rw [canRun_wakeTask, hs.eligible, eligible]
        exact Bool.or_eq_true_iff.mpr (Or.inl hrun)
      · rw [htask]
        show (wakeTask k'.tickCount (k'.tasks k.currentTask)).state = _
        have hdead' : (k'.tasks k.currentTask).active = false := hs.active.trans hdead
        rw [wakeTask, if_neg (by simp [isDue, hdead'])]
        exact hs.state
    · right
      have htask := switchTo_tasks_next k'.wakeSleeping regs hn
      have hact : (k'.wakeSleeping.tasks k'.wakeSleeping.pickNext).active = true := by
        rcases k'.wakeSleeping.pickNext_cases with ⟨-, hr, -⟩ | ⟨-, -, he⟩ | ⟨-, -, he⟩
        · exact active_of_canRun hr
        · exact absurd he hn
        · rw [he]
          show (wakeTask k'.tickCount (k'.tasks 0)).active = true
          rw [wakeTask_active, (hsame 0).active]
          exact h0
      refine ⟨?_, ?_, ?_⟩
      · rw [reschedule_currentTask, ← hcur']
        exact hn
      · rw [current, reschedule_currentTask, reschedule_of_ne k' regs hn, htask]
        exact hact
      · rw [current, reschedule_currentTask, reschedule_of_ne k' regs hn, htask]

/-- An interrupt ends no task. -/
theorem irqHandler_active (irq : Fin 16) (regs : UInt32) (i : Slot) :
    ((k.irqHandler irq regs).1.tasks i).active = (k.tasks i).active := by
  unfold irqHandler
  dsimp only
  rw [taskPreemptCheck_tasks, ((tame_routeIrq _ irq).tasks i).active]
  split_ifs
  · exact (timerCallback_tasks_fields k regs i).1
  · rfl

/-- The same for any interrupt. -/
theorem irqHandler_current (h0 : (k.tasks 0).active = true) (irq : Fin 16) (regs : UInt32) :
    ((k.irqHandler irq regs).1.currentTask = k.currentTask ∧
      KeepsRun k (k.irqHandler irq regs).1 k.currentTask ∧
      (k.current.active = false → ((k.irqHandler irq regs).1.tasks k.currentTask).state =
        k.current.state)) ∨
    ((k.irqHandler irq regs).1.currentTask ≠ k.currentTask ∧
      canRun (k.irqHandler irq regs).1.current = true) := by
  set k₁ := if irq = 0 then k.timerCallback regs else k with hk₁
  have hcur : (k.irqHandler irq regs).1.currentTask = k₁.currentTask := by
    rw [← (tame_routeIrq k₁ irq).currentTask]
    unfold irqHandler
    dsimp only
    rw [← hk₁]
    unfold taskPreemptCheck
    split_ifs <;> rfl
  have htasks : (k.irqHandler irq regs).1.tasks = (k₁.routeIrq irq).tasks := by
    unfold irqHandler
    dsimp only
    rw [← hk₁, taskPreemptCheck_tasks]
  have hkeep : ∀ i, KeepsRun k₁ (k₁.routeIrq irq) i := by
    intro i
    unfold routeIrq
    dsimp only
    split_ifs
    · exact keepsRun_ipcNotify _ _ i
    · exact id
  have htick : (k₁.currentTask = k.currentTask ∧ KeepsRun k k₁ k.currentTask ∧
      (k.current.active = false → (k₁.tasks k.currentTask).state = k.current.state)) ∨
      (k₁.currentTask ≠ k.currentTask ∧ canRun k₁.current = true) := by
    rw [hk₁]
    split_ifs
    · refine (timerCallback_current h0 regs).imp_right ?_
      rintro ⟨hne, hact, hstate⟩
      exact ⟨hne, by simp [canRun, hact, hstate]⟩
    · exact Or.inl ⟨rfl, id, fun _ => rfl⟩
  have hact₁ : (k₁.tasks k.currentTask).active = k.current.active := by
    rw [hk₁]
    split_ifs
    · exact (timerCallback_tasks_fields k regs k.currentTask).1
    · rfl
  rcases htick with ⟨heq, hrun, hdead⟩ | ⟨hne, hrun⟩
  · refine Or.inl ⟨hcur.trans heq, fun h => ?_, fun h => ?_⟩
    · rw [htasks]
      exact hkeep _ (hrun h)
    · rw [htasks, routeIrq_tasks_inactive irq (hact₁.trans h)]
      exact hdead h
  · refine Or.inr ⟨by rw [hcur]; exact hne, ?_⟩
    show canRun ((k.irqHandler irq regs).1.tasks (k.irqHandler irq regs).1.currentTask) = true
    rw [htasks, hcur]
    exact hkeep _ hrun

end Kernel

namespace Machine

open Kernel

/-! ## The invariant of the machine -/

/-- The task table is in order, a task that is not waiting can run, and a current task
that is dead is terminated. -/
structure MachineInv (m : Machine) : Prop where
  table : TableInv m.kernel
  free : m.control m.kernel.currentTask = .running → canRun m.kernel.current = true
  dead : m.kernel.current.active = false → m.kernel.current.state = .terminated

variable {m m' : Machine}

theorem machineInv_start (kernelPd : UInt32) : MachineInv (start kernelPd) := by
  refine ⟨tableInv_boot kernelPd, fun _ => ?_, fun h => ?_⟩
  · rw [start, current, show (boot kernelPd).currentTask = 0 from rfl, boot_tasks_zero]
    decide
  · rw [start, current, show (boot kernelPd).currentTask = 0 from rfl, boot_tasks_zero] at h
    exact absurd h (by decide)

/-- Where the caller is after its call. -/
theorem controlAfter_current (hact : m.kernel.current.active = true) (c : Call) :
    m.controlAfter c m.kernel.currentTask = match (c.exec m.kernel).2 with
      | .ret _ => m.control m.kernel.currentTask
      | .yields => .waiting (c.wait m.kernel) := by
  have hne : ∀ {slot}, m.kernel.freeSlot = some slot → m.kernel.currentTask ≠ slot := by
    rintro slot hslot rfl
    rw [current, freeSlot_eq_some hslot] at hact
    exact absurd hact (by simp)
  have hbase : (match (c.exec m.kernel).2 with
      | .ret _ => m.control
      | .yields => Function.update m.control m.kernel.currentTask (.waiting (c.wait m.kernel)))
      m.kernel.currentTask = match (c.exec m.kernel).2 with
      | .ret _ => m.control m.kernel.currentTask
      | .yields => .waiting (c.wait m.kernel) := by
    cases (c.exec m.kernel).2 <;> simp
  unfold controlAfter
  cases hslot : m.kernel.freeSlot with
  | none => exact hbase
  | some slot =>
    dsimp only
    split_ifs
    · rw [Function.update_of_ne (hne hslot)]
      exact hbase
    · exact hbase

/-- The possible moves. -/
theorem step_cases {a : Move} (h : m.step a = some m') :
    (∃ c, a = .call c ∧ m.control m.kernel.currentTask = .running ∧ c.isMade m.kernel = true ∧
      m' = ⟨(c.exec m.kernel).1, m.controlAfter c⟩) ∨
    (∃ n regs, a = .irq n regs ∧ regs ≠ 0 ∧ m' = ⟨(m.kernel.irqHandler n regs).1, m.control⟩) ∨
    (∃ w, a = .resume ∧ m.control m.kernel.currentTask = .waiting w ∧
      leavesLoop w m.kernel.current = true ∧
      m' = ⟨m.kernel, Function.update m.control m.kernel.currentTask .running⟩) := by
  cases a with
  | call c =>
    rw [step] at h
    split_ifs at h with hc
    exact Or.inl ⟨c, rfl, hc.1, hc.2, (Option.some.inj h).symm⟩
  | irq n regs =>
    rw [step] at h
    split_ifs at h with hr
    exact Or.inr (Or.inl ⟨n, regs, rfl, hr, (Option.some.inj h).symm⟩)
  | resume =>
    rw [step] at h
    split at h
    · exact absurd h (by simp)
    · rename_i w hw
      split_ifs at h with hl
      exact Or.inr (Or.inr ⟨w, rfl, hw, hl, (Option.some.inj h).symm⟩)

/-- A task that leaves its wait loop is active. -/
theorem MachineInv.canRun_of_leavesLoop (hm : MachineInv m) {w : Wait}
    (h : leavesLoop w m.kernel.current = true) : canRun m.kernel.current = true := by
  simp only [leavesLoop, Bool.and_eq_true] at h
  rw [canRun, h.2, Bool.and_true]
  by_contra hdead
  have ht := hm.dead (by simpa using hdead)
  rw [ht] at h
  exact absurd h.2 (by decide)

/-- **Every move keeps the invariant of the machine.** -/
theorem machineInv_step {a : Move} (hm : MachineInv m) (h : m.step a = some m') :
    MachineInv m' := by
  rcases step_cases h with ⟨c, -, hctl, hmade, rfl⟩ | ⟨n, regs, -, -, rfl⟩ | ⟨w, -, -, hl, rfl⟩
  · have hrun := hm.free hctl
    have hact := active_of_canRun hrun
    refine ⟨tableInv_exec hm.table (.call c), fun hctl' => ?_, fun hdead => ?_⟩
    · dsimp only at hctl' ⊢
      rw [exec_currentTask, controlAfter_current hact] at hctl'
      rw [current, exec_currentTask]
      cases hr : (c.exec m.kernel).2 with
      | ret v => exact canRun_of_ret hrun hmade hr
      | yields =>
        rw [hr] at hctl'
        exact absurd hctl' (by simp)
    · rw [current, exec_currentTask] at hdead ⊢
      exact terminated_of_call hact hdead
  · refine ⟨tableInv_exec hm.table (.irq n regs), fun hctl => ?_, fun hdead => ?_⟩
    · rcases irqHandler_current hm.table.slotZero.1 n regs with ⟨heq, hrun, -⟩ | ⟨-, hrun⟩
      · dsimp only at hctl ⊢
        rw [heq] at hctl
        rw [current, heq]
        exact hrun (hm.free hctl)
      · exact hrun
    · rcases irqHandler_current hm.table.slotZero.1 n regs with ⟨heq, -, hd⟩ | ⟨-, hrun⟩
      · have hsame : ((m.kernel.irqHandler n regs).1.tasks m.kernel.currentTask).active =
            m.kernel.current.active := irqHandler_active n regs m.kernel.currentTask
        rw [current, heq] at hdead ⊢
        have hdead' : m.kernel.current.active = false := hsame.symm.trans hdead
        exact (hd hdead').trans (hm.dead hdead')
      · rw [active_of_canRun hrun] at hdead
        exact absurd hdead (by simp)
  · exact ⟨hm.table, fun _ => hm.canRun_of_leavesLoop hl, hm.dead⟩

end Machine

end Microkernel

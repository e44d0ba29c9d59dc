/-
# What the other functions do to blocked calls

The functions outside `ipc.c` end no IPC call.  `Calm k k'` says what they all do to
blocked calls: a task that is blocked afterwards was blocked before, in the same call,
and nothing is copied between tasks.  `Quiet k k'` adds the converse, that an active task
that is blocked or asleep goes on waiting or dies; the only function that is calm and not
quiet is the timer tick, which wakes sleepers and may enter slot 0 without a test.
-/
import Microkernel.Frame
import Microkernel.Selection

namespace Microkernel

/-- The events of the functions outside `ipc.c`. -/
def Event.isCalm : Event → Bool
  | .wake .. | .ended _ => true
  | _ => false

namespace Kernel

/-- A task that is blocked, before and after, in one and the same call. -/
structure SameCall (t t' : Task) : Prop where
  state : t.state = .blocked
  id : t'.id = t.id
  serial : t'.serial = t.serial
  active : t'.active = t.active
  blockedOn : t'.blockedOn = t.blockedOn
  sendTo : t'.sendTo = t.sendTo
  receiveFrom : t'.receiveFrom = t.receiveFrom
  call : t'.call = t.call

theorem SameCall.refl {t : Task} (h : t.state = .blocked) : SameCall t t :=
  ⟨h, rfl, rfl, rfl, rfl, rfl, rfl, rfl⟩

theorem SameCall.trans {t t' t'' : Task} (h : SameCall t t') (h' : SameCall t' t'') :
    SameCall t t'' where
  state := h.state
  id := h'.id.trans h.id
  serial := h'.serial.trans h.serial
  active := h'.active.trans h.active
  blockedOn := h'.blockedOn.trans h.blockedOn
  sendTo := h'.sendTo.trans h.sendTo
  receiveFrom := h'.receiveFrom.trans h.receiveFrom
  call := h'.call.trans h.call

/-- No call is blocked that was not, and nothing is copied. -/
structure Calm (k k' : Kernel) : Prop where
  blocked : ∀ i, (k'.tasks i).state = .blocked → SameCall (k.tasks i) (k'.tasks i)
  calls : k.calls ≤ k'.calls
  log : ∃ es, k'.log = es ++ k.log ∧ ∀ e ∈ es, e.isCalm = true
  pendingNotify : k'.pendingNotify = k.pendingNotify
  notifyFor : k'.notifyFor = k.notifyFor

/-- The task is in a blocking call or asleep. -/
def inWait (t : Task) : Bool := t.state == .blocked || t.state == .sleeping

/-- A task that waits goes on waiting, in the same call. -/
structure SameWait (t t' : Task) : Prop where
  state : t'.state = t.state
  call : t'.call = t.call
  wakeTick : t'.wakeTick = t.wakeTick

/-- Moreover, active tasks that wait go on waiting unless they die. -/
structure Quiet (k k' : Kernel) : Prop extends Calm k k' where
  keeps : ∀ i, (k.tasks i).active = true → inWait (k.tasks i) = true →
    SameWait (k.tasks i) (k'.tasks i) ∨ (k'.tasks i).active = false

variable {k k' k'' : Kernel}

namespace Calm

theorem trans (h : Calm k k') (h' : Calm k' k'') : Calm k k'' where
  blocked := fun i hi => (h.blocked i (h'.blocked i hi).state).trans (h'.blocked i hi)
  calls := h.calls.trans h'.calls
  log := by
    obtain ⟨es, he, hes⟩ := h.log
    obtain ⟨es', he', hes'⟩ := h'.log
    refine ⟨es' ++ es, by rw [he', he, List.append_assoc], fun e hmem => ?_⟩
    rcases List.mem_append.mp hmem with hm | hm
    · exact hes' e hm
    · exact hes e hm
  pendingNotify := h'.pendingNotify.trans h.pendingNotify
  notifyFor := h'.notifyFor.trans h.notifyFor

/-- Every event that a calm step adds is calm. -/
theorem mem_log {e : Event} (h : Calm k k') (he : e.isCalm = false) :
    e ∈ k'.log ↔ e ∈ k.log := by
  obtain ⟨es, hes, hcalm⟩ := h.log
  rw [hes, List.mem_append]
  constructor
  · rintro (hm | hm)
    · exact absurd (hcalm e hm) (by simp [he])
    · exact hm
  · exact Or.inr

end Calm

/-- A step that changes neither tasks nor history is calm. -/
theorem Calm.of_tasks_eq (ht : k'.tasks = k.tasks) (hc : k.calls ≤ k'.calls)
    (hl : k'.log = k.log) (hp : k'.pendingNotify = k.pendingNotify)
    (hn : k'.notifyFor = k.notifyFor) : Calm k k' where
  blocked := fun i hi => by
    rw [ht] at hi ⊢
    exact .refl hi
  calls := hc
  log := ⟨[], hl, by simp⟩
  pendingNotify := hp
  notifyFor := hn

/-- Calm steps that revive no slot compose. -/
theorem Quiet.trans (h : Quiet k k') (h' : Quiet k' k'')
    (hdead : ∀ i, (k'.tasks i).active = false → (k''.tasks i).active = false) :
    Quiet k k'' where
  toCalm := h.toCalm.trans h'.toCalm
  keeps := fun i ha hw => by
    rcases h.keeps i ha hw with hs | hd
    · cases ha' : (k'.tasks i).active with
      | true =>
        have hw' : inWait (k'.tasks i) = true := by
          rw [inWait, hs.state]
          exact hw
        refine (h'.keeps i ha' hw').imp_left fun hs' => ?_
        exact ⟨hs'.state.trans hs.state, hs'.call.trans hs.call, hs'.wakeTick.trans hs.wakeTick⟩
      | false => exact Or.inr (hdead i ha')
    · exact Or.inr (hdead i hd)

theorem Quiet.of_tasks_eq (ht : k'.tasks = k.tasks) (hc : k.calls ≤ k'.calls)
    (hl : k'.log = k.log) (hp : k'.pendingNotify = k.pendingNotify)
    (hn : k'.notifyFor = k.notifyFor) : Quiet k k' where
  toCalm := .of_tasks_eq ht hc hl hp hn
  keeps := fun i _ _ => by
    rw [ht]
    exact Or.inl ⟨rfl, rfl, rfl⟩

theorem Quiet.refl (k : Kernel) : Quiet k k :=
  .of_tasks_eq rfl le_rfl rfl rfl rfl

/-- Overwriting an entry by one that is not blocked, or blocked in the same call. -/
theorem Calm.setTask {i : Slot} {t : Task} (hin : t.state = .blocked → SameCall (k.tasks i) t) :
    Calm k (k.setTask i t) := by
  refine ⟨fun j hj => ?_, le_rfl, ⟨[], rfl, by simp⟩, rfl, rfl⟩
  by_cases h : j = i
  · subst h
    rw [setTask_tasks, Function.update_self] at hj ⊢
    exact hin hj
  · rw [setTask_tasks, Function.update_of_ne h] at hj ⊢
    exact .refl hj

/-- Overwriting an entry so that the task goes on waiting, or was not waiting. -/
theorem Quiet.setTask {i : Slot} {t : Task} (hin : t.state = .blocked → SameCall (k.tasks i) t)
    (hout : (k.tasks i).active = true → inWait (k.tasks i) = true → SameWait (k.tasks i) t) :
    Quiet k (k.setTask i t) := by
  refine ⟨.setTask hin, fun j ha hw => Or.inl ?_⟩
  by_cases h : j = i
  · subst h
    rw [setTask_tasks, Function.update_self]
    exact hout ha hw
  · rw [setTask_tasks, Function.update_of_ne h]
    exact ⟨rfl, rfl, rfl⟩

variable (k)

/-! ## The functions of `task.c` -/

theorem quiet_taskYield : Quiet k k.taskYield :=
  .setTask (fun h => ⟨h, rfl, rfl, rfl, rfl, rfl, rfl, rfl⟩) fun _ _ => ⟨rfl, rfl, rfl⟩

variable {k}

theorem Quiet.taskYield (h : Quiet k k') : Quiet k k'.taskYield := by
  refine h.trans (quiet_taskYield k') fun i hi => ?_
  rw [((tame_taskYield k').tasks i).active]
  exact hi

/-- Going to sleep, for a task that is not waiting. -/
theorem quiet_sleepUntil (wakeTick : UInt32) (hcur : inWait k.current = false) :
    Quiet k (k.sleepUntil wakeTick) := by
  have h₁ : Quiet k (k.setTask k.currentTask { k.current with
      state := .sleeping, wakeTick := wakeTick, call := k.calls }) :=
    .setTask (fun h => absurd h (by simp)) fun _ h => absurd h (by
      rw [show inWait (k.tasks k.currentTask) = false from hcur]
      simp)
  have h₂ : Quiet (k.setTask k.currentTask { k.current with
      state := .sleeping, wakeTick := wakeTick, call := k.calls })
      { k.setTask k.currentTask { k.current with
        state := .sleeping, wakeTick := wakeTick, call := k.calls } with calls := k.calls + 1 } :=
    .of_tasks_eq rfl (Nat.le_succ _) rfl rfl rfl
  exact (h₁.trans h₂ fun _ h => h).taskYield

variable (k)

theorem calm_wakeSleeping : Calm k k.wakeSleeping := by
  refine ⟨fun i hi => ?_, le_rfl, ⟨_, rfl, fun e he => ?_⟩, rfl, rfl⟩
  · have hb : (k.tasks i).state = .blocked := by
      replace hi : (wakeTask k.tickCount (k.tasks i)).state = .blocked := hi
      unfold wakeTask at hi
      split_ifs at hi
      exact hi
    have hsame : k.wakeSleeping.tasks i = k.tasks i := by
      show wakeTask k.tickCount (k.tasks i) = _
      rw [wakeTask, if_neg]
      simp [isDue, hb]
    rw [hsame]
    exact .refl hb
  · obtain ⟨i, -, rfl⟩ := List.mem_map.mp he
    rfl

theorem quiet_countTick : Quiet k k.countTick :=
  .setTask (fun h => ⟨h, rfl, rfl, rfl, rfl, rfl, rfl, rfl⟩) fun _ _ => ⟨rfl, rfl, rfl⟩

theorem quiet_countQuantum : Quiet k k.countQuantum := by
  unfold countQuantum
  split_ifs
  · exact .setTask (fun h => ⟨h, rfl, rfl, rfl, rfl, rfl, rfl, rfl⟩) fun _ _ => ⟨rfl, rfl, rfl⟩
  · exact .refl k

theorem quiet_endTask (i : Slot) : Quiet k (k.endTask i) := by
  refine ⟨⟨fun j hj => ?_, le_rfl, ⟨[_], rfl, by simp [Event.isCalm]⟩, rfl, rfl⟩, fun j _ _ => ?_⟩
  · by_cases h : j = i
    · rw [h, endTask_tasks_self] at hj
      exact absurd hj (by simp)
    · rw [endTask_tasks_ne k h] at hj ⊢
      exact .refl hj
  · by_cases h : j = i
    · rw [h, endTask_tasks_self]
      exact Or.inr rfl
    · rw [endTask_tasks_ne k h]
      exact Or.inl ⟨rfl, rfl, rfl⟩

variable {k}

/-- Ending a task with a change of CR3. -/
theorem quiet_endTask_cr3 (i : Slot) (cr3 : UInt32) :
    Quiet k { k.endTask i with cr3 := cr3 } :=
  (quiet_endTask k i).trans (.of_tasks_eq rfl le_rfl rfl rfl rfl) fun _ h => h

theorem quiet_taskExit : Quiet k k.taskExit.1 := by
  by_cases h : k.currentTask = 0
  · rw [taskExit, if_pos h]
    exact .refl k
  · rw [taskExit_of_ne h]
    exact (quiet_endTask_cr3 _ _).taskYield

theorem quiet_taskKill (id : UInt32) : Quiet k (k.taskKill id) := by
  unfold taskKill
  split
  · exact .refl k
  · exact quiet_endTask_cr3 _ _

theorem quiet_pageFault : Quiet k k.pageFault.1 := by
  unfold pageFault
  split_ifs
  · exact (quiet_taskKill _).taskYield
  · exact .refl k

/-- A new task is ready and takes a slot no active task had. -/
theorem quiet_addTask {slot : Slot} {t : Task} (hslot : k.freeSlot = some slot)
    (ht : t.state = .ready) : Quiet k (k.addTask slot t) := by
  refine (Quiet.setTask (fun h => ?_) fun ha _ => ?_).trans
    (.of_tasks_eq rfl le_rfl rfl rfl rfl) fun _ h => h
  · rw [ht] at h
    exact absurd h (by simp)
  · rw [freeSlot_eq_some hslot] at ha
    exact absurd ha (by simp)

theorem quiet_taskCreate (name : List UInt8) (priority stack : UInt32) :
    Quiet k (k.taskCreate name priority stack).1 := by
  unfold taskCreate
  split
  · exact .refl k
  · split_ifs
    · exact .refl k
    · exact quiet_addTask ‹_› rfl

theorem quiet_taskCreateUser (name : List UInt8) (priority : UInt32) (io : Bool)
    (userStack kernelStack pd : UInt32) :
    Quiet k (k.taskCreateUser name priority io userStack kernelStack pd).1 := by
  unfold taskCreateUser
  split
  · exact .refl k
  · split_ifs
    · exact .refl k
    · exact quiet_addTask ‹_› rfl

theorem quiet_taskCreateFromElf (name : List UInt8) (top pd base size priority : UInt32)
    (io : Bool) : Quiet k (k.taskCreateFromElf name top pd base size priority io).1 := by
  unfold taskCreateFromElf
  split
  · exact .refl k
  · exact quiet_addTask ‹_› rfl

/-! ## System calls -/

theorem quiet_sysRegisterSvc (name : List UInt8) : Quiet k (k.sysRegisterSvc name).1 := by
  unfold sysRegisterSvc ipcRegisterService
  split
  · exact .of_tasks_eq rfl le_rfl rfl rfl rfl
  · split
    · exact .of_tasks_eq rfl le_rfl rfl rfl rfl
    · exact .refl k

theorem quiet_sysGrantIo (pid : UInt32) : Quiet k (k.sysGrantIo pid).1 := by
  unfold sysGrantIo
  split
  · exact .setTask (fun h => ⟨h, rfl, rfl, rfl, rfl, rfl, rfl, rfl⟩) fun _ _ => ⟨rfl, rfl, rfl⟩
  · exact .refl k

theorem quiet_sysRegisterIrq (irq : UInt32) : Quiet k (k.sysRegisterIrq irq).1 := by
  unfold sysRegisterIrq
  split_ifs
  · have h : Quiet k (k.setTask k.currentTask { k.current with
        ownedIrqs := k.current.ownedIrqs ||| (1 <<< irq) }) :=
      .setTask (fun h => ⟨h, rfl, rfl, rfl, rfl, rfl, rfl, rfl⟩) fun _ _ => ⟨rfl, rfl, rfl⟩
    exact h.trans (.of_tasks_eq rfl le_rfl rfl rfl rfl) fun _ h => h
  · exact .refl k

/-- The calls of `ipc.c` that move messages. -/
def isIpc : Call → Bool
  | .ipcSend .. | .ipcReceive .. | .ipcSendrec .. | .ipcReply .. | .ipcNotify .. => true
  | _ => false

/-- **All other calls are quiet**, made by a task that is not waiting. -/
theorem quiet_exec {c : Call} (h : isIpc c = false) (hcur : inWait k.current = false) :
    Quiet k (c.exec k).1 := by
  cases c with
  | taskYield => exact quiet_taskYield k
  | taskSleep ms => exact quiet_sleepUntil _ hcur
  | gpu3dPresent => exact quiet_sleepUntil _ hcur
  | taskExit => exact quiet_taskExit
  | taskKill id => exact quiet_taskKill id
  | pageFault => exact quiet_pageFault
  | taskCreate name p s => exact quiet_taskCreate name p s
  | taskCreateUser name p io u s pd => exact quiet_taskCreateUser name p io u s pd
  | taskCreateFromElf name t pd b s p io => exact quiet_taskCreateFromElf name t pd b s p io
  | registerSvc name => exact quiet_sysRegisterSvc name
  | registerIrq irq => exact quiet_sysRegisterIrq irq
  | grantIo pid => exact quiet_sysGrantIo pid
  | setQuantum | setPreemptive | lockScheduler | unlockScheduler =>
    exact .of_tasks_eq rfl le_rfl rfl rfl rfl
  | ipcSend | ipcReceive | ipcSendrec | ipcReply | ipcNotify =>
    exact absurd h (by simp [isIpc])

/-! ## The timer tick -/

/-- The switch of the tick blocks no task. -/
theorem calm_switchTo (regs : UInt32) {next : Slot} (h : next ≠ k.currentTask) :
    Calm k (k.switchTo regs next) := by
  refine ⟨fun i hi => ?_, ?_, ⟨[], ?_, by simp⟩, ?_, ?_⟩
  · by_cases hn : i = next
    · rw [hn, switchTo_tasks_next k regs h] at hi
      exact absurd hi (by simp)
    · by_cases hc : i = k.currentTask
      · rw [hc, switchTo_tasks_current k regs h] at hi ⊢
        dsimp only at hi
        split_ifs at hi with hr
        exact ⟨hi, rfl, rfl, rfl, rfl, rfl, rfl, rfl⟩
      · rw [switchTo_tasks_other k regs hn hc] at hi ⊢
        exact .refl hi
  all_goals simp only [switchTo, doSwitchContext_eq]; rfl

theorem calm_reschedule (regs : UInt32) : Calm k (k.reschedule regs) := by
  by_cases h : k.wakeSleeping.pickNext = k.currentTask
  · rw [reschedule_of_eq k regs h]
    refine (calm_wakeSleeping k).trans (.setTask ?_)
    exact fun h => ⟨h, rfl, rfl, rfl, rfl, rfl, rfl, rfl⟩
  · rw [reschedule_of_ne k regs h]
    exact (calm_wakeSleeping k).trans (calm_switchTo regs h)

theorem calm_taskTimerTick (regs : UInt32) : Calm k (k.taskTimerTick regs) := by
  have h₁ : Calm k k.countTick := (quiet_countTick k).toCalm
  have h₂ : Calm k k.countTick.countQuantum := h₁.trans (quiet_countQuantum _).toCalm
  unfold taskTimerTick
  dsimp only
  split_ifs
  · exact (Quiet.refl k).toCalm
  · exact h₁
  · exact h₁.trans (calm_reschedule regs)
  · exact h₂
  · exact h₂.trans (calm_reschedule regs)

theorem calm_timerCallback (regs : UInt32) : Calm k (k.timerCallback regs) := by
  have h : Calm k { k with tickCount := k.tickCount + 1 } :=
    .of_tasks_eq rfl le_rfl rfl rfl rfl
  exact h.trans (calm_taskTimerTick regs)

/-- A blocked task stays blocked over a tick, or it is in slot 0 and was entered blindly. -/
theorem timerCallback_blocked (regs : UInt32) {i : Slot} (hb : (k.tasks i).state = .blocked) :
    ((k.timerCallback regs).tasks i).state = .blocked ∨ (i = 0 ∧ ¬ k.TickFinds) := by
  rcases taskTimerTick_cases { k with tickCount := k.tickCount + 1 } regs with
    ⟨h, -⟩ | ⟨-, -, -, k', hsame, -, -, heq⟩
  · exact Or.inl ((h i).state.trans hb)
  · have hb' : (k'.tasks i).state = .blocked := (hsame i).state.trans hb
    have heq' : k.timerCallback regs = k'.reschedule regs := heq
    rcases reschedule_tasks_state k' regs i with ⟨-, -, hr⟩ | hs | ⟨-, hr, -⟩
    · rw [← heq'] at hr
      refine (timerCallback_entered regs hr (by rw [hb]; simp)).imp_left fun he => ?_
      simp [eligible, canRun, isDue, hb] at he
    · left
      rw [heq', hs, wakeTask, if_neg (by simp [isDue, hb'])]
      exact hb'
    · rw [hb'] at hr
      exact absurd hr (by simp)

theorem quiet_taskPreemptCheck : Quiet k k.taskPreemptCheck.1 := by
  unfold taskPreemptCheck
  split_ifs
  · exact .of_tasks_eq rfl le_rfl rfl rfl rfl
  · exact .refl k

/-! ## The calm parts of the IPC calls -/

theorem calm_fillBuffer (i : Slot) (msg : Message) : Calm k (k.fillBuffer i msg) :=
  .setTask fun h => absurd h (by simp)

theorem calm_beginCall (hcur : k.current.state ≠ .blocked) : Calm k k.beginCall := by
  have h : Calm k (k.setTask k.currentTask { k.current with call := k.calls }) :=
    .setTask fun h => absurd h hcur
  exact h.trans (.of_tasks_eq rfl (Nat.le_succ _) rfl rfl rfl)

theorem calm_countMessage : Calm k k.countMessage :=
  .of_tasks_eq rfl le_rfl rfl rfl rfl

/-- A task that makes a call is not waiting. -/
theorem inWait_eq_false_of_canRun {t : Task} (h : canRun t = true) : inWait t = false := by
  cases hs : t.state <;> simp_all [canRun, inWait]

/-- No task is blocked at the start. -/
theorem boot_not_blocked (kernelPd : UInt32) (i : Slot) :
    ((boot kernelPd).tasks i).state ≠ .blocked := by
  by_cases h : i = 0
  · subst h
    simp [boot, kernelTask]
  · simp [boot, h, Task.zero]

/-- The state with another current task. -/
theorem quiet_onBehalf (c : Slot) : Quiet k (k.onBehalf c) :=
  .of_tasks_eq rfl le_rfl rfl rfl rfl

/-- **What is preserved by calm steps, by `ipc_notify` and by the IPC calls is
preserved by every action.** -/
theorem exec_invariant {I : Kernel → Prop} (hcalm : ∀ k k', Calm k k' → I k → I k')
    (hnotify : ∀ k destPid msg, I k → I (ipcNotify k destPid msg).1) (hk : I k) {a : Action}
    (hseq : k.Sequential k.currentTask a)
    (hipc : ∀ c, a = .call c → isIpc c = true → I (c.exec k).1) : I (a.exec k) := by
  cases a with
  | irq n regs =>
    refine irqHandler_invariant hk n regs (fun k h => hcalm _ _ (calm_timerCallback regs) h)
      (fun k h => ?_) fun k h => hcalm _ _ quiet_taskPreemptCheck.toCalm h
    unfold routeIrq
    dsimp only
    split_ifs
    · exact hnotify _ _ _ h
    · exact h
  | call c =>
    cases hc : isIpc c with
    | false => exact hcalm _ _ (quiet_exec hc (inWait_eq_false_of_canRun hseq)).toCalm hk
    | true => exact hipc c rfl hc

end Kernel

end Microkernel

/-
# Blocking calls wait

The scheduler should make a task running only when it is eligible, so that a blocking call
returns only after what it waits for has happened.  It does so in every run whose ticks
find an eligible task; the other ticks take the fallback of `find_next_task`, which enters
slot 0 whatever it waits for.
-/
import Microkernel.Machine
import Microkernel.Completion

namespace Microkernel

namespace Kernel

variable {k k' k'' : Kernel}

/-! ## Sleepers -/

/-- The entries of sleeping tasks are not touched. -/
def LeavesAsleep (k k' : Kernel) : Prop :=
  ∀ i, (k.tasks i).state = .sleeping → k'.tasks i = k.tasks i

theorem LeavesAsleep.trans (h : LeavesAsleep k k') (h' : LeavesAsleep k' k'') :
    LeavesAsleep k k'' := by
  intro i hi
  rw [h' i (by rw [h i hi]; exact hi), h i hi]

theorem LeavesAsleep.of_tasks_eq (h : k'.tasks = k.tasks) : LeavesAsleep k k' :=
  fun i _ => by rw [h]

theorem LeavesAsleep.setTask {j : Slot} {t : Task} (h : (k.tasks j).state ≠ .sleeping) :
    LeavesAsleep k (k.setTask j t) := by
  intro i hi
  have hne : i ≠ j := by
    rintro rfl
    exact h hi
  rw [setTask_tasks, Function.update_of_ne hne]

theorem leavesAsleep_taskYield (h : k.current.state ≠ .sleeping) : LeavesAsleep k k.taskYield :=
  .setTask h

theorem leavesAsleep_submit (h : k.current.state ≠ .sleeping) (destPid : UInt32) (awaits : Bool) :
    LeavesAsleep k (k.submit destPid awaits) := by
  have h₁ : LeavesAsleep k (k.setTask k.currentTask { k.current with call := k.calls }) :=
    .setTask h
  exact h₁.trans (.of_tasks_eq rfl)

/-- Filling the buffer of a blocked task. -/
theorem leavesAsleep_fillBuffer {d : Slot} (h : (k.tasks d).state = .blocked) (msg : Message) :
    LeavesAsleep k (k.fillBuffer d msg) :=
  .setTask (by rw [h]; simp)

theorem leavesAsleep_deliverNow {d : Slot} (h : inReceive (k.tasks d) = true) (msg : Message) :
    LeavesAsleep k (k.deliverNow d msg) := by
  simp only [inReceive, Bool.and_eq_true, beq_iff_eq] at h
  exact leavesAsleep_fillBuffer (k := k.record _) h.1 msg

/-- Blocking a task that is not asleep. -/
theorem leavesAsleep_block {t : Task} (h : k.current.state ≠ .sleeping)
    (ht : t.state ≠ .sleeping) : LeavesAsleep k (k.setTask k.currentTask t).taskYield := by
  refine LeavesAsleep.trans (.setTask h) (leavesAsleep_taskYield ?_)
  rw [current, setTask_currentTask, setTask_tasks, Function.update_self]
  exact ht

theorem leavesAsleep_takeMessage {s : Slot} (hcur : k.current.state ≠ .sleeping)
    (hne : s ≠ k.currentTask) (hs : (k.tasks s).state = .blocked) :
    LeavesAsleep k (k.takeMessage s) := by
  intro i hi
  refine takeMessage_tasks_other ?_ ?_
  · rintro rfl
    exact hcur hi
  · rintro rfl
    rw [hs] at hi
    exact absurd hi (by simp)

theorem leavesAsleep_ipcNotify (destPid : UInt32) (msg : Message) :
    LeavesAsleep k (k.ipcNotify destPid msg).1 := by
  unfold ipcNotify
  split
  · exact .of_tasks_eq rfl
  · dsimp only
    split_ifs with h
    · simp only [inReceive, Bool.and_eq_true, beq_iff_eq] at h
      exact leavesAsleep_fillBuffer (k := k.countMessage.record _) h.1 _
    · exact .of_tasks_eq rfl

/-- **The IPC calls of a task that can run touch no sleeper.** -/
theorem leavesAsleep_ipc (hrun : canRun k.current = true) {c : Call} (hc : isIpc c = true) :
    LeavesAsleep k (c.exec k).1 := by
  have hcur : k.current.state ≠ .sleeping := by
    intro h
    simp [canRun, h] at hrun
  have hsub : ∀ destPid awaits, (k.submit destPid awaits).current.state = k.current.state := by
    intro destPid awaits
    simp [submit, beginCall, current, record, countMessage]
  have hbeg : k.beginCall.current.state = k.current.state := by simp [beginCall, current]
  cases c with
  | ipcSend destPid msg =>
    simp only [Call.exec, ipcSend]
    split
    · exact .of_tasks_eq rfl
    · split
      · exact .of_tasks_eq rfl
      · have hs := leavesAsleep_submit hcur destPid false
        split_ifs with hacc
        · simp only [acceptsFrom, Bool.and_eq_true] at hacc
          exact hs.trans (leavesAsleep_deliverNow hacc.1 _)
        · exact hs.trans (leavesAsleep_block (by rw [hsub]; exact hcur) (by simp))
  | ipcReceive fromPid msg =>
    simp only [Call.exec, ipcReceive]
    split
    · exact .of_tasks_eq rfl
    · have hb : LeavesAsleep k k.beginCall :=
        LeavesAsleep.trans (.setTask hcur : LeavesAsleep k (k.setTask k.currentTask
          { k.current with call := k.calls })) (.of_tasks_eq rfl)
      refine hb.trans ?_
      split_ifs
      · refine LeavesAsleep.trans (.setTask (j := k.beginCall.currentTask) (t := { k.beginCall.current
          with msgBuf := k.beginCall.notifyMsg (notifyIndex k.beginCall.current.id) }) ?_)
          (.of_tasks_eq rfl)
        rw [show (k.beginCall.tasks k.beginCall.currentTask).state = _ from hbeg]
        exact hcur
      · split
        · rename_i s hs
          have hs' := List.find?_some hs
          simp only [isBlockedSender, Bool.and_eq_true, beq_iff_eq] at hs'
          have hb' := hs'.1.1.1.2
          refine leavesAsleep_takeMessage (by rw [hbeg]; exact hcur) ?_ hb'
          rintro rfl
          rw [show (k.beginCall.tasks k.beginCall.currentTask).state = _ from hbeg] at hb'
          exact state_ne_blocked_of_canRun hrun hb'
        · exact leavesAsleep_block (by rw [hbeg]; exact hcur) (by simp)
  | ipcSendrec destPid msg =>
    simp only [Call.exec, ipcSendrec]
    split
    · exact .of_tasks_eq rfl
    · split
      · exact .of_tasks_eq rfl
      · rename_i d hd
        have hs := leavesAsleep_submit hcur destPid true
        split_ifs with hacc
        · simp only [acceptsFrom, Bool.and_eq_true] at hacc
          refine (hs.trans (leavesAsleep_deliverNow hacc.1 _)).trans
            (leavesAsleep_block ?_ (by simp))
          by_cases h : k.currentTask = d
          · simp [deliverNow, fillBuffer, current, submit, record, countMessage, beginCall, h]
          · simpa [deliverNow, fillBuffer, current, submit, record, countMessage, beginCall, h]
              using hcur
        · exact hs.trans (leavesAsleep_block (by rw [hsub]; exact hcur) (by simp))
  | ipcReply destPid msg =>
    simp only [Call.exec, ipcReply]
    split
    · exact .of_tasks_eq rfl
    · split
      · exact .of_tasks_eq rfl
      · split_ifs with h
        · simp only [inSendrec, Bool.and_eq_true, beq_iff_eq] at h
          exact leavesAsleep_fillBuffer (k := k.record _) h.1 _
        · exact .of_tasks_eq rfl
  | ipcNotify destPid msg => exact leavesAsleep_ipcNotify destPid msg
  | _ => exact absurd hc (by simp [isIpc])

/-- Sleepers sleep on, or were woken at a tick that had reached their wake tick. -/
def Wakes (k k' : Kernel) : Prop :=
  ∀ i, (k.tasks i).active = true → (k.tasks i).state = .sleeping → (k'.tasks i).active = true →
    SameWait (k.tasks i) (k'.tasks i) ∨
      ∃ now, .wake (k.tasks i).call now ∈ k'.log ∧ (k.tasks i).wakeTick ≤ now

theorem wakes_exec (hrun : canRun k.current = true) (c : Call) : Wakes k (c.exec k).1 := by
  intro i ha hs ha'
  left
  cases hc : isIpc c with
  | true =>
    rw [leavesAsleep_ipc hrun hc i hs]
    exact ⟨rfl, rfl, rfl⟩
  | false =>
    have hq := (quiet_exec hc (inWait_eq_false_of_canRun hrun)).keeps i ha (by simp [inWait, hs])
    refine hq.resolve_right fun hd => ?_
    rw [ha'] at hd
    exact absurd hd (by simp)

/-- A rescheduling records the wake-ups of `find_next_task`. -/
theorem reschedule_log (regs : UInt32) : (k.reschedule regs).log = k.wakeSleeping.log := by
  by_cases h : k.wakeSleeping.pickNext = k.currentTask
  · rw [reschedule_of_eq k regs h]
    rfl
  · rw [reschedule_of_ne k regs h]
    simp only [switchTo, doSwitchContext_eq]
    rfl

/-- A tick that finds an eligible task wakes only the sleepers that are due. -/
theorem wakes_timerCallback (hf : k.TickFinds) (regs : UInt32) :
    Wakes k (k.timerCallback regs) := by
  intro i ha hs _
  obtain ⟨-, hcall, hwake⟩ := timerCallback_tasks_fields k regs i
  rcases taskTimerTick_cases { k with tickCount := k.tickCount + 1 } regs with
    ⟨h, -⟩ | ⟨-, -, -, k', hsame, -, htick, heq⟩
  · exact Or.inl ⟨(h i).state, hcall, hwake⟩
  · have heq' : k.timerCallback regs = k'.reschedule regs := heq
    have hs' : (k'.tasks i).state = .sleeping := (hsame i).state.trans hs
    by_cases hdue : isDue k'.tickCount (k'.tasks i) = true
    · right
      refine ⟨k'.tickCount, ?_, ?_⟩
      · rw [heq', reschedule_log]
        refine List.mem_append_left _ (List.mem_map.mpr ⟨i, ?_, ?_⟩)
        · exact List.mem_filter.mpr ⟨List.mem_finRange i, hdue⟩
        · rw [(hsame i).call]
      · simp only [isDue, Bool.and_eq_true, decide_eq_true_eq] at hdue
        rw [← (hsame i).wakeTick]
        exact hdue.2
    · left
      refine ⟨?_, hcall, hwake⟩
      rcases reschedule_tasks_state k' regs i with ⟨-, -, hr⟩ | hst | ⟨-, hr, -⟩
      · rw [← heq'] at hr
        rcases timerCallback_entered regs hr (by rw [hs]; simp) with he | ⟨-, hno⟩
        · have he' : isDue (k.tickCount + 1) (k.tasks i) = true := by
            simpa [eligible, canRun, hs] using he
          refine absurd ?_ hdue
          rw [htick]
          simpa [isDue, (hsame i).state, (hsame i).active, (hsame i).wakeTick] using he'
        · exact absurd hf hno
      · rw [heq', hst, wakeTask, if_neg hdue]
        exact (hsame i).state
      · rw [hs'] at hr
        exact absurd hr (by simp)

theorem wakes_irqHandler (irq : Fin 16) (regs : UInt32) (hf : irq = 0 → k.TickFinds) :
    Wakes k (k.irqHandler irq regs).1 := by
  set k₁ := if irq = 0 then k.timerCallback regs else k with hk₁
  have htick : Wakes k k₁ := by
    rw [hk₁]
    split_ifs with h
    · exact wakes_timerCallback (hf h) regs
    · exact fun i _ hs _ => Or.inl ⟨rfl, rfl, rfl⟩
  have hroute : LeavesAsleep k₁ (k₁.routeIrq irq) := by
    unfold routeIrq
    dsimp only
    split_ifs
    · exact leavesAsleep_ipcNotify _ _
    · exact .of_tasks_eq rfl
  intro i ha hs ha'
  have ha₁ : (k₁.tasks i).active = true := by
    rw [hk₁]
    split_ifs
    · exact (timerCallback_tasks_fields k regs i).1.trans ha
    · exact ha
  have htasks : (k.irqHandler irq regs).1.tasks i = (k₁.routeIrq irq).tasks i := by
    unfold irqHandler
    dsimp only
    rw [← hk₁, taskPreemptCheck_tasks]
  have hlog : k₁.log <:+ (k.irqHandler irq regs).1.log := by
    have h : Serves (fun _ => True) k₁ (k₁.routeIrq irq) := serves_routeIrq irq
    have hcheck : (k.irqHandler irq regs).1.log = (k₁.routeIrq irq).log := by
      unfold irqHandler taskPreemptCheck
      dsimp only
      rw [← hk₁]
      split_ifs <;> rfl
    rw [hcheck]
    exact h.log
  rcases htick i ha hs ha₁ with hsame | ⟨now, hn, hle⟩
  · left
    rw [htasks, hroute i (hsame.state.trans hs)]
    exact hsame
  · exact Or.inr ⟨now, hlog.subset hn, hle⟩

/-! ## What a blocked task waits for -/

/-- The task is still in the call. -/
def Waiting (t : Task) : Wait → Prop
  | .send n => t.state = .blocked ∧ t.blockedOn = .send ∧ t.call = n
  | .receive n => t.state = .blocked ∧ t.blockedOn = .receive ∧ t.call = n
  | .sendrec n => t.state = .blocked ∧ t.blockedOn = .sendrec ∧ t.call = n
  | .sleep n wakeTick => t.state = .sleeping ∧ t.call = n ∧ t.wakeTick = wakeTick
  | .yield => True
  | .ended => False

/-- What the call waits for has happened: the message was received, a message or a
notification arrived, the reply arrived, the sleep was ended at a tick not before the wake
tick. -/
def Done (k : Kernel) : Wait → Prop
  | .send n => k.completed .send n = true
  | .receive n => k.completed .receive n = true
  | .sendrec n => k.completed .sendrec n = true
  | .sleep n wakeTick => ∃ now, .wake n now ∈ k.log ∧ wakeTick ≤ now
  | .yield => True
  | .ended => False

theorem Done.mono {w : Wait} (hw : k.Done w) (h : k.log <:+ k'.log) : k'.Done w := by
  cases w with
  | send n => exact completed_mono h hw
  | receive n => exact completed_mono h hw
  | sendrec n => exact completed_mono h hw
  | sleep n wakeTick =>
    obtain ⟨now, hn, hle⟩ := hw
    exact ⟨now, h.subset hn, hle⟩
  | yield => trivial
  | ended => exact hw

/-- A call goes on or has ended in the way it should. -/
theorem waiting_step (hs : Serves (fun _ => True) k k') (hw : Wakes k k') {i : Slot}
    (ha : (k.tasks i).active = true) (ha' : (k'.tasks i).active = true) {w : Wait}
    (h : Waiting (k.tasks i) w ∨ k.Done w) : Waiting (k'.tasks i) w ∨ k'.Done w := by
  have hblocked : ∀ {on n}, (k.tasks i).state = .blocked → (k.tasks i).blockedOn = on →
      (k.tasks i).call = n → ((k'.tasks i).state = .blocked ∧ (k'.tasks i).blockedOn = on ∧
        (k'.tasks i).call = n) ∨ k'.completed on n = true := by
    rintro on n hb rfl rfl
    rcases hs.blocked i ha hb trivial ha' with ⟨hb', hsame⟩ | hc
    · exact Or.inl ⟨hb', hsame.blockedOn, hsame.call⟩
    · exact Or.inr hc
  rcases h with h | h
  · cases w with
    | send n => exact hblocked h.1 h.2.1 h.2.2
    | receive n => exact hblocked h.1 h.2.1 h.2.2
    | sendrec n => exact hblocked h.1 h.2.1 h.2.2
    | sleep n wakeTick =>
      obtain ⟨hst, rfl, rfl⟩ := h
      rcases hw i ha hst ha' with hsame | hwoken
      · exact Or.inl ⟨hsame.state.trans hst, hsame.call, hsame.wakeTick⟩
      · exact Or.inr hwoken
    | yield => exact Or.inl trivial
    | ended => exact h.elim
  · exact Or.inr (h.mono hs.log)

/-- A task that goes on has what it waited for. -/
theorem done_of_waiting {t : Task} {w : Wait} (h : Waiting t w ∨ k.Done w)
    (hl : Machine.leavesLoop w t = true) : k.Done w := by
  simp only [Machine.leavesLoop, Bool.and_eq_true, Bool.or_eq_true, beq_iff_eq, bne_iff_ne] at hl
  obtain ⟨-, hl⟩ := hl
  cases w with
  | send n | receive n | sendrec n =>
    refine h.resolve_left fun hw => ?_
    rw [hw.1] at hl
    exact absurd hl (by simp)
  | sleep n wakeTick =>
    refine h.resolve_left fun hw => ?_
    rw [hw.1] at hl
    exact absurd hl (by simp)
  | yield => trivial
  | ended => exact h.resolve_left id

/-! ## Calls that yield -/

theorem waiting_blockSending {on : BlockedOn} {destPid : UInt32} {msg : Message} {n : ℕ}
    (h : k.current.call = n) :
    ((k.blockSending on destPid msg).tasks k.currentTask).state = .blocked ∧
      ((k.blockSending on destPid msg).tasks k.currentTask).blockedOn = on ∧
      ((k.blockSending on destPid msg).tasks k.currentTask).call = n := by
  rw [blockSending, taskYield_tasks, setTask_tasks, Function.update_self]
  exact ⟨rfl, rfl, h⟩

theorem waiting_sleepUntil (wakeTick : UInt32) :
    Waiting ((k.sleepUntil wakeTick).tasks k.currentTask) (.sleep k.calls wakeTick) := by
  rw [sleepUntil, taskYield_tasks]
  simp [Waiting]

/-- **A call that yields leaves its caller waiting in it**, or dead. -/
theorem waiting_of_yields {c : Call} (hmade : c.isMade k = true) (h : (c.exec k).2 = .yields) :
    Waiting ((c.exec k).1.tasks k.currentTask) (c.wait k) ∨
      ((c.exec k).1.tasks k.currentTask).active = false := by
  cases c with
  | ipcSend destPid msg =>
    left
    revert h
    simp only [Call.exec, ipcSend]
    split
    · exact fun h => absurd h (by simp)
    · split
      · exact fun h => absurd h (by simp)
      · split_ifs
        · exact fun h => absurd h (by simp)
        · intro _
          exact waiting_blockSending (by simp [submit, beginCall, current, record, countMessage])
  | ipcReceive fromPid msg =>
    left
    revert h
    simp only [Call.exec, ipcReceive]
    split
    · exact fun h => absurd h (by simp)
    · split_ifs
      · exact fun h => absurd h (by simp)
      · split
        · exact fun h => absurd h (by simp)
        · intro _
          show Waiting ((k.beginCall.blockReceiving _ _).tasks k.beginCall.currentTask)
            (.receive k.calls)
          rw [blockReceiving, taskYield_tasks, setTask_tasks, Function.update_self]
          refine ⟨rfl, rfl, ?_⟩
          simp [beginCall, current]
  | ipcSendrec destPid msg =>
    left
    revert h
    simp only [Call.exec, ipcSendrec]
    split
    · exact fun h => absurd h (by simp)
    · split
      · exact fun h => absurd h (by simp)
      · rename_i d hd
        intro _
        split_ifs
        · refine waiting_blockSending ?_
          by_cases h : k.currentTask = d <;>
            simp [deliverNow, fillBuffer, submit, beginCall, current, record, countMessage, h]
        · exact waiting_blockSending (by simp [submit, beginCall, current, record, countMessage])
  | taskYield => exact Or.inl trivial
  | taskSleep ms => exact Or.inl (waiting_sleepUntil _)
  | gpu3dPresent => exact Or.inl (waiting_sleepUntil _)
  | taskExit =>
    right
    revert h
    by_cases h0 : k.currentTask = 0
    · rw [Call.exec, taskExit, if_pos h0]
      exact fun h => absurd h (by simp)
    · rw [Call.exec, taskExit_of_ne h0]
      intro _
      rw [taskYield_tasks]
      show ((k.endTask k.currentTask).tasks k.currentTask).active = false
      rw [endTask_tasks_self]
  | pageFault =>
    simp only [Call.isMade, decide_eq_true_eq] at hmade
    rw [Call.wait, Call.exec, pageFault, if_pos hmade]
    by_cases hk : k.killSlot k.current.id = some k.currentTask
    · right
      rw [taskYield_tasks]
      simp only [taskKill, hk]
      show ((k.endTask k.currentTask).tasks k.currentTask).active = false
      rw [endTask_tasks_self]
    · rw [if_neg hk]
      exact Or.inl trivial
  | ipcReply destPid msg =>
    revert h
    simp only [Call.exec, ipcReply]
    split
    · exact fun h => absurd h (by simp)
    · split
      · exact fun h => absurd h (by simp)
      · split_ifs <;> exact fun h => absurd h (by simp)
  | _ => exact Or.inl trivial

/-- An active slot was active before the call, or it is the slot of a new task. -/
theorem active_of_active_exec {c : Call} {i : Slot} (h : ((c.exec k).1.tasks i).active = true) :
    (k.tasks i).active = true ∨ (k.freeSlot = some i ∧ k.created < (c.exec k).1.created) := by
  have hend : ∀ {j}, ((k.endTask j).tasks i).active = true → (k.tasks i).active = true := by
    intro j h
    rw [endTask_tasks_ne k (ne_of_active_endTask k h)] at h
    exact h
  have hkill : ∀ id, ((k.taskKill id).tasks i).active = true → (k.tasks i).active = true := by
    intro id
    unfold taskKill
    split
    · exact fun h => h
    · exact hend
  have hadd : ∀ {slot t}, k.freeSlot = some slot → ((k.addTask slot t).tasks i).active = true →
      (k.tasks i).active = true ∨
        (k.freeSlot = some i ∧ k.created < (k.addTask slot t).created) := by
    intro slot t hslot h
    by_cases his : i = slot
    · exact Or.inr ⟨his ▸ hslot, Nat.lt_succ_self _⟩
    · rw [addTask_tasks_ne k t his] at h
      exact Or.inl h
  cases hc : changesTasks c with
  | false =>
    rw [((tame_exec k c hc).tasks i).active] at h
    exact Or.inl h
  | true =>
    cases c with
    | taskExit =>
      left
      revert h
      by_cases h0 : k.currentTask = 0
      · rw [Call.exec, taskExit, if_pos h0]
        exact id
      · rw [Call.exec, taskExit_of_ne h0, taskYield_tasks]
        exact hend
    | taskKill id => exact Or.inl (hkill id h)
    | pageFault =>
      left
      revert h
      simp only [Call.exec, pageFault]
      split_ifs
      · rw [taskYield_tasks]
        exact hkill _
      · exact id
    | taskCreate name p st =>
      revert h
      simp only [Call.exec, taskCreate]
      split
      · exact Or.inl
      · split_ifs
        · exact Or.inl
        · exact hadd ‹_›
    | taskCreateUser name p io u st pd =>
      revert h
      simp only [Call.exec, taskCreateUser]
      split
      · exact Or.inl
      · split_ifs
        · exact Or.inl
        · exact hadd ‹_›
    | taskCreateFromElf name t pd b st p io =>
      revert h
      simp only [Call.exec, taskCreateFromElf]
      split
      · exact Or.inl
      · exact hadd ‹_›
    | _ => exact absurd hc (by simp [changesTasks])

/-- A call makes no task running. -/
theorem running_of_exec {c : Call} {i : Slot} (h : ((c.exec k).1.tasks i).state = .running) :
    (k.tasks i).state = .running := by
  have hend : ∀ {j}, ((k.endTask j).tasks i).state = .running → (k.tasks i).state = .running := by
    intro j h
    by_cases hij : i = j
    · rw [hij, endTask_tasks_self] at h
      exact absurd h (by simp)
    · rw [endTask_tasks_ne k hij] at h
      exact h
  have hkill : ∀ id, ((k.taskKill id).tasks i).state = .running → (k.tasks i).state = .running := by
    intro id
    unfold taskKill
    split
    · exact fun h => h
    · exact hend
  have hadd : ∀ {slot t}, t.state = .ready → ((k.addTask slot t).tasks i).state = .running →
      (k.tasks i).state = .running := by
    intro slot t ht h
    by_cases his : i = slot
    · rw [his, addTask_tasks_self, ht] at h
      exact absurd h (by simp)
    · rw [addTask_tasks_ne k t his] at h
      exact h
  cases hc : changesTasks c with
  | false => exact ((tame_exec k c hc).tasks i).running h
  | true =>
    cases c with
    | taskExit =>
      revert h
      by_cases h0 : k.currentTask = 0
      · rw [Call.exec, taskExit, if_pos h0]
        exact id
      · rw [Call.exec, taskExit_of_ne h0, taskYield_tasks]
        exact hend
    | taskKill id => exact hkill id h
    | pageFault =>
      revert h
      simp only [Call.exec, pageFault]
      split_ifs
      · rw [taskYield_tasks]
        exact hkill _
      · exact id
    | taskCreate name p st =>
      revert h
      simp only [Call.exec, taskCreate]
      split
      · exact id
      · split_ifs
        · exact id
        · exact hadd rfl
    | taskCreateUser name p io u st pd =>
      revert h
      simp only [Call.exec, taskCreateUser]
      split
      · exact id
      · split_ifs
        · exact id
        · exact hadd rfl
    | taskCreateFromElf name t pd b st p io =>
      revert h
      simp only [Call.exec, taskCreateFromElf]
      split
      · exact id
      · exact hadd rfl
    | _ => exact absurd hc (by simp [changesTasks])

/-- An interrupt makes a task running only by a tick that enters it. -/
theorem irqHandler_entered {irq : Fin 16} (regs : UInt32) {i : Slot}
    (hf : irq = 0 → k.TickFinds)
    (hrun : ((k.irqHandler irq regs).1.tasks i).state = .running)
    (hnot : (k.tasks i).state ≠ .running) : eligible (k.tickCount + 1) (k.tasks i) = true := by
  unfold irqHandler at hrun
  dsimp only at hrun
  rw [taskPreemptCheck_tasks] at hrun
  have h₁ := ((tame_routeIrq _ irq).tasks i).running hrun
  split_ifs at h₁ with h
  · exact (timerCallback_entered regs h₁ hnot).resolve_right fun hb => hb.2 (hf h)
  · exact absurd h₁ hnot

end Kernel

namespace Machine

open Kernel

variable {m m' : Machine}

/-! ## All runs -/

/-- The ticks that find an eligible task. -/
def FindsEligible (m : Machine) : Move → Prop
  | .irq n _ => n = 0 → m.kernel.TickFinds
  | _ => True

instance (m : Machine) : (a : Move) → Decidable (m.FindsEligible a)
  | .irq _ _ => inferInstanceAs (Decidable (_ → _))
  | .call _ => inferInstanceAs (Decidable True)
  | .resume => inferInstanceAs (Decidable True)

/-- Moreover, every task in a wait loop is still in its call or has what it waits for. -/
structure WaitInv (m : Machine) : Prop extends MachineInv m where
  waits : ∀ i w, (m.kernel.tasks i).active = true → m.control i = .waiting w →
    Waiting (m.kernel.tasks i) w ∨ m.kernel.Done w

theorem waitInv_start (kernelPd : UInt32) : WaitInv (start kernelPd) := by
  refine ⟨machineInv_start kernelPd, fun i w hact hw => ?_⟩
  obtain rfl := eq_zero_of_active_boot hact
  exact absurd hw (by simp [start])

/-- Where another task is after a call: it starts if the call created it. -/
theorem controlAfter_other (c : Call) {i : Slot} (hi : i ≠ m.kernel.currentTask) :
    m.controlAfter c i = if m.kernel.freeSlot = some i ∧
      m.kernel.created < (c.exec m.kernel).1.created then .running else m.control i := by
  -- Neither outcome of the call changes where another task is.
  obtain ⟨control, hbase, hafter⟩ : ∃ control : Slot → Control, control i = m.control i ∧
      m.controlAfter c = m.kernel.freeSlot.elim control fun slot =>
        if m.kernel.created < (c.exec m.kernel).1.created then
          Function.update control slot .running else control := by
    unfold controlAfter
    dsimp only
    cases (c.exec m.kernel).2 with
    | ret v =>
      refine ⟨m.control, rfl, ?_⟩
      cases m.kernel.freeSlot <;> rfl
    | yields =>
      refine ⟨Function.update m.control m.kernel.currentTask (.waiting (c.wait m.kernel)),
        Function.update_of_ne hi _ _, ?_⟩
      cases m.kernel.freeSlot <;> rfl
  rw [hafter]
  cases hslot : m.kernel.freeSlot with
  | none =>
    rw [if_neg (by simp)]
    exact hbase
  | some slot =>
    dsimp only [Option.elim]
    by_cases hnew : m.kernel.created < (c.exec m.kernel).1.created
    · rw [if_pos hnew]
      by_cases hs : i = slot
      · subst hs
        simp [hnew]
      · rw [Function.update_of_ne hs, if_neg (by simp [Ne.symm hs])]
        exact hbase
    · rw [if_neg hnew, if_neg (by simp [hnew])]
      exact hbase

theorem waitInv_step {a : Move} (hm : WaitInv m) (hf : m.FindsEligible a)
    (h : m.step a = some m') : WaitInv m' := by
  refine ⟨machineInv_step hm.toMachineInv h, fun i w hact hw => ?_⟩
  rcases step_cases h with ⟨c, -, hctl, hmade, rfl⟩ | ⟨n, regs, rfl, -, rfl⟩ | ⟨w', -, -, -, rfl⟩
  · have hrun := hm.free hctl
    dsimp only at hact hw ⊢
    by_cases hi : i = m.kernel.currentTask
    · -- The caller is in the wait loop of this call.
      subst hi
      rw [controlAfter_current (active_of_canRun hrun)] at hw
      cases hr : (c.exec m.kernel).2 with
      | ret v =>
        rw [hr] at hw
        exact absurd (hctl.symm.trans hw) (by simp)
      | yields =>
        rw [hr] at hw
        obtain rfl := Control.waiting.inj hw
        refine (waiting_of_yields hmade hr).elim Or.inl fun hdead => ?_
        rw [hact] at hdead
        exact absurd hdead (by simp)
    · rw [controlAfter_other c hi] at hw
      split_ifs at hw with hnew
      have hact₀ := (active_of_active_exec hact).resolve_right hnew
      exact waiting_step (serves_exec_call hrun) (wakes_exec hrun c) hact₀ hact
        (hm.waits i w hact₀ hw)
  · have hact₀ : (m.kernel.tasks i).active = true := by
      rw [← irqHandler_active n regs i]
      exact hact
    exact waiting_step (serves_irqHandler n regs fun h0 _ _ => hf h0) (wakes_irqHandler n regs hf)
      hact₀ hact (hm.waits i w hact₀ hw)
  · dsimp only at hact hw ⊢
    by_cases hi : i = m.kernel.currentTask
    · subst hi
      rw [Function.update_self] at hw
      exact absurd hw (by simp)
    · rw [Function.update_of_ne hi] at hw
      exact hm.waits i w hact hw

/-- **Blocking calls wait.**  In every run whose ticks find an eligible task: a task that a
move makes running was active and ready, running or asleep with its wake tick reached; and
a task leaves the wait loop of a blocking call only after what the call waits for has
happened. -/
theorem blockingCallsWait {kernelPd : UInt32} {as : List Move}
    (h : Run (StepIf FindsEligible) (start kernelPd) as m) {a : Move} (hf : m.FindsEligible a)
    (hstep : m.step a = some m') :
    (∀ i, (m'.kernel.tasks i).state = .running → (m.kernel.tasks i).state ≠ .running →
      (m.kernel.tasks i).active = true ∧
        eligible (m.kernel.tickCount + 1) (m.kernel.tasks i) = true) ∧
    (∀ w, a = .resume → m.control m.kernel.currentTask = .waiting w → m.kernel.Done w) := by
  have hm : WaitInv m := by
    refine h.invariant (fun s a t hst hs => ?_) (waitInv_start kernelPd)
    exact waitInv_step hs hst.1 hst.2
  rcases step_cases hstep with ⟨c, rfl, -, -, rfl⟩ | ⟨n, regs, rfl, -, rfl⟩ | ⟨w, rfl, hw, hl, rfl⟩
  · refine ⟨fun i hrun hnot => ?_, fun w hw => by cases hw⟩
    exact absurd (running_of_exec hrun) hnot
  · refine ⟨fun i hrun hnot => ?_, fun w hw => by cases hw⟩
    have he := irqHandler_entered regs hf hrun hnot
    exact ⟨active_of_eligible he, he⟩
  · refine ⟨fun i hrun hnot => absurd hrun hnot, fun w' _ hw' => ?_⟩
    obtain rfl := Control.waiting.inj (hw.symm.trans hw')
    have hact := active_of_canRun (hm.canRun_of_leavesLoop hl)
    exact done_of_waiting (hm.waits _ w hact hw) hl

/-- A created task blocks in a receive, the kernel task sends it a message. -/
def sendToReceiver : List Move :=
  [.call (.taskCreateUser [] 1 false 0x10000 0x20000 0x30000), .call .taskYield,
    .irq 0 0x7000, .call (.ipcReceive pidAny (some .zero)), .irq 0 0x7100, .resume,
    .call (.ipcSend 1 (some .zero)), .call .taskYield, .irq 0 0x7200]

theorem blockingCallsWait_sendToReceiver :
    ∃ m, Run (StepIf FindsEligible) (start 0x1000) sendToReceiver m ∧
      ((m.step .resume).isSome = true ∧ m.kernel.currentTask = 1 ∧
        m.control m.kernel.currentTask = .waiting (.receive 0)) ∧
      m.kernel.Done (.receive 0) := by
  obtain ⟨m, hrun, hm⟩ : ∃ m, Run (StepIf FindsEligible) (start 0x1000) sendToReceiver m ∧
      ((m.step .resume).isSome = true ∧ m.kernel.currentTask = 1 ∧
        m.control m.kernel.currentTask = .waiting (.receive 0)) :=
    exists_run_followIf _ (by decide +kernel)
  obtain ⟨m', hm'⟩ := Option.isSome_iff_exists.mp hm.1
  have hf : m.FindsEligible .resume := trivial
  exact ⟨m, hrun, hm, (blockingCallsWait hrun hf hm').2 _ rfl hm.2.2⟩

/-- The kernel task goes to sleep for a second and the only other task blocks in a receive.
The next tick makes the kernel task running, and its `task_sleep` returns, 98 ticks before
the wake tick and without a wake-up. -/
theorem sleep_returns_early :
    ∃ m, Run (StepIf fun _ _ => True) (start 0x1000)
      [.call (.taskCreateUser [] 1 false 0x10000 0x20000 0x30000), .call (.taskSleep 1000),
        .irq 0 0x7000, .call (.ipcReceive pidAny (some .zero)), .irq 0 0x7100] m ∧
      m.kernel.preemptiveEnabled = true ∧ m.kernel.currentTask = 0 ∧
      m.kernel.current.state = .running ∧
      m.control 0 = .waiting (.sleep 0 100) ∧ m.kernel.tickCount = 2 ∧
      (∀ e ∈ m.kernel.log, e.isCalm = false) ∧ (m.step .resume).isSome = true :=
  exists_run_followIf _ (by decide +kernel)

end Machine

end Microkernel

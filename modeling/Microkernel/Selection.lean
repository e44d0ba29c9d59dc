/-
# What the scheduler selects

Which task `find_next_task` returns, and from it when a tick makes a stopped task give
way.  A task is eligible when it is active and either ready or running, or sleeping
with its wake tick reached.
-/
import Microkernel.Interrupt
import Microkernel.FirstMin

namespace Microkernel

namespace Kernel

variable {k : Kernel}

/-! ## Waking -/

/-- The tasks the scheduler may enter: those that can run once `find_next_task` has
woken the sleepers that are due. -/
def eligible (now : UInt32) (t : Task) : Bool := canRun t || isDue now t

/-- A task can run after the first loop of `find_next_task` exactly when it was
eligible before it. -/
theorem canRun_wakeTask (now : UInt32) (t : Task) :
    canRun (wakeTask now t) = eligible now t := by
  unfold wakeTask eligible
  by_cases h : isDue now t = true
  · rw [if_pos h, h, Bool.or_true]
    simp only [isDue, Bool.and_eq_true] at h
    simp [canRun, h.1.1]
  · rw [if_neg h]
    simp [h]

/-- A stopped task cannot run. -/
theorem canRun_eq_false_of_mustSwitch {t : Task} (h : mustSwitch t = true) :
    canRun t = false := by
  unfold mustSwitch at h
  unfold canRun
  cases hs : t.state <;> simp_all

theorem active_of_canRun {t : Task} (h : canRun t = true) : t.active = true := by
  simp only [canRun, Bool.and_eq_true] at h
  exact h.1

theorem active_of_eligible {now : UInt32} {t : Task} (h : eligible now t = true) :
    t.active = true := by
  simp only [eligible, canRun, isDue, Bool.or_eq_true, Bool.and_eq_true] at h
  tauto

@[simp] theorem wakeTask_priority (now : UInt32) (t : Task) :
    (wakeTask now t).priority = t.priority := by
  unfold wakeTask; split <;> rfl

@[simp] theorem wakeTask_active (now : UInt32) (t : Task) :
    (wakeTask now t).active = t.active := by
  unfold wakeTask; split <;> rfl

/-! ## The selection loop -/

instance : IsTrans UInt32 (· < ·) := ⟨fun _ _ _ => UInt32.lt_trans⟩

/-- The selection loop passes every slot. -/
theorem exists_roundSlot (k : Kernel) (i : Slot) : ∃ n < maxTasks, k.roundSlot n = i := by
  have hi := i.isLt
  have hc := k.currentTask.isLt
  refine ⟨(i.val + maxTasks - (k.currentTask.val + 1) % maxTasks) % maxTasks,
    Nat.mod_lt _ (by decide), ?_⟩
  apply Fin.ext
  simp only [roundSlot, maxTasks] at *
  omega

/-- The loop of `find_next_task` is the search for the first smallest priority among
the runnable tasks other than the current one. -/
theorem bestTask_eq (k : Kernel) :
    k.bestTask = (((List.range maxTasks).map k.roundSlot).foldl
      (FirstMin.round (fun i => decide (i ≠ k.currentTask) && canRun (k.tasks i))
        (fun i => (k.tasks i).priority)) (none, 0xFFFFFFFF)).1 := by
  rw [bestTask, List.foldl_map]
  congr 2
  funext acc n
  simp only [pickRound, FirstMin.round]
  by_cases h : k.roundSlot n = k.currentTask
  · simp [h]
  · simp [h]

/-- No task is selected exactly when every other runnable task has the largest
priority value. -/
theorem bestTask_eq_none :
    k.bestTask = none ↔ ∀ i, i ≠ k.currentTask → canRun (k.tasks i) = true →
      ¬ (k.tasks i).priority < 0xFFFFFFFF := by
  rw [bestTask_eq, FirstMin.foldl_round_eq_none]
  constructor
  · rintro ⟨-, h⟩ i hi hr
    obtain ⟨n, hn, rfl⟩ := k.exists_roundSlot i
    exact h _ (List.mem_map.mpr ⟨n, List.mem_range.mpr hn, rfl⟩) (by simp [hi, hr])
  · intro h
    refine ⟨rfl, ?_⟩
    intro i _ hi
    simp only [Bool.and_eq_true, decide_eq_true_eq] at hi
    exact h i hi.1 hi.2

/-- A selected task is another one, can run and has a priority below the largest. -/
theorem bestTask_eq_some {b : Slot} (h : k.bestTask = some b) :
    b ≠ k.currentTask ∧ canRun (k.tasks b) = true ∧ (k.tasks b).priority < 0xFFFFFFFF := by
  rw [bestTask_eq] at h
  rcases FirstMin.foldl_round_eq_some h with hb | ⟨-, hp, hk⟩
  · exact absurd hb (by simp)
  · simp only [Bool.and_eq_true, decide_eq_true_eq] at hp
    exact ⟨hp.1, hp.2, hk⟩

/-- The three ways `find_next_task` can end. -/
theorem pickNext_cases (k : Kernel) :
    (k.pickNext ≠ k.currentTask ∧ canRun (k.tasks k.pickNext) = true ∧
      (k.tasks k.pickNext).priority < 0xFFFFFFFF) ∨
    (k.bestTask = none ∧ canRun k.current = true ∧ k.pickNext = k.currentTask) ∨
    (k.bestTask = none ∧ canRun k.current = false ∧ k.pickNext = 0) := by
  unfold pickNext
  cases hb : k.bestTask with
  | some b => exact Or.inl (bestTask_eq_some hb)
  | none =>
    cases hc : canRun k.current with
    | true => exact Or.inr (Or.inl ⟨rfl, rfl, by simp⟩)
    | false => exact Or.inr (Or.inr ⟨rfl, rfl, by simp⟩)

/-! ## One tick -/

/-- `do_switch_context` writes the two registers and nothing else. -/
theorem doSwitchContext_eq (k : Kernel) (next : Slot) :
    k.doSwitchContext next = { k with
      tssEsp0 := if (k.tasks next).isUser ∧ (k.tasks next).kernelStackTop ≠ 0
        then (k.tasks next).kernelStackTop else k.tssEsp0
      cr3 := if k.directoryOf (k.tasks next) ≠ k.directoryOf k.current
        then k.directoryOf (k.tasks next) else k.cr3 } := by
  unfold doSwitchContext
  dsimp only
  by_cases h : ((k.tasks next).isUser = true ∧ (k.tasks next).kernelStackTop ≠ 0)
  · rw [if_pos h, if_pos h]
    by_cases hd : k.directoryOf (k.tasks next) ≠ k.directoryOf k.current
    · rw [if_pos hd]
      exact if_pos hd
    · rw [if_neg hd]
      exact if_neg hd
  · rw [if_neg h, if_neg h]
    by_cases hd : k.directoryOf (k.tasks next) ≠ k.directoryOf k.current
    · rw [if_pos hd, if_pos hd]
    · rw [if_neg hd, if_neg hd]

@[simp] theorem doSwitchContext_tasks (k : Kernel) (next : Slot) :
    (k.doSwitchContext next).tasks = k.tasks := by
  rw [doSwitchContext_eq]

@[simp] theorem switchTo_currentTask (k : Kernel) (regs : UInt32) (next : Slot) :
    (k.switchTo regs next).currentTask = next := rfl

@[simp] theorem switchTo_nextPid (k : Kernel) (regs : UInt32) (next : Slot) :
    (k.switchTo regs next).nextPid = k.nextPid := by
  simp only [switchTo, doSwitchContext_eq]
  rfl

@[simp] theorem switchTo_created (k : Kernel) (regs : UInt32) (next : Slot) :
    (k.switchTo regs next).created = k.created := by
  simp only [switchTo, doSwitchContext_eq]
  rfl

/-- The task that is entered becomes running and keeps the rest of its identity. -/
theorem switchTo_tasks_next (k : Kernel) (regs : UInt32) {next : Slot}
    (h : next ≠ k.currentTask) :
    (k.switchTo regs next).tasks next =
      { k.tasks next with
        state := .running
        ticksLeft := (k.tasks next).quantum
        switches := (k.tasks next).switches + 1 } := by
  simp [switchTo, h]

/-- The task that is left keeps its identity; it is ready if it was running. -/
theorem switchTo_tasks_current (k : Kernel) (regs : UInt32) {next : Slot}
    (h : next ≠ k.currentTask) :
    (k.switchTo regs next).tasks k.currentTask =
      { k.current with
        savedEsp := regs
        state := if k.current.state = .running then .ready else k.current.state } := by
  simp [switchTo, h.symm]

/-- A switch touches no third task. -/
theorem switchTo_tasks_other (k : Kernel) (regs : UInt32) {next i : Slot} (hn : i ≠ next)
    (hc : i ≠ k.currentTask) : (k.switchTo regs next).tasks i = k.tasks i := by
  simp [switchTo, hn, hc]

/-- A rescheduling tick that selects the current task only renews its quantum. -/
theorem reschedule_of_eq (k : Kernel) (regs : UInt32)
    (h : k.wakeSleeping.pickNext = k.currentTask) :
    k.reschedule regs = k.wakeSleeping.setTask k.currentTask
      { k.wakeSleeping.current with ticksLeft := k.wakeSleeping.current.quantum } :=
  if_pos h

/-- A rescheduling tick that selects another task enters it. -/
theorem reschedule_of_ne (k : Kernel) (regs : UInt32)
    (h : k.wakeSleeping.pickNext ≠ k.currentTask) :
    k.reschedule regs = k.wakeSleeping.switchTo regs k.wakeSleeping.pickNext :=
  if_neg h

/-- `find_next_task` decides which task is current after a rescheduling tick. -/
theorem reschedule_currentTask (k : Kernel) (regs : UInt32) :
    (k.reschedule regs).currentTask = k.wakeSleeping.pickNext := by
  by_cases h : k.wakeSleeping.pickNext = k.currentTask
  · rw [reschedule_of_eq k regs h]
    exact h.symm
  · rw [reschedule_of_ne k regs h, switchTo_currentTask]

/-- Whether the task that is current after a rescheduling tick can run. -/
theorem canRun_reschedule (k : Kernel) (regs : UInt32) :
    canRun (k.reschedule regs).current =
      if k.wakeSleeping.pickNext = k.currentTask then eligible k.tickCount k.current
      else (k.tasks k.wakeSleeping.pickNext).active := by
  by_cases h : k.wakeSleeping.pickNext = k.currentTask
  · rw [if_pos h, reschedule_of_eq k regs h, ← canRun_wakeTask]
    simp [current, setTask, wakeSleeping, canRun]
  · rw [if_neg h, reschedule_of_ne k regs h, current, switchTo_currentTask,
      switchTo_tasks_next k.wakeSleeping _ h]
    simp [canRun, wakeSleeping]

/-- Counting a tick changes nothing the selection looks at. -/
theorem eligible_countTick (k : Kernel) (now : UInt32) (i : Slot) :
    eligible now (k.countTick.tasks i) = eligible now (k.tasks i) ∧
      (k.countTick.tasks i).priority = (k.tasks i).priority ∧
      (k.countTick.tasks i).active = (k.tasks i).active ∧
      mustSwitch (k.countTick.tasks i) = mustSwitch (k.tasks i) := by
  by_cases h : i = k.currentTask
  · subst h
    simp [countTick, eligible, canRun, isDue, mustSwitch, current]
  · simp [countTick, h]

/-- A tick in a stopped task reschedules exactly when preemption is on. -/
theorem taskTimerTick_of_mustSwitch (k : Kernel) (regs : UInt32)
    (hen : k.schedulerEnabled = true) (hlock : k.schedLockCount = 0)
    (hstop : mustSwitch k.current = true) :
    k.taskTimerTick regs =
      if k.preemptiveEnabled then k.countTick.reschedule regs else k.countTick := by
  have hstop' : mustSwitch k.countTick.current = true :=
    (k.eligible_countTick 0 k.currentTask).2.2.2.trans hstop
  have hpre : k.countTick.preemptiveEnabled = k.preemptiveEnabled := rfl
  simp only [taskTimerTick, hen, hlock, hstop', hpre]
  cases k.preemptiveEnabled <;> simp

/-! ## Entering eligible tasks -/

/-- The selection of a tick at time `now` has an eligible task to find, or nothing to
leave.  Without one `find_next_task` returns slot 0, whatever its state. -/
def HasEligible (k : Kernel) (now : UInt32) : Prop :=
  k.currentTask = 0 ∨ eligible now (k.tasks 0) = true ∨ eligible now k.current = true ∨
    ∃ i, i ≠ k.currentTask ∧ eligible now (k.tasks i) = true ∧ (k.tasks i).priority < 0xFFFFFFFF

instance (k : Kernel) (now : UInt32) : Decidable (k.HasEligible now) :=
  inferInstanceAs (Decidable (_ ∨ _ ∨ _ ∨ _))

/-- Then the task `find_next_task` enters is eligible. -/
theorem eligible_pickNext (hf : k.HasEligible k.tickCount)
    (hne : k.wakeSleeping.pickNext ≠ k.currentTask) :
    eligible k.tickCount (k.tasks k.wakeSleeping.pickNext) = true := by
  have hrun : ∀ i, canRun (k.wakeSleeping.tasks i) = eligible k.tickCount (k.tasks i) :=
    fun i => canRun_wakeTask _ _
  have hprio : ∀ i, (k.wakeSleeping.tasks i).priority = (k.tasks i).priority :=
    fun i => wakeTask_priority _ _
  rcases k.wakeSleeping.pickNext_cases with ⟨-, hr, -⟩ | ⟨-, -, heq⟩ | ⟨hb, hr, heq⟩
  · rw [← hrun]
    exact hr
  · exact absurd heq hne
  · have hr' : eligible k.tickCount k.current = false := (hrun k.currentTask).symm.trans hr
    rw [heq] at hne ⊢
    rcases hf with h | h | h | ⟨i, hi, he, hp⟩
    · exact absurd h.symm hne
    · exact h
    · rw [hr'] at h
      exact absurd h (by simp)
    · exact absurd ((hprio i).symm ▸ hp) (bestTask_eq_none.mp hb i hi ((hrun i).trans he))

/-- What a tick does to one slot: the task is entered and becomes running, or it keeps its
state but for a running task that is made ready and a due sleeper that wakes. -/
theorem reschedule_tasks_state (k : Kernel) (regs : UInt32) (i : Slot) :
    (i = k.wakeSleeping.pickNext ∧ i ≠ k.currentTask ∧
      ((k.reschedule regs).tasks i).state = .running) ∨
    ((k.reschedule regs).tasks i).state = (wakeTask k.tickCount (k.tasks i)).state ∨
    (i = k.currentTask ∧ (k.tasks i).state = .running ∧
      ((k.reschedule regs).tasks i).state = .ready) := by
  by_cases h : k.wakeSleeping.pickNext = k.currentTask
  · right
    left
    rw [reschedule_of_eq k regs h]
    by_cases hi : i = k.currentTask
    · subst hi
      simp [current, wakeSleeping]
    · simp [hi, wakeSleeping]
  · rw [reschedule_of_ne k regs h]
    by_cases hi : i = k.wakeSleeping.pickNext
    · left
      refine ⟨hi, fun hc => h (hi.symm.trans hc), ?_⟩
      rw [hi, switchTo_tasks_next k.wakeSleeping regs h]
    · right
      by_cases hc : i = k.currentTask
      · rw [hc, show k.currentTask = k.wakeSleeping.currentTask from rfl,
          switchTo_tasks_current k.wakeSleeping regs h]
        by_cases hr : k.wakeSleeping.current.state = .running
        · right
          refine ⟨rfl, ?_, if_pos hr⟩
          have hw : (wakeTask k.tickCount (k.tasks k.currentTask)).state = .running := hr
          unfold wakeTask at hw
          split_ifs at hw
          exact hw
        · left
          exact if_neg hr
      · left
        rw [switchTo_tasks_other k.wakeSleeping regs hi hc]
        rfl

/-- A rescheduling changes no task's identity, call or wake tick. -/
theorem reschedule_tasks_fields (k : Kernel) (regs : UInt32) (i : Slot) :
    ((k.reschedule regs).tasks i).active = (k.tasks i).active ∧
      ((k.reschedule regs).tasks i).call = (k.tasks i).call ∧
      ((k.reschedule regs).tasks i).wakeTick = (k.tasks i).wakeTick := by
  have hw : ∀ t : Task, (wakeTask k.tickCount t).active = t.active ∧
      (wakeTask k.tickCount t).call = t.call ∧ (wakeTask k.tickCount t).wakeTick = t.wakeTick := by
    intro t
    unfold wakeTask
    split_ifs <;> exact ⟨rfl, rfl, rfl⟩
  by_cases h : k.wakeSleeping.pickNext = k.currentTask
  · rw [reschedule_of_eq k regs h]
    by_cases hi : i = k.currentTask
    · subst hi
      rw [setTask_tasks, Function.update_self]
      exact hw _
    · rw [setTask_tasks, Function.update_of_ne hi]
      exact hw _
  · rw [reschedule_of_ne k regs h]
    by_cases hi : i = k.wakeSleeping.pickNext
    · rw [hi, switchTo_tasks_next k.wakeSleeping regs h]
      exact hw _
    · by_cases hc : i = k.wakeSleeping.currentTask
      · rw [hc, switchTo_tasks_current k.wakeSleeping regs h]
        exact hw _
      · rw [switchTo_tasks_other k.wakeSleeping regs hi hc]
        exact hw _

/-- The fields of a task the selection looks at, and its call. -/
structure SameRun (t t' : Task) : Prop where
  state : t'.state = t.state
  active : t'.active = t.active
  wakeTick : t'.wakeTick = t.wakeTick
  priority : t'.priority = t.priority
  call : t'.call = t.call

theorem SameRun.trans {t t' t'' : Task} (h : SameRun t t') (h' : SameRun t' t'') : SameRun t t'' :=
  ⟨h'.state.trans h.state, h'.active.trans h.active, h'.wakeTick.trans h.wakeTick,
    h'.priority.trans h.priority, h'.call.trans h.call⟩

theorem SameRun.eligible {t t' : Task} (h : SameRun t t') (now : UInt32) :
    eligible now t' = eligible now t := by
  simp [Kernel.eligible, canRun, isDue, h.state, h.active, h.wakeTick]

theorem SameRun.hasEligible {k' : Kernel} (h : ∀ i, SameRun (k.tasks i) (k'.tasks i))
    (hc : k'.currentTask = k.currentTask) {now : UInt32} (hf : k.HasEligible now) :
    k'.HasEligible now := by
  unfold HasEligible at hf ⊢
  rw [hc, (h 0).eligible, current, hc, (h k.currentTask).eligible]
  refine hf.imp_right fun hf => hf.imp_right fun hf => hf.imp_right ?_
  rintro ⟨i, hi, he, hp⟩
  refine ⟨i, hi, by rw [(h i).eligible]; exact he, ?_⟩
  rw [(h i).priority]
  exact hp

theorem sameRun_countTick (k : Kernel) (i : Slot) : SameRun (k.tasks i) (k.countTick.tasks i) := by
  by_cases h : i = k.currentTask
  · subst h
    constructor <;> simp [countTick, current]
  · constructor <;> simp [countTick, h]

theorem sameRun_countQuantum (k : Kernel) (i : Slot) :
    SameRun (k.tasks i) (k.countQuantum.tasks i) := by
  unfold countQuantum
  split_ifs
  · by_cases h : i = k.currentTask
    · subst h
      constructor <;> simp [current]
    · constructor <;> simp [h]
  · exact ⟨rfl, rfl, rfl, rfl, rfl⟩

/-- A tick either changes no state, or is a rescheduling in a state with the same tasks. -/
theorem taskTimerTick_cases (k : Kernel) (regs : UInt32) :
    ((∀ i, SameRun (k.tasks i) ((k.taskTimerTick regs).tasks i)) ∧
      (k.taskTimerTick regs).currentTask = k.currentTask) ∨
    (k.schedulerEnabled = true ∧ k.schedLockCount = 0 ∧ k.preemptiveEnabled = true ∧
      ∃ k' : Kernel, (∀ i, SameRun (k.tasks i) (k'.tasks i)) ∧ k'.currentTask = k.currentTask ∧
        k'.tickCount = k.tickCount ∧ k.taskTimerTick regs = k'.reschedule regs) := by
  have h₁ : ∀ i, SameRun (k.tasks i) (k.countTick.tasks i) := k.sameRun_countTick
  have h₂ : ∀ i, SameRun (k.tasks i) (k.countTick.countQuantum.tasks i) := fun i =>
    (h₁ i).trans (k.countTick.sameRun_countQuantum i)
  have hq : k.countTick.countQuantum.currentTask = k.currentTask ∧
      k.countTick.countQuantum.tickCount = k.tickCount := by
    unfold countQuantum
    split_ifs <;> exact ⟨rfl, rfl⟩
  unfold taskTimerTick
  dsimp only
  split_ifs with hen hpre hstop hleft
  · exact Or.inl ⟨fun _ => ⟨rfl, rfl, rfl, rfl, rfl⟩, rfl⟩
  · exact Or.inl ⟨h₁, rfl⟩
  all_goals
    simp only [Bool.not_eq_eq_eq_not, Bool.not_true, not_or, Bool.not_eq_false] at hen hpre
    have hlock : k.schedLockCount = 0 := by
      have := hen.2
      rw [UInt32.lt_iff_toNat_lt] at this
      exact UInt32.toNat_inj.mp (by simpa using this)
  · exact Or.inr ⟨hen.1, hlock, hpre, k.countTick, h₁, rfl, rfl, rfl⟩
  · exact Or.inl ⟨h₂, hq.1⟩
  · exact Or.inr ⟨hen.1, hlock, hpre, k.countTick.countQuantum, h₂, hq.1, hq.2, rfl⟩

/-- A tick changes no task's identity, call or wake tick. -/
theorem timerCallback_tasks_fields (k : Kernel) (regs : UInt32) (i : Slot) :
    ((k.timerCallback regs).tasks i).active = (k.tasks i).active ∧
      ((k.timerCallback regs).tasks i).call = (k.tasks i).call ∧
      ((k.timerCallback regs).tasks i).wakeTick = (k.tasks i).wakeTick := by
  rcases taskTimerTick_cases { k with tickCount := k.tickCount + 1 } regs with
    ⟨h, -⟩ | ⟨-, -, -, k', hsame, -, -, heq⟩
  · exact ⟨(h i).active, (h i).call, (h i).wakeTick⟩
  · obtain ⟨ha, hc, hw⟩ := reschedule_tasks_fields k' regs i
    rw [timerCallback, heq, ha, hc, hw]
    exact ⟨(hsame i).active, (hsame i).call, (hsame i).wakeTick⟩

/-- The ticks that find an eligible task, if they have to look for one.  The condition is
on the state before the interrupt, when the tick is not yet counted. -/
def TickFinds (k : Kernel) : Prop :=
  k.schedulerEnabled = true → k.schedLockCount = 0 → k.preemptiveEnabled = true →
    k.HasEligible (k.tickCount + 1)

instance (k : Kernel) : Decidable k.TickFinds :=
  inferInstanceAs (Decidable (_ → _ → _ → _))

/-- **A tick enters an eligible task**, or it finds none and enters slot 0. -/
theorem timerCallback_entered (regs : UInt32) {i : Slot}
    (hrun : ((k.timerCallback regs).tasks i).state = .running)
    (hnot : (k.tasks i).state ≠ .running) :
    eligible (k.tickCount + 1) (k.tasks i) = true ∨ (i = 0 ∧ ¬ k.TickFinds) := by
  rcases taskTimerTick_cases { k with tickCount := k.tickCount + 1 } regs with
    ⟨h, -⟩ | ⟨hen, hlock, hpre, k', hsame, hcur, htick, heq⟩
  · exact absurd ((h i).state.symm.trans hrun) hnot
  · have hrun' : ((k'.reschedule regs).tasks i).state = .running := by
      rw [← heq]
      exact hrun
    have hnot' : (k'.tasks i).state ≠ .running := by
      rw [(hsame i).state]
      exact hnot
    have heli : eligible k'.tickCount (k'.tasks i) = eligible (k.tickCount + 1) (k.tasks i) := by
      rw [htick, (hsame i).eligible]
    rcases reschedule_tasks_state k' regs i with ⟨hi, hc, -⟩ | hs | ⟨-, hr, -⟩
    · by_cases hf : k.TickFinds
      · left
        have hf' : k'.HasEligible k'.tickCount := by
          rw [htick]
          refine SameRun.hasEligible (k := { k with tickCount := k.tickCount + 1 }) hsame hcur ?_
          exact hf hen hlock hpre
        rw [← heli, hi]
        exact eligible_pickNext hf' (hi ▸ hc)
      · rcases k'.wakeSleeping.pickNext_cases with ⟨-, hr, -⟩ | ⟨-, -, he⟩ | ⟨-, -, he⟩
        · left
          rw [← heli, hi, ← canRun_wakeTask]
          exact hr
        · exact absurd (hi.trans he) hc
        · exact Or.inr ⟨hi.trans he, hf⟩
    · rw [hs] at hrun'
      unfold wakeTask at hrun'
      split_ifs at hrun'
      exact absurd hrun' hnot'
    · exact absurd hr hnot'

/-! ## A stopped task gives way -/

/-- After one call of `task_timer_tick` the current task can run, and it is one that
could run before the call. -/
def GivesWay (k : Kernel) (regs : UInt32) : Prop :=
  canRun (k.taskTimerTick regs).current = true ∧
    eligible k.tickCount (k.tasks (k.taskTimerTick regs).currentTask) = true

instance (k : Kernel) (regs : UInt32) : Decidable (k.GivesWay regs) :=
  inferInstanceAs (Decidable (_ ∧ _))

/-- **When a stopped task gives way.**  With the scheduler enabled and unlocked, a
tick that finds the current task stopped and another task eligible makes an eligible
task current exactly when preemption is on and the selection finds such a task: one
with a priority below `0xFFFFFFFF`, the current task itself, or slot 0. -/
theorem tick_givesWay_iff (k : Kernel) (regs : UInt32)
    (hen : k.schedulerEnabled = true) (hlock : k.schedLockCount = 0)
    (hstop : mustSwitch k.current = true)
    (_hother : ∃ i, i ≠ k.currentTask ∧ ((k.tasks i).active = true ∧
      (k.tasks i).state = .ready ∨ isDue k.tickCount (k.tasks i) = true)) :
    k.GivesWay regs ↔ k.preemptiveEnabled = true ∧
      ((∃ i, i ≠ k.currentTask ∧ eligible k.tickCount (k.tasks i) = true ∧
          (k.tasks i).priority < 0xFFFFFFFF) ∨
        eligible k.tickCount k.current = true ∨ eligible k.tickCount (k.tasks 0) = true) := by
  have hrun : ∀ i, canRun (k.countTick.wakeSleeping.tasks i) = eligible k.tickCount (k.tasks i) :=
    fun i => (canRun_wakeTask _ _).trans (k.eligible_countTick _ i).1
  have hprio : ∀ i, (k.countTick.wakeSleeping.tasks i).priority = (k.tasks i).priority :=
    fun i => (wakeTask_priority _ _).trans (k.eligible_countTick 0 i).2.1
  rw [GivesWay, taskTimerTick_of_mustSwitch k regs hen hlock hstop]
  cases hpre : k.preemptiveEnabled with
  | false =>
    have hno : canRun k.countTick.current = false :=
      canRun_eq_false_of_mustSwitch ((k.eligible_countTick 0 k.currentTask).2.2.2.trans hstop)
    simp [hno]
  | true =>
    simp only [if_true, true_and]
    rw [canRun_reschedule, reschedule_currentTask]
    have hel : eligible k.countTick.tickCount k.countTick.current =
        eligible k.tickCount k.current := (k.eligible_countTick _ k.currentTask).1
    have hact : ∀ i, (k.countTick.tasks i).active = (k.tasks i).active :=
      fun i => (k.eligible_countTick 0 i).2.2.1
    rcases k.countTick.wakeSleeping.pickNext_cases with ⟨hne, hr, hp⟩ | ⟨hb, hr, heq⟩ | ⟨hb, hr, heq⟩
    · rw [hrun] at hr
      rw [hprio] at hp
      rw [if_neg (show _ ≠ k.countTick.currentTask from hne), hact]
      exact ⟨fun _ => Or.inl ⟨_, hne, hr, hp⟩, fun _ => ⟨active_of_eligible hr, hr⟩⟩
    · have hr' : eligible k.tickCount k.current = true := (hrun k.currentTask).symm.trans hr
      rw [if_pos (show _ = k.countTick.currentTask from heq), heq, hel]
      exact ⟨fun _ => Or.inr (Or.inl hr'), fun _ => ⟨hr', hr'⟩⟩
    · have hr' : eligible k.tickCount k.current = false := (hrun k.currentTask).symm.trans hr
      have hnone : ¬ ∃ i, i ≠ k.currentTask ∧ eligible k.tickCount (k.tasks i) = true ∧
          (k.tasks i).priority < 0xFFFFFFFF := by
        rintro ⟨i, hi, he, hp⟩
        exact bestTask_eq_none.mp hb i hi ((hrun i).trans he) (by rw [hprio]; exact hp)
      rw [heq, hel, hact, hr']
      -- Slot 0 is entered without a test: it gives way only if slot 0 is eligible.
      by_cases h0 : (0 : Slot) = k.currentTask
      · have he0 : eligible k.tickCount (k.tasks 0) = false := by rw [h0]; exact hr'
        rw [if_pos (show (0 : Slot) = k.countTick.currentTask from h0), he0]
        simpa using hnone
      · rw [if_neg (show (0 : Slot) ≠ k.countTick.currentTask from h0)]
        constructor
        · rintro ⟨-, he⟩
          exact Or.inr (Or.inr he)
        · rintro (h | h | h)
          · exact absurd h hnone
          · exact absurd h (by simp)
          · exact ⟨active_of_eligible h, h⟩

/-- The kernel task asleep for a second, and one ready task. -/
def sleepingBoot (priority : UInt32) (preemptive : Bool) : Kernel :=
  (((boot 0x1000).taskCreate [] priority 0x10000).1.taskSleep 1000).taskSetPreemptive preemptive

theorem tick_givesWay_iff_sleepingBoot : (sleepingBoot 1 true).GivesWay 0x7000 :=
  (tick_givesWay_iff (sleepingBoot 1 true) 0x7000 (by decide) (by decide) (by decide)
    ⟨1, by decide⟩).mpr ⟨by decide, Or.inl ⟨1, by decide⟩⟩

/-- In cooperative mode a tick does not make the sleeping kernel task give way to the
ready one. -/
theorem not_givesWay_cooperative :
    (sleepingBoot 1 false).schedulerEnabled = true ∧
    (sleepingBoot 1 false).schedLockCount = 0 ∧
    mustSwitch (sleepingBoot 1 false).current = true ∧
    (sleepingBoot 1 false).currentTask ≠ 1 ∧
    ((sleepingBoot 1 false).tasks 1).active = true ∧
    ((sleepingBoot 1 false).tasks 1).state = .ready ∧
    ¬ (sleepingBoot 1 false).GivesWay 0x7000 := by
  decide

/-- A ready task whose priority is the largest value is never selected. -/
example : ¬ (sleepingBoot 0xFFFFFFFF true).GivesWay 0x7000 := by decide

end Kernel

end Microkernel

/-
# How long a task sleeps

`task_sleep(ms)` notes the tick at which the task is to wake, and `find_next_task` makes it
ready when the counter is not below that tick.  The wake tick is computed in 32 bits, from a
product in 32 bits, and the counter wraps around, so that the comparison goes wrong when one of
the two has passed `2 ^ 32` and the other has not.
-/
import Microkernel.Choice
import Microkernel.Runs

namespace Microkernel

namespace Kernel

/-! ## While a task sleeps -/

/-- What happens while a task sleeps. -/
inductive SleepEvent where
  /-- `timer_callback` counts a tick. -/
  | tick
  /-- `find_next_task` is called. -/
  | findNextTask
  /-- Anything else that leaves the sleep and the counter alone. -/
  | other
  deriving DecidableEq

/-- One step while the task in slot `i` sleeps. -/
def SleepStep (i : Slot) (k : Kernel) (e : SleepEvent) (k' : Kernel) : Prop :=
  match e with
  | .tick => k' = { k with tickCount := k.tickCount + 1 }
  | .findNextTask => k' = k.findNextTask.1
  | .other => k'.tickCount = k.tickCount ∧ (k'.tasks i).active = (k.tasks i).active ∧
      (k'.tasks i).state = (k.tasks i).state ∧ (k'.tasks i).wakeTick = (k.tasks i).wakeTick

/-- The task that called `task_sleep(ms)` in state `k` is still asleep in `k'`, `n` ticks
later. -/
def Asleep (k : Kernel) (ms : UInt32) (n : ℕ) (k' : Kernel) : Prop :=
  ∃ es, Run (SleepStep k.currentTask) (k.taskSleep ms) es k' ∧ es.count .tick = n ∧
    (k'.tasks k.currentTask).state = .sleeping

/-- **`find_next_task` wakes the task in time**, `n` ticks after `task_sleep(ms)`: a task that
is still asleep is made ready exactly if `ms / 10` ticks have passed. -/
def WakesInTime (k : Kernel) (ms : UInt32) (n : ℕ) : Prop :=
  ∀ k', Asleep k ms n k' →
    ((k'.findNextTask.1.tasks k.currentTask).state = .ready ↔ ms.toNat / 10 ≤ n)

/-- The ticks that `task_sleep` adds to the counter. -/
def sleepTicks (ms : ℕ) : ℕ := ms * 100 % 2 ^ 32 / 1000

/-- The counter and the wake tick fit together, `n` ticks after a call at tick `start`.  The wake
tick is still to come, and wraps around only if the counter did; or the time is up, and the
counter has not wrapped around below the wake tick; or the wake tick came too early, because
the product wrapped around, and the counter has wrapped around below it. -/
def InStep (start ms n : ℕ) : Prop :=
  let wake := start + sleepTicks ms
  (n < sleepTicks ms ∧ (start + n) / 2 ^ 32 = wake / 2 ^ 32) ∨
  (ms / 10 ≤ n ∧ ((start + n) / 2 ^ 32 = wake / 2 ^ 32 ∨ wake % 2 ^ 32 ≤ (start + n) % 2 ^ 32)) ∨
  (sleepTicks ms ≤ n ∧ n < ms / 10 ∧ wake / 2 ^ 32 < (start + n) / 2 ^ 32 ∧
    (start + n) % 2 ^ 32 < wake % 2 ^ 32)

variable {k k' : Kernel} {ms : UInt32} {n : ℕ} {i : Slot}

/-! ## The sleep -/

/-- What a task has that sleeps until a tick. -/
structure SleepsUntil (k : Kernel) (i : Slot) (wake : UInt32) (now : ℕ) : Prop where
  active : (k.tasks i).active = true
  wakeTick : (k.tasks i).wakeTick = wake
  tickCount : k.tickCount.toNat = now % 2 ^ 32

theorem sleepsUntil_taskSleep (hactive : k.current.active = true) :
    SleepsUntil (k.taskSleep ms) k.currentTask (k.tickCount + ms * 100 / 1000)
      k.tickCount.toNat := by
  have hlt := k.tickCount.toNat_lt
  refine ⟨?_, ?_, ?_⟩
  · simpa [taskSleep, sleepUntil, taskYield, current] using hactive
  · simp [taskSleep, sleepUntil, taskYield, current]
  · exact (Nat.mod_eq_of_lt hlt).symm

/-- `find_next_task` changes the state of a task at most. -/
theorem wakeTask_fields (now : UInt32) (t : Task) :
    (wakeTask now t).active = t.active ∧ (wakeTask now t).wakeTick = t.wakeTick := by
  unfold wakeTask
  split_ifs <;> exact ⟨rfl, rfl⟩

/-- A step keeps the sleep, and only ticks are counted. -/
theorem SleepsUntil.step {wake : UInt32} {now : ℕ} {e : SleepEvent} (h : SleepsUntil k i wake now)
    (hstep : SleepStep i k e k') :
    SleepsUntil k' i wake (now + if e = .tick then 1 else 0) := by
  obtain ⟨hactive, hwake, hnow⟩ := h
  cases e with
  | tick =>
    obtain rfl := hstep
    refine ⟨hactive, hwake, ?_⟩
    show (k.tickCount + 1).toNat = _
    rw [UInt32.toNat_add, hnow, UInt32.toNat_one, if_pos rfl]
    omega
  | findNextTask =>
    obtain rfl := hstep
    obtain ⟨h₁, h₂⟩ := wakeTask_fields k.tickCount (k.tasks i)
    exact ⟨h₁.trans hactive, h₂.trans hwake, hnow⟩
  | other =>
    obtain ⟨h₁, h₂, _, h₄⟩ := hstep
    exact ⟨h₂.trans hactive, h₄.trans hwake, (congrArg UInt32.toNat h₁).trans hnow⟩

theorem SleepsUntil.run {wake : UInt32} {now : ℕ} {es : List SleepEvent}
    (h : SleepsUntil k i wake now) (hrun : Run (SleepStep i) k es k') :
    SleepsUntil k' i wake (now + es.count .tick) := by
  induction hrun generalizing now with
  | nil s => exact h
  | cons hstep _ ih =>
    have hnext := ih (h.step hstep)
    rw [List.count_cons]
    simpa only [Nat.add_assoc, Nat.add_comm, Nat.add_left_comm, beq_iff_eq] using hnext

/-- The wake tick, as a number. -/
theorem toNat_wakeTick (start ms : UInt32) :
    (start + ms * 100 / 1000).toNat = (start.toNat + sleepTicks ms.toNat) % 2 ^ 32 := by
  rw [UInt32.toNat_add, UInt32.toNat_div, UInt32.toNat_mul]
  rfl

/-- A task that is asleep is made ready if the counter is not below its wake tick. -/
theorem ready_iff (h : Asleep k ms n k') (hactive : k.current.active = true) :
    (k'.findNextTask.1.tasks k.currentTask).state = .ready ↔
      (k.tickCount.toNat + sleepTicks ms.toNat) % 2 ^ 32 ≤ (k.tickCount.toNat + n) % 2 ^ 32 := by
  obtain ⟨es, hrun, rfl, hstate⟩ := h
  obtain ⟨hact, hwake, hnow⟩ := (sleepsUntil_taskSleep hactive).run hrun
  show (wakeTask k'.tickCount (k'.tasks k.currentTask)).state = .ready ↔ _
  rw [wakeTask_eq]
  have hle : (k'.tasks k.currentTask).wakeTick ≤ k'.tickCount ↔
      (k.tickCount.toNat + sleepTicks ms.toNat) % 2 ^ 32 ≤
        (k.tickCount.toNat + es.count .tick) % 2 ^ 32 := by
    rw [UInt32.le_iff_toNat_le, hwake, hnow, toNat_wakeTick]
  rw [← hle]
  constructor
  · intro hready
    by_contra hnot
    rw [if_neg fun h => hnot h.2.2, hstate] at hready
    cases hready
  · intro hle
    rw [if_pos ⟨hact, hstate, hle⟩]

/-- Time passes without a call of `find_next_task`. -/
theorem asleep_after (k : Kernel) (ms : UInt32) (n : ℕ) : ∃ k', Asleep k ms n k' := by
  induction n with
  | zero =>
    refine ⟨_, [], .nil _, rfl, ?_⟩
    simp [taskSleep, sleepUntil, taskYield, current]
  | succ n ih =>
    obtain ⟨k', es, hrun, hcount, hstate⟩ := ih
    have htick : SleepStep k.currentTask k' .tick { k' with tickCount := k'.tickCount + 1 } := rfl
    refine ⟨{ k' with tickCount := k'.tickCount + 1 }, es ++ [.tick], hrun.snoc htick, ?_, hstate⟩
    rw [List.count_append, hcount]
    rfl

/-- **How long a task sleeps.**  `find_next_task` wakes it in time exactly if the counter and the
wake tick fit together. -/
theorem wakesInTime_iff (k : Kernel) (ms : UInt32) (n : ℕ) (hactive : k.current.active = true) :
    WakesInTime k ms n ↔ InStep k.tickCount.toNat ms.toNat n := by
  have hlt := k.tickCount.toNat_lt
  have hready : WakesInTime k ms n ↔
      ((k.tickCount.toNat + sleepTicks ms.toNat) % 2 ^ 32 ≤ (k.tickCount.toNat + n) % 2 ^ 32 ↔
        ms.toNat / 10 ≤ n) := by
    constructor
    · intro h
      obtain ⟨k', hk'⟩ := asleep_after k ms n
      rw [← ready_iff hk' hactive]
      exact h k' hk'
    · intro h k' hk'
      rw [ready_iff hk' hactive]
      exact h
  rw [hready]
  unfold InStep
  generalize k.tickCount.toNat = start at hlt ⊢
  generalize ms.toNat = m
  have hticks : (m * 100 < 2 ^ 32 ∧ sleepTicks m = m / 10) ∨
      (2 ^ 32 ≤ m * 100 ∧ sleepTicks m < m / 10) := by
    unfold sleepTicks
    omega
  have hsmall : sleepTicks m < 2 ^ 32 := by
    unfold sleepTicks
    omega
  generalize sleepTicks m = w at hticks hsmall ⊢
  dsimp only
  omega

/-- A second, from the start of the system. -/
theorem wakesInTime_second : WakesInTime (boot 0x1000) 1000 100 :=
  (wakesInTime_iff (boot 0x1000) 1000 100 rfl).mpr (by
    show InStep 0 1000 100
    unfold InStep sleepTicks
    norm_num)

/-- A task that sleeps for 42949673 milliseconds, about 12 hours, is woken at once. -/
theorem long_sleep_ends : ¬ WakesInTime (boot 0x1000) 42949673 0 := by
  intro h
  obtain ⟨k', hk'⟩ := asleep_after (boot 0x1000) 42949673 0
  have hready := (h k' hk').mp ((ready_iff hk' rfl).mpr (by decide))
  exact absurd hready (by decide)

end Kernel

end Microkernel

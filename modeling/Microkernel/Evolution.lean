/-
# What an action does to the task table

Every action of the kernel is a sequence of a few kinds of steps: tame ones, the end
of a task, the creation of a task, and the switch of the timer tick.  This is said once
(`evolves_exec`); an invariant of the task table is then proved kind by kind
(`Evolves.invariant`).
-/
import Microkernel.Frame
import Microkernel.Selection

namespace Microkernel

namespace Kernel

/-- The task the creation functions put into a free slot. -/
structure IsNew (k : Kernel) (t : Task) : Prop where
  id : t.id = k.nextPid
  serial : t.serial = k.created
  state : t.state = .ready
  active : t.active = true
  ticks : t.ticksLeft ≤ t.quantum

/-- What an action of the kernel does to the task table. -/
inductive Evolves : Kernel → Kernel → Prop where
  | tame {k k' : Kernel} : Tame k k' → Evolves k k'
  | ended {k : Kernel} {i : Slot} (cr3 : UInt32) : i ≠ 0 →
      Evolves k { k.endTask i with cr3 := cr3 }
  | added {k : Kernel} {slot : Slot} {t : Task} : k.freeSlot = some slot → k.IsNew t →
      Evolves k (k.addTask slot t)
  | entered {k : Kernel} (regs : UInt32) : k.pickNext ≠ k.currentTask →
      Evolves k (k.switchTo regs k.pickNext)
  | checked {k : Kernel} : Evolves k k.taskPreemptCheck.1
  | trans {k k' k'' : Kernel} : Evolves k k' → Evolves k' k'' → Evolves k k''

/-- **What each kind of step preserves every action preserves.** -/
theorem Evolves.invariant {I : Kernel → Prop} {k k' : Kernel} (h : Evolves k k') (hk : I k)
    (htame : ∀ k k', Tame k k' → I k → I k')
    (hended : ∀ k i cr3, i ≠ 0 → I k → I { endTask k i with cr3 := cr3 })
    (hadded : ∀ k slot t, freeSlot k = some slot → IsNew k t → I k → I (addTask k slot t))
    (hentered : ∀ k regs, pickNext k ≠ k.currentTask → I k → I (switchTo k regs (pickNext k)))
    (hchecked : ∀ k, I k → I (taskPreemptCheck k).1) : I k' := by
  induction h with
  | tame h => exact htame _ _ h hk
  | ended cr3 hi => exact hended _ _ cr3 hi hk
  | added hslot ht => exact hadded _ _ _ hslot ht hk
  | entered regs h => exact hentered _ regs h hk
  | checked => exact hchecked _ hk
  | trans _ _ ih ih' => exact ih' (ih hk)

variable (k : Kernel)

theorem Evolves.refl : Evolves k k := .tame (.refl k)

/-! ## Ending and creating -/

/-- What a call that changes the task table does. -/
def ChangesTable (k k' : Kernel) : Prop :=
  (∃ slot t, k.freeSlot = some slot ∧ k.IsNew t ∧ k' = k.addTask slot t) ∨
  ∃ i cr3, i ≠ 0 ∧ (k' = { k.endTask i with cr3 := cr3 } ∨
    k' = { k.endTask i with cr3 := cr3 }.taskYield)

theorem changesTable_taskExit : k.taskExit.1 = k ∨ ChangesTable k k.taskExit.1 := by
  by_cases h : k.currentTask = 0
  · rw [taskExit, if_pos h]
    exact Or.inl rfl
  · exact Or.inr (Or.inr ⟨k.currentTask, _, h, Or.inr (by rw [taskExit_of_ne h])⟩)

theorem changesTable_taskKill (id : UInt32) :
    k.taskKill id = k ∨ ∃ i cr3, i ≠ 0 ∧ k.taskKill id = { k.endTask i with cr3 := cr3 } := by
  unfold taskKill
  split
  · exact Or.inl rfl
  · exact Or.inr ⟨_, _, (killSlot_eq_some ‹_›).1, rfl⟩

theorem changesTable_taskCreate (name : List UInt8) (priority stack : UInt32) :
    (k.taskCreate name priority stack).1 = k ∨
      ChangesTable k (k.taskCreate name priority stack).1 := by
  unfold taskCreate
  split
  · exact Or.inl rfl
  · split_ifs
    · exact Or.inl rfl
    · exact Or.inr (Or.inl ⟨_, _, ‹_›, ⟨rfl, rfl, rfl, rfl, UInt32.le_refl _⟩, rfl⟩)

theorem changesTable_taskCreateUser (name : List UInt8) (priority : UInt32) (io : Bool)
    (userStack kernelStack pd : UInt32) :
    (k.taskCreateUser name priority io userStack kernelStack pd).1 = k ∨
      ChangesTable k (k.taskCreateUser name priority io userStack kernelStack pd).1 := by
  unfold taskCreateUser
  split
  · exact Or.inl rfl
  · split_ifs
    · exact Or.inl rfl
    · exact Or.inr (Or.inl ⟨_, _, ‹_›, ⟨rfl, rfl, rfl, rfl, UInt32.le_refl _⟩, rfl⟩)

theorem changesTable_taskCreateFromElf (name : List UInt8) (top pd base size priority : UInt32)
    (io : Bool) :
    (k.taskCreateFromElf name top pd base size priority io).1 = k ∨
      ChangesTable k (k.taskCreateFromElf name top pd base size priority io).1 := by
  unfold taskCreateFromElf
  split
  · exact Or.inl rfl
  · exact Or.inr (Or.inl ⟨_, _, ‹_›, ⟨rfl, rfl, rfl, rfl, UInt32.le_refl _⟩, rfl⟩)

/-- **What a call does to the task table**: nothing but what `Tame` allows, or it creates
one task, or it ends one. -/
theorem exec_cases (c : Call) : Tame k (c.exec k).1 ∨ ChangesTable k (c.exec k).1 := by
  have hor : ∀ {k'}, k' = k ∨ ChangesTable k k' → Tame k k' ∨ ChangesTable k k' := by
    rintro k' (rfl | h)
    · exact Or.inl (.refl _)
    · exact Or.inr h
  cases hc : changesTasks c with
  | false => exact Or.inl (tame_exec k c hc)
  | true =>
    cases c with
    | taskExit => exact hor (changesTable_taskExit k)
    | taskKill id =>
      refine hor ((changesTable_taskKill k id).imp_right ?_)
      rintro ⟨i, cr3, hi, heq⟩
      exact Or.inr ⟨i, cr3, hi, Or.inl heq⟩
    | pageFault =>
      rw [Call.exec, pageFault]
      split_ifs
      · rcases changesTable_taskKill k k.current.id with heq | ⟨i, cr3, hi, heq⟩
        · rw [heq]
          exact Or.inl (tame_taskYield k)
        · rw [heq]
          exact Or.inr (Or.inr ⟨i, cr3, hi, Or.inr rfl⟩)
      · exact Or.inl (.refl k)
    | taskCreate name p s => exact hor (changesTable_taskCreate k name p s)
    | taskCreateUser name p io u s pd =>
      exact hor (changesTable_taskCreateUser k name p io u s pd)
    | taskCreateFromElf name t pd b s p io =>
      exact hor (changesTable_taskCreateFromElf k name t pd b s p io)
    | _ => exact absurd hc (by simp [changesTasks])

/-! ## The timer tick -/

theorem reschedule_evolution (regs : UInt32) :
    Tame k (k.reschedule regs) ∨ ∃ k', Tame k k' ∧ k'.pickNext ≠ k'.currentTask ∧
      k.reschedule regs = k'.switchTo regs k'.pickNext := by
  by_cases h : k.wakeSleeping.pickNext = k.currentTask
  · rw [reschedule_of_eq k regs h]
    refine Or.inl ((tame_wakeSleeping k).trans (.setTask ?_))
    exact ⟨rfl, rfl, rfl, rfl, rfl, rfl, rfl, rfl, fun h => h, fun _ => UInt32.le_refl _⟩
  · exact Or.inr ⟨k.wakeSleeping, tame_wakeSleeping k, h, reschedule_of_ne k regs h⟩

/-- A tick switches to the task that `find_next_task` chose, or it is tame. -/
theorem timerCallback_evolution (regs : UInt32) :
    Tame k (k.timerCallback regs) ∨ ∃ k', Tame k k' ∧ k'.pickNext ≠ k'.currentTask ∧
      k.timerCallback regs = k'.switchTo regs k'.pickNext := by
  have h₀ : Tame k { k with tickCount := k.tickCount + 1 } :=
    .of_tasks_eq rfl rfl rfl rfl rfl rfl rfl rfl
  have h₁ := h₀.trans (tame_countTick _)
  have h₂ := h₁.trans (tame_countQuantum _)
  have hre : ∀ {k'}, Tame k k' → Tame k (k'.reschedule regs) ∨ ∃ k'', Tame k k'' ∧
      k''.pickNext ≠ k''.currentTask ∧ k'.reschedule regs = k''.switchTo regs k''.pickNext := by
    intro k' h
    rcases reschedule_evolution k' regs with ht | ⟨k'', ht, hne, heq⟩
    · exact Or.inl (h.trans ht)
    · exact Or.inr ⟨k'', h.trans ht, hne, heq⟩
  unfold timerCallback taskTimerTick
  dsimp only
  split_ifs
  · exact Or.inl h₀
  · exact Or.inl h₁
  · exact hre h₁
  · exact Or.inl h₂
  · exact hre h₂

theorem evolves_timerCallback (regs : UInt32) : Evolves k (k.timerCallback regs) := by
  rcases timerCallback_evolution k regs with h | ⟨k', h, hne, heq⟩
  · exact .tame h
  · rw [heq]
    exact (Evolves.tame h).trans (.entered regs hne)

theorem evolves_irqHandler (irq : Fin 16) (regs : UInt32) :
    Evolves k (k.irqHandler irq regs).1 := by
  refine irqHandler_invariant (I := Evolves k) (.refl k) irq regs ?_ ?_ ?_
  · exact fun k' h => h.trans (evolves_timerCallback k' regs)
  · exact fun k' h => h.trans (.tame (tame_routeIrq k' irq))
  · exact fun k' h => h.trans .checked

/-- **What an action does to the task table.** -/
theorem evolves_exec (a : Action) : Evolves k (a.exec k) := by
  cases a with
  | irq n regs => exact evolves_irqHandler k n regs
  | call c =>
    rw [Action.exec]
    rcases exec_cases k c with h | ⟨slot, t, hslot, ht, heq⟩ | ⟨i, cr3, hi, heq | heq⟩
    · exact .tame h
    · rw [heq]
      exact .added hslot ht
    · rw [heq]
      exact .ended cr3 hi
    · rw [heq]
      exact (Evolves.ended cr3 hi).trans (.tame (tame_taskYield _))

/-! ## Old and new tasks -/

/-- The active tasks are old ones, with their identity, or new ones with new numbers. -/
structure Ages (k k' : Kernel) : Prop where
  created : k.created ≤ k'.created
  tasks : ∀ i, (k'.tasks i).active = true →
    ((k.tasks i).active = true ∧ (k'.tasks i).serial = (k.tasks i).serial ∧
      (k'.tasks i).id = (k.tasks i).id) ∨ k.created ≤ (k'.tasks i).serial

theorem Ages.trans {k k' k'' : Kernel} (h : Ages k k') (h' : Ages k' k'') : Ages k k'' where
  created := h.created.trans h'.created
  tasks := fun i hi => by
    rcases h'.tasks i hi with ⟨ha, hs, hid⟩ | hnew
    · rw [hs, hid]
      exact h.tasks i ha
    · exact Or.inr (h.created.trans hnew)

theorem Ages.of_active {k k' : Kernel} (hc : k'.created = k.created)
    (h : ∀ i, (k'.tasks i).active = true → (k.tasks i).active = true ∧
      (k'.tasks i).serial = (k.tasks i).serial ∧ (k'.tasks i).id = (k.tasks i).id) :
    Ages k k' :=
  ⟨hc.ge, fun i hi => Or.inl (h i hi)⟩

/-- Entering another task: the identity of the tasks, slot by slot. -/
theorem switchTo_identity (k : Kernel) (regs : UInt32) {next : Slot} (h : next ≠ k.currentTask)
    (i : Slot) :
    ((k.switchTo regs next).tasks i).active = (k.tasks i).active ∧
      ((k.switchTo regs next).tasks i).id = (k.tasks i).id ∧
      ((k.switchTo regs next).tasks i).serial = (k.tasks i).serial := by
  by_cases hn : i = next
  · rw [hn, switchTo_tasks_next k regs h]
    exact ⟨rfl, rfl, rfl⟩
  · by_cases hc : i = k.currentTask
    · rw [hc, switchTo_tasks_current k regs h]
      exact ⟨rfl, rfl, rfl⟩
    · rw [switchTo_tasks_other k regs hn hc]
      exact ⟨rfl, rfl, rfl⟩

theorem taskPreemptCheck_tasks (k : Kernel) : k.taskPreemptCheck.1.tasks = k.tasks := by
  unfold taskPreemptCheck
  split_ifs <;> rfl

theorem Tame.ages {k k' : Kernel} (h : Tame k k') : Ages k k' := by
  refine .of_active h.created fun i hi => ?_
  rw [(h.tasks i).active] at hi
  exact ⟨hi, (h.tasks i).serial, (h.tasks i).id⟩

/-- Every action keeps the identity of the tasks that survive it. -/
theorem Evolves.ages {k k' : Kernel} (h : Evolves k k') : Ages k k' := by
  induction h with
  | tame h => exact h.ages
  | @ended k i cr3 hi =>
    refine .of_active rfl fun j hj => ?_
    have hsame := endTask_tasks_ne k (ne_of_active_endTask k hj)
    dsimp only at hj ⊢
    rw [hsame] at hj ⊢
    exact ⟨hj, rfl, rfl⟩
  | @added k slot t hslot ht =>
    refine ⟨Nat.le_succ _, fun j hj => ?_⟩
    by_cases h : j = slot
    · rw [h, addTask_tasks_self, ht.serial]
      exact Or.inr le_rfl
    · rw [addTask_tasks_ne k t h] at hj ⊢
      exact Or.inl ⟨hj, rfl, rfl⟩
  | @entered k regs h =>
    refine .of_active (switchTo_created _ _ _) fun i hi => ?_
    obtain ⟨ha, hid, hs⟩ := switchTo_identity k regs h i
    rw [ha] at hi
    exact ⟨hi, hs, hid⟩
  | @checked k =>
    refine .of_active ?_ fun i hi => ?_
    · unfold taskPreemptCheck
      split_ifs <;> rfl
    · rw [taskPreemptCheck_tasks] at hi ⊢
      exact ⟨hi, rfl, rfl⟩
  | trans _ _ ih ih' => exact ih.trans ih'

end Kernel

end Microkernel

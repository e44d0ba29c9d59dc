/-
# Recorded PIDs and the death of tasks

A task that ends leaves its PID in the fields and tables that name it: `send_to` and
`receive_from` of blocked tasks, the service registry and `irq_owners`.  Neither
`task_exit` nor `task_kill` looks at them, so a task can wait for a dead one.

What holds is a statement about where recorded PIDs come from.  Each was put there by a
call of the run, and except for the PID that `ipc_receive` is given, which is not
checked, it was then the PID of an active task.  It is still, unless a task with that
PID was ended since.
-/
import Microkernel.Reply

namespace Microkernel

/-- A place where the kernel records the PID of another task. -/
inductive Ref where
  /-- `send_to` of the task in a slot. -/
  | sending (i : Slot)
  /-- `receive_from` of the task in a slot. -/
  | receiving (i : Slot)
  | service (s : Fin maxServices)
  | irqOwner (n : Fin 16)

/-- The places whose PID is that of an active task when it is recorded: all but
`receive_from`. -/
def Ref.isChecked : Ref → Bool
  | .receiving _ => false
  | _ => true

namespace Kernel

variable {k k' : Kernel} {p : UInt32}

/-- The place is in use and holds the PID `p`: an active task is blocked on it, the service
entry is active, the IRQ has an owner. -/
def Refers (k : Kernel) : Ref → UInt32 → Prop
  | .sending i, p => (k.tasks i).active = true ∧ (k.tasks i).state = .blocked ∧
      ((k.tasks i).blockedOn = .send ∨ (k.tasks i).blockedOn = .sendrec) ∧ (k.tasks i).sendTo = p
  | .receiving i, p => (k.tasks i).active = true ∧ (k.tasks i).state = .blocked ∧
      (k.tasks i).blockedOn = .receive ∧ (k.tasks i).receiveFrom ≠ pidAny ∧
      (k.tasks i).receiveFrom = p
  | .service s, p => (k.services s).active = true ∧ (k.services s).pid = p
  | .irqOwner n, p => k.irqOwners n ≠ 0 ∧ k.irqOwners n = p

instance (k : Kernel) : (r : Ref) → (p : UInt32) → Decidable (k.Refers r p)
  | .sending _, _ => inferInstanceAs (Decidable (_ ∧ _))
  | .receiving _, _ => inferInstanceAs (Decidable (_ ∧ _))
  | .service _, _ => inferInstanceAs (Decidable (_ ∧ _))
  | .irqOwner _, _ => inferInstanceAs (Decidable (_ ∧ _))

/-- Some active task has the PID `p`. -/
def HasTask (k : Kernel) (p : UInt32) : Prop :=
  ∃ i, (k.tasks i).active = true ∧ (k.tasks i).id = p

instance (k : Kernel) (p : UInt32) : Decidable (k.HasTask p) :=
  inferInstanceAs (Decidable (∃ _, _))

/-- The action with which slot `c` records `p` in a place. -/
def Records (k : Kernel) (c : Slot) (a : Action) : Ref → UInt32 → Prop
  | .sending i, p => i = c ∧ ∃ msg, a = .call (.ipcSend p msg) ∨ a = .call (.ipcSendrec p msg)
  | .receiving i, p => i = c ∧ ∃ msg, a = .call (.ipcReceive p msg)
  | .service _, p => p = (k.tasks c).id ∧ ∃ name, a = .call (.registerSvc name)
  | .irqOwner n, p => p = (k.tasks c).id ∧ ∃ irq, irq.toNat = n.val ∧ a = .call (.registerIrq irq)

/-! ## A task stays until it is ended -/

/-- The history of `k'` goes on from that of `k`, and a task with PID `p` was ended since. -/
def EndedSince (k k' : Kernel) (p : UInt32) : Prop :=
  ∃ es, k'.log = es ++ k.log ∧ .ended p ∈ es

theorem HasTask.of_identity (h : ∀ i, (k'.tasks i).active = (k.tasks i).active ∧
    (k'.tasks i).id = (k.tasks i).id) (hp : k.HasTask p) : k'.HasTask p := by
  obtain ⟨i, ha, hid⟩ := hp
  exact ⟨i, (h i).1.trans ha, (h i).2.trans hid⟩

theorem HasTask.of_tame (h : Tame k k') (hp : k.HasTask p) : k'.HasTask p :=
  hp.of_identity fun i => ⟨(h.tasks i).active, (h.tasks i).id⟩

theorem HasTask.endTask (hp : k.HasTask p) (j : Slot) :
    (k.endTask j).HasTask p ∨ EndedSince k (k.endTask j) p := by
  obtain ⟨i, ha, hid⟩ := hp
  by_cases h : i = j
  · subst h
    exact Or.inr ⟨[.ended (k.tasks i).id], rfl, by simp [hid]⟩
  · left
    refine ⟨i, ?_⟩
    rw [endTask_tasks_ne k h]
    exact ⟨ha, hid⟩

theorem HasTask.timerCallback (hp : k.HasTask p) (regs : UInt32) :
    (k.timerCallback regs).HasTask p := by
  rcases timerCallback_evolution k regs with h | ⟨k₁, h, hne, heq⟩
  · exact hp.of_tame h
  · rw [heq]
    refine (hp.of_tame h).of_identity fun i => ?_
    obtain ⟨ha, hid, -⟩ := switchTo_identity k₁ regs hne i
    exact ⟨ha, hid⟩

/-- **An action leaves a task active or records its end.** -/
theorem HasTask.exec (hp : k.HasTask p) (a : Action) :
    (a.exec k).HasTask p ∨ EndedSince k (a.exec k) p := by
  cases a with
  | irq n regs =>
    left
    refine irqHandler_invariant (I := fun k => k.HasTask p) hp n regs ?_ ?_ ?_
    · exact fun k h => h.timerCallback regs
    · exact fun k h => h.of_tame (tame_routeIrq k n)
    · exact fun k h => h.of_identity fun i => by
        rw [taskPreemptCheck_tasks]
        exact ⟨rfl, rfl⟩
  | call c =>
    rw [Action.exec]
    rcases exec_cases k c with h | ⟨slot, t, hslot, -, heq⟩ | ⟨i, cr3, -, heq | heq⟩
    · exact Or.inl (hp.of_tame h)
    · obtain ⟨i, ha, hid⟩ := hp
      have hne : i ≠ slot := by
        rintro rfl
        rw [freeSlot_eq_some hslot] at ha
        exact absurd ha (by simp)
      refine Or.inl ⟨i, ?_⟩
      rw [heq, addTask_tasks_ne k t hne]
      exact ⟨ha, hid⟩
    · rw [heq]
      exact hp.endTask i
    · rw [heq]
      exact (hp.endTask i).imp_left fun h => h.of_tame (tame_taskYield _)

/-! ## Where recorded PIDs come from -/

/-- The ways in which a caller is blocked after its call. -/
theorem blocks_exec {c : Call} (hrun : canRun k.current = true)
    (hb : ((c.exec k).1.tasks k.currentTask).state = .blocked) :
    (∃ p msg, (c = .ipcSend p msg ∨ c = .ipcSendrec p msg) ∧ k.HasTask p ∧
      ((c.exec k).1.tasks k.currentTask).blockedOn ≠ .receive ∧
      ((c.exec k).1.tasks k.currentTask).sendTo = p) ∨
    (∃ p msg, c = .ipcReceive p msg ∧
      ((c.exec k).1.tasks k.currentTask).blockedOn = .receive ∧
      ((c.exec k).1.tasks k.currentTask).receiveFrom = p) := by
  have hcur : k.current.state ≠ .blocked := state_ne_blocked_of_canRun hrun
  have hfind : ∀ {p d}, k.findDest p = some d → k.HasTask p := fun h =>
    ⟨_, findDest_eq_some h⟩
  cases hc : isIpc c with
  | false =>
    have hq := (quiet_exec hc (inWait_eq_false_of_canRun hrun)).blocked k.currentTask hb
    exact absurd hq.state hcur
  | true =>
    cases c with
    | ipcSend p msg =>
      left
      refine ⟨p, msg, Or.inl rfl, ?_⟩
      revert hb
      simp only [Call.exec, ipcSend]
      split
      · exact fun hb => absurd hb hcur
      · split
        · exact fun hb => absurd hb hcur
        · rename_i d hd
          split_ifs
          · intro hb
            have h₂ := blocked_deliverNow _ _ _ hb
            exact absurd (blocked_submit hcur p false _ h₂.state).state hcur
          · intro _
            refine ⟨hfind hd, ?_⟩
            simp [blockSending, taskYield_tasks, submit, beginCall, record, countMessage]
    | ipcSendrec p msg =>
      left
      refine ⟨p, msg, Or.inr rfl, ?_⟩
      revert hb
      simp only [Call.exec, ipcSendrec]
      split
      · exact fun hb => absurd hb hcur
      · split
        · exact fun hb => absurd hb hcur
        · rename_i d hd
          intro _
          refine ⟨hfind hd, ?_⟩
          split_ifs
          all_goals
            simp [blockSending, taskYield_tasks, submit, beginCall, record, countMessage,
              deliverNow, fillBuffer]
    | ipcReceive p msg =>
      right
      refine ⟨p, msg, rfl, ?_⟩
      revert hb
      have hcur' : k.beginCall.current.state ≠ .blocked := by simpa [beginCall, current] using hcur
      simp only [Call.exec, ipcReceive]
      split
      · exact fun hb => absurd hb hcur
      · split_ifs
        · intro hb
          exact absurd (by simpa [takeNotification, current, beginCall] using hb) hcur
        · split
          · rename_i s hs
            intro hb
            have hsend := (findBlockedSender_eq_some hs).2.1
            exact absurd (blocked_takeMessage hcur' hsend k.currentTask hb).state hcur'
          · intro _
            simp [blockReceiving, taskYield_tasks, beginCall]
    | ipcReply p msg => exact absurd (blocked_ipcReply p msg _ hb).state hcur
    | ipcNotify p msg => exact absurd (blocked_ipcNotify p msg _ hb).state hcur
    | _ => exact absurd hc (by simp [isIpc])

/-- The service registry and the table of IRQ owners are the same. -/
def SameTables (k k' : Kernel) : Prop :=
  k'.services = k.services ∧ k'.irqOwners = k.irqOwners

theorem SameTables.trans {k'' : Kernel} (h : SameTables k k') (h' : SameTables k' k'') :
    SameTables k k'' :=
  ⟨h'.1.trans h.1, h'.2.trans h.2⟩

/-- The calls that write one of the two tables. -/
def registers : Call → Bool
  | .registerSvc _ | .registerIrq _ => true
  | _ => false

theorem sameTables_ipcNotify (p : UInt32) (msg : Message) :
    SameTables k (k.ipcNotify p msg).1 := by
  unfold ipcNotify
  split
  · exact ⟨rfl, rfl⟩
  · dsimp only
    split_ifs <;> exact ⟨rfl, rfl⟩

theorem sameTables_timerCallback (regs : UInt32) : SameTables k (k.timerCallback regs) := by
  have hre : ∀ k : Kernel, SameTables k (k.reschedule regs) := by
    intro k
    by_cases h : k.wakeSleeping.pickNext = k.currentTask
    · rw [reschedule_of_eq k regs h]
      exact ⟨rfl, rfl⟩
    · rw [reschedule_of_ne k regs h]
      simp only [switchTo, doSwitchContext_eq]
      exact ⟨rfl, rfl⟩
  have hq : ∀ k : Kernel, SameTables k k.countQuantum := by
    intro k
    unfold countQuantum
    split_ifs <;> exact ⟨rfl, rfl⟩
  have h₁ : SameTables k { k with tickCount := k.tickCount + 1 }.countTick := ⟨rfl, rfl⟩
  unfold timerCallback taskTimerTick
  dsimp only
  split_ifs
  · exact ⟨rfl, rfl⟩
  · exact h₁
  · exact h₁.trans (hre _)
  · exact h₁.trans (hq _)
  · exact h₁.trans ((hq _).trans (hre _))

theorem sameTables_irqHandler (n : Fin 16) (regs : UInt32) :
    SameTables k (k.irqHandler n regs).1 := by
  refine irqHandler_invariant (I := SameTables k) ⟨rfl, rfl⟩ n regs ?_ ?_ ?_
  · exact fun k' h => h.trans (sameTables_timerCallback regs)
  · intro k' h
    unfold routeIrq
    dsimp only
    split_ifs
    · exact h.trans (sameTables_ipcNotify _ _)
    · exact h
  · intro k' h
    unfold taskPreemptCheck
    split_ifs <;> exact h

theorem sameTables_exec {c : Call} (h : registers c = false) : SameTables k (c.exec k).1 := by
  cases c with
  | ipcSend p msg =>
    simp only [Call.exec, ipcSend]
    split
    · exact ⟨rfl, rfl⟩
    · split
      · exact ⟨rfl, rfl⟩
      · split_ifs <;> exact ⟨rfl, rfl⟩
  | ipcReceive p msg =>
    simp only [Call.exec, ipcReceive]
    split
    · exact ⟨rfl, rfl⟩
    · split_ifs
      · exact ⟨rfl, rfl⟩
      · split
        · unfold takeMessage
          dsimp only
          split_ifs <;> exact ⟨rfl, rfl⟩
        · exact ⟨rfl, rfl⟩
  | ipcSendrec p msg =>
    simp only [Call.exec, ipcSendrec]
    split
    · exact ⟨rfl, rfl⟩
    · split
      · exact ⟨rfl, rfl⟩
      · split_ifs <;> exact ⟨rfl, rfl⟩
  | ipcReply p msg =>
    simp only [Call.exec, ipcReply]
    split
    · exact ⟨rfl, rfl⟩
    · split
      · exact ⟨rfl, rfl⟩
      · split_ifs <;> exact ⟨rfl, rfl⟩
  | ipcNotify p msg => exact sameTables_ipcNotify p msg
  | grantIo pid =>
    simp only [Call.exec, sysGrantIo]
    split <;> exact ⟨rfl, rfl⟩
  | registerSvc | registerIrq => exact absurd h (by simp [registers])
  | taskYield | taskSleep | gpu3dPresent | setQuantum | setPreemptive | lockScheduler
  | unlockScheduler => exact ⟨rfl, rfl⟩
  | taskExit =>
    rcases changesTable_taskExit k with heq | ⟨_, _, _, _, heq⟩ | ⟨_, _, _, heq | heq⟩
    all_goals
      rw [Call.exec, heq]
      exact ⟨rfl, rfl⟩
  | taskKill id =>
    simp only [Call.exec, taskKill]
    split <;> exact ⟨rfl, rfl⟩
  | pageFault =>
    simp only [Call.exec, pageFault, taskKill]
    split_ifs
    · split <;> exact ⟨rfl, rfl⟩
    · exact ⟨rfl, rfl⟩
  | taskCreate name p s =>
    rcases changesTable_taskCreate k name p s with heq | ⟨_, _, _, _, heq⟩ | ⟨_, _, _, heq | heq⟩
    all_goals
      rw [Call.exec, heq]
      exact ⟨rfl, rfl⟩
  | taskCreateUser name p io u s pd =>
    rcases changesTable_taskCreateUser k name p io u s pd with
      heq | ⟨_, _, _, _, heq⟩ | ⟨_, _, _, heq | heq⟩
    all_goals
      rw [Call.exec, heq]
      exact ⟨rfl, rfl⟩
  | taskCreateFromElf name t pd b s p io =>
    rcases changesTable_taskCreateFromElf k name t pd b s p io with
      heq | ⟨_, _, _, _, heq⟩ | ⟨_, _, _, heq | heq⟩
    all_goals
      rw [Call.exec, heq]
      exact ⟨rfl, rfl⟩

/-- The registry after a registration: an entry is the old one or holds the caller. -/
theorem registerSvc_services (name : List UInt8) (s : Fin maxServices) :
    (k.sysRegisterSvc name).1.services s = k.services s ∨
      ((k.sysRegisterSvc name).1.services s).pid = k.current.id := by
  unfold sysRegisterSvc ipcRegisterService
  split
  · rename_i i _
    by_cases h : s = i
    · subst h
      simp
    · simp [h]
  · split
    · rename_i i _
      by_cases h : s = i
      · subst h
        simp
      · simp [h]
    · exact Or.inl rfl

/-- **A PID is recorded by an action of the current task**, which checks it except in
`ipc_receive`. -/
theorem refers_exec {a : Action} (hseq : k.Sequential k.currentTask a) {r : Ref}
    (h : (a.exec k).Refers r p) :
    k.Refers r p ∨
      (k.Records k.currentTask a r p ∧ (r.isChecked = true → k.HasTask p)) := by
  cases a with
  | irq n regs =>
    left
    have ht := sameTables_irqHandler (k := k) n regs
    cases r with
    | sending i =>
      have hs := blocked_irqHandler n regs i h.2.1
      exact ⟨hs.active ▸ h.1, hs.state, hs.blockedOn ▸ h.2.2.1, hs.sendTo ▸ h.2.2.2⟩
    | receiving i =>
      have hs := blocked_irqHandler n regs i h.2.1
      exact ⟨hs.active ▸ h.1, hs.state, hs.blockedOn ▸ h.2.2.1, hs.receiveFrom ▸ h.2.2.2⟩
    | service s =>
      have h' : ((k.irqHandler n regs).1.services s).active = true ∧
        ((k.irqHandler n regs).1.services s).pid = p := h
      rw [ht.1] at h'
      exact h'
    | irqOwner m =>
      have h' : (k.irqHandler n regs).1.irqOwners m ≠ 0 ∧
        (k.irqHandler n regs).1.irqOwners m = p := h
      rw [ht.2] at h'
      exact h'
  | call c =>
    have hself : k.HasTask k.current.id := ⟨k.currentTask, active_of_canRun hseq, rfl⟩
    cases r with
    | sending i =>
      rcases blocksCurrent_exec hseq i h.2.1 with hs | ⟨rfl, -⟩
      · exact Or.inl ⟨hs.active ▸ h.1, hs.state, hs.blockedOn ▸ h.2.2.1, hs.sendTo ▸ h.2.2.2⟩
      · rcases blocks_exec hseq h.2.1 with ⟨q, msg, hc, hq, -, hto⟩ | ⟨q, msg, -, hon, -⟩
        · have hqp : q = p := hto.symm.trans h.2.2.2
          subst hqp
          refine Or.inr ⟨⟨rfl, msg, ?_⟩, fun _ => hq⟩
          exact hc.imp (congrArg Action.call) (congrArg Action.call)
        · rcases h.2.2.1 with hon' | hon' <;> exact absurd (hon'.symm.trans hon) (by simp)
    | receiving i =>
      rcases blocksCurrent_exec hseq i h.2.1 with hs | ⟨rfl, -⟩
      · exact Or.inl ⟨hs.active ▸ h.1, hs.state, hs.blockedOn ▸ h.2.2.1, hs.receiveFrom ▸ h.2.2.2⟩
      · rcases blocks_exec hseq h.2.1 with ⟨q, msg, -, -, hon, -⟩ | ⟨q, msg, hc, -, hfrom⟩
        · exact absurd h.2.2.1 hon
        · have hqp : q = p := hfrom.symm.trans h.2.2.2.2
          subst hqp
          exact Or.inr ⟨⟨rfl, msg, congrArg Action.call hc⟩, fun h => absurd h Bool.false_ne_true⟩
    | service s =>
      have h' : ((c.exec k).1.services s).active = true ∧ ((c.exec k).1.services s).pid = p := h
      by_cases hc : registers c = true
      · cases c with
        | registerSvc name =>
          rcases registerSvc_services (k := k) name s with heq | hid
          · rw [Call.exec, heq] at h'
            exact Or.inl h'
          · have hp : p = k.current.id := h'.2.symm.trans hid
            exact Or.inr ⟨⟨hp, name, rfl⟩, fun _ => hp ▸ hself⟩
        | registerIrq irq =>
          left
          revert h'
          simp only [Call.exec, sysRegisterIrq]
          split_ifs <;> exact id
        | _ => exact absurd hc (by simp [registers])
      · rw [(sameTables_exec (by simpa using hc)).1] at h'
        exact Or.inl h'
    | irqOwner m =>
      have h' : (c.exec k).1.irqOwners m ≠ 0 ∧ (c.exec k).1.irqOwners m = p := h
      by_cases hc : registers c = true
      · cases c with
        | registerSvc name =>
          left
          revert h'
          simp only [Call.exec, sysRegisterSvc, ipcRegisterService]
          split
          · exact id
          · split <;> exact id
        | registerIrq irq =>
          rw [Call.exec, sysRegisterIrq] at h'
          split_ifs at h' with hlt
          · by_cases hm : m = ⟨irq.toNat, hlt⟩
            · have hp : p = k.current.id := by
                rw [← h'.2, hm]
                simp
              exact Or.inr ⟨⟨hp, irq, by rw [hm], rfl⟩, fun _ => hp ▸ hself⟩
            · left
              simp only [ne_eq, hm, not_false_eq_true, Function.update_of_ne] at h'
              exact h'
          · exact Or.inl h'
        | _ => exact absurd hc (by simp [registers])
      · rw [(sameTables_exec (by simpa using hc)).2] at h'
        exact Or.inl h'

/-! ## Runs -/

theorem log_suffix_act {c : Slot} {a : Action} (hseq : k.Sequential c a) :
    k.log <:+ (k.act c a).log := by
  have h : Serves (fun _ => False) (k.onBehalf c) (k.act c a) := by
    refine serves_exec hseq ?_
    cases a <;> simp [SeesEligible]
  exact h.log

theorem EndedSince.of_suffix {k₁ : Kernel} (h : EndedSince k k' p) (h₁ : k₁.log <:+ k.log) :
    EndedSince k₁ k' p := by
  obtain ⟨es, hes, hmem⟩ := h
  obtain ⟨es₁, hes₁⟩ := h₁
  exact ⟨es ++ es₁, by rw [hes, ← hes₁, List.append_assoc], List.mem_append_left _ hmem⟩

theorem EndedSince.mono {k'' : Kernel} (h : EndedSince k k' p) (h' : k'.log <:+ k''.log) :
    EndedSince k k'' p := by
  obtain ⟨es, hes, hmem⟩ := h
  obtain ⟨es', hes'⟩ := h'
  exact ⟨es' ++ es, by rw [← hes', hes, List.append_assoc], List.mem_append_right _ hmem⟩

/-- The place `r` was given the PID `p` by a step of the run `ls` from `k₀` to `k`.  If the
place is a checked one, `p` was then the PID of an active task.  If it was, it still is, or
a task with this PID was ended since. -/
def RecordedAlive (k₀ : Kernel) (ls : List (Slot × Action)) (k : Kernel) (r : Ref)
    (p : UInt32) : Prop :=
  ∃ ls₁ c a ls₂ k₁, ls = ls₁ ++ (c, a) :: ls₂ ∧ Run (StepIf Sequential) k₀ ls₁ k₁ ∧
    Run (StepIf Sequential) k₁ ((c, a) :: ls₂) k ∧ k₁.Records c a r p ∧
    (r.isChecked = true → k₁.HasTask p) ∧ (k₁.HasTask p → k.HasTask p ∨ EndedSince k₁ k p)

/-- **Where recorded PIDs come from.**  In every run, whatever tasks were ended, each PID
in use in a place was recorded there by a call, as the PID of an active task unless the
place is `receive_from`, and an active task has it still unless one that had it was
ended since. -/
theorem recordedPidsAlive {kernelPd : UInt32} {ls : List (Slot × Action)}
    (h : Run (StepIf Sequential) (boot kernelPd) ls k) {r : Ref} (hr : k.Refers r p) :
    RecordedAlive (boot kernelPd) ls k r p := by
  revert r p
  refine h.induction_snoc (C := fun ls k => ∀ {p : UInt32} {r : Ref}, k.Refers r p →
    RecordedAlive (boot kernelPd) ls k r p) ?_ ?_
  · intro p r hr
    exfalso
    cases r with
    | sending i => exact boot_not_blocked kernelPd i hr.2.1
    | receiving i => exact boot_not_blocked kernelPd i hr.2.1
    | service s => exact absurd hr.1 Bool.false_ne_true
    | irqOwner n => exact hr.1 rfl
  · rintro ls k ⟨c, a⟩ k' hrun ⟨hseq, rfl⟩ ih p r hr
    dsimp only at hseq hr ⊢
    have hlive : k.HasTask p → (k.act c a).HasTask p ∨ EndedSince k (k.act c a) p := fun hp =>
      HasTask.exec (k := k.onBehalf c) hp a
    rcases refers_exec (k := k.onBehalf c) hseq hr with hold | ⟨hrec, hchk⟩
    · obtain ⟨ls₁, c₁, a₁, ls₂, k₁, rfl, hrun₁, hrun₂, hrec, hchk, hsince⟩ := ih hold
      refine ⟨ls₁, c₁, a₁, ls₂ ++ [(c, a)], k₁, by simp, hrun₁, hrun₂.snoc ⟨hseq, rfl⟩,
        hrec, hchk, fun hp => ?_⟩
      -- The history of the later state goes on from that of the recording step.
      have hlog : k₁.log <:+ k.log :=
        hrun₂.invariant (I := fun k => k₁.log <:+ k.log) (fun s l t ⟨hl, ht⟩ hs => by
          rw [ht]
          exact hs.trans (log_suffix_act hl)) List.suffix_rfl
      rcases hsince hp with hp' | hended
      · exact (hlive hp').imp_right fun h => h.of_suffix hlog
      · exact Or.inr (hended.mono (log_suffix_act hseq))
    · exact ⟨ls, c, a, [], k, rfl, hrun, .cons ⟨hseq, rfl⟩ (.nil _), hrec, hchk, hlive⟩

/-- A server registers a service and an IRQ.  A client calls it, a third task waits for a
message of it, and then the server exits. -/
def serverExits : List (Slot × Action) :=
  [(0, .call (.taskCreateUser [] 1 false 0x10000 0x20000 0x30000)),
    (0, .call (.taskCreateUser [] 1 false 0x11000 0x21000 0x31000)),
    (0, .call (.taskCreateUser [] 1 false 0x12000 0x22000 0x32000)),
    (0, .call (.taskSleep 1000)), (0, .irq 0 0x7000),
    (1, .call (.registerSvc [99])), (1, .call (.registerIrq 1)),
    (1, .call .taskYield), (1, .irq 0 0x7100),
    (2, .call (.ipcSendrec 1 (some .zero))), (2, .irq 0 0x7200),
    (3, .call (.ipcReceive 1 (some .zero))), (3, .irq 0 0x7300),
    (1, .call .taskExit)]

/-- The registered service of the exited server was recorded while the server lived, and
its end is in the history. -/
theorem recordedPidsAlive_serverExits :
    ∃ k, Run (StepIf Sequential) (boot 0x1000) serverExits k ∧
      (k.Refers (.service 0) 1 ∧ ¬ k.HasTask 1) ∧
      RecordedAlive (boot 0x1000) serverExits k (.service 0) 1 := by
  obtain ⟨k, hrun, hk⟩ : ∃ k, Run (StepIf Sequential) (boot 0x1000) serverExits k ∧
      (k.Refers (.service 0) 1 ∧ ¬ k.HasTask 1) :=
    exists_run_followIf _ (by decide +kernel)
  exact ⟨k, hrun, hk, recordedPidsAlive hrun hk.1⟩

/-- After the exit the client waits for a dead task in `ipc_sendrec` and the third task
in `ipc_receive`, and the service entry and the IRQ owner name it. -/
theorem waits_on_the_dead :
    ∃ k, Run (StepIf fun k c a => k.Scheduled c a ∧ k.Sequential c a) (boot 0x1000)
      serverExits k ∧ k.Refers (.sending 2) 1 ∧ k.Refers (.receiving 3) 1 ∧
      k.Refers (.service 0) 1 ∧ k.Refers (.irqOwner 1) 1 ∧ ¬ k.HasTask 1 :=
  exists_run_followIf _ (by decide +kernel)

end Kernel

end Microkernel

/-
# Notifications reach the task they are for

`ipc_notify` delivers to a task that waits in `ipc_receive` and otherwise leaves the
message in the tables `pending_notify` and `notify_msg`, at the index PID modulo
`MAX_TASKS`.  The tables are meant to have an entry per task, but PIDs grow without bound:
two active tasks can have one entry, and a task that ends leaves its entry to the next
task with the same index.

The theorem: notifications reach only the task they were sent to in the runs in which no
other active task shares the entry when a notification is stored, and no notification is
pending in the entry of a task when the task is created.
-/
import Microkernel.References

namespace Microkernel

/-- If the event is the copy of a notification, the task that got it is the one it was
sent to. -/
def Event.IsAddressed : Event → Prop
  | .note dest task receiver into _ => dest = receiver ∧ task = into
  | _ => True

instance : (e : Event) → Decidable e.IsAddressed
  | .note .. => inferInstanceAs (Decidable (_ ∧ _))
  | .submit .. | .deliver .. | .reply .. | .wake .. | .ended _ => inferInstanceAs (Decidable True)

theorem Event.isAddressed_of_isCalm {e : Event} (h : e.isCalm = true) : e.IsAddressed := by
  cases e with
  | note => exact absurd h (by simp [isCalm])
  | _ => trivial

namespace Kernel

variable {k k' k'' : Kernel}

/-- A pending notification is for every active task that would find it, and those that
were copied were for the task that got them. -/
structure NotifyInv (k : Kernel) : Prop where
  pending : ∀ i, (k.tasks i).active = true → k.pendingNotify (notifyIndex (k.tasks i).id) ≠ 0 →
    k.notifyFor (notifyIndex (k.tasks i).id) = ((k.tasks i).id, (k.tasks i).serial)
  log : ∀ e ∈ k.log, e.IsAddressed

theorem notifyInv_boot (kernelPd : UInt32) : NotifyInv (boot kernelPd) :=
  ⟨fun _ _ h => absurd rfl h, fun _ h => absurd h List.not_mem_nil⟩

/-! ## Steps that leave the tables alone -/

/-- The pending notifications are the same, and none was copied to the wrong task. -/
structure KeepsNotes (k k' : Kernel) : Prop where
  pendingNotify : k'.pendingNotify = k.pendingNotify
  notifyFor : k'.notifyFor = k.notifyFor
  log : ∀ e ∈ k'.log, e ∈ k.log ∨ e.IsAddressed

theorem KeepsNotes.refl (k : Kernel) : KeepsNotes k k := ⟨rfl, rfl, fun _ h => Or.inl h⟩

theorem Calm.keepsNotes (h : Calm k k') : KeepsNotes k k' := by
  refine ⟨h.pendingNotify, h.notifyFor, fun e he => ?_⟩
  obtain ⟨es, hes, hcalm⟩ := h.log
  rw [hes, List.mem_append] at he
  exact he.symm.imp_right fun h => Event.isAddressed_of_isCalm (hcalm e h)

/-- The active tasks are old ones. -/
theorem NotifyInv.of_keepsNotes (hk : NotifyInv k) (h : KeepsNotes k k')
    (hact : ∀ i, (k'.tasks i).active = true → (k.tasks i).active = true ∧
      (k'.tasks i).id = (k.tasks i).id ∧ (k'.tasks i).serial = (k.tasks i).serial) :
    NotifyInv k' := by
  refine ⟨fun i hi hp => ?_, fun e he => ?_⟩
  · obtain ⟨ha, hid, hs⟩ := hact i hi
    rw [h.pendingNotify, hid] at hp
    rw [h.notifyFor, hid, hs]
    exact hk.pending i ha hp
  · rcases h.log e he with hold | hnew
    · exact hk.log e hold
    · exact hnew

theorem NotifyInv.of_tame (hk : NotifyInv k) (h : KeepsNotes k k') (ht : Tame k k') :
    NotifyInv k' :=
  hk.of_keepsNotes h fun i hi =>
    ⟨(ht.tasks i).active.symm.trans hi, (ht.tasks i).id, (ht.tasks i).serial⟩

theorem NotifyInv.timerCallback (hk : NotifyInv k) (regs : UInt32) :
    NotifyInv (k.timerCallback regs) := by
  refine hk.of_keepsNotes (calm_timerCallback regs).keepsNotes fun i hi => ?_
  rcases timerCallback_evolution k regs with ht | ⟨k₁, ht, hne, heq⟩
  · exact ⟨(ht.tasks i).active.symm.trans hi, (ht.tasks i).id, (ht.tasks i).serial⟩
  · obtain ⟨ha, hid, hs⟩ := switchTo_identity k₁ regs hne i
    rw [heq] at hi ⊢
    exact ⟨(ht.tasks i).active.symm.trans (ha.symm.trans hi), hid.trans (ht.tasks i).id,
      hs.trans (ht.tasks i).serial⟩

theorem keepsNotes_ipcSend (p : UInt32) (msg : Option Message) :
    KeepsNotes k (k.ipcSend p msg).1 := by
  unfold ipcSend
  split
  · exact .refl k
  · split
    · exact .refl k
    · dsimp only
      split_ifs
      all_goals
        refine ⟨rfl, rfl, fun e he => ?_⟩
        simp only [deliverNow_log, blockSending_log, submit_log, List.mem_cons] at he
      · rcases he with rfl | rfl | he
        · exact Or.inr trivial
        · exact Or.inr trivial
        · exact Or.inl he
      · rcases he with rfl | he
        · exact Or.inr trivial
        · exact Or.inl he

theorem keepsNotes_ipcSendrec (p : UInt32) (msg : Option Message) :
    KeepsNotes k (k.ipcSendrec p msg).1 := by
  unfold ipcSendrec
  split
  · exact .refl k
  · split
    · exact .refl k
    · dsimp only
      split_ifs
      all_goals
        refine ⟨rfl, rfl, fun e he => ?_⟩
        simp only [deliverNow_log, blockSending_log, submit_log, List.mem_cons] at he
      · rcases he with rfl | rfl | he
        · exact Or.inr trivial
        · exact Or.inr trivial
        · exact Or.inl he
      · rcases he with rfl | he
        · exact Or.inr trivial
        · exact Or.inl he

theorem keepsNotes_ipcReply (p : UInt32) (msg : Option Message) :
    KeepsNotes k (k.ipcReply p msg).1 := by
  unfold ipcReply
  split
  · exact .refl k
  · split
    · exact .refl k
    · split_ifs
      · refine ⟨rfl, rfl, fun e he => ?_⟩
        simp only [countMessage_log, fillBuffer_log, record_log, List.mem_cons] at he
        rcases he with rfl | he
        · exact Or.inr trivial
        · exact Or.inl he
      · exact .refl k

/-! ## Receiving -/

theorem takeNotification_pendingNotify : k.takeNotification.pendingNotify =
    Function.update k.pendingNotify (notifyIndex k.current.id) 0 := rfl

/-- Taking a notification: by the invariant it is for the current task. -/
theorem NotifyInv.takeNotification (hk : NotifyInv k) (hact : k.current.active = true)
    (hp : k.pendingNotify (notifyIndex k.current.id) ≠ 0) : NotifyInv k.takeNotification := by
  have htask := (tame_takeNotification k).tasks
  have hfor := hk.pending k.currentTask hact hp
  refine ⟨fun i hi hpi => ?_, fun e he => ?_⟩
  · rw [(htask i).active] at hi
    rw [(htask i).id] at hpi
    rw [(htask i).id, (htask i).serial]
    have hne : notifyIndex (k.tasks i).id ≠ notifyIndex k.current.id := by
      intro h
      rw [h, takeNotification_pendingNotify, Function.update_self] at hpi
      exact hpi rfl
    rw [takeNotification_pendingNotify, Function.update_of_ne hne] at hpi
    exact hk.pending i hi hpi
  · rw [takeNotification_log, List.mem_cons] at he
    rcases he with rfl | he
    · rw [show k.notifyFor (notifyIndex k.current.id) = _ from hfor]
      exact ⟨rfl, rfl⟩
    · exact hk.log e he

theorem keepsNotes_takeMessage (s : Slot) : KeepsNotes k (k.takeMessage s) := by
  refine ⟨?_, ?_, fun e he => ?_⟩
  · unfold takeMessage
    dsimp only
    split_ifs <;> rfl
  · unfold takeMessage
    dsimp only
    split_ifs <;> rfl
  · rw [takeMessage_log, List.mem_cons] at he
    rcases he with rfl | he
    · exact Or.inr trivial
    · exact Or.inl he

theorem notifyInv_ipcReceive (hk : NotifyInv k) (hact : k.current.active = true)
    (p : UInt32) (msg : Option Message) : NotifyInv (k.ipcReceive p msg).1 := by
  unfold ipcReceive
  split
  · exact hk
  · have hb : NotifyInv k.beginCall :=
      hk.of_tame ⟨rfl, rfl, fun _ h => Or.inl h⟩ (tame_beginCall k)
    have hact' : k.beginCall.current.active = true := by simpa [beginCall, current] using hact
    dsimp only
    split_ifs with hp
    · exact hb.takeNotification hact' hp
    · split
      · exact hb.of_tame (keepsNotes_takeMessage _) (tame_takeMessage _ _)
      · exact hb.of_tame ⟨rfl, rfl, fun _ h => Or.inl h⟩ (tame_blockReceiving _ _ _)

/-! ## Notifying -/

/-- A notification to `p` is delivered at once, or the task it is for is the only active one
that uses the entry it is stored in. -/
def StoresAlone (k : Kernel) (p : UInt32) : Prop :=
  ∀ d, k.findDest p = some d → inReceive (k.tasks d) = false →
    ∀ i, (k.tasks i).active = true → notifyIndex (k.tasks i).id = notifyIndex p → i = d

instance (k : Kernel) (p : UInt32) : Decidable (k.StoresAlone p) :=
  inferInstanceAs (Decidable (∀ _, _))

theorem notifyInv_ipcNotify (hk : NotifyInv k) {p : UInt32} (halone : k.StoresAlone p)
    (msg : Message) : NotifyInv (k.ipcNotify p msg).1 := by
  unfold ipcNotify
  split
  · exact hk
  · rename_i d hd
    obtain ⟨-, hid⟩ := findDest_eq_some hd
    dsimp only
    split_ifs with hrec
    · refine hk.of_tame ⟨rfl, rfl, fun e he => ?_⟩
        ((tame_countMessage k).trans ((tame_record _ _).trans (tame_fillBuffer _ _ _)))
      simp only [fillBuffer_log, record_log, countMessage_log, List.mem_cons] at he
      rcases he with rfl | he
      · exact Or.inr ⟨hid.symm, rfl⟩
      · exact Or.inl he
    · -- The entry now holds the notification of `d`, and only `d` would find it.
      have honly := halone d hd (Bool.eq_false_iff.mpr hrec)
      refine ⟨fun i hi hp => ?_, hk.log⟩
      show (Function.update k.notifyFor (notifyIndex p) (p, (k.tasks d).serial))
        (notifyIndex (k.tasks i).id) = ((k.tasks i).id, (k.tasks i).serial)
      replace hi : (k.tasks i).active = true := hi
      by_cases h : notifyIndex (k.tasks i).id = notifyIndex p
      · have hid' : i = d := honly i hi h
        rw [h, Function.update_self, hid', hid]
      · rw [Function.update_of_ne h]
        refine hk.pending i hi ?_
        replace hp : Function.update k.pendingNotify (notifyIndex p) 1
          (notifyIndex (k.tasks i).id) ≠ 0 := hp
        rwa [Function.update_of_ne h] at hp

/-! ## Runs -/

/-- The condition on a step: a notification that has to be stored is stored in an entry no
other active task uses, and a task is created only when nothing is pending in the entry
of its PID.  IRQ 0 is notified after its tick. -/
def NotifiesAlone (k : Kernel) (c : Slot) : Action → Prop
  | .call (.ipcNotify p _) => k.StoresAlone p
  | .call cl => k.created < (cl.exec (k.onBehalf c)).1.created →
      k.pendingNotify (notifyIndex k.nextPid) = 0
  | .irq n regs => k.irqOwners n ≠ 0 →
      (if n = 0 then (k.onBehalf c).timerCallback regs else k).StoresAlone (k.irqOwners n)

instance (k : Kernel) (c : Slot) (a : Action) : Decidable (k.NotifiesAlone c a) := by
  unfold NotifiesAlone
  split <;> infer_instance

/-- A call outside `ipc.c` that is not a creation, or one that finds nothing pending. -/
theorem notifyInv_exec_calm (hk : NotifyInv k) {c : Call} (hcalm : Calm k (c.exec k).1)
    (hnew : k.created < (c.exec k).1.created → k.pendingNotify (notifyIndex k.nextPid) = 0) :
    NotifyInv (c.exec k).1 := by
  have hkeep := hcalm.keepsNotes
  have hend : ∀ i j, ((k.endTask i).tasks j).active = true → (k.tasks j).active = true ∧
      ((k.endTask i).tasks j).id = (k.tasks j).id ∧
      ((k.endTask i).tasks j).serial = (k.tasks j).serial := by
    intro i j hj
    have heq := endTask_tasks_ne k (ne_of_active_endTask k hj)
    rw [heq] at hj ⊢
    exact ⟨hj, rfl, rfl⟩
  rcases exec_cases k c with ht | ⟨slot, t, hslot, ht, heq⟩ | ⟨i, cr3, -, heq | heq⟩
  · exact hk.of_tame hkeep ht
  · -- Nothing is pending for the new task; the other entries are as before.
    have hnone : k.pendingNotify (notifyIndex k.nextPid) = 0 := 
      hnew (by rw [heq]; exact Nat.lt_succ_self _)
    have hadd : ∀ i, i ≠ slot → (c.exec k).1.tasks i = k.tasks i := fun i hi => by
      rw [heq, addTask_tasks_ne k t hi]
    refine ⟨fun i hi hp => ?_, fun e he => ?_⟩
    · rw [hkeep.pendingNotify] at hp
      rw [hkeep.notifyFor]
      by_cases his : i = slot
      · rw [heq, his, addTask_tasks_self, ht.id] at hp
        exact absurd hnone hp
      · rw [hadd i his] at hi hp ⊢
        exact hk.pending i hi hp
    · rcases hkeep.log e he with hold | haddr
      · exact hk.log e hold
      · exact haddr
  · refine hk.of_keepsNotes hkeep fun j hj => ?_
    rw [heq] at hj ⊢
    exact hend i j hj
  · refine hk.of_keepsNotes hkeep fun j hj => ?_
    rw [heq, taskYield_tasks] at hj
    rw [heq, taskYield_tasks]
    exact hend i j hj

theorem notifyInv_irqHandler (hk : NotifyInv k) {n : Fin 16} {regs : UInt32}
    (halone : k.irqOwners n ≠ 0 →
      (if n = 0 then k.timerCallback regs else k).StoresAlone (k.irqOwners n)) :
    NotifyInv (k.irqHandler n regs).1 := by
  set k₁ := if n = 0 then k.timerCallback regs else k with hk₁
  have hinv : NotifyInv k₁ ∧ k₁.irqOwners = k.irqOwners := by
    rw [hk₁]
    split_ifs
    · exact ⟨hk.timerCallback regs, (sameTables_timerCallback regs).2⟩
    · exact ⟨hk, rfl⟩
  have hroute : NotifyInv (k₁.routeIrq n) := by
    unfold routeIrq
    dsimp only
    rw [hinv.2]
    split_ifs with hown
    · exact notifyInv_ipcNotify hinv.1 (halone hown) _
    · exact hinv.1
  show NotifyInv (k₁.routeIrq n).taskPreemptCheck.1
  unfold taskPreemptCheck
  split_ifs
  · exact ⟨hroute.pending, hroute.log⟩
  · exact hroute

/-- **A step that meets the condition keeps the invariant.** -/
theorem notifyInv_act (hk : NotifyInv k) {c : Slot} {a : Action} (hseq : k.Sequential c a)
    (hcond : k.NotifiesAlone c a) : NotifyInv (k.act c a) := by
  have hk' : NotifyInv (k.onBehalf c) := ⟨hk.pending, hk.log⟩
  cases a with
  | irq n regs =>
    refine notifyInv_irqHandler hk' fun hown => ?_
    have h := hcond hown
    split_ifs at h ⊢ <;> exact h
  | call cl =>
    have hrun : canRun (k.onBehalf c).current = true := hseq
    cases hc : isIpc cl with
    | false =>
      have hcalm := (quiet_exec hc (inWait_eq_false_of_canRun hrun)).toCalm
      refine notifyInv_exec_calm hk' hcalm fun hlt => ?_
      cases cl <;> first | exact hcond hlt | exact absurd hc (by simp [isIpc])
    | true =>
      cases cl with
      | ipcSend p msg => exact hk'.of_tame (keepsNotes_ipcSend p msg) (tame_ipcSend _ p msg)
      | ipcReceive p msg => exact notifyInv_ipcReceive hk' (active_of_canRun hrun) p msg
      | ipcSendrec p msg =>
        exact hk'.of_tame (keepsNotes_ipcSendrec p msg) (tame_ipcSendrec _ p msg)
      | ipcReply p msg => exact hk'.of_tame (keepsNotes_ipcReply p msg) (tame_ipcReply _ p msg)
      | ipcNotify p msg => exact notifyInv_ipcNotify hk' hcond msg
      | _ => exact absurd hc (by simp [isIpc])

/-- **Notification addressing.**  In every run whose steps meet the condition, every
notification that was copied into a buffer was copied into a buffer of the task it was
sent to: the PIDs agree, and it is the very task that had the PID at the time. -/
theorem notificationAddressing {kernelPd : UInt32} {ls : List (Slot × Action)}
    (h : Run (StepIf fun k c a => k.Sequential c a ∧ k.NotifiesAlone c a) (boot kernelPd) ls k)
    {dest receiver : UInt32} {task into m : ℕ}
    (hnote : .note dest task receiver into m ∈ k.log) : dest = receiver ∧ task = into := by
  have hk : NotifyInv k := h.invariant
    (fun _ _ _ ⟨⟨hseq, hcond⟩, ht⟩ hk => ht ▸ notifyInv_act hk hseq hcond)
    (notifyInv_boot kernelPd)
  exact hk.log _ hnote

/-- A server is notified before and while it waits in `ipc_receive`. -/
def twoNotifications : List (Slot × Action) :=
  [(0, .call (.taskCreateUser [] 1 false 0x10000 0x20000 0x30000)),
    (0, .call (.ipcNotify 1 .zero)), (0, .call (.taskSleep 30)), (0, .irq 0 0x7000),
    (1, .call (.ipcReceive pidAny (some .zero))), (1, .call (.registerIrq 1)),
    (1, .call (.ipcReceive pidAny (some .zero))), (1, .irq 1 0x7100)]

/-- The IRQ notification went to the task that owns the IRQ. -/
theorem notificationAddressing_twoNotifications :
    ∃ k, Run (StepIf fun k c a => k.Sequential c a ∧ k.NotifiesAlone c a) (boot 0x1000)
      twoNotifications k ∧
      (.note 1 1 1 1 1 ∈ k.log ∧
        .note (k.irqOwners 1) 1 (k.tasks 1).id (k.tasks 1).serial 2 ∈ k.log) ∧
      k.irqOwners 1 = (k.tasks 1).id ∧ 1 = (k.tasks 1).serial := by
  obtain ⟨k, hrun, hk⟩ : ∃ k, Run (StepIf fun k c a => k.Sequential c a ∧ k.NotifiesAlone c a)
      (boot 0x1000) twoNotifications k ∧ (.note 1 1 1 1 1 ∈ k.log ∧
        .note (k.irqOwners 1) 1 (k.tasks 1).id (k.tasks 1).serial 2 ∈ k.log) :=
    exists_run_followIf _ (by decide +kernel)
  exact ⟨k, hrun, hk, notificationAddressing hrun hk.2⟩

/-- PID 1 is created, 31 further tasks come and go, and PID 33 is created.  A notification
for PID 1 is stored, and PID 33 is the first to call `ipc_receive`. -/
def sharedEntry : List (Slot × Action) :=
  [(0, .call (.taskCreateUser [] 2 false 0x10000 0x20000 0x30000))] ++
  (List.range 31).flatMap (fun n =>
    [(0, .call (.taskCreateUser [] 1 false 0x11000 0x21000 0x31000)),
      (0, .call (.taskKill (UInt32.ofNat (n + 2))))]) ++
  [(0, .call (.taskCreateUser [] 1 false 0x11000 0x21000 0x31000)),
    (0, .call (.ipcNotify 1 .zero)), (0, .call (.taskSleep 30)), (0, .irq 0 0x7000),
    (2, .call (.ipcReceive pidAny (some .zero)))]

/-- PID 33 gets the notification that was sent to PID 1; both are alive. -/
theorem notification_misdelivered :
    ∃ k, Run (StepIf fun k c a => k.Scheduled c a ∧ k.Sequential c a) (boot 0x1000)
      sharedEntry k ∧ .note 1 1 33 33 1 ∈ k.log ∧
      (k.tasks 1).active = true ∧ (k.tasks 1).id = 1 ∧
      (k.tasks 2).active = true ∧ (k.tasks 2).id = 33 :=
  exists_run_followIf _ (by decide +kernel)

end Kernel

end Microkernel

/-
# Replies match requests

A task blocked in `ipc_sendrec` should go on only by a reply of the task it called, made
after that task received the request.  `ipc_reply` checks less: it answers any task
that is blocked in some `ipc_sendrec`.  The guarantee therefore rests on the repliers.

The theorem: in the runs in which a reply to a blocked task is made only by a task that
has received some request of it and not answered it, and in which no tick enters slot 0
blindly while it is in `ipc_sendrec`, the guarantee holds.  The invariant behind it is that an unanswered request is
the one its task, if it is alive, is blocked in.
-/
import Microkernel.Delivery
import Microkernel.Completion
import Microkernel.TaskTable

namespace Microkernel

/-- The deliveries of call `n` to PID `receiver`. -/
def Event.deliversTo (n : ℕ) (receiver : UInt32) : Event → Bool
  | .deliver n' r _ => n' == n && r == receiver
  | _ => false

namespace Kernel

/-- PID `receiver` has received the message of call `n`. -/
def received (k : Kernel) (n : ℕ) (receiver : UInt32) : Bool :=
  k.log.any (Event.deliversTo n receiver)

/-- Call `n` has been answered by a reply. -/
def answered (k : Kernel) (n : ℕ) : Bool := k.completed .sendrec n

/-- PID `replier` has received a request of task `t` that was not answered yet. -/
def holdsRequest (k : Kernel) (replier : UInt32) (t : Task) : Bool :=
  k.log.any fun
    | .submit n _ task _ awaits =>
      awaits && task == t.serial && k.received n replier && !k.answered n
    | _ => false

variable {k k' : Kernel}

theorem received_eq_true {n : ℕ} {r : UInt32} :
    k.received n r = true ↔ ∃ m, .deliver n r m ∈ k.log := by
  rw [received, List.any_eq_true]
  constructor
  · rintro ⟨e, he, hd⟩
    cases e with
    | deliver n' r' m =>
      simp only [Event.deliversTo, Bool.and_eq_true, beq_iff_eq] at hd
      obtain ⟨rfl, rfl⟩ := hd
      exact ⟨m, he⟩
    | _ => exact absurd hd (by simp [Event.deliversTo])
  · rintro ⟨m, hm⟩
    exact ⟨_, hm, by simp [Event.deliversTo]⟩

theorem answered_eq_true {n : ℕ} : k.answered n = true ↔ ∃ r, .reply n r ∈ k.log := by
  rw [answered, completed, List.any_eq_true]
  constructor
  · rintro ⟨e, he, hd⟩
    cases e with
    | reply n' r =>
      obtain rfl : n' = n := by simpa [Event.completes] using hd
      exact ⟨r, he⟩
    | _ => exact absurd hd (by simp [Event.completes])
  · rintro ⟨r, hr⟩
    exact ⟨_, hr, by simp [Event.completes]⟩

theorem holdsRequest_eq_true {replier : UInt32} {t : Task}
    (h : k.holdsRequest replier t = true) :
    ∃ n caller dest, .submit n caller t.serial dest true ∈ k.log ∧
      k.received n replier = true ∧ k.answered n = false := by
  rw [holdsRequest, List.any_eq_true] at h
  obtain ⟨e, he, hd⟩ := h
  cases e with
  | submit n caller task dest awaits =>
    simp only [Bool.and_eq_true, beq_iff_eq, Bool.not_eq_true'] at hd
    obtain ⟨⟨⟨rfl, rfl⟩, hr⟩, ha⟩ := hd
    exact ⟨n, caller, dest, he, hr, ha⟩
  | _ => exact absurd hd (by simp)

/-! ## Which calls are blocked after a step -/

/-- A task blocked after the step was blocked before in the same call, or it is the
current task and its call is new. -/
def BlocksCurrent (k k' : Kernel) : Prop :=
  ∀ i, (k'.tasks i).state = .blocked →
    SameCall (k.tasks i) (k'.tasks i) ∨ (i = k.currentTask ∧ (k'.tasks i).call = k.calls)

theorem Calm.blocksCurrent (h : Calm k k') : BlocksCurrent k k' :=
  fun i hi => Or.inl (h.blocked i hi)

/-- The current task blocks, in a call with the next number, after a calm step. -/
theorem BlocksCurrent.of_setTask {k₁ : Kernel} {t : Task}
    (h : ∀ i, (k₁.tasks i).state = .blocked → SameCall (k.tasks i) (k₁.tasks i))
    (ht : t.call = k.calls) : BlocksCurrent k (k₁.setTask k.currentTask t).taskYield := by
  intro i hi
  have hy := (quiet_taskYield (k₁.setTask k.currentTask t)).blocked i hi
  by_cases hc : i = k.currentTask
  · right
    refine ⟨hc, ?_⟩
    rw [hy.call, setTask_tasks, hc, Function.update_self]
    exact ht
  · left
    rw [setTask_tasks, Function.update_of_ne hc] at hy
    exact (h i hy.state).trans hy

theorem blocked_submit (hcur : k.current.state ≠ .blocked) (destPid : UInt32) (awaits : Bool)
    (i : Slot) (h : ((k.submit destPid awaits).tasks i).state = .blocked) :
    SameCall (k.tasks i) ((k.submit destPid awaits).tasks i) :=
  (calm_beginCall hcur).blocked i h

theorem blocked_deliverNow (d : Slot) (msg : Message) (i : Slot)
    (h : ((k.deliverNow d msg).tasks i).state = .blocked) :
    SameCall (k.tasks i) ((k.deliverNow d msg).tasks i) :=
  (calm_fillBuffer d msg : Calm (k.record _) _).blocked i h

theorem blocked_takeMessage (hcur : k.current.state ≠ .blocked) {s : Slot}
    (hs : IsSending (k.tasks s)) (i : Slot)
    (h : ((k.takeMessage s).tasks i).state = .blocked) :
    SameCall (k.tasks i) ((k.takeMessage s).tasks i) := by
  have hne : s ≠ k.currentTask := by
    rintro rfl
    exact hcur hs.1
  by_cases hc : i = k.currentTask
  · rw [hc, takeMessage_tasks_current hne] at h
    exact absurd h hcur
  · by_cases his : i = s
    · subst his
      rw [takeMessage_tasks_sender hne] at h ⊢
      split_ifs at h ⊢ with hon
      exact ⟨hs.1, rfl, rfl, rfl, hon.symm, rfl, rfl, rfl⟩
    · rw [takeMessage_tasks_other hc his] at h ⊢
      exact .refl h

/-- The number of the current task's call after its submission. -/
theorem submit_current_call (destPid : UInt32) (awaits : Bool) :
    (k.submit destPid awaits).current.call = k.calls := by
  simp [submit, beginCall, current, record, countMessage]

theorem deliverNow_current_call (d : Slot) (msg : Message) :
    (k.deliverNow d msg).current.call = k.current.call := by
  by_cases h : k.currentTask = d <;> simp [deliverNow, fillBuffer, current, h]

theorem blocksCurrent_ipcSend (hcur : k.current.state ≠ .blocked) (destPid : UInt32)
    (msg : Option Message) : BlocksCurrent k (k.ipcSend destPid msg).1 := by
  have hrefl : BlocksCurrent k k := fun i hi => Or.inl (.refl hi)
  unfold ipcSend
  split
  · exact hrefl
  · split
    · exact hrefl
    · dsimp only
      split_ifs
      · intro i hi
        have h₂ := blocked_deliverNow _ _ i hi
        exact Or.inl ((blocked_submit hcur destPid false i h₂.state).trans h₂)
      · exact .of_setTask (blocked_submit hcur destPid false) (submit_current_call destPid false)

theorem blocksCurrent_ipcSendrec (hcur : k.current.state ≠ .blocked) (destPid : UInt32)
    (msg : Option Message) : BlocksCurrent k (k.ipcSendrec destPid msg).1 := by
  have hrefl : BlocksCurrent k k := fun i hi => Or.inl (.refl hi)
  unfold ipcSendrec
  split
  · exact hrefl
  · split
    · exact hrefl
    · dsimp only
      split_ifs
      · refine .of_setTask (fun i hi => ?_)
          ((deliverNow_current_call _ _).trans (submit_current_call destPid true))
        have h₂ := blocked_deliverNow _ _ i hi
        exact (blocked_submit hcur destPid true i h₂.state).trans h₂
      · exact .of_setTask (blocked_submit hcur destPid true) (submit_current_call destPid true)

theorem blocksCurrent_ipcReceive (hcur : k.current.state ≠ .blocked) (fromPid : UInt32)
    (msg : Option Message) : BlocksCurrent k (k.ipcReceive fromPid msg).1 := by
  have hcur' : k.beginCall.current.state ≠ .blocked := by simpa [beginCall, current] using hcur
  have hb : ∀ i, (k.beginCall.tasks i).state = .blocked →
      SameCall (k.tasks i) (k.beginCall.tasks i) := (calm_beginCall hcur).blocked
  unfold ipcReceive
  split
  · exact fun i hi => Or.inl (.refl hi)
  · dsimp only
    split_ifs
    · intro i hi
      have h₁ : Calm k.beginCall (k.beginCall.setTask k.beginCall.currentTask
          { k.beginCall.current with
            msgBuf := k.beginCall.notifyMsg (notifyIndex k.beginCall.current.id) }) :=
        .setTask fun h => absurd h hcur'
      have h₂ := h₁.blocked i hi
      exact Or.inl ((hb i h₂.state).trans h₂)
    · split
      · rename_i s hs
        intro i hi
        have hsend := (findBlockedSender_eq_some hs).2.1
        have h₂ := blocked_takeMessage hcur' hsend i hi
        exact Or.inl ((hb i h₂.state).trans h₂)
      · exact .of_setTask hb (by simp [beginCall, current])

theorem blocked_ipcReply (destPid : UInt32) (msg : Option Message) (i : Slot)
    (h : ((k.ipcReply destPid msg).1.tasks i).state = .blocked) :
    SameCall (k.tasks i) ((k.ipcReply destPid msg).1.tasks i) := by
  revert h
  unfold ipcReply
  split
  · exact fun h => .refl h
  · split
    · exact fun h => .refl h
    · split_ifs
      · exact fun h => (calm_fillBuffer _ _ : Calm (k.record _) _).blocked i h
      · exact fun h => .refl h

theorem blocked_ipcNotify (destPid : UInt32) (msg : Message) (i : Slot)
    (h : ((k.ipcNotify destPid msg).1.tasks i).state = .blocked) :
    SameCall (k.tasks i) ((k.ipcNotify destPid msg).1.tasks i) := by
  revert h
  unfold ipcNotify
  split
  · exact fun h => .refl h
  · dsimp only
    split_ifs
    · exact fun h => (calm_fillBuffer _ _ : Calm (k.countMessage.record _) _).blocked i h
    · exact fun h => .refl h

/-- An interrupt blocks no task. -/
theorem blocked_irqHandler (n : Fin 16) (regs : UInt32) (i : Slot)
    (h : ((k.irqHandler n regs).1.tasks i).state = .blocked) :
    SameCall (k.tasks i) ((k.irqHandler n regs).1.tasks i) := by
  have hcheck := quiet_taskPreemptCheck.blocked i h
  have hroute : ∀ k : Kernel, ((k.routeIrq n).tasks i).state = .blocked →
      SameCall (k.tasks i) ((k.routeIrq n).tasks i) := by
    intro k
    unfold routeIrq
    dsimp only
    split_ifs
    · exact blocked_ipcNotify _ _ i
    · exact fun h => .refl h
  have hr := hroute _ hcheck.state
  refine SameCall.trans ?_ (hr.trans hcheck)
  have hb := hr.state
  split_ifs at hb ⊢
  · exact (calm_timerCallback regs).blocked i hb
  · exact .refl hb

/-- **Only the caller blocks, in a new call.** -/
theorem blocksCurrent_exec {a : Action} (hseq : k.Sequential k.currentTask a) :
    BlocksCurrent k (a.exec k) := by
  cases a with
  | irq n regs => exact fun i hi => Or.inl (blocked_irqHandler n regs i hi)
  | call c =>
    have hcur : k.current.state ≠ .blocked := state_ne_blocked_of_canRun hseq
    cases hc : isIpc c with
    | false => exact (quiet_exec hc (inWait_eq_false_of_canRun hseq)).toCalm.blocksCurrent
    | true =>
      cases c with
      | ipcSend d m => exact blocksCurrent_ipcSend hcur d m
      | ipcReceive f m => exact blocksCurrent_ipcReceive hcur f m
      | ipcSendrec d m => exact blocksCurrent_ipcSendrec hcur d m
      | ipcReply d m => exact fun i hi => Or.inl (blocked_ipcReply d m i hi)
      | ipcNotify d m => exact fun i hi => Or.inl (blocked_ipcNotify d m i hi)
      | _ => exact absurd hc (by simp [isIpc])

/-! ## Which events a step records -/

/-- The task is blocked in `ipc_sendrec` call `n` to PID `dest`. -/
def Waits (t : Task) (n : ℕ) (dest : UInt32) : Prop :=
  t.state = .blocked ∧ t.blockedOn = .sendrec ∧ t.call = n ∧ t.sendTo = dest

/-- After an accepted `ipc_sendrec` the caller waits in the new call. -/
theorem waits_blockSending {destPid : UInt32} {msg : Message} {n : ℕ} (h : k.current.call = n) :
    Waits ((k.blockSending .sendrec destPid msg).tasks k.currentTask) n destPid := by
  simp [blockSending, taskYield, current, Waits] at h ⊢
  exact h

/-- The events `ipc_notify` and the functions outside `ipc.c` record. -/
def isAside : Event → Bool
  | .note .. | .wake .. | .ended _ => true
  | _ => false

theorem Calm.mem_log_of_not_aside {e : Event} (h : Calm k k') (he : isAside e = false)
    (hm : e ∈ k'.log) : e ∈ k.log := by
  refine (h.mem_log ?_).mp hm
  cases e with
  | wake | ended => exact absurd he (by simp [isAside])
  | _ => rfl

theorem mem_log_ipcNotify {e : Event} (he : isAside e = false) (destPid : UInt32) (msg : Message)
    (hm : e ∈ (k.ipcNotify destPid msg).1.log) : e ∈ k.log := by
  revert hm
  unfold ipcNotify
  split
  · exact id
  · dsimp only
    split_ifs
    · intro hm
      simp only [fillBuffer_log, record_log, countMessage_log, List.mem_cons] at hm
      rcases hm with rfl | hm
      · exact absurd he (by simp [isAside])
      · exact hm
    · exact id

/-- An interrupt moves no message and makes no reply. -/
theorem mem_log_irqHandler {e : Event} (he : isAside e = false) (irq : Fin 16) (regs : UInt32)
    (hm : e ∈ (k.irqHandler irq regs).1.log) : e ∈ k.log := by
  have hroute : ∀ k : Kernel, e ∈ (k.routeIrq irq).log → e ∈ k.log := by
    intro k
    unfold routeIrq
    dsimp only
    split_ifs
    · exact mem_log_ipcNotify he _ _
    · exact id
  have h₁ := hroute _ (quiet_taskPreemptCheck.toCalm.mem_log_of_not_aside he hm)
  split_ifs at h₁
  · exact (calm_timerCallback regs).mem_log_of_not_aside he h₁
  · exact h₁

/-- The log of `ipc_receive` has no new submission and no new reply. -/
theorem mem_log_ipcReceive {e : Event} (he : isAside e = false)
    (hd : ∀ n r m, e ≠ .deliver n r m) (fromPid : UInt32) (msg : Option Message)
    (hm : e ∈ (k.ipcReceive fromPid msg).1.log) : e ∈ k.log := by
  revert hm
  unfold ipcReceive
  split
  · exact id
  · dsimp only
    split_ifs
    · intro hm
      rw [takeNotification_log, List.mem_cons] at hm
      rcases hm with rfl | hm
      · exact absurd he (by simp [isAside])
      · exact hm
    · split
      · intro hm
        rw [takeMessage_log, List.mem_cons] at hm
        exact hm.resolve_left (hd _ _ _)
      · exact id

theorem submit_mem_ipcSend {destPid : UInt32} {msg : Option Message} {n t : ℕ} {c d : UInt32}
    {w : Bool} (h : .submit n c t d w ∈ (k.ipcSend destPid msg).1.log) :
    .submit n c t d w ∈ k.log ∨ (t = k.current.serial ∧ w = false) := by
  revert h
  unfold ipcSend
  split
  · exact Or.inl
  · split
    · exact Or.inl
    · dsimp only
      split_ifs <;> intro h <;> simp at h <;> grind

theorem submit_mem_ipcSendrec {destPid : UInt32} {msg : Option Message} {n t : ℕ} {c d : UInt32}
    {w : Bool} (h : .submit n c t d w ∈ (k.ipcSendrec destPid msg).1.log) :
    .submit n c t d w ∈ k.log ∨ (t = k.current.serial ∧
      Waits ((k.ipcSendrec destPid msg).1.tasks k.currentTask) n d) := by
  revert h
  unfold ipcSendrec
  split
  · exact Or.inl
  · split
    · exact Or.inl
    · dsimp only
      intro h
      split_ifs at h ⊢
      · simp only [blockSending_log, deliverNow_log, submit_log, List.mem_cons, reduceCtorEq,
          false_or] at h
        rcases h with h | h
        · obtain ⟨rfl, -, rfl, rfl, -⟩ := Event.submit.inj h
          refine Or.inr ⟨rfl, waits_blockSending ?_⟩
          rw [deliverNow_current_call, submit_current_call]
        · exact Or.inl h
      · simp only [blockSending_log, submit_log, List.mem_cons] at h
        rcases h with h | h
        · obtain ⟨rfl, -, rfl, rfl, -⟩ := Event.submit.inj h
          exact Or.inr ⟨rfl, waits_blockSending (submit_current_call _ _)⟩
        · exact Or.inl h

/-- The submissions of a step: only the current task submits, and if it awaits a reply it
is then blocked in this call. -/
theorem submit_mem_exec {a : Action} (hseq : k.Sequential k.currentTask a) {n t : ℕ}
    {c d : UInt32} {w : Bool} (h : .submit n c t d w ∈ (a.exec k).log) :
    .submit n c t d w ∈ k.log ∨ (canRun k.current = true ∧ Tame k (a.exec k) ∧
      t = k.current.serial ∧ (w = true → Waits ((a.exec k).tasks k.currentTask) n d)) := by
  cases a with
  | irq m regs => exact Or.inl (mem_log_irqHandler rfl m regs h)
  | call cl =>
    cases hc : isIpc cl with
    | false =>
      have hcalm := (quiet_exec hc (inWait_eq_false_of_canRun hseq)).toCalm
      exact Or.inl (hcalm.mem_log_of_not_aside rfl h)
    | true =>
      cases cl with
      | ipcSend destPid msg =>
        refine (submit_mem_ipcSend h).imp_right ?_
        rintro ⟨ht, rfl⟩
        exact ⟨hseq, tame_ipcSend _ _ _, ht, fun hw => absurd hw (by simp)⟩
      | ipcReceive f m => exact Or.inl (mem_log_ipcReceive rfl (by simp) f m h)
      | ipcSendrec destPid msg =>
        refine (submit_mem_ipcSendrec h).imp_right ?_
        rintro ⟨ht, hw⟩
        exact ⟨hseq, tame_ipcSendrec _ _ _, ht, fun _ => hw⟩
      | ipcReply destPid msg =>
        left
        revert h
        simp only [Action.exec, Call.exec, ipcReply]
        split
        · exact id
        · split
          · exact id
          · split_ifs <;> simp
      | ipcNotify destPid msg => exact Or.inl (mem_log_ipcNotify rfl _ _ h)
      | _ => exact absurd hc (by simp [isIpc])

/-- The replies of a step: only `ipc_reply` replies, to a task blocked in `ipc_sendrec`. -/
theorem reply_mem_exec {a : Action} (hseq : k.Sequential k.currentTask a) {n : ℕ} {r : UInt32}
    (h : .reply n r ∈ (a.exec k).log) :
    .reply n r ∈ k.log ∨ ∃ destPid msg d, a = .call (.ipcReply destPid (some msg)) ∧
      k.findDest destPid = some d ∧ inSendrec (k.tasks d) = true ∧ n = (k.tasks d).call := by
  cases a with
  | irq m regs => exact Or.inl (mem_log_irqHandler rfl m regs h)
  | call cl =>
    cases hc : isIpc cl with
    | false =>
      have hcalm := (quiet_exec hc (inWait_eq_false_of_canRun hseq)).toCalm
      exact Or.inl (hcalm.mem_log_of_not_aside rfl h)
    | true =>
      cases cl with
      | ipcSend destPid msg =>
        left
        revert h
        simp only [Action.exec, Call.exec, ipcSend]
        split
        · exact id
        · split
          · exact id
          · split_ifs <;> simp
      | ipcReceive f m => exact Or.inl (mem_log_ipcReceive rfl (by simp) f m h)
      | ipcSendrec destPid msg =>
        left
        revert h
        simp only [Action.exec, Call.exec, ipcSendrec]
        split
        · exact id
        · split
          · exact id
          · split_ifs <;> simp
      | ipcReply destPid msg =>
        revert h
        simp only [Action.exec, Call.exec, ipcReply]
        split
        · exact Or.inl
        · rename_i msg
          split
          · exact Or.inl
          · rename_i d hd
            split_ifs with hin
            · intro h
              simp only [countMessage_log, fillBuffer_log, record_log, List.mem_cons] at h
              rcases h with h | h
              · exact Or.inr ⟨destPid, msg, d, rfl, hd, hin, (Event.reply.inj h).1⟩
              · exact Or.inl h
            · exact Or.inl
      | ipcNotify destPid msg => exact Or.inl (mem_log_ipcNotify rfl _ _ h)
      | _ => exact absurd hc (by simp [isIpc])

/-- The task that is answered becomes ready. -/
theorem ipcReply_tasks_self {destPid : UInt32} {msg : Message} {d : Slot}
    (hd : k.findDest destPid = some d) (hin : inSendrec (k.tasks d) = true) :
    (k.ipcReply destPid (some msg)).1.tasks d = { k.tasks d with
      msgBuf := { msg with sender := k.current.id }, state := .ready, blockedOn := .none } := by
  simp [ipcReply, hd, hin, fillBuffer, countMessage, record]

/-! ## The invariant -/

/-- Every unanswered request is the one its task is blocked in, if the task is alive. -/
structure ReplyInv (k : Kernel) : Prop where
  delivery : OnceInv False k
  numbering : Numbering k
  known : ∀ n c t d w, .submit n c t d w ∈ k.log → t < k.created
  replied : ∀ n r, .reply n r ∈ k.log → ∃ c t d w, .submit n c t d w ∈ k.log
  opened : ∀ n c t d, .submit n c t d true ∈ k.log → k.answered n = false →
    ∀ i, (k.tasks i).active = true → (k.tasks i).serial = t → Waits (k.tasks i) n d
  awaits : ∀ i, (k.tasks i).state = .blocked → (k.tasks i).blockedOn = .sendrec →
    k.answered (k.tasks i).call = false

theorem replyInv_boot (kernelPd : UInt32) : ReplyInv (boot kernelPd) := by
  refine ⟨onceInv_boot kernelPd, numbering_boot kernelPd, ?_, ?_, ?_, fun i hi => ?_⟩
  · simp [boot]
  · simp [boot]
  · simp [boot]
  · exact absurd hi (boot_not_blocked kernelPd i)

/-- A call that was not answered before and is after was answered by this step. -/
theorem answered_of_suffix (h : k.log <:+ k'.log) {n : ℕ} (hn : k.answered n = true) :
    k'.answered n = true :=
  completed_mono h hn

/-- Two tasks blocked in `ipc_sendrec` under one number are one task. -/
theorem OnceInv.eq_of_call {strict : Prop} (hk : OnceInv strict k) {i d : Slot}
    (hi : (k.tasks i).state = .blocked) (hon : (k.tasks i).blockedOn = .sendrec)
    (hd : inSendrec (k.tasks d) = true) (hc : (k.tasks i).call = (k.tasks d).call) : i = d := by
  simp only [inSendrec, Bool.and_eq_true, beq_iff_eq] at hd
  exact hk.distinct i d ⟨hi, Or.inr hon⟩ ⟨hd.1, Or.inr hd.2⟩ hc

/-- Every step that enters no task blindly keeps the invariant, whatever the replies. -/
theorem replyInv_exec (hk : ReplyInv k) {a : Action} (hseq : k.Sequential k.currentTask a)
    (hsee : k.SeesEligible (· = .sendrec) k.currentTask a) : ReplyInv (a.exec k) := by
  have hserves := serves_exec hseq hsee
  have hages := (evolves_exec k a).ages
  have hdel : OnceInv False (a.exec k) := onceInv_exec hk.delivery hseq False.elim
  have hnum : Numbering (a.exec k) := numbering_act hk.numbering k.currentTask a
  refine ⟨hdel, hnum, ?_, ?_, ?_, ?_⟩
  · intro n c t d w hm
    rcases submit_mem_exec hseq hm with hold | ⟨hrun, -, rfl, -⟩
    · exact (hk.known n c t d w hold).trans_le hages.created
    · exact (hk.numbering.numbered _ (active_of_canRun hrun)).1.trans_le hages.created
  · intro n r hm
    rcases reply_mem_exec hseq hm with hold | ⟨-, -, d, -, -, hin, rfl⟩
    · obtain ⟨c, t, d, w, hs⟩ := hk.replied n r hold
      exact ⟨c, t, d, w, hserves.log.subset hs⟩
    · simp only [inSendrec, Bool.and_eq_true, beq_iff_eq] at hin
      exact ⟨_, _, _, _, hserves.log.subset (hk.delivery.sending d ⟨hin.1, Or.inr hin.2⟩)⟩
  · intro n c t d hm hopen i hact hser
    rcases submit_mem_exec hseq hm with hold | ⟨hrun, htame, rfl, hw⟩
    · -- An old request: its task was blocked in it before, and nothing ended the call.
      have hopen' : k.answered n = false := by
        by_contra h
        rw [Bool.not_eq_false] at h
        rw [answered_of_suffix hserves.log h] at hopen
        exact absurd hopen (by simp)
      rcases hages.tasks i hact with ⟨ha, hs, -⟩ | hnew
      · obtain ⟨hb, hon, hcall, hto⟩ := hk.opened n c t d hold hopen' i ha (hs ▸ hser)
        rcases hserves.blocked i ha hb hon hact with ⟨hb', hsame⟩ | hdone
        · exact ⟨hb', hsame.blockedOn.trans hon, hsame.call.trans hcall, hsame.sendTo.trans hto⟩
        · rw [hon, hcall] at hdone
          rw [answered, hdone] at hopen
          exact absurd hopen (by simp)
      · have := hk.known n c t d true hold
        omega
    · -- The new request of the current task.
      have hcur := htame.tasks k.currentTask
      have hcact : ((a.exec k).tasks k.currentTask).active = true :=
        hcur.active.trans (active_of_canRun hrun)
      rw [hnum.serials i k.currentTask hact hcact (hser.trans hcur.serial.symm)]
      exact hw rfl
  · intro i hb hon
    by_contra h
    rw [Bool.not_eq_false, answered_eq_true] at h
    obtain ⟨r, hr⟩ := h
    rcases blocksCurrent_exec hseq i hb with hsame | ⟨rfl, hcall⟩
    · have hon' : (k.tasks i).blockedOn = .sendrec := hsame.blockedOn ▸ hon
      rw [hsame.call] at hr
      rcases reply_mem_exec hseq hr with hold | ⟨destPid, msg, d, rfl, hd, hin, hn⟩
      · have := answered_eq_true.mpr ⟨r, hold⟩
        rw [hk.awaits i hsame.state hon'] at this
        exact absurd this (by simp)
      · -- The task that got the reply is ready.
        obtain rfl := hk.delivery.eq_of_call hsame.state hon' hin hn
        rw [Action.exec, Call.exec, ipcReply_tasks_self hd hin] at hb
        exact absurd hb (by simp)
    · rw [hcall] at hr
      rcases reply_mem_exec hseq hr with hold | ⟨-, -, d, -, -, hin, hn⟩
      · obtain ⟨c, t, d, w, hs⟩ := hk.replied _ r hold
        exact absurd (hk.delivery.bound _ c t d w hs) (lt_irrefl _)
      · simp only [inSendrec, Bool.and_eq_true, beq_iff_eq] at hin
        have hs := hk.delivery.sending d ⟨hin.1, Or.inr hin.2⟩
        have := hk.delivery.bound _ _ _ _ _ hs
        omega

/-! ## All runs -/

/-- The replies that answer a received request: a reply to a task blocked in `ipc_sendrec`
is made by a task that has received a request of it and not answered it. -/
def AnswersRequest (k : Kernel) (c : Slot) : Action → Prop
  | .call (.ipcReply destPid (some _)) => ∀ d, k.findDest destPid = some d →
      inSendrec (k.tasks d) = true → k.holdsRequest (k.tasks c).id (k.tasks d) = true
  | _ => True

instance (k : Kernel) (c : Slot) (a : Action) : Decidable (k.AnswersRequest c a) := by
  unfold AnswersRequest
  split <;> infer_instance

/-- The steps of a run in which replies answer received requests and no tick enters slot 0
blindly while it is blocked in `ipc_sendrec`. -/
def Answering (k : Kernel) (c : Slot) (a : Action) : Prop :=
  k.Sequential c a ∧ k.SeesEligible (· = .sendrec) c a ∧ k.AnswersRequest c a

instance (k : Kernel) (c : Slot) (a : Action) : Decidable (k.Answering c a) :=
  inferInstanceAs (Decidable (_ ∧ _ ∧ _))

/-- The task in slot `c` is the one task `i` called, and it has received the request. -/
def IsCalled (k : Kernel) (c i : Slot) : Prop :=
  (k.tasks c).id = (k.tasks i).sendTo ∧ k.received (k.tasks i).call (k.tasks c).id = true

theorem replyInv_run {kernelPd : UInt32} {ls : List (Slot × Action)}
    (h : Run (StepIf Answering) (boot kernelPd) ls k) : ReplyInv k := by
  refine h.invariant (fun s l t hst hs => ?_) (replyInv_boot kernelPd)
  obtain ⟨⟨hseq, hsee, -⟩, rfl⟩ := hst
  have hs' : ReplyInv (s.onBehalf l.1) :=
    ⟨hs.delivery.congr rfl rfl rfl, ⟨hs.numbering.numbered, hs.numbering.serials,
      hs.numbering.nextPid⟩, hs.known, hs.replied, hs.opened, hs.awaits⟩
  refine replyInv_exec hs' ?_ ?_
  · cases hl : l.2 <;> rw [hl] at hseq <;> exact hseq
  · cases hl : l.2 <;> rw [hl] at hsee <;> exact hsee

/-- An unanswered request that PID `replier` received from a blocked task is the request
the task is blocked in, and it called `replier`. -/
theorem ReplyInv.isCalled (hk : ReplyInv k) {c i : Slot} (hact : (k.tasks i).active = true)
    (h : k.holdsRequest (k.tasks c).id (k.tasks i) = true) : k.IsCalled c i := by
  obtain ⟨n, caller, dest, hsub, hrec, hopen⟩ := holdsRequest_eq_true h
  obtain ⟨-, -, hcall, hto⟩ := hk.opened n caller _ dest hsub hopen i hact rfl
  obtain ⟨m, hm⟩ := received_eq_true.mp hrec
  obtain ⟨caller', t', w', hsub'⟩ := hk.delivery.addressed n _ m hm
  obtain ⟨-, -, -, hdest, -⟩ := Event.submit.inj (hk.delivery.unique _ _ _ _ _ _ _ _ _ hsub hsub')
  refine ⟨?_, ?_⟩
  · rw [hto, hdest]
  · rw [hcall]
    exact hrec

/-- **A task blocked in `ipc_sendrec` goes on only by the reply it waits for.**  In every
run whose replies answer received requests and whose ticks do not resume it blindly: a step
after which a task is no longer blocked in `ipc_sendrec` is an `ipc_reply` by the task it
called, which has received the request; and an `ipc_reply` to it by anyone else fails and
leaves the task as it is. -/
theorem requestReply {kernelPd : UInt32} {ls : List (Slot × Action)}
    (h : Run (StepIf Answering) (boot kernelPd) ls k) {c : Slot} {a : Action}
    (hstep : k.Answering c a) {i : Slot} (hact : (k.tasks i).active = true)
    (hin : inSendrec (k.tasks i) = true) :
    (((k.act c a).tasks i).active = true → ((k.act c a).tasks i).state ≠ .blocked →
      (∃ destPid msg, a = .call (.ipcReply destPid (some msg)) ∧ k.findDest destPid = some i) ∧
        k.IsCalled c i) ∧
    (∀ destPid msg, a = .call (.ipcReply destPid msg) → k.findDest destPid = some i →
      ¬ k.IsCalled c i → ((k.onBehalf c).ipcReply destPid msg).2 ≠ .ret 0 ∧
        (k.act c a).tasks i = k.tasks i) := by
  have hk := replyInv_run h
  obtain ⟨hseq, hsee, hans⟩ := hstep
  have hseq' : (k.onBehalf c).Sequential (k.onBehalf c).currentTask a := by cases a <;> exact hseq
  have hsee' : (k.onBehalf c).SeesEligible (· = .sendrec) (k.onBehalf c).currentTask a := by
    cases a <;> exact hsee
  have hin' := hin
  simp only [inSendrec, Bool.and_eq_true, beq_iff_eq] at hin
  refine ⟨fun hact' hfree => ?_, ?_⟩
  · rcases (serves_exec hseq' hsee').blocked i hact hin.1 hin.2 hact' with ⟨hb, -⟩ | hdone
    · exact absurd hb hfree
    · have hdone' : (a.exec (k.onBehalf c)).answered (k.tasks i).call = true := by
        rw [show ((k.onBehalf c).tasks i).blockedOn = .sendrec from hin.2] at hdone
        exact hdone
      obtain ⟨r, hr⟩ := answered_eq_true.mp hdone'
      rcases reply_mem_exec hseq' hr with hold | ⟨destPid, msg, d, rfl, hd, hind, hcall⟩
      · have := answered_eq_true.mpr ⟨r, hold⟩
        rw [show (k.onBehalf c).answered (k.tasks i).call = false from
          hk.awaits i hin.1 hin.2] at this
        exact absurd this (by simp)
      · obtain rfl := hk.delivery.eq_of_call hin.1 hin.2 hind hcall
        exact ⟨⟨destPid, msg, rfl, hd⟩, hk.isCalled hact (hans i hd hin')⟩
  · rintro destPid msg rfl hd hnot
    cases msg with
    | none => exact ⟨by simp [ipcReply], rfl⟩
    | some msg => exact absurd (hk.isCalled hact (hans i hd hin')) hnot

theorem requestReply_oneRequest :
    ∃ k, Run (StepIf Answering) (boot 0x1000) oneRequest k ∧
      (k.Answering 1 (.call (.ipcReply 2 (some .zero))) ∧ (k.tasks 2).active = true ∧
        inSendrec (k.tasks 2) = true ∧
        ((k.act 1 (.call (.ipcReply 2 (some .zero)))).tasks 2).active = true ∧
        ((k.act 1 (.call (.ipcReply 2 (some .zero)))).tasks 2).state ≠ .blocked) ∧
      k.IsCalled 1 2 := by
  obtain ⟨k, hrun, hk⟩ : ∃ k, Run (StepIf Answering) (boot 0x1000) oneRequest k ∧
      (k.Answering 1 (.call (.ipcReply 2 (some .zero))) ∧ (k.tasks 2).active = true ∧
        inSendrec (k.tasks 2) = true ∧
        ((k.act 1 (.call (.ipcReply 2 (some .zero)))).tasks 2).active = true ∧
        ((k.act 1 (.call (.ipcReply 2 (some .zero)))).tasks 2).state ≠ .blocked) :=
    exists_run_followIf _ (by decide +kernel)
  exact ⟨k, hrun, hk, ((requestReply hrun hk.1 hk.2.1 hk.2.2.1).1 hk.2.2.2.1 hk.2.2.2.2).2⟩

/-- Three tasks; PID 2 makes a request of PID 1, which receives it, and PID 3 runs. -/
def threeTasks : List (Slot × Action) :=
  [(0, .call (.taskCreateUser [] 1 false 0x10000 0x20000 0x30000)),
    (0, .call (.taskCreateUser [] 1 false 0x40000 0x50000 0x60000)),
    (0, .call (.taskCreateUser [] 1 false 0x70000 0x80000 0x90000)),
    (0, .call .taskYield), (0, .irq 0 0x7000),
    (1, .call (.ipcReceive pidAny (some .zero))), (1, .irq 0 0x7100),
    (2, .call (.ipcSendrec 1 (some .zero))), (2, .irq 0 0x7200)]

/-- PID 3 answers the request made of PID 1. -/
theorem answered_by_stranger :
    ∃ k, Run (StepIf fun k c a => k.Scheduled c a ∧ k.Sequential c a) (boot 0x1000) threeTasks k ∧
      k.currentTask = 3 ∧ (k.tasks 3).id = 3 ∧
      ((k.tasks 2).active = true ∧ inSendrec (k.tasks 2) = true ∧ (k.tasks 2).sendTo = 1) ∧
      (k.ipcReply 2 (some .zero)).2 = .ret 0 ∧
      ((k.act 3 (.call (.ipcReply 2 (some .zero)))).tasks 2).state = .ready :=
  exists_run_followIf _ (by decide +kernel)

end Kernel

end Microkernel

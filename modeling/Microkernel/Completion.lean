/-
# How blocked calls end

A blocked IPC call ends by one copy: `ipc_send` when the message is received,
`ipc_receive` when a message or a notification arrives, `ipc_sendrec` when a reply does.
The history records these copies, so "the call has ended" is a statement about the
history.  `Serves p k k'` says that every blocked call whose task survives the step is
still blocked after it or has ended by its copy; it holds for every action but the
ticks that enter slot 0 blindly.
-/
import Microkernel.Quiet
import Microkernel.Evolution

namespace Microkernel

/-- The copies that end call `n` of a task blocked in the given way. -/
def Event.completes (on : BlockedOn) (n : ℕ) (e : Event) : Bool :=
  match on, e with
  | .send, .deliver n' _ _ => n' == n
  | .receive, .deliver _ _ m => m == n
  | .receive, .note _ _ _ _ m => m == n
  | .sendrec, .reply n' _ => n' == n
  | _, _ => false

namespace Kernel

/-- Call `n` has ended by its copy. -/
def completed (k : Kernel) (on : BlockedOn) (n : ℕ) : Bool := k.log.any (Event.completes on n)

/-- The calls blocked in a way that meets `p` stay blocked or have ended by their copy. -/
structure Serves (p : BlockedOn → Prop) (k k' : Kernel) : Prop where
  log : k.log <:+ k'.log
  blocked : ∀ i, (k.tasks i).active = true → (k.tasks i).state = .blocked →
    p (k.tasks i).blockedOn → (k'.tasks i).active = true →
    ((k'.tasks i).state = .blocked ∧ SameCall (k.tasks i) (k'.tasks i)) ∨
      k'.completed (k.tasks i).blockedOn (k.tasks i).call = true

variable {p : BlockedOn → Prop} {k k' k'' : Kernel}

theorem completed_mono (h : k.log <:+ k'.log) {on : BlockedOn} {n : ℕ}
    (hc : k.completed on n = true) : k'.completed on n = true := by
  rw [completed, List.any_eq_true] at hc ⊢
  obtain ⟨e, he, hn⟩ := hc
  exact ⟨e, h.subset he, hn⟩

/-- The latest event ends the calls it is a copy for. -/
theorem completed_record {on : BlockedOn} {n : ℕ} {e : Event} (h : e.completes on n = true) :
    (k.record e).completed on n = true := by
  rw [completed, record_log, List.any_cons, h, Bool.true_or]

namespace Serves

theorem refl (k : Kernel) : Serves p k k :=
  ⟨List.suffix_rfl, fun _ _ hb _ _ => Or.inl ⟨hb, .refl hb⟩⟩

theorem trans (h : Serves p k k') (h' : Serves p k' k'')
    (hact : ∀ i, (k''.tasks i).active = true → (k'.tasks i).active = true) : Serves p k k'' where
  log := h.log.trans h'.log
  blocked := fun i ha hb hp ha'' => by
    rcases h.blocked i ha hb hp (hact i ha'') with ⟨hb', hs⟩ | hc
    · rcases h'.blocked i (hact i ha'') hb' (hs.blockedOn ▸ hp) ha'' with ⟨hb'', hs'⟩ | hc'
      · exact Or.inl ⟨hb'', hs.trans hs'⟩
      · rw [hs.blockedOn, hs.call] at hc'
        exact Or.inr hc'
    · exact Or.inr (completed_mono h'.log hc)

/-- Followed by a step that is tame. -/
theorem trans_tame (h : Serves p k k') (h' : Serves p k' k'') (ht : Tame k' k'') : Serves p k k'' :=
  h.trans h' fun i hi => by
    rw [(ht.tasks i).active] at hi
    exact hi

theorem of_quiet (h : Quiet k k') : Serves p k k' where
  log := by
    obtain ⟨es, hes, -⟩ := h.log
    exact ⟨es, hes.symm⟩
  blocked := fun i ha hb _ ha' => by
    rcases h.keeps i ha (by simp [inWait, hb]) with hs | hd
    · have hb' : (k'.tasks i).state = .blocked := hs.state.trans hb
      exact Or.inl ⟨hb', h.blocked i hb'⟩
    · rw [ha'] at hd
      exact absurd hd (by simp)

/-- Only the history and other variables change. -/
theorem of_tasks_eq (ht : k'.tasks = k.tasks) (hl : k.log <:+ k'.log) : Serves p k k' where
  log := hl
  blocked := fun i _ hb _ _ => by
    rw [ht]
    exact Or.inl ⟨hb, .refl hb⟩

theorem record (e : Event) : Serves p k (k.record e) :=
  of_tasks_eq rfl (List.suffix_cons _ _)

/-- Overwriting an entry whose call, if it is blocked in one, has ended or goes on. -/
theorem setTask {i : Slot} {t : Task}
    (h : (k.tasks i).state = .blocked → (t.state = .blocked ∧ SameCall (k.tasks i) t) ∨
      k.completed (k.tasks i).blockedOn (k.tasks i).call = true) : Serves p k (k.setTask i t) := by
  refine ⟨List.suffix_rfl, fun j _ hb _ _ => ?_⟩
  by_cases hj : j = i
  · subst hj
    rw [setTask_tasks, Function.update_self]
    exact h hb
  · rw [setTask_tasks, Function.update_of_ne hj]
    exact Or.inl ⟨hb, .refl hb⟩

end Serves

/-! ## The parts of the calls -/

theorem serves_beginCall (hcur : k.current.state ≠ .blocked) : Serves p k k.beginCall := by
  have h : Serves p k (k.setTask k.currentTask { k.current with call := k.calls }) :=
    .setTask fun hb => absurd hb hcur
  exact h.trans (.of_tasks_eq rfl List.suffix_rfl) fun _ h => h

theorem serves_submit (hcur : k.current.state ≠ .blocked) (destPid : UInt32) (awaits : Bool) :
    Serves p k (k.submit destPid awaits) := by
  refine (serves_beginCall hcur).trans ?_ fun _ h => h
  exact .of_tasks_eq rfl (List.suffix_cons _ _)

/-- Filling the buffer of a task whose call has ended by a recorded copy. -/
theorem serves_fillBuffer {d : Slot} {msg : Message}
    (h : k.completed (k.tasks d).blockedOn (k.tasks d).call = true) :
    Serves p k (k.fillBuffer d msg) :=
  .setTask fun _ => Or.inr h

theorem serves_deliverNow {d : Slot} (hd : inReceive (k.tasks d) = true) (msg : Message) :
    Serves p k (k.deliverNow d msg) := by
  refine (Serves.record _).trans_tame (serves_fillBuffer ?_) (tame_fillBuffer _ _ _)
  simp only [inReceive, Bool.and_eq_true, beq_iff_eq] at hd
  refine completed_record ?_
  rw [record_tasks, hd.2]
  simp [Event.completes]

theorem serves_blockSending (hcur : k.current.state ≠ .blocked) (on : BlockedOn)
    (destPid : UInt32) (msg : Message) : Serves p k (k.blockSending on destPid msg) :=
  (Serves.setTask fun hb => absurd hb hcur).trans_tame (.of_quiet (quiet_taskYield _))
    (tame_taskYield _)

theorem serves_blockReceiving (hcur : k.current.state ≠ .blocked) (fromPid : UInt32)
    (msg : Message) : Serves p k (k.blockReceiving fromPid msg) :=
  (Serves.setTask fun hb => absurd hb hcur).trans_tame (.of_quiet (quiet_taskYield _))
    (tame_taskYield _)

theorem serves_takeNotification (hcur : k.current.state ≠ .blocked) :
    Serves p k k.takeNotification := by
  have h : Serves p k (k.setTask k.currentTask
      { k.current with msgBuf := k.notifyMsg (notifyIndex k.current.id) }) :=
    .setTask fun hb => absurd hb hcur
  exact h.trans (.of_tasks_eq rfl (List.suffix_cons _ _)) fun _ h => h

theorem serves_takeMessage (hcur : k.current.state ≠ .blocked) {s : Slot}
    (hb : (k.tasks s).state = .blocked)
    (hon : (k.tasks s).blockedOn = .send ∨ (k.tasks s).blockedOn = .sendrec) :
    Serves p k (k.takeMessage s) := by
  have hne : s ≠ k.currentTask := by
    rintro rfl
    exact hcur hb
  refine ⟨by rw [takeMessage_log]; exact List.suffix_cons _ _, fun i _ hbi _ _ => ?_⟩
  by_cases hc : i = k.currentTask
  · subst hc
    exact absurd hbi hcur
  · by_cases his : i = s
    · subst his
      rw [takeMessage_tasks_sender hne]
      split_ifs with hrec
      · exact Or.inl ⟨rfl, hb, rfl, rfl, rfl, hrec.symm, rfl, rfl, rfl⟩
      · -- The delivery ends the `ipc_send`.
        right
        rw [hon.resolve_right hrec, completed, takeMessage_log]
        simp [Event.completes]
    · rw [takeMessage_tasks_other hc his]
      exact Or.inl ⟨hbi, .refl hbi⟩

/-! ## The calls -/

theorem serves_ipcSend (hcur : k.current.state ≠ .blocked) (destPid : UInt32)
    (msg : Option Message) : Serves p k (k.ipcSend destPid msg).1 := by
  unfold ipcSend
  split
  · exact .refl k
  · split
    · exact .refl k
    · have hs : Serves p k _ := serves_submit hcur destPid false
      have hcur' : (k.submit destPid false).current.state ≠ .blocked := by
        simpa [submit, beginCall, current, record, countMessage] using hcur
      dsimp only
      split_ifs with hacc
      · simp only [acceptsFrom, Bool.and_eq_true] at hacc
        exact hs.trans_tame (serves_deliverNow hacc.1 _) (tame_deliverNow _ _ _)
      · exact hs.trans_tame (serves_blockSending hcur' _ _ _) (tame_blockSending _ _ _ _)

theorem serves_ipcSendrec (hcur : k.current.state ≠ .blocked) (destPid : UInt32)
    (msg : Option Message) : Serves p k (k.ipcSendrec destPid msg).1 := by
  unfold ipcSendrec
  split
  · exact .refl k
  · split
    · exact .refl k
    · rename_i d hd
      have hs : Serves p k _ := serves_submit hcur destPid true
      have hcur' : (k.submit destPid true).current.state ≠ .blocked := by
        simpa [submit, beginCall, current, record, countMessage] using hcur
      dsimp only
      split_ifs with hacc
      · simp only [acceptsFrom, Bool.and_eq_true] at hacc
        have hdel := hs.trans_tame (serves_deliverNow hacc.1
          { (‹Message› : Message) with sender := k.current.id }) (tame_deliverNow _ _ _)
        refine hdel.trans_tame (serves_blockSending ?_ _ _ _) (tame_blockSending _ _ _ _)
        by_cases h : k.currentTask = d
        · simp [deliverNow, fillBuffer, current, submit, record, countMessage, beginCall, h]
        · simpa [deliverNow, fillBuffer, current, submit, record, countMessage, beginCall, h]
            using hcur
      · exact hs.trans_tame (serves_blockSending hcur' _ _ _) (tame_blockSending _ _ _ _)

theorem serves_ipcReceive (hcur : k.current.state ≠ .blocked) (fromPid : UInt32)
    (msg : Option Message) : Serves p k (k.ipcReceive fromPid msg).1 := by
  have hcur' : k.beginCall.current.state ≠ .blocked := by simpa [beginCall, current] using hcur
  unfold ipcReceive
  split
  · exact .refl k
  · dsimp only
    have hb : Serves p k _ := serves_beginCall hcur
    split_ifs
    · exact hb.trans_tame (serves_takeNotification hcur') (tame_takeNotification _)
    · split
      · rename_i s hs
        have hs' := List.find?_some hs
        simp only [isBlockedSender, Bool.and_eq_true, Bool.or_eq_true, beq_iff_eq] at hs'
        obtain ⟨⟨⟨⟨-, hstate⟩, hon⟩, -⟩, -⟩ := hs'
        exact hb.trans_tame (serves_takeMessage hcur' hstate hon) (tame_takeMessage _ _)
      · exact hb.trans_tame (serves_blockReceiving hcur' _ _) (tame_blockReceiving _ _ _)

theorem serves_ipcReply (destPid : UInt32) (msg : Option Message) :
    Serves p k (k.ipcReply destPid msg).1 := by
  unfold ipcReply
  split
  · exact .refl k
  · split
    · exact .refl k
    · split_ifs with hin
      · rename_i msg d hd
        simp only [inSendrec, Bool.and_eq_true, beq_iff_eq] at hin
        have hrec : Serves p k (k.record (.reply (k.tasks d).call k.current.id)) := .record _
        refine (hrec.trans_tame (serves_fillBuffer ?_) (tame_fillBuffer _ d _)).trans_tame
          (.of_tasks_eq rfl List.suffix_rfl) (tame_countMessage _)
        refine completed_record ?_
        rw [record_tasks, hin.2]
        simp [Event.completes]
      · exact .refl k

theorem serves_ipcNotify (destPid : UInt32) (msg : Message) :
    Serves p k (k.ipcNotify destPid msg).1 := by
  unfold ipcNotify
  split
  · exact .refl k
  · dsimp only
    have hc : Serves p k k.countMessage := .of_tasks_eq rfl List.suffix_rfl
    split_ifs with hin
    · simp only [inReceive, Bool.and_eq_true, beq_iff_eq] at hin
      refine (hc.trans_tame (.record _) (tame_record _ _)).trans_tame (serves_fillBuffer ?_)
        (tame_fillBuffer _ _ _)
      refine completed_record ?_
      rw [record_tasks, hin.2]
      simp [Event.completes]
    · exact hc.trans_tame (.of_tasks_eq rfl List.suffix_rfl)
        (.of_tasks_eq rfl rfl rfl rfl rfl rfl rfl rfl)

/-! ## All actions -/

theorem serves_exec_call {c : Call} (hrun : canRun k.current = true) :
    Serves p k (c.exec k).1 := by
  have hcur := state_ne_blocked_of_canRun hrun
  cases hc : isIpc c with
  | false => exact .of_quiet (quiet_exec hc (inWait_eq_false_of_canRun hrun))
  | true =>
    cases c with
    | ipcSend d m => exact serves_ipcSend hcur d m
    | ipcReceive f m => exact serves_ipcReceive hcur f m
    | ipcSendrec d m => exact serves_ipcSendrec hcur d m
    | ipcReply d m => exact serves_ipcReply d m
    | ipcNotify d m => exact serves_ipcNotify d m
    | _ => exact absurd hc (by simp [isIpc])

/-- The ticks that do not enter slot 0 blindly while it is blocked in a way that meets
`p`. -/
def SeesEligible (p : BlockedOn → Prop) (k : Kernel) (c : Slot) : Action → Prop
  | .irq n _ => n = 0 → (k.tasks 0).state = .blocked → p (k.tasks 0).blockedOn →
      (k.onBehalf c).TickFinds
  | .call _ => True

instance (p : BlockedOn → Prop) [DecidablePred p] (k : Kernel) (c : Slot) :
    (a : Action) → Decidable (k.SeesEligible p c a)
  | .irq _ _ => inferInstanceAs (Decidable (_ → _ → _ → _))
  | .call _ => inferInstanceAs (Decidable True)

theorem serves_timerCallback (regs : UInt32) (hf : (k.tasks 0).state = .blocked →
    p (k.tasks 0).blockedOn → k.TickFinds) : Serves p k (k.timerCallback regs) where
  log := by
    obtain ⟨es, hes, -⟩ := (calm_timerCallback regs : Calm k _).log
    exact ⟨es, hes.symm⟩
  blocked := fun i _ hb hp _ => by
    rcases timerCallback_blocked regs hb with hb' | ⟨rfl, hblind⟩
    · exact Or.inl ⟨hb', (calm_timerCallback regs).blocked i hb'⟩
    · exact absurd (hf hb hp) hblind

theorem serves_routeIrq (irq : Fin 16) : Serves p k (k.routeIrq irq) := by
  unfold routeIrq
  dsimp only
  split_ifs
  · exact serves_ipcNotify _ _
  · exact .refl k

theorem serves_irqHandler (irq : Fin 16) (regs : UInt32) (hf : irq = 0 →
    (k.tasks 0).state = .blocked → p (k.tasks 0).blockedOn → k.TickFinds) :
    Serves p k (k.irqHandler irq regs).1 := by
  have htick : Serves p k (if irq = 0 then k.timerCallback regs else k) := by
    split_ifs with h
    · exact serves_timerCallback regs (hf h)
    · exact .refl k
  refine (htick.trans_tame (serves_routeIrq irq) (tame_routeIrq _ _)).trans
    (.of_quiet quiet_taskPreemptCheck) fun i hi => ?_
  rw [← taskPreemptCheck_tasks]
  exact hi

/-- **Blocked calls end by their copies**, in every step that does not enter slot 0
blindly. -/
theorem serves_exec {a : Action} (hseq : k.Sequential k.currentTask a)
    (hsee : k.SeesEligible p k.currentTask a) : Serves p k (a.exec k) := by
  cases a with
  | call cl => exact serves_exec_call hseq
  | irq n regs => exact serves_irqHandler n regs hsee

end Kernel

end Microkernel

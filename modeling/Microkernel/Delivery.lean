/-
# Delivery of requests

When is the message of an `ipc_send` or `ipc_sendrec` call delivered at most once, and
only to the PID it was addressed to.  The history numbers the calls, so this is a
statement about the `deliver` events of a run.

The addressing holds in every run.  That a message is delivered once does not:
`find_blocked_sender` cannot tell a sender whose request was received and awaits its
reply from one whose request is still to be received, so a second `ipc_receive` before
the reply copies the request again.  In the runs without such a receive every message is
delivered at most once.
-/
import Microkernel.Quiet

namespace Microkernel

/-- The deliveries of call `n`. -/
def Event.delivers (n : ℕ) : Event → Bool
  | .deliver n' _ _ => n' == n
  | _ => false

/-- The submission of the call the task is blocked in. -/
def Task.submission (t : Task) : Event :=
  .submit t.call t.id t.serial t.sendTo (t.blockedOn == .sendrec)

namespace Kernel

/-- How often the message of call `n` was copied into a receiver's buffer. -/
def deliveries (k : Kernel) (n : ℕ) : ℕ := k.log.countP (Event.delivers n)

/-- The task is blocked in `ipc_send` or `ipc_sendrec`. -/
def IsSending (t : Task) : Prop :=
  t.state = .blocked ∧ (t.blockedOn = .send ∨ t.blockedOn = .sendrec)

instance (t : Task) : Decidable (IsSending t) := inferInstanceAs (Decidable (_ ∧ _))

/-- The invariant: every delivery is of a submitted message to its addressee, and a task
blocked in a send holds the submitted message of its own call.  The strict form, kept by
the runs that take no request twice, says that the delivery is the only one. -/
structure OnceInv (strict : Prop) (k : Kernel) : Prop where
  bound : ∀ n c t d w, .submit n c t d w ∈ k.log → n < k.calls
  unique : ∀ n c t d w c' t' d' w', .submit n c t d w ∈ k.log → .submit n c' t' d' w' ∈ k.log →
    Event.submit n c t d w = .submit n c' t' d' w'
  addressed : ∀ n r m, .deliver n r m ∈ k.log → ∃ c t w, .submit n c t r w ∈ k.log
  once : strict → ∀ n, k.deliveries n ≤ 1
  sending : ∀ i, IsSending (k.tasks i) → (k.tasks i).submission ∈ k.log
  fresh : strict → ∀ i, (k.tasks i).state = .blocked → (k.tasks i).blockedOn = .send →
    k.deliveries (k.tasks i).call = 0
  distinct : ∀ i j, IsSending (k.tasks i) → IsSending (k.tasks j) →
    (k.tasks i).call = (k.tasks j).call → i = j

variable {strict : Prop} {k k' : Kernel}

theorem deliveries_eq_zero {n : ℕ} : k.deliveries n = 0 ↔ ∀ r m, .deliver n r m ∉ k.log := by
  rw [deliveries, List.countP_eq_zero]
  constructor
  · intro h r m hmem
    exact h _ hmem (by simp [Event.delivers])
  · intro h e he hd
    cases e with
    | deliver n' r m =>
      obtain rfl : n' = n := by simpa [Event.delivers] using hd
      exact h r m he
    | _ => exact absurd hd (by simp [Event.delivers])

/-- A message that was not submitted was not delivered. -/
theorem OnceInv.deliveries_of_not_submitted (hk : OnceInv strict k) {n : ℕ}
    (h : ∀ c t d w, .submit n c t d w ∉ k.log) : k.deliveries n = 0 := by
  rw [deliveries_eq_zero]
  intro r m hmem
  obtain ⟨c, t, w, hc⟩ := hk.addressed n r m hmem
  exact h c t r w hc

/-! ## The parts of a step -/

theorem Calm.isSending (h : Calm k k') {i : Slot} (hi : IsSending (k'.tasks i)) :
    IsSending (k.tasks i) ∧ SameCall (k.tasks i) (k'.tasks i) := by
  have hs := h.blocked i hi.1
  refine ⟨⟨hs.state, ?_⟩, hs⟩
  rw [← hs.blockedOn]
  exact hi.2

theorem SameCall.submission {t t' : Task} (h : SameCall t t') : t'.submission = t.submission := by
  rw [Task.submission, h.call, h.id, h.serial, h.sendTo, h.blockedOn, Task.submission]

theorem Calm.deliveries (h : Calm k k') (n : ℕ) : k'.deliveries n = k.deliveries n := by
  obtain ⟨es, hes, hcalm⟩ := h.log
  rw [Kernel.deliveries, hes, List.countP_append, Kernel.deliveries, Nat.add_eq_right,
    List.countP_eq_zero]
  intro e he hd
  have hc := hcalm e he
  cases e with
  | deliver n' r m => exact absurd hc (by simp [Event.isCalm])
  | _ => exact absurd hd (by simp [Event.delivers])

/-- Calm steps keep the invariant. -/
theorem OnceInv.of_calm (hk : OnceInv strict k) (h : Calm k k') : OnceInv strict k' where
  bound := fun n c t d w hm => by
    rw [h.mem_log rfl] at hm
    exact (hk.bound n c t d w hm).trans_le h.calls
  unique := fun n c t d w c' t' d' w' hm hm' => by
    rw [h.mem_log rfl] at hm hm'
    exact hk.unique n c t d w c' t' d' w' hm hm'
  addressed := fun n r m hm => by
    rw [h.mem_log rfl] at hm
    obtain ⟨c, t, w, hc⟩ := hk.addressed n r m hm
    exact ⟨c, t, w, (h.mem_log rfl).mpr hc⟩
  once := fun hstrict n => by
    rw [h.deliveries]
    exact hk.once hstrict n
  sending := fun i hi => by
    obtain ⟨hi', hs⟩ := h.isSending hi
    rw [hs.submission, h.mem_log rfl]
    exact hk.sending i hi'
  fresh := fun hstrict i hb hon => by
    have hs := h.blocked i hb
    rw [hs.call, h.deliveries]
    exact hk.fresh hstrict i hs.state (hs.blockedOn ▸ hon)
  distinct := fun i j hi hj hc => by
    obtain ⟨hi', hs⟩ := h.isSending hi
    obtain ⟨hj', hs'⟩ := h.isSending hj
    rw [hs.call, hs'.call] at hc
    exact hk.distinct i j hi' hj' hc

/-- Overwriting an entry by one that is not blocked in a send. -/
theorem OnceInv.setTask (hk : OnceInv strict k) (i : Slot) {t : Task} (ht : ¬ IsSending t) :
    OnceInv strict (k.setTask i t) := by
  have hne : ∀ j, IsSending ((k.setTask i t).tasks j) → j ≠ i := by
    rintro j hj rfl
    rw [setTask_tasks, Function.update_self] at hj
    exact ht hj
  have hsame : ∀ j, IsSending ((k.setTask i t).tasks j) →
      (k.setTask i t).tasks j = k.tasks j := by
    intro j hj
    rw [setTask_tasks, Function.update_of_ne (hne j hj)]
  refine ⟨hk.bound, hk.unique, hk.addressed, hk.once, fun j hj => ?_,
    fun hstrict j hb hon => ?_, fun j l hj hl hc => ?_⟩
  · have he := hsame j hj
    rw [he] at hj ⊢
    exact hk.sending j hj
  · have he := hsame j ⟨hb, Or.inl hon⟩
    rw [he] at hb hon ⊢
    exact hk.fresh hstrict j hb hon
  · have he := hsame j hj
    have he' := hsame l hl
    rw [he] at hj hc
    rw [he'] at hl hc
    exact hk.distinct j l hj hl hc

/-- The invariant is about the tasks, the number of calls and the history. -/
theorem OnceInv.congr (hk : OnceInv strict k) (ht : k'.tasks = k.tasks) (hc : k'.calls = k.calls)
    (hl : k'.log = k.log) : OnceInv strict k' := by
  have hcount : ∀ n, k'.deliveries n = k.deliveries n := by
    intro n
    rw [Kernel.deliveries, Kernel.deliveries, hl]
  refine ⟨?_, ?_, ?_, ?_, ?_, ?_, ?_⟩
  · rw [hl, hc]
    exact hk.bound
  · rw [hl]
    exact hk.unique
  · rw [hl]
    exact hk.addressed
  · intro hstrict n
    rw [hcount]
    exact hk.once hstrict n
  · rw [ht, hl]
    exact hk.sending
  · intro hstrict i
    rw [ht, hcount]
    exact hk.fresh hstrict i
  · rw [ht]
    exact hk.distinct

/-- The invariant only looks at submissions and deliveries. -/
theorem OnceInv.record (hk : OnceInv strict k) {e : Event}
    (hs : ∀ n c t d w, e ≠ .submit n c t d w) (hd : ∀ n r m, e ≠ .deliver n r m) :
    OnceInv strict (k.record e) := by
  have hcount : ∀ n, (k.record e).deliveries n = k.deliveries n := by
    intro n
    rw [deliveries, record_log, List.countP_cons_of_neg, deliveries]
    cases e with
    | deliver n' r m => exact absurd rfl (hd n' r m)
    | _ => simp [Event.delivers]
  have hsub : ∀ {n c t d w}, .submit n c t d w ∈ (k.record e).log ↔
      .submit n c t d w ∈ k.log := by
    intro n c t d w
    rw [record_log, List.mem_cons]
    exact or_iff_right (hs n c t d w).symm
  refine ⟨?_, ?_, ?_, ?_, ?_, ?_, hk.distinct⟩
  · exact fun n c t d w hm => hk.bound n c t d w (hsub.mp hm)
  · exact fun n c t d w c' t' d' w' hm hm' =>
      hk.unique n c t d w c' t' d' w' (hsub.mp hm) (hsub.mp hm')
  · intro n r m hm
    rw [record_log, List.mem_cons] at hm
    obtain ⟨c, t, w, hc⟩ := hk.addressed n r m (hm.resolve_left (hd n r m).symm)
    exact ⟨c, t, w, hsub.mpr hc⟩
  · intro hstrict n
    rw [hcount]
    exact hk.once hstrict n
  · exact fun i hi => hsub.mpr (hk.sending i hi)
  · intro hstrict i hb hon
    rw [hcount]
    exact hk.fresh hstrict i hb hon

/-- Recording the submission of a call with a new number. -/
theorem OnceInv.record_submit (hk : OnceInv strict k) {n t : ℕ} {c d : UInt32} {w : Bool}
    (hn : n < k.calls) (hnew : ∀ c' t' d' w', .submit n c' t' d' w' ∉ k.log) :
    OnceInv strict (k.record (.submit n c t d w)) := by
  have hcount : ∀ n', (k.record (.submit n c t d w)).deliveries n' = k.deliveries n' := by
    intro n'
    rw [deliveries, record_log, List.countP_cons_of_neg (by simp [Event.delivers]), deliveries]
  refine ⟨?_, ?_, ?_, ?_, ?_, ?_, hk.distinct⟩
  · intro n' c' t' d' w' hm
    rcases List.mem_cons.mp hm with he | hm
    · obtain ⟨rfl, -⟩ := Event.submit.inj he
      exact hn
    · exact hk.bound n' c' t' d' w' hm
  · intro n' c' t' d' w' c'' t'' d'' w'' hm hm'
    rcases List.mem_cons.mp hm with he | hold <;> rcases List.mem_cons.mp hm' with he' | hold'
    · exact he.trans he'.symm
    · obtain ⟨rfl, -⟩ := Event.submit.inj he
      exact absurd hold' (hnew _ _ _ _)
    · obtain ⟨rfl, -⟩ := Event.submit.inj he'
      exact absurd hold (hnew _ _ _ _)
    · exact hk.unique n' c' t' d' w' c'' t'' d'' w'' hold hold'
  · intro n' r m hm
    have hm' : Event.deliver n' r m ∈ k.log := by simpa using hm
    obtain ⟨c', t', w', hc'⟩ := hk.addressed n' r m hm'
    exact ⟨c', t', w', List.mem_cons_of_mem _ hc'⟩
  · intro hstrict n'
    rw [hcount]
    exact hk.once hstrict n'
  · exact fun i hi => List.mem_cons_of_mem _ (hk.sending i hi)
  · intro hstrict i hb hon
    rw [hcount]
    exact hk.fresh hstrict i hb hon

/-- Recording a delivery of a submitted message to its addressee, the first one in the
strict form. -/
theorem OnceInv.record_deliver (hk : OnceInv strict k) {n m t : ℕ} {c r : UInt32} {w : Bool}
    (hsub : .submit n c t r w ∈ k.log) (hzero : strict → k.deliveries n = 0)
    (hfree : ∀ i, (k.tasks i).state = .blocked → (k.tasks i).blockedOn = .send →
      (k.tasks i).call ≠ n) : OnceInv strict (k.record (.deliver n r m)) := by
  have hcount : ∀ n', n' ≠ n → (k.record (.deliver n r m)).deliveries n' = k.deliveries n' := by
    intro n' hn
    rw [deliveries, record_log, List.countP_cons_of_neg (by simp [Event.delivers, hn.symm]),
      deliveries]
  have hlog : ∀ {n' c' t' d' w'}, .submit n' c' t' d' w' ∈ (k.record (.deliver n r m)).log ↔
      .submit n' c' t' d' w' ∈ k.log := by simp
  refine ⟨?_, ?_, ?_, ?_, ?_, ?_, hk.distinct⟩
  · exact fun n' c' t' d' w' hm => hk.bound n' c' t' d' w' (hlog.mp hm)
  · exact fun n' c' t' d' w' c'' t'' d'' w'' hm hm' =>
      hk.unique n' c' t' d' w' c'' t'' d'' w'' (hlog.mp hm) (hlog.mp hm')
  · intro n' r' m' hm
    rcases List.mem_cons.mp hm with he | hm
    · obtain ⟨rfl, rfl, -⟩ := Event.deliver.inj he
      exact ⟨c, t, w, hlog.mpr hsub⟩
    · obtain ⟨c', t', w', hc'⟩ := hk.addressed n' r' m' hm
      exact ⟨c', t', w', hlog.mpr hc'⟩
  · intro hstrict n'
    by_cases hn : n' = n
    · subst hn
      have h0 := hzero hstrict
      rw [deliveries, record_log, List.countP_cons_of_pos (by simp [Event.delivers])]
      rw [deliveries] at h0
      omega
    · rw [hcount n' hn]
      exact hk.once hstrict n'
  · exact fun i hi => hlog.mpr (hk.sending i hi)
  · intro hstrict i hb hon
    have hne : (k.tasks i).call ≠ n := hfree i hb hon
    rw [record_tasks, hcount _ hne]
    exact hk.fresh hstrict i hb hon

/-- Blocking the current task in a send whose submission is recorded and whose number no
blocked sender has. -/
theorem OnceInv.blockSending (hk : OnceInv strict k) {on : BlockedOn} {destPid : UInt32}
    {msg : Message}
    (hsub : .submit k.current.call k.current.id k.current.serial destPid (on == .sendrec) ∈ k.log)
    (hfree : ∀ i, IsSending (k.tasks i) → (k.tasks i).call ≠ k.current.call)
    (hzero : strict → on = .send → k.deliveries k.current.call = 0) :
    OnceInv strict (k.blockSending on destPid msg) := by
  refine OnceInv.of_calm (k := k.setTask k.currentTask { k.current with
    state := .blocked, blockedOn := on, sendTo := destPid, msgBuf := msg }) ?_
    (quiet_taskYield _).toCalm
  refine ⟨hk.bound, hk.unique, hk.addressed, hk.once, ?_, ?_, ?_⟩
  · intro i hi
    by_cases h : i = k.currentTask
    · subst h
      simpa [Task.submission] using hsub
    · rw [setTask_tasks, Function.update_of_ne h] at hi ⊢
      exact hk.sending i hi
  · intro hstrict i hb hon
    by_cases h : i = k.currentTask
    · subst h
      rw [setTask_tasks, Function.update_self] at hon ⊢
      exact hzero hstrict hon
    · rw [setTask_tasks, Function.update_of_ne h] at hb hon ⊢
      exact hk.fresh hstrict i hb hon
  · intro i j hi hj hc
    by_cases h : i = k.currentTask <;> by_cases h' : j = k.currentTask
    · rw [h, h']
    · rw [setTask_tasks, Function.update_of_ne h'] at hj hc
      rw [h, Function.update_self] at hc
      exact absurd hc.symm (hfree j hj)
    · rw [setTask_tasks, Function.update_of_ne h] at hi hc
      rw [h', Function.update_self] at hc
      exact absurd hc (hfree i hi)
    · rw [setTask_tasks, Function.update_of_ne h] at hi hc
      rw [setTask_tasks, Function.update_of_ne h'] at hj
      rw [Function.update_of_ne h'] at hc
      exact hk.distinct i j hi hj hc

/-! ## The calls -/

/-- The current task has a recorded submission that no blocked task holds. -/
structure Submitted (k : Kernel) (destPid : UInt32) (awaits : Bool) : Prop where
  event : .submit k.current.call k.current.id k.current.serial destPid awaits ∈ k.log
  free : ∀ i, IsSending (k.tasks i) → (k.tasks i).call ≠ k.current.call

/-- After the common start of `ipc_send` and `ipc_sendrec` the current task has a
submission that nobody received. -/
theorem OnceInv.submit (hk : OnceInv strict k) (hcur : k.current.state ≠ .blocked)
    (destPid : UInt32) (awaits : Bool) :
    OnceInv strict (k.submit destPid awaits) ∧ Submitted (k.submit destPid awaits) destPid awaits ∧
      (k.submit destPid awaits).deliveries (k.submit destPid awaits).current.call = 0 := by
  have hb : OnceInv strict k.beginCall := hk.of_calm (calm_beginCall hcur)
  have hcall : k.beginCall.current.call = k.calls ∧ k.beginCall.current.id = k.current.id ∧
      k.beginCall.current.serial = k.current.serial := by simp [beginCall, current]
  have hnew : ∀ c t d w, .submit k.calls c t d w ∉ k.beginCall.log := by
    intro c t d w hm
    exact absurd (hk.bound _ c t d w hm) (lt_irrefl _)
  have hs : OnceInv strict (k.beginCall.record
      (.submit k.calls k.current.id k.current.serial destPid awaits)) :=
    hb.record_submit (Nat.lt_succ_self _) hnew
  refine ⟨hs.of_calm calm_countMessage, ⟨?_, fun i hi => ?_⟩, ?_⟩
  · show Event.submit k.beginCall.current.call k.beginCall.current.id
      k.beginCall.current.serial destPid awaits ∈ _ :: k.log
    rw [hcall.1, hcall.2.1, hcall.2.2]
    exact List.mem_cons_self
  · show (k.beginCall.tasks i).call ≠ k.beginCall.current.call
    rw [hcall.1]
    intro he
    have hev := hb.sending i hi
    rw [Task.submission, he] at hev
    exact hnew _ _ _ _ hev
  · show (Event.submit k.calls k.current.id k.current.serial destPid awaits :: k.log).countP
      (Event.delivers k.beginCall.current.call) = 0
    rw [hcall.1, List.countP_cons_of_neg (by simp [Event.delivers])]
    exact hb.deliveries_of_not_submitted hnew

/-- Delivering the current task's submission to its addressee. -/
theorem OnceInv.deliverNow (hk : OnceInv strict k) {destPid : UInt32} {awaits : Bool}
    (hsub : Submitted k destPid awaits) (hzero : k.deliveries k.current.call = 0) {d : Slot}
    (hd : (k.tasks d).id = destPid) (msg : Message) :
    OnceInv strict (k.deliverNow d msg) ∧ Submitted (k.deliverNow d msg) destPid awaits := by
  have hr : OnceInv strict
      (k.record (.deliver k.current.call (k.tasks d).id (k.tasks d).call)) := by
    rw [hd]
    exact hk.record_deliver hsub.event (fun _ => hzero)
      fun i hb hon => hsub.free i ⟨hb, Or.inl hon⟩
  have hcalm : Calm (k.record (.deliver k.current.call (k.tasks d).id (k.tasks d).call))
      (k.deliverNow d msg) := calm_fillBuffer d msg
  have hcur : (k.deliverNow d msg).current.call = k.current.call ∧
      (k.deliverNow d msg).current.id = k.current.id ∧
      (k.deliverNow d msg).current.serial = k.current.serial := by
    by_cases h : k.currentTask = d <;> simp [Kernel.deliverNow, fillBuffer, current, h]
  refine ⟨hr.of_calm hcalm, ?_, fun i hi => ?_⟩
  · rw [hcur.1, hcur.2.1, hcur.2.2, hcalm.mem_log rfl]
    exact List.mem_cons_of_mem _ hsub.event
  · obtain ⟨hi', hs⟩ := hcalm.isSending hi
    rw [hs.call, hcur.1]
    exact hsub.free i hi'

/-- A submission changes no PID. -/
theorem submit_tasks_id (destPid : UInt32) (awaits : Bool) (i : Slot) :
    ((k.submit destPid awaits).tasks i).id = (k.tasks i).id :=
  ((tame_submit k destPid awaits).tasks i).id

/-- The lookup of the destination finds a task with the PID. -/
theorem findDest_eq_some {destPid : UInt32} {d : Slot} (h : k.findDest destPid = some d) :
    (k.tasks d).active = true ∧ (k.tasks d).id = destPid := by
  rw [findDest, Option.filter_eq_some_iff] at h
  exact taskGetByPid_eq_some h.1

theorem onceInv_ipcSend (hk : OnceInv strict k) (hcur : k.current.state ≠ .blocked)
    (destPid : UInt32) (msg : Option Message) : OnceInv strict (k.ipcSend destPid msg).1 := by
  unfold ipcSend
  split
  · exact hk
  · split
    · exact hk
    · rename_i d hd
      obtain ⟨hs, hsub, hzero⟩ := hk.submit hcur destPid false
      have hid : ((k.submit destPid false).tasks d).id = destPid :=
        (submit_tasks_id destPid false d).trans (findDest_eq_some hd).2
      dsimp only
      split_ifs
      · exact (hs.deliverNow hsub hzero hid _).1
      · exact hs.blockSending hsub.event hsub.free fun _ _ => hzero

theorem onceInv_ipcSendrec (hk : OnceInv strict k) (hcur : k.current.state ≠ .blocked)
    (destPid : UInt32) (msg : Option Message) : OnceInv strict (k.ipcSendrec destPid msg).1 := by
  unfold ipcSendrec
  split
  · exact hk
  · split
    · exact hk
    · rename_i d hd
      obtain ⟨hs, hsub, hzero⟩ := hk.submit hcur destPid true
      have hid : ((k.submit destPid true).tasks d).id = destPid :=
        (submit_tasks_id destPid true d).trans (findDest_eq_some hd).2
      dsimp only
      split_ifs
      · obtain ⟨hs', hsub'⟩ := hs.deliverNow hsub hzero hid
          { (‹Message› : Message) with sender := k.current.id }
        exact hs'.blockSending hsub'.event hsub'.free (by simp)
      · exact hs.blockSending hsub.event hsub.free (by simp)

theorem onceInv_ipcReply (hk : OnceInv strict k) (destPid : UInt32) (msg : Option Message) :
    OnceInv strict (k.ipcReply destPid msg).1 := by
  unfold ipcReply
  split
  · exact hk
  · split
    · exact hk
    · split_ifs
      · have hr := hk.record (e := .reply (k.tasks ‹Slot›).call k.current.id) (by simp) (by simp)
        exact (hr.of_calm (calm_fillBuffer _ _)).of_calm calm_countMessage
      · exact hk

theorem onceInv_ipcNotify (hk : OnceInv strict k) (destPid : UInt32) (msg : Message) :
    OnceInv strict (k.ipcNotify destPid msg).1 := by
  have hc : OnceInv strict k.countMessage := hk.of_calm calm_countMessage
  unfold ipcNotify
  split
  · exact hk
  · dsimp only
    split_ifs
    · refine OnceInv.of_calm (hc.record ?_ ?_) (calm_fillBuffer _ _)
      · simp
      · simp
    · exact hc.congr rfl rfl rfl

/-! ## Receiving -/

/-- `find_blocked_sender` does not look at the number of a call. -/
theorem findBlockedSender_beginCall (receiverPid fromPid : UInt32) :
    k.beginCall.findBlockedSender receiverPid fromPid =
      k.findBlockedSender receiverPid fromPid := by
  unfold findBlockedSender
  congr 1
  funext i
  by_cases h : i = k.currentTask
  · subst h
    simp [beginCall, isBlockedSender, current]
  · simp [beginCall, h]

/-- What `find_blocked_sender` finds is an active task blocked in a send to the receiver. -/
theorem findBlockedSender_eq_some {receiverPid fromPid : UInt32} {s : Slot}
    (h : k.findBlockedSender receiverPid fromPid = some s) :
    (k.tasks s).active = true ∧ IsSending (k.tasks s) ∧ (k.tasks s).sendTo = receiverPid ∧
      (fromPid = pidAny ∨ (k.tasks s).id = fromPid) := by
  have hs := List.find?_some h
  simp only [isBlockedSender, Bool.and_eq_true, Bool.or_eq_true, beq_iff_eq] at hs
  obtain ⟨⟨⟨⟨hact, hstate⟩, hon⟩, hto⟩, hfrom⟩ := hs
  exact ⟨hact, ⟨hstate, hon⟩, hto, hfrom⟩

/-- Taking the message of a blocked sender that nobody received yet. -/
theorem OnceInv.takeMessage (hk : OnceInv strict k) (hcur : k.current.state ≠ .blocked) {s : Slot}
    (hs : IsSending (k.tasks s)) (hto : (k.tasks s).sendTo = k.current.id)
    (hzero : strict → k.deliveries (k.tasks s).call = 0) : OnceInv strict (k.takeMessage s) := by
  have hne : s ≠ k.currentTask := by
    rintro rfl
    exact hcur hs.1
  -- The buffer of the receiver is filled.
  set k₁ := k.setTask k.currentTask { k.current with
    msgBuf := { (k.tasks s).msgBuf with sender := (k.tasks s).id } } with hk₁
  have hcalm₁ : Calm k k₁ := .setTask fun h => absurd h hcur
  have hsame : k₁.tasks s = k.tasks s := by rw [hk₁, setTask_tasks, Function.update_of_ne hne]
  have hcur₁ : k₁.current.id = k.current.id ∧ k₁.current.call = k.current.call := by
    simp [hk₁, current]
  have hev : .submit (k.tasks s).call (k.tasks s).id (k.tasks s).serial k₁.current.id
      ((k.tasks s).blockedOn == .sendrec) ∈ k₁.log := by
    rw [hcur₁.1, ← hto]
    exact hk.sending s hs
  have hmine : ∀ i, IsSending (k₁.tasks i) → (k₁.tasks i).call = (k.tasks s).call → i = s := by
    intro i hi hc
    obtain ⟨hi', hsc⟩ := hcalm₁.isSending hi
    rw [hsc.call] at hc
    exact hk.distinct i s hi' hs hc
  unfold Kernel.takeMessage
  dsimp only
  split_ifs with hon
  · -- The sender stays as it is, blocked in `ipc_sendrec`.
    have hr : OnceInv strict (k₁.record (.deliver (k.tasks s).call k₁.current.id k₁.current.call)) := by
      refine (hk.of_calm hcalm₁).record_deliver hev ?_ fun i hb hi hc => ?_
      · rw [hcalm₁.deliveries]
        exact hzero
      · obtain rfl := hmine i ⟨hb, Or.inl hi⟩ hc
        rw [hsame, hon] at hi
        exact absurd hi (by simp)
    refine hr.of_calm (.setTask fun h => ⟨?_, rfl, rfl, rfl, ?_, rfl, rfl, rfl⟩)
    · rw [record_tasks, hsame]
      exact hs.1
    · rw [record_tasks, hsame, hon]
  · -- The sender leaves `ipc_send`, so nobody holds the delivered message.
    set k₂ := k₁.setTask s { k₁.tasks s with state := .ready, blockedOn := .none } with hk₂
    have hcalm₂ : Calm k₁ k₂ := .setTask fun h => absurd h (by simp)
    refine (((hk.of_calm hcalm₁).of_calm hcalm₂).record_deliver hev ?_ fun i hb hi hc => ?_ :
      OnceInv strict (k₂.record (.deliver (k.tasks s).call k₁.current.id k₁.current.call)))
    · rw [hcalm₂.deliveries, hcalm₁.deliveries]
      exact hzero
    · obtain ⟨hi', hsc⟩ := hcalm₂.isSending ⟨hb, Or.inl hi⟩
      rw [hsc.call] at hc
      obtain rfl := hmine i hi' hc
      rw [hk₂, setTask_tasks, Function.update_self] at hb
      exact absurd hb (by simp)

/-- A pending notification is no delivery. -/
theorem OnceInv.takeNotification (hk : OnceInv strict k) (hcur : k.current.state ≠ .blocked) :
    OnceInv strict k.takeNotification := by
  set k₁ := k.setTask k.currentTask
    { k.current with msgBuf := k.notifyMsg (notifyIndex k.current.id) }
  have hk₁ : OnceInv strict k₁ := hk.setTask _ fun h => hcur h.1
  refine OnceInv.congr (k := k₁.record (.note _ _ _ _ _)) (hk₁.record ?_ ?_) rfl rfl rfl
  · simp
  · simp

/-- A task that blocks in a receive holds no message. -/
theorem OnceInv.blockReceiving (hk : OnceInv strict k) (fromPid : UInt32) (msg : Message) :
    OnceInv strict (k.blockReceiving fromPid msg) := by
  refine (hk.setTask k.currentTask ?_).of_calm (quiet_taskYield _).toCalm
  simp [IsSending]

/-- The receives that take no request a second time: the sender found, if it is blocked
in `ipc_sendrec`, has a request that was not received yet. -/
def ReceivesNew (k : Kernel) (c : Slot) : Action → Prop
  | .call (.ipcReceive fromPid (some _)) =>
    k.pendingNotify (notifyIndex (k.tasks c).id) = 0 →
      ∀ s, k.findBlockedSender (k.tasks c).id fromPid = some s →
        (k.tasks s).blockedOn = .sendrec → k.deliveries (k.tasks s).call = 0
  | _ => True

instance (k : Kernel) (c : Slot) (a : Action) : Decidable (k.ReceivesNew c a) := by
  unfold ReceivesNew
  split <;> infer_instance

theorem onceInv_ipcReceive (hk : OnceInv strict k) (hcur : k.current.state ≠ .blocked)
    (fromPid : UInt32) (msg : Option Message)
    (hnew : strict → k.ReceivesNew k.currentTask (.call (.ipcReceive fromPid msg))) :
    OnceInv strict (k.ipcReceive fromPid msg).1 := by
  have hcalm : Calm k k.beginCall := calm_beginCall hcur
  have hb : OnceInv strict k.beginCall := hk.of_calm hcalm
  have hcur' : k.beginCall.current.state ≠ .blocked := by simpa [beginCall, current] using hcur
  have hid : k.beginCall.current.id = (k.tasks k.currentTask).id := by
    simp [beginCall, current]
  unfold ipcReceive
  split
  · exact hk
  · dsimp only
    split_ifs with hp
    · exact hb.takeNotification hcur'
    · rw [not_not, hid] at hp
      split
      · rename_i s hs
        rw [hid, findBlockedSender_beginCall] at hs
        obtain ⟨-, hsend, hto, -⟩ := findBlockedSender_eq_some hs
        have hne : s ≠ k.currentTask := by
          rintro rfl
          exact hcur hsend.1
        have hsame : k.beginCall.tasks s = k.tasks s := by simp [beginCall, hne]
        refine hb.takeMessage hcur' (by rw [hsame]; exact hsend) (by rw [hsame, hid]; exact hto)
          fun hstrict => ?_
        rw [hsame, hcalm.deliveries]
        rcases hsend.2 with hon | hon
        · exact hk.fresh hstrict s hsend.1 hon
        · exact hnew hstrict hp s hs hon
      · exact hb.blockReceiving _ _

/-! ## All runs -/

theorem onceInv_boot (kernelPd : UInt32) : OnceInv strict (boot kernelPd) := by
  have hidle : ∀ i, ¬ IsSending ((boot kernelPd).tasks i) := fun i hi =>
    boot_not_blocked kernelPd i hi.1
  refine ⟨?_, ?_, ?_, ?_, fun i hi => absurd hi (hidle i), fun _ i hb hon => ?_,
    fun i j hi => absurd hi (hidle i)⟩
  · simp [boot]
  · simp [boot]
  · simp [boot]
  · simp [boot, deliveries]
  · exact absurd ⟨hb, Or.inl hon⟩ (hidle i)

/-- Every step that takes no request a second time keeps the invariant. -/
theorem onceInv_exec (hk : OnceInv strict k) {a : Action} (hseq : k.Sequential k.currentTask a)
    (hnew : strict → k.ReceivesNew k.currentTask a) : OnceInv strict (a.exec k) := by
  refine exec_invariant (I := OnceInv strict) (fun _ _ hc h => h.of_calm hc)
    (fun _ d m h => onceInv_ipcNotify h d m) hk hseq fun c hc hipc => ?_
  subst hc
  have hcur : k.current.state ≠ .blocked := state_ne_blocked_of_canRun hseq
  cases c with
  | ipcSend d m => exact onceInv_ipcSend hk hcur d m
  | ipcReceive f m => exact onceInv_ipcReceive hk hcur f m hnew
  | ipcSendrec d m => exact onceInv_ipcSendrec hk hcur d m
  | ipcReply d m => exact onceInv_ipcReply hk d m
  | ipcNotify d m => exact onceInv_ipcNotify hk d m
  | _ => exact absurd hipc (by simp [isIpc])

theorem onceInv_act (hk : OnceInv strict k) {c : Slot} {a : Action} (hseq : k.Sequential c a)
    (hnew : strict → k.ReceivesNew c a) : OnceInv strict (k.act c a) := by
  refine onceInv_exec (hk.of_calm (quiet_onBehalf c).toCalm) ?_ fun hstrict => ?_
  · cases a <;> exact hseq
  · have := hnew hstrict
    cases a <;> exact this

/-- A server (PID 1) waits for a request and a client (PID 2) makes one, which is received
at once. -/
def oneRequest : List (Slot × Action) :=
  [(0, .call (.taskCreateUser [] 1 false 0x10000 0x20000 0x30000)),
    (0, .call (.taskCreateUser [] 1 false 0x40000 0x50000 0x60000)),
    (0, .call .taskYield), (0, .irq 0 0x7000),
    (1, .call (.ipcReceive pidAny (some .zero))), (1, .irq 0 0x7100),
    (2, .call (.ipcSendrec 1 (some .zero))), (2, .irq 0 0x7200)]

end Kernel

end Microkernel

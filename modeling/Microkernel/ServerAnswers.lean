/-
# The invariant of the server's world

Between the moves of a run that meets the condition, every request to the server is either
waiting, with its client blocked and neither processed nor answered, or it was processed
once and answered once.  The message the server holds, if it is a request, is the one its
client is blocked with.  The first section proves that each move keeps this, the second
draws the conclusions.
-/
import Microkernel.References
import Microkernel.ServerLoop

namespace Microkernel

open Kernel

namespace Kernel

variable {k k' : Kernel}

theorem isRequest_eq_true {n : ℕ} :
    k.isRequest n = true ↔ ∃ c t d, .submit n c t d true ∈ k.log := by
  rw [isRequest, List.any_eq_true]
  constructor
  · rintro ⟨e, he, hn⟩
    cases e with
    | submit n' c t d w =>
      simp only [Bool.and_eq_true, beq_iff_eq] at hn
      obtain ⟨rfl, rfl⟩ := hn
      exact ⟨c, t, d, he⟩
    | _ => exact absurd hn (by simp)
  · rintro ⟨c, t, d, he⟩
    exact ⟨_, he, by simp⟩

/-- Events that are no replies do not count. -/
theorem replies_append {es : List Event} {n : ℕ} (hlog : k'.log = es ++ k.log)
    (hes : ∀ e ∈ es, e.answers n = false) : k'.replies n = k.replies n := by
  have hzero : es.countP (Event.answers n) = 0 := by
    rw [List.countP_eq_zero]
    intro e he
    rw [hes e he]
    exact Bool.false_ne_true
  rw [replies, hlog, List.countP_append, hzero, Nat.zero_add, replies]

theorem replies_eq_zero {n : ℕ} (h : ∀ r, .reply n r ∉ k.log) : k.replies n = 0 := by
  rw [replies, List.countP_eq_zero]
  intro e he
  cases e with
  | reply n' r =>
    simp only [Event.answers, beq_iff_eq]
    rintro rfl
    exact h r he
  | _ => simp [Event.answers]

theorem inSendrec_eq_true {t : Task} :
    inSendrec t = true ↔ t.state = .blocked ∧ t.blockedOn = .sendrec := by
  simp [inSendrec]

/-- A task that can run is in no call. -/
theorem inSendrec_eq_false_of_canRun {t : Task} (h : canRun t = true) : inSendrec t = false := by
  simp [inSendrec, state_ne_blocked_of_canRun h]

theorem inReceive_eq_false_of_canRun {t : Task} (h : canRun t = true) : inReceive t = false := by
  simp [inReceive, state_ne_blocked_of_canRun h]

theorem Waits.inSendrec {t : Task} {n : ℕ} {p : UInt32} (h : Waits t n p) : inSendrec t = true :=
  inSendrec_eq_true.mpr ⟨h.1, h.2.1⟩

end Kernel

namespace World

variable {σ : Type*} {D : Drivers σ} {srv : Server} {sv : Slot} {k₀ : Kernel} {w w' : World σ}

theorem processed_eq_zero {n : ℕ} (h : ∀ e ∈ w.handled, e.source ≠ some n) :
    w.processed n = 0 := by
  rw [processed, List.countP_eq_zero]
  intro e he
  simpa using h e he

/-- The invariant; `k₀` is the kernel state in which the server entered its loop. -/
structure ServerInv (srv : Server) (sv : Slot) (k₀ : Kernel) (w : World σ) : Prop where
  once : OnceInv False w.kernel
  pids : DistinctPids w.kernel
  server : (w.kernel.tasks sv).active = true ∧ w.pid sv = (k₀.tasks sv).id
  awake : w.idle sv = false → canRun (w.kernel.tasks sv) = true
  asleep : w.idle sv = true → (w.kernel.tasks sv).receiveFrom = pidAny ∧
    ∀ i, (w.kernel.tasks i).active = true → IsSending (w.kernel.tasks i) →
      (w.kernel.tasks i).sendTo ≠ w.pid sv
  requests : ∀ i, (w.kernel.tasks i).active = true → inSendrec (w.kernel.tasks i) = true →
    (w.kernel.tasks i).sendTo = w.pid sv →
      (w.kernel.tasks i).msgBuf.sender = (w.kernel.tasks i).id ∧
        srv.isSilent (w.kernel.tasks i).msgBuf.type = false
  held : w.phase ≠ .top → w.idle sv = false → ∀ n, latestCopy w.kernel.log = some n →
    w.kernel.isRequest n = true → ∃ i, (w.kernel.tasks i).active = true ∧
      Waits (w.kernel.tasks i) n (w.pid sv) ∧ w.msg sv = (w.kernel.tasks i).msgBuf
  waiting : ∀ i n, (w.kernel.tasks i).active = true → Waits (w.kernel.tasks i) n (w.pid sv) →
    w.processed n = 0 ∧ w.kernel.replies n = 0
  settled : ∀ n c t, k₀.calls ≤ n → .submit n c t (w.pid sv) true ∈ w.kernel.log →
    (∃ i, (w.kernel.tasks i).active = true ∧ Waits (w.kernel.tasks i) n (w.pid sv)) ∨
      (w.processed n = 1 ∧ w.kernel.replies n = 1)
  sources : ∀ e ∈ w.handled, ∀ n, e.source = some n → n < w.kernel.calls
  answered : ∀ n r, .reply n r ∈ w.kernel.log → n < w.kernel.calls

namespace ServerInv

/-- The call whose message was copied last was submitted. -/
theorem latestCopy_lt (hw : ServerInv srv sv k₀ w) {n : ℕ}
    (h : latestCopy w.kernel.log = some n) : n < w.kernel.calls := by
  have hmem : ∀ {es : List Event}, latestCopy es = some n → ∃ r m, .deliver n r m ∈ es := by
    intro es
    induction es with
    | nil => exact fun h => absurd h (by simp [latestCopy])
    | cons e es ih =>
      intro h
      cases e with
      | deliver n' r m =>
        rw [latestCopy, Option.some_inj] at h
        subst h
        exact ⟨r, m, List.mem_cons_self⟩
      | note => exact absurd h (by simp [latestCopy])
      | _ =>
        obtain ⟨r, m, hm⟩ := ih h
        exact ⟨r, m, List.mem_cons_of_mem _ hm⟩
  obtain ⟨r, m, hm⟩ := hmem h
  obtain ⟨c, t, a, hs⟩ := hw.once.addressed n r m hm
  exact hw.once.bound n c t r a hs

theorem inReceive_iff (hw : ServerInv srv sv k₀ w) :
    inReceive (w.kernel.tasks sv) = w.idle sv := by
  cases hi : w.idle sv with
  | false => exact inReceive_eq_false_of_canRun (hw.awake hi)
  | true =>
    simp only [idle, Bool.and_eq_true] at hi
    exact hi.2

theorem findDest (hw : ServerInv srv sv k₀ w) :
    w.kernel.findDest (w.kernel.tasks sv).id = some sv :=
  hw.pids.findDest hw.server.1

/-- The server is not in an `ipc_sendrec`. -/
theorem server_inSendrec (hw : ServerInv srv sv k₀ w) :
    inSendrec (w.kernel.tasks sv) = false := by
  cases hi : w.idle sv with
  | false => exact inSendrec_eq_false_of_canRun (hw.awake hi)
  | true =>
    rw [← hw.inReceive_iff] at hi
    simp only [inReceive, Bool.and_eq_true, beq_iff_eq] at hi
    simp [inSendrec, hi.2]

/-- A task blocked in `ipc_sendrec` has made a request. -/
theorem isRequest_of_waits (hw : ServerInv srv sv k₀ w) {i : Slot} {n : ℕ} {p : UInt32}
    (h : Waits (w.kernel.tasks i) n p) : w.kernel.isRequest n = true := by
  have hsub := hw.once.sending i ⟨h.1, Or.inr h.2.1⟩
  rw [Task.submission, h.2.1, h.2.2.1] at hsub
  exact isRequest_eq_true.mpr ⟨_, _, _, hsub⟩

/-- The events of a move that submits and answers nothing. -/
def isCopy : Event → Bool
  | .deliver .. | .note .. => true
  | _ => false

/-- A move that leaves the tasks in `ipc_sendrec` alone and submits and answers nothing. -/
theorem of_same_requests (hw : ServerInv srv sv k₀ w) (honce : OnceInv False w'.kernel)
    (htame : ∀ i, TameTask (w.kernel.tasks i) (w'.kernel.tasks i))
    (hcalls : w.kernel.calls ≤ w'.kernel.calls)
    (hsame : ∀ i, inSendrec (w.kernel.tasks i) = true ∨ inSendrec (w'.kernel.tasks i) = true →
      w'.kernel.tasks i = w.kernel.tasks i)
    (hlog : ∃ es, w'.kernel.log = es ++ w.kernel.log ∧ ∀ e ∈ es, isCopy e = true)
    (hproc : ∀ n, w.kernel.isRequest n = true → w'.processed n = w.processed n)
    (hsrc : ∀ e ∈ w'.handled, ∀ n, e.source = some n → n < w'.kernel.calls)
    (hawake : w'.idle sv = false → canRun (w'.kernel.tasks sv) = true)
    (hasleep : w'.idle sv = true → (w'.kernel.tasks sv).receiveFrom = pidAny ∧
      ∀ i, (w'.kernel.tasks i).active = true → IsSending (w'.kernel.tasks i) →
        (w'.kernel.tasks i).sendTo ≠ w'.pid sv)
    (hheld : w'.phase ≠ .top → w'.idle sv = false → ∀ n, latestCopy w'.kernel.log = some n →
      w'.kernel.isRequest n = true → ∃ i, (w'.kernel.tasks i).active = true ∧
        Waits (w'.kernel.tasks i) n (w'.pid sv) ∧ w'.msg sv = (w'.kernel.tasks i).msgBuf) :
    ServerInv srv sv k₀ w' := by
  have hpid : w'.pid sv = w.pid sv := (htame sv).id
  obtain ⟨es, hes, hcopy⟩ := hlog
  have hold : ∀ {e}, isCopy e = false → e ∈ w'.kernel.log → e ∈ w.kernel.log := by
    intro e he hmem
    rw [hes, List.mem_append] at hmem
    refine hmem.resolve_left fun hm => ?_
    rw [hcopy e hm] at he
    exact absurd he (by simp)
  have hreplies : ∀ n, w'.kernel.replies n = w.kernel.replies n := by
    refine fun n => replies_append hes fun e he => ?_
    have hc := hcopy e he
    cases e with
    | reply => exact absurd hc Bool.false_ne_true
    | _ => rfl
  refine ⟨honce, hw.pids.of_tame htame, ⟨?_, hpid.trans hw.server.2⟩, hawake, hasleep, ?_, hheld,
    ?_, ?_, hsrc, ?_⟩
  · exact (htame sv).active.trans hw.server.1
  · intro i hact hin hto
    have heq := hsame i (Or.inr hin)
    rw [heq] at hact hin hto ⊢
    exact hw.requests i hact hin (hto.trans hpid)
  · intro i n hact hwait
    have heq := hsame i (Or.inr hwait.inSendrec)
    rw [heq] at hact hwait
    rw [hpid] at hwait
    rw [hreplies, hproc n (hw.isRequest_of_waits hwait)]
    exact hw.waiting i n hact hwait
  · intro n c t hn hmem
    rw [hpid] at hmem ⊢
    have hmem' := hold rfl hmem
    rw [hreplies, hproc n (isRequest_eq_true.mpr ⟨c, t, _, hmem'⟩)]
    refine (hw.settled n c t hn hmem').imp_left ?_
    rintro ⟨i, hact, hwait⟩
    have heq := hsame i (Or.inl hwait.inSendrec)
    exact ⟨i, heq ▸ hact, heq ▸ hwait⟩
  · intro n r hmem
    exact (hw.answered n r (hold rfl hmem)).trans_le hcalls

/-- The server's slot is the only one that changes, and the server is not in `ipc_sendrec`
after the move. -/
theorem same_of_update (hw : ServerInv srv sv k₀ w) {k' : Kernel} {t : Task}
    (htasks : k'.tasks = Function.update w.kernel.tasks sv t) (ht : inSendrec t = false) (i : Slot)
    (h : inSendrec (w.kernel.tasks i) = true ∨ inSendrec (k'.tasks i) = true) :
    k'.tasks i = w.kernel.tasks i := by
  by_cases hi : i = sv
  · subst hi
    rw [htasks, Function.update_self] at h
    rcases h with h | h
    · rw [hw.server_inSendrec] at h
      exact absurd h Bool.false_ne_true
    · rw [ht] at h
      exact absurd h Bool.false_ne_true
  · rw [htasks, Function.update_of_ne hi]

/-! ## A client's message -/

variable {k' : Kernel} {c : Slot} {msg : Message} {awaits : Bool}

/-- **Sending to the server keeps the invariant.** -/
theorem sent (hw : ServerInv srv sv k₀ w) (hne : c ≠ sv)
    (hrun : canRun (w.kernel.tasks c) = true) (h : Sent w.kernel k' c sv msg awaits)
    (honce : OnceInv False k') (hsil : awaits = true → srv.isSilent msg.type = false) :
    ServerInv srv sv k₀ { w with kernel := k' } := by
  have hpid : (k'.tasks sv).id = (w.kernel.tasks sv).id := (h.tame sv).id
  have hcid : (k'.tasks c).id = (w.kernel.tasks c).id := (h.tame c).id
  -- The history grows by the submission and perhaps the delivery, the server is awake.
  obtain ⟨es, hlog, hes⟩ : ∃ es, k'.log = es ++ w.kernel.log ∧
      ∀ e ∈ es, e = .submit w.kernel.calls (w.kernel.tasks c).id (w.kernel.tasks c).serial
        (w.kernel.tasks sv).id awaits ∨ ∃ r m, e = .deliver w.kernel.calls r m := by
    rcases h.outcome with ⟨-, -, hlog⟩ | ⟨-, -, hlog⟩
    · exact ⟨[_, _], hlog, by simp⟩
    · exact ⟨[_], hlog, by simp⟩
  have hrun' : canRun (k'.tasks sv) = true := by
    rcases h.outcome with ⟨-, htask, -⟩ | ⟨hacc, htask, -⟩
    · rw [htask]
      simp [canRun, filled, hw.server.1]
    · rw [htask]
      refine hw.awake ?_
      by_contra hidle
      rw [Bool.not_eq_false] at hidle
      simp [acceptsFrom, hw.inReceive_iff, hidle, (hw.asleep hidle).1] at hacc
  have hidle : ({ w with kernel := k' } : World σ).idle sv = false := by
    simp [idle, inReceive_eq_false_of_canRun hrun']
  -- The requests that wait are the old ones, and the new one.
  have hold : ∀ i, i ≠ c → inSendrec (k'.tasks i) = true → k'.tasks i = w.kernel.tasks i := by
    intro i hi hin
    refine h.others i hi ?_
    rintro rfl
    rw [inSendrec_eq_false_of_canRun hrun'] at hin
    exact absurd hin Bool.false_ne_true
  have hkeep : ∀ i, inSendrec (w.kernel.tasks i) = true → i ≠ c ∧ k'.tasks i = w.kernel.tasks i := by
    intro i hin
    have hi : i ≠ c := by
      rintro rfl
      rw [inSendrec_eq_false_of_canRun hrun] at hin
      exact absurd hin Bool.false_ne_true
    refine ⟨hi, h.others i hi ?_⟩
    rintro rfl
    rw [hw.server_inSendrec] at hin
    exact absurd hin Bool.false_ne_true
  have hnew : inSendrec (k'.tasks c) = true → awaits = true ∧
      k'.tasks c = blockedCaller (w.kernel.tasks c) w.kernel.calls .sendrec
        (w.kernel.tasks sv).id msg := by
    intro hin
    cases awaits with
    | false => exact absurd (hin.symm.trans h.caller) (by simp)
    | true => exact ⟨rfl, h.caller⟩
  have hreplies : ∀ n, k'.replies n = w.kernel.replies n := by
    refine fun n => replies_append hlog fun e he => ?_
    rcases hes e he with rfl | ⟨r, m, rfl⟩ <;> rfl
  have hsub : ∀ {n c' t d}, .submit n c' t d true ∈ k'.log →
      .submit n c' t d true ∈ w.kernel.log ∨ (n = w.kernel.calls ∧ awaits = true) := by
    intro n c' t d hmem
    rw [hlog, List.mem_append] at hmem
    rcases hmem with hmem | hmem
    · rcases hes _ hmem with he | ⟨r, m, he⟩
      · obtain ⟨hn, -, -, -, ha⟩ := Event.submit.inj he
        exact Or.inr ⟨hn, ha.symm⟩
      · exact absurd he (by simp)
    · exact Or.inl hmem
  refine ⟨honce, hw.pids.of_tame h.tame, ⟨?_, ?_⟩, fun _ => hrun', fun hi => ?_, ?_, ?_, ?_, ?_,
    ?_, ?_⟩
  · exact (h.tame sv).active.trans hw.server.1
  · exact hpid.trans hw.server.2
  · rw [hidle] at hi
    exact absurd hi Bool.false_ne_true
  · intro i hact hin hto
    dsimp only at hact hin hto ⊢
    by_cases hi : i = c
    · subst hi
      obtain ⟨ha, htask⟩ := hnew hin
      rw [htask]
      exact ⟨rfl, hsil ha⟩
    · have heq := hold i hi hin
      rw [heq] at hact hin hto ⊢
      exact hw.requests i hact hin (hto.trans hpid)
  · intro hphase _ n hcopy hreq
    obtain ⟨c', t, d, hmem⟩ := isRequest_eq_true.mp hreq
    dsimp only [pid, World.msg] at hcopy hmem hphase ⊢
    rw [hpid]
    rcases h.outcome with ⟨-, htask, hlog'⟩ | ⟨-, htask, hlog'⟩
    · -- The message was delivered just now.
      rw [hlog', latestCopy_deliver, Option.some_inj] at hcopy
      subst hcopy
      rcases hsub hmem with hmem | ⟨-, ha⟩
      · exact absurd (hw.once.bound _ _ _ _ _ hmem) (lt_irrefl _)
      · subst ha
        have hcaller := h.caller
        rw [if_pos rfl] at hcaller
        refine ⟨c, (h.tame c).active.trans (active_of_canRun hrun), ?_⟩
        rw [hcaller, htask]
        exact ⟨⟨rfl, rfl, rfl, rfl⟩, rfl⟩
    · rw [hlog', latestCopy_submit] at hcopy
      have hidle' : w.idle sv = false := by
        rw [← hidle, idle, idle, htask]
      rcases hsub hmem with hmem | ⟨hn, -⟩
      · obtain ⟨i, hact, hwait, hmsg⟩ :=
          hw.held hphase hidle' n hcopy (isRequest_eq_true.mpr ⟨c', t, d, hmem⟩)
        obtain ⟨-, heq⟩ := hkeep i hwait.inSendrec
        rw [htask]
        exact ⟨i, heq ▸ hact, heq ▸ hwait, heq ▸ hmsg⟩
      · exact absurd (hw.latestCopy_lt hcopy) (hn ▸ lt_irrefl _)
  · intro i n hact hwait
    dsimp only [pid] at hact hwait ⊢
    rw [hpid] at hwait
    by_cases hi : i = c
    · subst hi
      obtain ⟨-, htask⟩ := hnew hwait.inSendrec
      have hn : n = w.kernel.calls := by
        rw [← hwait.2.2.1, htask]
        rfl
      subst hn
      rw [hreplies]
      refine ⟨processed_eq_zero fun e he hs => ?_, replies_eq_zero fun r hr => ?_⟩
      · exact absurd (hw.sources e he _ hs) (lt_irrefl _)
      · exact absurd (hw.answered _ r hr) (lt_irrefl _)
    · have heq := hold i hi hwait.inSendrec
      rw [heq] at hact hwait
      rw [hreplies]
      exact hw.waiting i n hact hwait
  · intro n c' t hn hmem
    dsimp only [pid] at hmem ⊢
    rw [hpid] at hmem ⊢
    rcases hsub hmem with hmem | ⟨hn, ha⟩
    · rw [hreplies]
      refine (hw.settled n c' t hn hmem).imp_left ?_
      rintro ⟨i, hact, hwait⟩
      obtain ⟨-, heq⟩ := hkeep i hwait.inSendrec
      exact ⟨i, heq ▸ hact, heq ▸ hwait⟩
    · subst ha
      have htask := h.caller
      rw [if_pos rfl] at htask
      refine Or.inl ⟨c, (h.tame c).active.trans (active_of_canRun hrun), ?_⟩
      rw [htask, hn]
      exact ⟨rfl, rfl, rfl, rfl⟩
  · intro e he n hs
    rw [show ({ w with kernel := k' } : World σ).kernel.calls = _ from h.calls]
    exact (hw.sources e he n hs).trans (Nat.lt_succ_self _)
  · intro n r hmem
    rw [show ({ w with kernel := k' } : World σ).kernel.calls = _ from h.calls]
    refine (hw.answered n r ?_).trans (Nat.lt_succ_self _)
    dsimp only at hmem
    rw [hlog, List.mem_append] at hmem
    refine hmem.resolve_left fun hm => ?_
    rcases hes _ hm with he | ⟨r, m, he⟩ <;> exact absurd he (by simp)

/-! ## A notification -/

/-- A move after which the server holds a notification: only the server's slot changes. -/
theorem got_notification (hw : ServerInv srv sv k₀ w) (honce : OnceInv False w'.kernel)
    (htame : ∀ i, TameTask (w.kernel.tasks i) (w'.kernel.tasks i))
    (hcalls : w.kernel.calls ≤ w'.kernel.calls) (hhandled : w'.handled = w.handled) {t : Task}
    (htasks : w'.kernel.tasks = Function.update w.kernel.tasks sv t) (ht : canRun t = true)
    {d r : UInt32} {a b m : ℕ} (hlog : w'.kernel.log = .note d a r b m :: w.kernel.log) :
    ServerInv srv sv k₀ w' := by
  have hrun : canRun (w'.kernel.tasks sv) = true := by
    rw [htasks, Function.update_self]
    exact ht
  have hidle : w'.idle sv = false := by
    rw [idle, inReceive_eq_false_of_canRun hrun, Bool.and_false]
  refine hw.of_same_requests honce htame hcalls
    (hw.same_of_update htasks (inSendrec_eq_false_of_canRun ht)) ⟨[_], hlog, by simp [isCopy]⟩
    (fun n _ => by rw [processed, processed, hhandled]) (fun e he n hs => ?_) (fun _ => hrun)
    (fun h => ?_) ?_
  · rw [hhandled] at he
    exact (hw.sources e he n hs).trans_le hcalls
  · rw [hidle] at h
    exact absurd h Bool.false_ne_true
  · intro _ _ n hcopy
    rw [hlog, latestCopy_note] at hcopy
    exact absurd hcopy (by simp)

/-- A move that changes no task and writes no history. -/
theorem of_same_tables (hw : ServerInv srv sv k₀ w) (honce : OnceInv False w'.kernel)
    (htasks : w'.kernel.tasks = w.kernel.tasks) (hlog : w'.kernel.log = w.kernel.log)
    (hcalls : w'.kernel.calls = w.kernel.calls)
    (hproc : ∀ n, w.kernel.isRequest n = true → w'.processed n = w.processed n)
    (hsrc : ∀ e ∈ w'.handled, ∀ n, e.source = some n → n < w.kernel.calls)
    (hidle : w'.idle sv = w.idle sv) (hphase : w'.phase ≠ .top → w.phase ≠ .top) :
    ServerInv srv sv k₀ w' := by
  have hpid : w'.pid sv = w.pid sv := by
    rw [pid, pid, htasks]
  refine hw.of_same_requests honce (fun i => by rw [htasks]; exact .refl _) hcalls.ge
    (fun i _ => by rw [htasks]) ⟨[], hlog, by simp⟩ hproc (by rw [hcalls]; exact hsrc) ?_ ?_ ?_
  · rw [hidle, htasks]
    exact hw.awake
  · rw [hidle, htasks, hpid]
    exact hw.asleep
  · intro hph hid n hcopy hreq
    rw [hlog] at hcopy
    rw [hidle] at hid
    have hreq' : w.kernel.isRequest n = true := by
      rw [← hreq, isRequest, isRequest, hlog]
    have := hw.held (hphase hph) hid n hcopy hreq'
    rw [htasks, hpid, World.msg, htasks]
    exact this

theorem notified (hw : ServerInv srv sv k₀ w) (msg : Message) :
    ServerInv srv sv k₀ { w with kernel := (w.kernel.ipcNotify (w.pid sv) msg).1 } := by
  have honce := onceInv_ipcNotify hw.once (w.pid sv) msg
  have htame := (tame_ipcNotify w.kernel (w.pid sv) msg).tasks
  have hcalls := ipcNotify_calls (k := w.kernel) (w.pid sv) msg
  rcases notified_ipcNotify hw.findDest msg with ⟨-, htasks, m, hlog⟩ | ⟨-, htasks, hlog⟩
  · refine hw.got_notification honce htame hcalls.ge rfl htasks ?_ hlog
    simp [canRun, filled, hw.server.1]
  · refine hw.of_same_tables honce htasks hlog hcalls (fun _ _ => rfl) hw.sources ?_ id
    exact congrArg (fun t => w.phase == .waiting && inReceive (t sv)) htasks

/-! ## The moves of the server -/

theorem resumed (hw : ServerInv srv sv k₀ w) (hphase : w.phase = .waiting)
    (hrun : canRun (w.kernel.tasks sv) = true) :
    ServerInv srv sv k₀ { w with phase := .received } := by
  refine hw.of_same_tables hw.once rfl rfl rfl (fun _ _ => rfl) hw.sources ?_ fun _ => ?_
  · simp [idle, inReceive_eq_false_of_canRun hrun]
  · rw [hphase]
    exact fun h => Phase.noConfusion h

theorem top_not_idle (h : w.phase = .top) : w.idle sv = false := by
  rw [idle, h]
  rfl

theorem received_not_idle (h : w.phase = .received) : w.idle sv = false := by
  rw [idle, h]
  rfl

/-- The server's `sys_receive`. -/
theorem receives (hw : ServerInv srv sv k₀ w) (hphase : w.phase = .top) {k' : Kernel}
    {o : Outcome} (honce : OnceInv False k')
    (htame : ∀ i, TameTask (w.kernel.tasks i) (k'.tasks i))
    (hcalls : k'.calls = w.kernel.calls + 1) (h : Receives w.kernel k' sv o) :
    ServerInv srv sv k₀ { w with kernel := k', phase := .afterReceive o } := by
  have hrun := hw.awake (top_not_idle hphase)
  have hcalls' : w.kernel.calls ≤ k'.calls := hcalls ▸ Nat.le_succ _
  have hsrc : ∀ e ∈ w.handled, ∀ n, e.source = some n → n < k'.calls := fun e he n hs =>
    (hw.sources e he n hs).trans_le hcalls'
  cases h with
  | notification msg m hp htasks hlog hpend =>
    obtain ⟨d, t, hlog⟩ := hlog
    refine hw.got_notification honce htame hcalls' rfl htasks ?_ hlog
    exact hrun
  | message s hne hact hsend hto htask hsender hothers hlog hpend =>
    have hrun' : canRun (k'.tasks sv) = true := by
      rw [htask]
      exact hrun
    refine hw.of_same_requests honce htame hcalls' (fun i hi => ?_) ⟨[_], hlog, by simp [isCopy]⟩
      (fun _ _ => rfl) hsrc (fun _ => hrun') (fun hid => ?_) ?_
    · by_cases his : i = sv
      · subst his
        dsimp only at hi
        rw [hw.server_inSendrec, inSendrec_eq_false_of_canRun hrun'] at hi
        simp at hi
      · by_cases hiss : i = s
        · subst hiss
          split_ifs at hsender with hon
          · exact hsender
          · dsimp only at hi
            rw [hsender] at hi
            simp [inSendrec, hon] at hi
        · exact hothers i his hiss
    · rw [received_not_idle rfl] at hid
      exact absurd hid Bool.false_ne_true
    · intro _ _ n hcopy hreq
      obtain ⟨c, t, d, hmem⟩ := isRequest_eq_true.mp hreq
      dsimp only [pid, World.msg] at hcopy hmem ⊢
      rw [hlog, latestCopy_deliver, Option.some_inj] at hcopy
      rw [hlog, List.mem_cons, or_iff_right (by simp)] at hmem
      subst hcopy
      -- The message taken is a request, so its sender is still blocked in it.
      have hon : (w.kernel.tasks s).blockedOn = .sendrec := by
        obtain ⟨-, -, -, -, ha⟩ := Event.submit.inj
          (hw.once.unique _ _ _ _ _ _ _ _ _ (hw.once.sending s hsend) hmem)
        simpa using ha
      rw [if_pos hon] at hsender
      obtain ⟨hfrom, -⟩ := hw.requests s hact (inSendrec_eq_true.mpr ⟨hsend.1, hon⟩) hto
      refine ⟨s, ?_, ?_, ?_⟩
      · rw [hsender]
        exact hact
      · rw [hsender, htask]
        exact ⟨hsend.1, hon, rfl, hto⟩
      · rw [hsender, htask, ← hfrom]
        rfl
  | blocks msg hp hnone htasks hlog hpend =>
    have hidle : ({ w with kernel := k', phase := .waiting } : World σ).idle sv = true := by
      simp [idle, htasks, inReceive, blockedReceiver]
    refine hw.of_same_requests honce htame hcalls' (hw.same_of_update htasks rfl)
      ⟨[], hlog, by simp⟩ (fun _ _ => rfl) hsrc (fun hid => ?_) (fun _ => ?_) ?_
    · exact absurd (hidle.symm.trans hid) (by simp)
    · dsimp only [pid]
      rw [htasks, Function.update_self]
      refine ⟨rfl, fun i hact hsend => ?_⟩
      by_cases hi : i = sv
      · subst hi
        rw [Function.update_self] at hsend
        exact absurd hsend.2 (by simp [blockedReceiver])
      · rw [Function.update_of_ne hi] at hact hsend ⊢
        exact hnone i hact hsend
    · intro _ hid
      exact absurd (hidle.symm.trans hid) (by simp)

/-- Processing a message that is no request. -/
theorem handled_other (hw : ServerInv srv sv k₀ w) (hphase : w.phase = .received)
    (hother : w.holdsRequest = false) {d : σ} {msg : Message} {reply : Option Message} :
    ServerInv srv sv k₀
      ⟨w.kernel, .top, d, ⟨latestCopy w.kernel.log, msg, reply⟩ :: w.handled⟩ := by
  refine hw.of_same_tables hw.once rfl rfl rfl (fun n hreq => ?_) (fun e he n hs => ?_) ?_ ?_
  · -- The message processed is not the one of a request.
    have hne : latestCopy w.kernel.log ≠ some n := by
      intro h
      rw [World.holdsRequest, h] at hother
      exact absurd (hreq.symm.trans hother) (by simp)
    simp [processed, hne]
  · rcases List.mem_cons.mp he with rfl | he
    · exact hw.latestCopy_lt hs
    · exact hw.sources e he n hs
  · rw [received_not_idle hphase]
    rfl
  · exact fun h => absurd rfl h

/-- The request the server holds, and the client that waits for its answer. -/
theorem held_request (hw : ServerInv srv sv k₀ w) (hphase : w.phase = .received)
    (hreq : w.holdsRequest = true) :
    ∃ n i, latestCopy w.kernel.log = some n ∧ (w.kernel.tasks i).active = true ∧
      Waits (w.kernel.tasks i) n (w.pid sv) ∧ w.msg sv = (w.kernel.tasks i).msgBuf ∧
      (w.msg sv).sender = (w.kernel.tasks i).id ∧ srv.isSilent (w.msg sv).type = false := by
  rw [World.holdsRequest] at hreq
  split at hreq
  · rename_i n hcopy
    have htop : w.phase ≠ .top := by
      rw [hphase]
      exact fun h => Phase.noConfusion h
    obtain ⟨i, hact, hwait, hmsg⟩ := hw.held htop (received_not_idle hphase) n hcopy hreq
    obtain ⟨hfrom, hsil⟩ := hw.requests i hact hwait.inSendrec hwait.2.2.2
    exact ⟨n, i, hcopy, hact, hwait, hmsg, hmsg ▸ hfrom, hmsg ▸ hsil⟩
  · exact absurd hreq Bool.false_ne_true

/-- Processing a request and answering it. -/
theorem handled_request (hw : ServerInv srv sv k₀ w) {n : ℕ} {i : Slot}
    (hcopy : latestCopy w.kernel.log = some n) (hact : (w.kernel.tasks i).active = true)
    (hwait : Waits (w.kernel.tasks i) n (w.pid sv)) (hphase : w.phase = .received) {d : σ}
    {msg reply : Message} :
    ServerInv srv sv k₀
      ⟨((w.kernel.onBehalf sv).ipcReply (w.kernel.tasks i).id (some reply)).1, .top, d,
        ⟨latestCopy w.kernel.log, msg, some reply⟩ :: w.handled⟩ := by
  obtain ⟨htasks, hlog, hcalls, -⟩ :=
    replies_ipcReply sv (hw.pids.findDest hact) hwait.inSendrec reply
  have honce := onceInv_ipcReply (hw.once.of_calm (quiet_onBehalf sv).toCalm)
    (w.kernel.tasks i).id (some reply)
  have htame := (tame_ipcReply (w.kernel.onBehalf sv) (w.kernel.tasks i).id (some reply)).tasks
  generalize ((w.kernel.onBehalf sv).ipcReply (w.kernel.tasks i).id (some reply)).1 = k'
    at htasks hlog hcalls honce htame ⊢
  have hrun := hw.awake (received_not_idle hphase)
  have hcall : (w.kernel.tasks i).call = n := hwait.2.2.1
  have hne : ∀ j, inSendrec (k'.tasks j) = true → j ≠ i ∧ k'.tasks j = w.kernel.tasks j := by
    intro j hj
    have hji : j ≠ i := by
      rintro rfl
      rw [htasks, Function.update_self] at hj
      exact absurd hj (by simp [inSendrec, filled])
    exact ⟨hji, by rw [htasks, Function.update_of_ne hji]⟩
  have hsvi : sv ≠ i := by
    rintro rfl
    exact absurd (hwait.inSendrec.symm.trans hw.server_inSendrec) (by simp)
  have hsv : k'.tasks sv = w.kernel.tasks sv := by rw [htasks, Function.update_of_ne hsvi]
  have hpid : (k'.tasks sv).id = w.pid sv := by
    rw [hsv]
    rfl
  -- The counts grow by one for this request and by nothing for the others.
  have hproc : ∀ n', (⟨k', .top, d, ⟨latestCopy w.kernel.log, msg, some reply⟩ :: w.handled⟩ :
      World σ).processed n' = w.processed n' + if n = n' then 1 else 0 := by
    intro n'
    simp [processed, hcopy, List.countP_cons]
  have hrep : ∀ n', k'.replies n' = w.kernel.replies n' + if n = n' then 1 else 0 := by
    intro n'
    simp [replies, hlog, hcall, List.countP_cons, Event.answers]
  refine ⟨honce, hw.pids.of_tame htame, ⟨(htame sv).active.trans hw.server.1,
    hpid.trans hw.server.2⟩, fun _ => ?_, fun h => ?_, ?_, fun h => absurd rfl h, ?_, ?_, ?_, ?_⟩
  · exact (congrArg canRun hsv).trans hrun
  · rw [top_not_idle rfl] at h
    exact absurd h Bool.false_ne_true
  · intro j hactj hin hto
    dsimp only [pid] at hactj hin hto ⊢
    obtain ⟨-, heq⟩ := hne j hin
    rw [heq] at hactj hin hto ⊢
    exact hw.requests j hactj hin (hto.trans hpid)
  · intro j n' hactj hwaitj
    obtain ⟨hji, heq⟩ := hne j hwaitj.inSendrec
    dsimp only [pid] at hactj hwaitj
    rw [heq] at hactj hwaitj
    rw [hpid] at hwaitj
    have hn : n ≠ n' := by
      rintro rfl
      exact hji (hw.once.distinct j i ⟨hwaitj.1, Or.inr hwaitj.2.1⟩
        ⟨hwait.1, Or.inr hwait.2.1⟩ (hwaitj.2.2.1.trans hcall.symm))
    rw [hproc, hrep, if_neg hn]
    exact hw.waiting j n' hactj hwaitj
  · intro n' c t hn hmem
    dsimp only [pid] at hmem ⊢
    rw [hpid] at hmem ⊢
    rw [hlog, List.mem_cons, or_iff_right (by simp)] at hmem
    rw [hproc, hrep]
    by_cases hnn : n = n'
    · subst hnn
      obtain ⟨hp, hr⟩ := hw.waiting i n hact hwait
      rw [hp, hr, if_pos rfl]
      exact Or.inr ⟨rfl, rfl⟩
    · rw [if_neg hnn]
      refine (hw.settled n' c t hn hmem).imp_left ?_
      rintro ⟨j, hactj, hwaitj⟩
      have hji : j ≠ i := by
        rintro rfl
        exact hnn (hcall.symm.trans hwaitj.2.2.1)
      have heq : k'.tasks j = w.kernel.tasks j := by rw [htasks, Function.update_of_ne hji]
      exact ⟨j, heq ▸ hactj, heq ▸ hwaitj⟩
  · intro e he n' hs
    dsimp only at he ⊢
    rw [hcalls]
    rcases List.mem_cons.mp he with rfl | he
    · exact hw.latestCopy_lt hs
    · exact hw.sources e he n' hs
  · intro n' r hmem
    dsimp only at hmem ⊢
    rw [hlog, List.mem_cons] at hmem
    rw [hcalls]
    rcases hmem with he | hmem
    · rw [(Event.reply.inj he).1, hcall]
      exact hw.latestCopy_lt hcopy
    · exact hw.answered n' r hmem

end ServerInv

/-- The possible moves. -/
theorem step_cases {a : ServerMove} (h : w.step D srv sv a = some w') :
    (∃ c msg, a = .send c msg ∧ c ≠ sv ∧ canRun (w.kernel.tasks c) = true ∧
      w' = { w with kernel := w.kernel.act c (.call (.ipcSend (w.pid sv) (some msg))) }) ∨
    (∃ c msg, a = .sendrec c msg ∧ c ≠ sv ∧ canRun (w.kernel.tasks c) = true ∧
      w' = { w with kernel := w.kernel.act c (.call (.ipcSendrec (w.pid sv) (some msg))) }) ∨
    (∃ msg, a = .notify msg ∧ w' = { w with kernel := (w.kernel.ipcNotify (w.pid sv) msg).1 }) ∨
    (a = .receive ∧ w.phase = .top ∧ w' = { w with
      kernel := ((w.kernel.onBehalf sv).ipcReceive pidAny (some (w.msg sv))).1
      phase := .afterReceive ((w.kernel.onBehalf sv).ipcReceive pidAny (some (w.msg sv))).2 }) ∨
    (a = .resume ∧ w.phase = .waiting ∧ canRun (w.kernel.tasks sv) = true ∧
      w' = { w with phase := .received }) ∨
    (a = .handle ∧ w.phase = .received ∧ w' = ⟨w.afterReply D srv sv, .top,
      (srv.serve D w.drivers (w.msg sv)).1,
      ⟨latestCopy w.kernel.log, w.msg sv, (srv.serve D w.drivers (w.msg sv)).2⟩ :: w.handled⟩) := by
  cases a with
  | send c msg =>
    rw [step, clientCall] at h
    split_ifs at h with hc
    exact Or.inl ⟨c, msg, rfl, hc.1, hc.2, (Option.some.inj h).symm⟩
  | sendrec c msg =>
    rw [step, clientCall] at h
    split_ifs at h with hc
    exact Or.inr (Or.inl ⟨c, msg, rfl, hc.1, hc.2, (Option.some.inj h).symm⟩)
  | notify msg => exact Or.inr (Or.inr (Or.inl ⟨msg, rfl, (Option.some.inj h).symm⟩))
  | receive =>
    rw [step] at h
    split_ifs at h with hp
    exact Or.inr (Or.inr (Or.inr (Or.inl ⟨rfl, hp, (Option.some.inj h).symm⟩)))
  | resume =>
    rw [step] at h
    split_ifs at h with hp
    exact Or.inr (Or.inr (Or.inr (Or.inr (Or.inl ⟨rfl, hp.1, hp.2, (Option.some.inj h).symm⟩))))
  | handle =>
    rw [step] at h
    split_ifs at h with hp
    exact Or.inr (Or.inr (Or.inr (Or.inr (Or.inr ⟨rfl, hp, (Option.some.inj h).symm⟩))))

/-- The reply to a message that is no request reaches nobody. -/
theorem afterReply_other (hproper : w.Proper srv sv .handle) (hother : w.holdsRequest = false) :
    ∃ c, w.afterReply D srv sv = w.kernel.onBehalf c := by
  rw [afterReply]
  split
  · rename_i reply hreply
    refine ⟨sv, ipcReply_of_not_inSendrec (hproper hother ?_)⟩
    rw [Bool.eq_false_iff]
    intro hsil
    rw [← Server.serve_eq_none D w.drivers (w.msg sv) srv, hreply] at hsil
    exact absurd hsil (by simp)
  · exact ⟨w.kernel.currentTask, rfl⟩

/-- The reply to a request is made. -/
theorem afterReply_request (hsil : srv.isSilent (w.msg sv).type = false) :
    ∃ reply, (srv.serve D w.drivers (w.msg sv)).2 = some reply ∧ w.afterReply D srv sv =
      ((w.kernel.onBehalf sv).ipcReply (w.msg sv).sender (some reply)).1 := by
  cases hreply : (srv.serve D w.drivers (w.msg sv)).2 with
  | none =>
    rw [Server.serve_eq_none, hsil] at hreply
    exact absurd hreply Bool.false_ne_true
  | some reply =>
    refine ⟨reply, rfl, ?_⟩
    rw [afterReply, hreply]

/-- **Every proper move keeps the invariant.** -/
theorem serverInv_step {a : ServerMove} (hw : ServerInv srv sv k₀ w)
    (h : StepIf D srv sv (Proper srv sv) w a w') : ServerInv srv sv k₀ w' := by
  obtain ⟨hproper, hstep⟩ := h
  have honce : ∀ c cl, canRun (w.kernel.tasks c) = true →
      OnceInv False (w.kernel.act c (.call cl)) := fun _ _ hrun =>
    onceInv_act hw.once hrun False.elim
  rcases step_cases hstep with ⟨c, msg, rfl, hne, hrun, rfl⟩ | ⟨c, msg, rfl, hne, hrun, rfl⟩ |
    ⟨msg, rfl, rfl⟩ | ⟨rfl, hp, rfl⟩ | ⟨rfl, hp, hrun, rfl⟩ | ⟨rfl, hp, rfl⟩
  · exact hw.sent hne hrun (sent_ipcSend hne hrun hw.findDest msg) (honce _ _ hrun)
      fun h => absurd h Bool.false_ne_true
  · exact hw.sent hne hrun (sent_ipcSendrec hne hw.findDest msg) (honce _ _ hrun) fun _ => hproper
  · exact hw.notified msg
  · have hrun := hw.awake (ServerInv.top_not_idle hp)
    exact hw.receives hp (honce sv (.ipcReceive pidAny (some (w.msg sv))) hrun)
      (tame_ipcReceive (w.kernel.onBehalf sv) pidAny (some (w.msg sv))).tasks
      (ipcReceive_calls _ _) (receives_ipcReceive hrun _)
  · exact hw.resumed hp hrun
  · cases hreq : w.holdsRequest with
    | true =>
      obtain ⟨n, i, hcopy, hact, hwait, -, hfrom, hsil⟩ := hw.held_request hp hreq
      obtain ⟨reply, hreply, hafter⟩ := afterReply_request (D := D) hsil
      rw [hafter, hreply, hfrom]
      exact hw.handled_request hcopy hact hwait hp
    | false =>
      obtain ⟨c, hafter⟩ := afterReply_other (D := D) hproper hreq
      rw [hafter]
      have hw' : ServerInv srv sv k₀ { w with kernel := w.kernel.onBehalf c } :=
        hw.of_same_tables (hw.once.of_calm (quiet_onBehalf c).toCalm) rfl rfl rfl
          (fun _ _ => rfl) hw.sources rfl id
      exact hw'.handled_other hp hreq

/-! ## The start -/

/-- The state in which the server enters its loop: it can run, and no task is blocked
sending to it. -/
structure Enters (k : Kernel) (sv : Slot) : Prop where
  run : canRun (k.tasks sv) = true
  free : ∀ i, (k.tasks i).active = true → IsSending (k.tasks i) →
    (k.tasks i).sendTo ≠ (k.tasks sv).id

/-- The replies of a run are to submitted calls. -/
theorem reply_submitted {kernelPd : UInt32} {ls : List (Slot × Action)} {k : Kernel}
    (h : Run (Kernel.StepIf Sequential) (boot kernelPd) ls k) :
    (OnceInv False k ∧ Numbering k) ∧
      ∀ n r, .reply n r ∈ k.log → ∃ c t d a, .submit n c t d a ∈ k.log := by
  refine h.invariant (I := fun k => (OnceInv False k ∧ Numbering k) ∧
    ∀ n r, .reply n r ∈ k.log → ∃ c t d a, .submit n c t d a ∈ k.log) (fun s l t hst hs => ?_)
    ⟨⟨onceInv_boot kernelPd, numbering_boot kernelPd⟩, fun n r hr => absurd hr List.not_mem_nil⟩
  obtain ⟨hseq, rfl⟩ := hst
  refine ⟨⟨onceInv_act hs.1.1 hseq False.elim, numbering_act hs.1.2 _ _⟩, fun n r hr => ?_⟩
  have hsub := (log_suffix_act hseq).subset
  have hseq' : (s.onBehalf l.1).Sequential (s.onBehalf l.1).currentTask l.2 := by
    obtain ⟨c, a⟩ := l
    cases a <;> exact hseq
  rcases reply_mem_exec hseq' hr with hold | ⟨p, msg, i, -, -, hin, rfl⟩
  · obtain ⟨c, t, d, a, hmem⟩ := hs.2 n r hold
    exact ⟨c, t, d, a, hsub hmem⟩
  · obtain ⟨hst, hon⟩ := inSendrec_eq_true.mp hin
    exact ⟨_, _, _, _, hsub (hs.1.1.sending i ⟨hst, Or.inr hon⟩)⟩

theorem serverInv_start {kernelPd : UInt32} {ls : List (Slot × Action)}
    (h : Run (Kernel.StepIf Sequential) (boot kernelPd) ls k₀)
    (hcreated : k₀.created - 1 < 2 ^ 32) (henter : Enters k₀ sv) (d : σ) :
    ServerInv srv sv k₀ (start k₀ d) := by
  obtain ⟨⟨honce, hnum⟩, hreply⟩ := reply_submitted h
  refine ⟨honce, fun i j hi hj => hnum.pids hcreated hi hj, ⟨active_of_canRun henter.run, rfl⟩,
    fun _ => henter.run, fun hi => ?_, fun i hact hin hto => ?_, fun htop => absurd rfl htop,
    fun i n hact hwait => ?_, fun n c t hn hmem => ?_, fun e he => ?_, fun n r hr => ?_⟩
  · exact absurd hi (by simp [idle, start])
  · obtain ⟨hst, hon⟩ := inSendrec_eq_true.mp hin
    exact absurd hto (henter.free i hact ⟨hst, Or.inr hon⟩)
  · exact absurd hwait.2.2.2 (henter.free i hact ⟨hwait.1, Or.inr hwait.2.1⟩)
  · exact absurd (honce.bound _ _ _ _ _ hmem) (not_lt.mpr hn)
  · exact absurd he List.not_mem_nil
  · obtain ⟨c, t, p, a, hmem⟩ := hreply n r hr
    exact honce.bound _ _ _ _ _ hmem

end World

end Microkernel

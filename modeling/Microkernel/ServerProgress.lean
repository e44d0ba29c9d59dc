/-
# A server works off its messages

The measure behind the progress of a server: the senders that wait for it and the pending
notification, and its place in the loop.  Every move of the server makes it smaller, so a
server that gets no further messages is idle after a bounded number of moves; an
idle server has answered every request once.
-/
import Microkernel.ServerAnswers

namespace Microkernel

open Kernel

/-- The moves to the end of a round of the loop. -/
def Phase.rest : Phase → ℕ
  | .top => 1
  | .received => 2
  | .waiting => 3

namespace World

open ServerInv

variable {σ : Type*} {D : Drivers σ} {srv : Server} {sv : Slot} {k₀ : Kernel} {w w' : World σ}

/-- The client in slot `i` waits for the answer to the request the server holds. -/
def isServed (w : World σ) (i : Slot) : Bool :=
  w.phase != .top && inSendrec (w.kernel.tasks i) &&
    latestCopy w.kernel.log == some (w.kernel.tasks i).call

/-- The senders whose messages the server has still to take. -/
def backlog (sv : Slot) (w : World σ) : Finset Slot :=
  Finset.univ.filter fun i =>
    isBlockedSender (w.pid sv) pidAny (w.kernel.tasks i) && !w.isServed i

/-- `1` if a notification is pending for the server. -/
def pendingCount (sv : Slot) (w : World σ) : ℕ :=
  if w.kernel.pendingNotify (notifyIndex (w.pid sv)) = 0 then 0 else 1

/-- The messages the server has still to take. -/
def load (sv : Slot) (w : World σ) : ℕ := (w.backlog sv).card + w.pendingCount sv

/-- The number of moves the server may need until it is idle. -/
def toDo (sv : Slot) (w : World σ) : ℕ := if w.idle sv then 0 else 2 * w.load sv + w.phase.rest

theorem toDo_le (sv : Slot) (w : World σ) : w.toDo sv ≤ 69 := by
  have hcard : (w.backlog sv).card ≤ 32 := (Finset.card_le_univ _).trans_eq (Fintype.card_fin _)
  have hpend : w.pendingCount sv ≤ 1 := by
    unfold pendingCount
    split_ifs <;> omega
  have hrest : w.phase.rest ≤ 3 := by
    cases w.phase <;> simp [Phase.rest]
  unfold toDo load
  split_ifs <;> omega

theorem mem_backlog {i : Slot} : i ∈ w.backlog sv ↔
    isBlockedSender (w.pid sv) pidAny (w.kernel.tasks i) = true ∧ w.isServed i = false := by
  simp [backlog]

theorem isServed_top (h : w.phase = .top) (i : Slot) : w.isServed i = false := by
  rw [isServed, h]
  rfl

theorem isBlockedSender_of_canRun {p : UInt32} {t : Task} (h : canRun t = true) :
    isBlockedSender p pidAny t = false := by
  simp [isBlockedSender, state_ne_blocked_of_canRun h]

/-- A client that waits for the request the server holds has made it. -/
theorem ServerInv.holdsRequest_of_isServed (hw : ServerInv srv sv k₀ w) {i : Slot}
    (h : w.isServed i = true) : w.holdsRequest = true := by
  simp only [isServed, Bool.and_eq_true, beq_iff_eq] at h
  obtain ⟨hst, hon⟩ := inSendrec_eq_true.mp h.1.2
  rw [holdsRequest, h.2]
  exact hw.isRequest_of_waits ⟨hst, hon, rfl, rfl⟩

/-- Taking a notification leaves the senders and takes the notification. -/
theorem backlog_notification {k' : Kernel} {t : Task} {p : Phase} (htop : w.phase = .top)
    (hrun : canRun (w.kernel.tasks sv) = true) (ht : canRun t = true)
    (hid : t.id = (w.kernel.tasks sv).id)
    (htasks : k'.tasks = Function.update w.kernel.tasks sv t) (hcopy : latestCopy k'.log = none) :
    ({ w with kernel := k', phase := p } : World σ).backlog sv = w.backlog sv := by
  ext i
  have hpid : ({ w with kernel := k', phase := p } : World σ).pid sv = w.pid sv := by
    show (k'.tasks sv).id = _
    rw [htasks, Function.update_self]
    exact hid
  rw [mem_backlog, mem_backlog, hpid, isServed_top htop]
  have hserved : ({ w with kernel := k', phase := p } : World σ).isServed i = false := by
    simp [isServed, hcopy]
  rw [hserved]
  show isBlockedSender _ _ (k'.tasks i) = true ∧ _ ↔ _
  rw [htasks]
  by_cases hi : i = sv
  · subst hi
    rw [Function.update_self, isBlockedSender_of_canRun ht, isBlockedSender_of_canRun hrun]
  · rw [Function.update_of_ne hi]

/-- Taking a sender's message takes the sender off the backlog. -/
theorem ServerInv.backlog_message (hw : ServerInv srv sv k₀ w) {k' : Kernel} {s : Slot}
    (htop : w.phase = .top) (hne : s ≠ sv) (hact : (w.kernel.tasks s).active = true)
    (hsend : IsSending (w.kernel.tasks s))
    (hto : (w.kernel.tasks s).sendTo = (w.kernel.tasks sv).id) {msg : Message}
    (htask : k'.tasks sv = gotMessage (w.kernel.tasks sv) w.kernel.calls msg)
    (hsender : if (w.kernel.tasks s).blockedOn = .sendrec then k'.tasks s = w.kernel.tasks s
      else k'.tasks s = { w.kernel.tasks s with state := .ready, blockedOn := .none })
    (hothers : ∀ i, i ≠ sv → i ≠ s → k'.tasks i = w.kernel.tasks i)
    (hcopy : latestCopy k'.log = some (w.kernel.tasks s).call) :
    ({ w with kernel := k', phase := .received } : World σ).backlog sv = (w.backlog sv).erase s ∧
      s ∈ w.backlog sv := by
  have hrun := hw.awake (top_not_idle htop)
  have hpid : ({ w with kernel := k', phase := .received } : World σ).pid sv = w.pid sv := by
    show (k'.tasks sv).id = _
    rw [htask]
    rfl
  have hmem : s ∈ w.backlog sv := by
    rw [mem_backlog, isServed_top htop]
    refine ⟨?_, rfl⟩
    rcases hsend.2 with hon | hon <;> simp [isBlockedSender, hact, hsend.1, hon, hto, pid]
  refine ⟨?_, hmem⟩
  ext i
  rw [Finset.mem_erase, mem_backlog, mem_backlog, hpid, isServed_top htop]
  by_cases hi : i = sv
  · -- The server is no sender, before and after.
    subst hi
    have hrun' : canRun (k'.tasks i) = true := by
      rw [htask]
      exact hrun
    rw [show ({ w with kernel := k', phase := .received } : World σ).kernel.tasks i = _ from rfl,
      isBlockedSender_of_canRun hrun', isBlockedSender_of_canRun hrun]
    simp
  · by_cases his : i = s
    · -- The sender is ready, or served.
      subst his
      simp only [ne_eq, not_true_eq_false, false_and, iff_false, not_and, Bool.not_eq_false]
      intro hblocked
      split_ifs at hsender with hon
      · simp [isServed, hsender, hcopy, inSendrec, hsend.1, hon]
      · rw [hsender] at hblocked
        exact absurd hblocked (by simp [isBlockedSender])
    · have heq := hothers i hi his
      have hserved : ({ w with kernel := k', phase := .received } : World σ).isServed i = true →
          isBlockedSender (w.pid sv) pidAny (w.kernel.tasks i) = false := by
        intro h
        simp only [isServed, heq, hcopy, Bool.and_eq_true, beq_iff_eq, Option.some_inj] at h
        obtain ⟨hst, hon⟩ := inSendrec_eq_true.mp h.1.2
        exact absurd (hw.once.distinct i s ⟨hst, Or.inr hon⟩ hsend h.2.symm) his
      dsimp only at hserved ⊢
      rw [heq]
      constructor
      · exact fun h => ⟨his, h.1, rfl⟩
      · rintro ⟨-, hb, -⟩
        refine ⟨hb, ?_⟩
        by_contra hs
        rw [Bool.not_eq_false] at hs
        rw [hserved hs] at hb
        exact absurd hb Bool.false_ne_true

/-- The answer to a request takes nobody off the backlog. -/
theorem ServerInv.backlog_request (hw : ServerInv srv sv k₀ w) {w' : World σ} {n : ℕ} {i : Slot}
    {t : Task} (hphase : w.phase = .received) (htop : w'.phase = .top)
    (hcopy : latestCopy w.kernel.log = some n) (hwait : Waits (w.kernel.tasks i) n (w.pid sv))
    (htasks : w'.kernel.tasks = Function.update w.kernel.tasks i t) (ht : canRun t = true)
    (hid : t.id = (w.kernel.tasks i).id) : w'.backlog sv = w.backlog sv := by
  have hpid : w'.pid sv = w.pid sv := by
    rw [pid, pid, htasks]
    by_cases hi : sv = i
    · rw [hi, Function.update_self]
      exact hid
    · rw [Function.update_of_ne hi]
  have hphase' : (w.phase != .top) = true := by
    rw [hphase]
    rfl
  ext j
  rw [mem_backlog, mem_backlog, hpid, isServed_top htop, htasks]
  by_cases hj : j = i
  · subst hj
    have hserved : w.isServed j = true := by
      simp [isServed, hphase', hwait.inSendrec, hcopy, hwait.2.2.1]
    rw [Function.update_self, isBlockedSender_of_canRun ht, hserved]
    simp
  · have hserved : w.isServed j = false := by
      rw [Bool.eq_false_iff]
      intro h
      simp only [isServed, hcopy, Bool.and_eq_true, beq_iff_eq, Option.some_inj] at h
      obtain ⟨hst, hon⟩ := inSendrec_eq_true.mp h.1.2
      exact hj (hw.once.distinct j i ⟨hst, Or.inr hon⟩ ⟨hwait.1, Or.inr hwait.2.1⟩
        (h.2.symm.trans hwait.2.2.1.symm))
    rw [Function.update_of_ne hj, hserved]

/-- Nor does the processing of another message. -/
theorem ServerInv.backlog_other (hw : ServerInv srv sv k₀ w) {w' : World σ}
    (hother : w.holdsRequest = false) (htop : w'.phase = .top)
    (htasks : w'.kernel.tasks = w.kernel.tasks) : w'.backlog sv = w.backlog sv := by
  ext j
  have hserved : w.isServed j = false := by
    rw [Bool.eq_false_iff]
    intro h
    rw [hw.holdsRequest_of_isServed h] at hother
    exact absurd hother (by simp)
  rw [mem_backlog, mem_backlog, isServed_top htop, hserved, pid, pid, htasks]

theorem toDo_of_not_idle (h : w.idle sv = false) :
    w.toDo sv = 2 * w.load sv + w.phase.rest := by
  rw [toDo, h]
  rfl

theorem pendingCount_congr {w' : World σ} (hpid : w'.pid sv = w.pid sv)
    (hpend : w'.kernel.pendingNotify = w.kernel.pendingNotify) :
    w'.pendingCount sv = w.pendingCount sv := by
  rw [pendingCount, pendingCount, hpid, hpend]

/-- A receive that returns takes one message. -/
theorem ServerInv.load_received (hw : ServerInv srv sv k₀ w) (htop : w.phase = .top)
    {k' : Kernel} {v : Int32} (h : Receives w.kernel k' sv (.ret v)) :
    ({ w with kernel := k', phase := .received } : World σ).load sv + 1 = w.load sv := by
  have hrun := hw.awake (top_not_idle htop)
  rw [load, load]
  cases h with
  | notification msg m hpend htasks hlog hpend' =>
    obtain ⟨d, t, hlog⟩ := hlog
    have hpid : (k'.tasks sv).id = (w.kernel.tasks sv).id := by
      rw [htasks, Function.update_self]
      rfl
    have hgot : canRun (gotMessage (w.kernel.tasks sv) w.kernel.calls msg) = true := hrun
    have hnone : ({ w with kernel := k', phase := .received } : World σ).pendingCount sv = 0 := by
      refine if_pos ?_
      show k'.pendingNotify (notifyIndex (k'.tasks sv).id) = 0
      rw [hpid, hpend', Function.update_self]
    have hone : w.pendingCount sv = 1 := if_neg hpend
    rw [backlog_notification htop hrun hgot rfl htasks (by rw [hlog, latestCopy_note]), hnone, hone]
  | message s hne hact hsend hto htask hsender hothers hlog hpend =>
    have hcopy : latestCopy k'.log = some (w.kernel.tasks s).call := by
      rw [hlog, latestCopy_deliver]
    obtain ⟨hback, hmem⟩ :=
      hw.backlog_message htop hne hact hsend hto htask hsender hothers hcopy
    have hpid : ({ w with kernel := k', phase := .received } : World σ).pid sv = w.pid sv := by
      show (k'.tasks sv).id = _
      rw [htask]
      rfl
    have hpos := Finset.card_pos.mpr ⟨s, hmem⟩
    rw [hback, Finset.card_erase_of_mem hmem, pendingCount_congr hpid hpend]
    omega

/-- Processing a message leaves the messages to take. -/
theorem ServerInv.load_handled (hw : ServerInv srv sv k₀ w) (hphase : w.phase = .received)
    (hproper : w.Proper srv sv .handle) {w' : World σ} (htop : w'.phase = .top)
    (hkernel : w'.kernel = w.afterReply D srv sv) : w'.load sv = w.load sv := by
  cases hreq : w.holdsRequest with
  | true =>
    obtain ⟨n, i, hcopy, hact, hwait, -, hfrom, hsil⟩ := hw.held_request hphase hreq
    obtain ⟨reply, -, hafter⟩ := afterReply_request (D := D) hsil
    obtain ⟨htasks, -, -, hpend⟩ :=
      replies_ipcReply sv (hw.pids.findDest hact) hwait.inSendrec reply
    rw [← hfrom, ← hafter, ← hkernel] at htasks hpend
    have hpid : w'.pid sv = w.pid sv := by
      have hne : sv ≠ i := by
        rintro rfl
        exact absurd (hwait.inSendrec.symm.trans hw.server_inSendrec) (by simp)
      rw [pid, pid, htasks, Function.update_of_ne hne]
    rw [load, load, pendingCount_congr hpid hpend,
      hw.backlog_request hphase htop hcopy hwait htasks (by simp [canRun, filled, hact]) rfl]
  | false =>
    obtain ⟨c, hafter⟩ := afterReply_other (D := D) hproper hreq
    rw [hafter] at hkernel
    have htasks : w'.kernel.tasks = w.kernel.tasks := by
      rw [hkernel]
      rfl
    have hpend : w'.kernel.pendingNotify = w.kernel.pendingNotify := by
      rw [hkernel]
      rfl
    have hpid : w'.pid sv = w.pid sv := by rw [pid, pid, htasks]
    rw [load, load, pendingCount_congr hpid hpend, hw.backlog_other hreq htop htasks]

/-- **Every move of the server leaves it less to do.** -/
theorem toDo_lt {a : ServerMove} (hw : ServerInv srv sv k₀ w)
    (h : StepIf D srv sv (Proper srv sv) w a w') (ha : a.isServer = true) :
    w'.toDo sv < w.toDo sv := by
  obtain ⟨hproper, hstep⟩ := h
  rcases step_cases hstep with ⟨c, msg, rfl, -, -, -⟩ | ⟨c, msg, rfl, -, -, -⟩ |
    ⟨msg, rfl, -⟩ | ⟨rfl, hp, rfl⟩ | ⟨rfl, hp, hrun, rfl⟩ | ⟨rfl, hp, rfl⟩
  · exact absurd ha Bool.false_ne_true
  · exact absurd ha Bool.false_ne_true
  · exact absurd ha Bool.false_ne_true
  · have hidle : w.idle sv = false := top_not_idle hp
    rw [toDo_of_not_idle hidle, hp]
    have hrec := receives_ipcReceive (hw.awake hidle) (w.msg sv)
    generalize ((w.kernel.onBehalf sv).ipcReceive pidAny (some (w.msg sv))).1 = k' at hrec ⊢
    generalize ((w.kernel.onBehalf sv).ipcReceive pidAny (some (w.msg sv))).2 = o at hrec ⊢
    cases o with
    | ret v =>
      have hload := hw.load_received hp hrec
      rw [toDo_of_not_idle (received_not_idle rfl)]
      simp only [Phase.afterReceive, Phase.rest]
      omega
    | yields =>
      cases hrec with
      | blocks msg hpend hnone htasks hlog hpend' =>
        have hidle' : ({ w with kernel := k', phase := .waiting } : World σ).idle sv = true := by
          simp [idle, htasks, inReceive, blockedReceiver]
        rw [toDo, Phase.afterReceive, hidle', if_pos rfl]
        exact Nat.succ_pos _
  · have hidle : w.idle sv = false := by
      rw [idle, inReceive_eq_false_of_canRun hrun, Bool.and_false]
    have hserved : ∀ i, ({ w with phase := .received } : World σ).isServed i = w.isServed i := by
      intro i
      rw [isServed, isServed, hp]
      rfl
    have hload : ({ w with phase := .received } : World σ).load sv = w.load sv := by
      have hback : ({ w with phase := .received } : World σ).backlog sv = w.backlog sv := by
        ext i
        rw [mem_backlog, mem_backlog, hserved]
        rfl
      rw [load, load, hback]
      rfl
    rw [toDo_of_not_idle hidle, toDo_of_not_idle (received_not_idle rfl), hload, hp]
    exact Nat.lt_succ_self _
  · rw [toDo_of_not_idle (received_not_idle hp), toDo_of_not_idle (top_not_idle rfl),
      hw.load_handled hp hproper rfl rfl, hp]
    exact Nat.lt_succ_self _

/-- A server that is not idle has a move to make. -/
theorem exists_serverMove (hw : ServerInv srv sv k₀ w) (h : w.idle sv = false) :
    ∃ a : ServerMove, a.isServer = true ∧ (w.step D srv sv a).isSome = true := by
  have hrun := hw.awake h
  cases hp : w.phase with
  | top => exact ⟨.receive, rfl, by simp [step, hp]⟩
  | waiting => exact ⟨.resume, rfl, by simp [step, hp, hrun]⟩
  | received => exact ⟨.handle, rfl, by simp [step, hp]⟩

/-- The moves of a run of the server alone are bounded by what it has to do. -/
theorem length_add_toDo_le {bs : List ServerMove} (hw : ServerInv srv sv k₀ w)
    (h : Run (StepIf D srv sv (Proper srv sv)) w bs w') (hbs : ∀ a ∈ bs, a.isServer = true) :
    bs.length + w'.toDo sv ≤ w.toDo sv := by
  induction h with
  | nil w => simp
  | cons hstep _ ih =>
    have hlt := toDo_lt hw hstep (hbs _ List.mem_cons_self)
    have := ih (serverInv_step hw hstep) fun a ha => hbs a (List.mem_cons_of_mem _ ha)
    rw [List.length_cons]
    omega

/-! ## The guarantee -/

/-- What a move that processes a request does: the client it answers is the one blocked in
that request, the reply is the one computed for the client's message, and the client has
it in its buffer before the server's next receive. -/
def AnswersRequest (D : Drivers σ) (srv : Server) (sv : Slot) (w w' : World σ) : Prop :=
  ∃ n i reply, latestCopy w.kernel.log = some n ∧ Waits (w.kernel.tasks i) n (w.pid sv) ∧
    (srv.serve D w.drivers (w.kernel.tasks i).msgBuf).2 = some reply ∧
    canRun (w'.kernel.tasks i) = true ∧
    (w'.kernel.tasks i).msgBuf = { reply with sender := w.pid sv } ∧
    w'.processed n = 1 ∧ w'.kernel.replies n = 1 ∧ w'.phase = .top

theorem answersRequest_of_handle (hw : ServerInv srv sv k₀ w)
    (h : StepIf D srv sv (Proper srv sv) w .handle w') (hreq : w.holdsRequest = true) :
    AnswersRequest D srv sv w w' := by
  have hw' := serverInv_step hw h
  obtain ⟨-, hstep⟩ := h
  rcases step_cases hstep with ⟨c, msg, hno, -⟩ | ⟨c, msg, hno, -⟩ | ⟨msg, hno, -⟩ | ⟨hno, -⟩ |
    ⟨hno, -⟩ | ⟨-, hp, rfl⟩
  · exact absurd hno (by simp)
  · exact absurd hno (by simp)
  · exact absurd hno (by simp)
  · exact absurd hno (by simp)
  · exact absurd hno (by simp)
  obtain ⟨n, i, hcopy, hact, hwait, hmsg, hfrom, hsil⟩ := hw.held_request hp hreq
  obtain ⟨reply, hreply, hafter⟩ := afterReply_request (D := D) hsil
  obtain ⟨htasks, hlog, -, -⟩ :=
    replies_ipcReply sv (hw.pids.findDest hact) hwait.inSendrec reply
  rw [← hfrom, ← hafter] at htasks hlog
  obtain ⟨hproc, hrep⟩ := hw.waiting i n hact hwait
  have htask : (w.afterReply D srv sv).tasks i =
      filled (w.kernel.tasks i) (w.kernel.tasks sv).id reply := by
    rw [htasks, Function.update_self]
  refine ⟨n, i, reply, hcopy, hwait, hmsg ▸ hreply, ?_, ?_, ?_, ?_, rfl⟩
  · rw [htask]
    simp [canRun, filled, hact]
  · rw [htask]
    rfl
  · rw [processed] at hproc ⊢
    rw [List.countP_cons, hproc, hcopy]
    simp
  · rw [replies] at hrep ⊢
    rw [hlog, List.countP_cons, hrep, Event.answers, hwait.2.2.1]
    simp

/-- Drivers of a machine with no devices and no files. -/
def noDevices : Drivers Unit where
  terminalPutchar := fun _ _ => ()
  terminalClear := fun _ => ()
  terminalSetcolor := fun _ _ => ()
  keyboardGetchar := fun _ => (0, ())
  procfsRead := fun _ _ _ _ => (-1, ())
  fat16IsMounted := fun _ => false
  fat16ReadFile := fun _ _ _ _ => (-1, ())
  fat16WriteFile := fun _ _ _ _ => (-1, ())
  ntfsIsMounted := fun _ => false
  ntfsReadFile := fun _ _ _ _ => (-1, ())
  ntfsWriteFile := fun _ _ _ _ => (-1, ())
  ramfsRead := fun _ _ _ _ => (-1, ())
  ramfsWrite := fun _ _ _ _ => (-1, ())
  ramfsCreate := fun _ _ _ => (-1, ())
  ramfsDelete := fun _ _ => (-1, ())
  ataReadSectors := fun _ _ _ _ => (false, ())
  ataWriteSectors := fun _ _ _ _ => (false, ())
  ataDrivePresent := fun _ => false
  ataDriveSizeMb := fun _ => 0
  netIsAvailable := fun _ => false
  netPoll := fun _ => ()

/-- The creation of a server in slot 1 and a client in slot 2. -/
def twoTasks : List (Slot × Action) :=
  [(0, .call (.taskCreateUser [] 1 false 0x10000 0x20000 0x30000)),
    (0, .call (.taskCreateUser [] 1 false 0x11000 0x21000 0x31000))]

/-- The state after these creations. -/
def twoTasksKernel : Kernel :=
  twoTasks.foldl (fun k l => k.act l.1 l.2) (boot 0x1000)

theorem run_twoTasks :
    Run (Kernel.StepIf Sequential) (boot 0x1000) twoTasks twoTasksKernel :=
  .cons ⟨by decide, rfl⟩ (.cons ⟨by decide, rfl⟩ (.nil _))

/-- A notification, a plain message and a request of the client. -/
def threeMessages : List ServerMove :=
  [.notify .zero, .receive, .handle, .receive, .send 2 .zero, .resume,
    .handle, .sendrec 2 { Message.zero with type := 42 }, .receive, .handle, .receive]

/-- A plain message is answered into the buffer of the request its sender made since, which
is then never processed. -/
example : ∃ w, Run (StepIf noDevices .console 1 fun _ _ => True) (start twoTasksKernel ())
    [.receive, .send 2 .zero, .sendrec 2 .zero, .resume, .handle, .receive] w ∧
    .submit 2 2 2 (w.pid 1) true ∈ w.kernel.log ∧
    w.processed 2 = 0 ∧ w.kernel.replies 2 = 1 ∧ w.idle 1 = true :=
  Run.exists_of_follow (by decide)

end World

end Microkernel

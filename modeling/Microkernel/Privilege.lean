/-
# Privilege and the system calls

Which system calls of an unprivileged task can make a task I/O-privileged or create one.
`SYS_GRANT_IO` and `SYS_CREATE_TASK` do not look at the caller, and a call with a pointer
into the kernel's variables can do anything; all other calls, and the interrupts between
them, leave the privileges and the set of tasks alone, over whole runs.
-/
import Microkernel.Syscalls
import Microkernel.Evolution

namespace Microkernel

namespace Kernel

/-! ## The privilege flags -/

/-- No privilege flag differs. -/
def SameIo (k k' : Kernel) : Prop := ∀ i, (k'.tasks i).ioPrivileged = (k.tasks i).ioPrivileged

namespace SameIo

variable {k k' k'' : Kernel}

theorem refl (k : Kernel) : SameIo k k := fun _ => rfl

theorem trans (h : SameIo k k') (h' : SameIo k' k'') : SameIo k k'' :=
  fun i => (h' i).trans (h i)

theorem of_tasks_eq (h : k'.tasks = k.tasks) : SameIo k k' := fun i => by rw [h]

/-- Overwriting an entry by one with the same flag. -/
theorem setTask {i : Slot} {t : Task} (h : t.ioPrivileged = (k.tasks i).ioPrivileged) :
    SameIo k (k.setTask i t) := by
  intro j
  by_cases hj : j = i
  · subst hj
    simpa using h
  · simp [hj]

end SameIo

variable (k : Kernel)

theorem sameIo_taskYield : SameIo k k.taskYield := .setTask rfl

theorem sameIo_sleepUntil (wakeTick : UInt32) : SameIo k (k.sleepUntil wakeTick) := by
  have h : SameIo k (k.setTask k.currentTask { k.current with
      state := .sleeping, wakeTick := wakeTick, call := k.calls }) := .setTask rfl
  exact (h.trans (.of_tasks_eq rfl)).trans (sameIo_taskYield _)

theorem sameIo_endTask (i : Slot) (cr3 : UInt32) :
    SameIo k { k.endTask i with cr3 := cr3 } := by
  have h : SameIo k (k.setTask i { k.tasks i with
      state := .terminated, active := false, pageDirectory := 0 }) := .setTask rfl
  exact h.trans (.of_tasks_eq rfl)

theorem sameIo_beginCall : SameIo k k.beginCall := by
  have h : SameIo k (k.setTask k.currentTask { k.current with call := k.calls }) := .setTask rfl
  exact h.trans (.of_tasks_eq rfl)

theorem sameIo_submit (destPid : UInt32) (awaits : Bool) : SameIo k (k.submit destPid awaits) :=
  (sameIo_beginCall k).trans (.of_tasks_eq rfl)

theorem sameIo_fillBuffer (i : Slot) (msg : Message) : SameIo k (k.fillBuffer i msg) :=
  .setTask rfl

theorem sameIo_deliverNow (d : Slot) (msg : Message) : SameIo k (k.deliverNow d msg) :=
  (SameIo.of_tasks_eq rfl).trans (sameIo_fillBuffer _ d msg)

theorem sameIo_blockSending (on : BlockedOn) (destPid : UInt32) (msg : Message) :
    SameIo k (k.blockSending on destPid msg) := by
  refine SameIo.trans (.setTask ?_) (sameIo_taskYield _)
  rfl

theorem sameIo_blockReceiving (fromPid : UInt32) (msg : Message) :
    SameIo k (k.blockReceiving fromPid msg) := by
  refine SameIo.trans (.setTask ?_) (sameIo_taskYield _)
  rfl

theorem sameIo_ipcSend (destPid : UInt32) (msg : Option Message) :
    SameIo k (k.ipcSend destPid msg).1 := by
  unfold ipcSend
  split
  · exact .refl k
  · split
    · exact .refl k
    · dsimp only
      split_ifs
      · exact (sameIo_submit _ _ _).trans (sameIo_deliverNow _ _ _)
      · exact (sameIo_submit _ _ _).trans (sameIo_blockSending _ _ _ _)

theorem sameIo_ipcSendrec (destPid : UInt32) (msg : Option Message) :
    SameIo k (k.ipcSendrec destPid msg).1 := by
  unfold ipcSendrec
  split
  · exact .refl k
  · split
    · exact .refl k
    · dsimp only
      refine (sameIo_submit _ destPid true).trans (SameIo.trans ?_ (sameIo_blockSending _ _ _ _))
      split_ifs
      · exact sameIo_deliverNow _ _ _
      · exact .refl _

theorem sameIo_takeNotification : SameIo k k.takeNotification := by
  have h : SameIo k (k.setTask k.currentTask
      { k.current with msgBuf := k.notifyMsg (notifyIndex k.current.id) }) := .setTask rfl
  exact h.trans (.of_tasks_eq rfl)

theorem sameIo_takeMessage (s : Slot) : SameIo k (k.takeMessage s) := by
  unfold takeMessage
  have h : SameIo k (k.setTask k.currentTask { k.current with
      msgBuf := { (k.tasks s).msgBuf with sender := (k.tasks s).id } }) := .setTask rfl
  dsimp only
  split_ifs
  all_goals exact (h.trans (.of_tasks_eq rfl)).trans (.setTask rfl)

theorem sameIo_ipcReceive (fromPid : UInt32) (msg : Option Message) :
    SameIo k (k.ipcReceive fromPid msg).1 := by
  unfold ipcReceive
  split
  · exact .refl k
  · dsimp only
    refine (sameIo_beginCall k).trans ?_
    split_ifs
    · exact sameIo_takeNotification _
    · split
      · exact sameIo_takeMessage _ _
      · exact sameIo_blockReceiving _ _ _

theorem sameIo_ipcReply (destPid : UInt32) (msg : Option Message) :
    SameIo k (k.ipcReply destPid msg).1 := by
  unfold ipcReply
  split
  · exact .refl k
  · split
    · exact .refl k
    · split_ifs
      · exact ((SameIo.of_tasks_eq rfl).trans (sameIo_fillBuffer _ _ _)).trans (.of_tasks_eq rfl)
      · exact .refl k

theorem sameIo_ipcNotify (destPid : UInt32) (msg : Message) :
    SameIo k (k.ipcNotify destPid msg).1 := by
  unfold ipcNotify
  split
  · exact .refl k
  · dsimp only
    split_ifs
    · exact (SameIo.of_tasks_eq rfl).trans (sameIo_fillBuffer _ _ _)
    · exact .of_tasks_eq rfl

theorem sameIo_ipcRegisterService (name : List UInt8) (pid : UInt32) :
    SameIo k (k.ipcRegisterService name pid).1 := by
  unfold ipcRegisterService
  split
  · exact .of_tasks_eq rfl
  · split
    · exact .of_tasks_eq rfl
    · exact .refl k

theorem sameIo_sysRegisterIrq (irq : UInt32) : SameIo k (k.sysRegisterIrq irq).1 := by
  unfold sysRegisterIrq
  split_ifs
  · have h : SameIo k (k.setTask k.currentTask { k.current with
        ownedIrqs := k.current.ownedIrqs ||| (1 <<< irq) }) := .setTask rfl
    exact h.trans (.of_tasks_eq rfl)
  · exact .refl k

theorem sameIo_wakeSleeping : SameIo k k.wakeSleeping := by
  intro i
  show (wakeTask k.tickCount (k.tasks i)).ioPrivileged = (k.tasks i).ioPrivileged
  unfold wakeTask
  split_ifs <;> rfl

theorem sameIo_countQuantum : SameIo k k.countQuantum := by
  unfold countQuantum
  split_ifs
  · exact .setTask rfl
  · exact .refl k

theorem sameIo_switchTo (regs : UInt32) {next : Slot} (h : next ≠ k.currentTask) :
    SameIo k (k.switchTo regs next) := by
  intro i
  by_cases hn : i = next
  · rw [hn, switchTo_tasks_next k regs h]
  · by_cases hc : i = k.currentTask
    · rw [hc, switchTo_tasks_current k regs h]
      rfl
    · rw [switchTo_tasks_other k regs hn hc]

theorem sameIo_reschedule (regs : UInt32) : SameIo k (k.reschedule regs) := by
  refine (sameIo_wakeSleeping k).trans ?_
  by_cases h : k.wakeSleeping.pickNext = k.currentTask
  · rw [reschedule_of_eq k regs h]
    exact .setTask rfl
  · rw [reschedule_of_ne k regs h]
    exact sameIo_switchTo _ regs h

theorem sameIo_timerCallback (regs : UInt32) : SameIo k (k.timerCallback regs) := by
  have h₀ : SameIo k { k with tickCount := k.tickCount + 1 } := .of_tasks_eq rfl
  have h₁ : SameIo k { k with tickCount := k.tickCount + 1 }.countTick := h₀.trans (.setTask rfl)
  have h₂ := h₁.trans (sameIo_countQuantum _)
  unfold timerCallback taskTimerTick
  dsimp only
  split_ifs
  · exact h₀
  · exact h₁
  · exact h₁.trans (sameIo_reschedule _ regs)
  · exact h₂
  · exact h₂.trans (sameIo_reschedule _ regs)

theorem sameIo_routeIrq (irq : Fin 16) : SameIo k (k.routeIrq irq) := by
  unfold routeIrq
  dsimp only
  split_ifs
  · exact sameIo_ipcNotify _ _ _
  · exact .refl k

/-! ## Runs of system calls -/

/-- No task became I/O-privileged and no task was created. -/
structure NoLeak (k k' : Kernel) : Prop where
  created : k'.created = k.created
  tasks : ∀ i, (k'.tasks i).active = true → (k.tasks i).active = true ∧
    (k'.tasks i).serial = (k.tasks i).serial ∧ (k'.tasks i).id = (k.tasks i).id
  io : ∀ i, (k'.tasks i).ioPrivileged = true → (k.tasks i).ioPrivileged = true

theorem NoLeak.refl : NoLeak k k := ⟨rfl, fun _ h => ⟨h, rfl, rfl⟩, fun _ h => h⟩

theorem NoLeak.trans {k k' k'' : Kernel} (h : NoLeak k k') (h' : NoLeak k' k'') :
    NoLeak k k'' := by
  refine ⟨h'.created.trans h.created, fun i hi => ?_, fun i hi => h.io i (h'.io i hi)⟩
  obtain ⟨ha', hs', hid'⟩ := h'.tasks i hi
  obtain ⟨ha, hs, hid⟩ := h.tasks i ha'
  exact ⟨ha, hs'.trans hs, hid'.trans hid⟩

theorem NoLeak.of_tame {k k' : Kernel} (h : Tame k k') (hio : SameIo k k') : NoLeak k k' := by
  refine ⟨h.created, fun i hi => ?_, fun i hi => (hio i).symm.trans hi⟩
  rw [(h.tasks i).active] at hi
  exact ⟨hi, (h.tasks i).serial, (h.tasks i).id⟩

theorem noLeak_taskExit : NoLeak k k.taskExit.1 := by
  by_cases h : k.currentTask = 0
  · rw [taskExit, if_pos h]
    exact .refl k
  · rw [taskExit_of_ne h]
    have hend : ∀ cr3, NoLeak k { k.endTask k.currentTask with cr3 := cr3 } := by
      intro cr3
      refine ⟨rfl, fun j hj => ?_, fun j hj => (sameIo_endTask k _ cr3 j).symm.trans hj⟩
      have hsame := endTask_tasks_ne k (ne_of_active_endTask k hj)
      dsimp only at hj ⊢
      rw [hsame] at hj ⊢
      exact ⟨hj, rfl, rfl⟩
    exact (hend _).trans (.of_tame (tame_taskYield _) (sameIo_taskYield _))

/-- The driver's waiting changes no more than the quantum. -/
theorem noLeak_drive (env : Answers) : NoLeak k (Syscall.drive k env) := by
  unfold Syscall.drive
  induction env.yields generalizing k with
  | zero => exact .refl k
  | succ n ih =>
    rw [Function.iterate_succ_apply]
    exact (NoLeak.of_tame (tame_taskYield k) (sameIo_taskYield k)).trans (ih _)

theorem noLeak_sysGrantIo_iff (pid : UInt32) : NoLeak k (k.sysGrantIo pid).1 ↔
    ∀ i, k.taskGetByPid (if pid ≠ 0 then pid else k.current.id) = some i →
      (k.tasks i).ioPrivileged = true := by
  cases hi : k.taskGetByPid (if pid ≠ 0 then pid else k.current.id) with
  | none =>
    have heq : (k.sysGrantIo pid).1 = k := by
      unfold sysGrantIo
      rw [hi]
    rw [heq]
    refine ⟨fun _ j hj => ?_, fun _ => .refl k⟩
    cases hj
  | some i =>
    have heq : (k.sysGrantIo pid).1 = k.setTask i { k.tasks i with ioPrivileged := true } := by
      unfold sysGrantIo
      rw [hi]
    constructor
    · intro h j hj
      cases hj
      apply h.io i
      rw [heq]
      simp
    · intro h
      refine .of_tame (tame_sysGrantIo k pid) ?_
      rw [heq]
      exact .setTask (h i rfl).symm

theorem noLeak_createUser_iff (name : List UInt8) (priority : UInt32)
    (userStack kernelStack pd : UInt32) :
    NoLeak k (k.taskCreateUser name priority false userStack kernelStack pd).1 ↔
      k.freeSlot = none ∨ userStack = 0 ∨ kernelStack = 0 ∨ pd = 0 := by
  unfold taskCreateUser
  split
  · rename_i hslot
    exact ⟨fun _ => Or.inl hslot, fun _ => .refl k⟩
  · rename_i slot hslot
    split_ifs with h
    · exact ⟨fun _ => Or.inr h, fun _ => .refl k⟩
    · constructor
      · intro hno
        exact absurd hno.created (Nat.succ_ne_self k.created)
      · rintro (hnone | hzero)
        · rw [hslot] at hnone
          cases hnone
        · exact absurd hzero h

/-- What a system call must not do: name an active unprivileged task to `SYS_GRANT_IO`, or
succeed in `SYS_CREATE_TASK`. -/
def Harmless (env : Answers) : Syscall → Prop
  | .grantIo pid => ∀ i, k.taskGetByPid (if pid ≠ 0 then pid else k.current.id) = some i →
      (k.tasks i).ioPrivileged = true
  | .createTask _ _ _ => k.freeSlot = none ∨ env.userStack = 0 ∨ env.kernelStack = 0 ∨
      env.pageDirectory = 0
  | _ => True

/-- **One system call**: it neither makes a task I/O-privileged nor creates one exactly when
it is harmless, whoever makes it. -/
theorem noLeak_exec_iff (env : Answers) (s : Syscall) :
    NoLeak k (s.exec k env).1 ↔ k.Harmless env s := by
  have hall : ∀ {k'}, Tame k k' → SameIo k k' → (NoLeak k k' ↔ True) := fun ht hs =>
    iff_true_intro (.of_tame ht hs)
  cases s with
  | grantIo pid => exact noLeak_sysGrantIo_iff k pid
  | createTask name entry priority => exact noLeak_createUser_iff k name priority _ _ _
  | exit => exact iff_true_intro (noLeak_taskExit k)
  | sleep ms => exact hall (tame_sleepUntil k _) (sameIo_sleepUntil k _)
  | send d m => exact hall (tame_ipcSend k d m.get) (sameIo_ipcSend k d m.get)
  | receive f m => exact hall (tame_ipcReceive k f m.get) (sameIo_ipcReceive k f m.get)
  | sendrec d m => exact hall (tame_ipcSendrec k d m.get) (sameIo_ipcSendrec k d m.get)
  | reply d m => exact hall (tame_ipcReply k d m.get) (sameIo_ipcReply k d m.get)
  | notify d m => exact hall (tame_ipcNotify k d m.msg) (sameIo_ipcNotify k d m.msg)
  | registerSvc name =>
    exact hall (tame_ipcRegisterService k name _) (sameIo_ipcRegisterService k name _)
  | registerIrq irq => exact hall (tame_sysRegisterIrq k irq) (sameIo_sysRegisterIrq k irq)
  | guiPresent | virglSubmit | gpu3dInit => exact iff_true_intro (noLeak_drive k env)
  | gpu3dPresent =>
    refine iff_true_intro ((noLeak_drive k env).trans (.of_tame ?_ ?_))
    · exact tame_sleepUntil _ _
    · exact sameIo_sleepUntil _ _
  | _ => exact iff_true_intro (.refl k)

end Kernel

/-- What happens while unprivileged tasks run: their system calls, and interrupts. -/
inductive Request where
  | syscall (s : Syscall) (env : Answers)
  | irq (n : Fin 16) (regs : UInt32)

namespace Kernel

/-- A ring-3 task without I/O privilege. -/
def Unprivileged (k : Kernel) (c : Slot) : Prop :=
  (k.tasks c).isUser = true ∧ (k.tasks c).ioPrivileged = false

instance (k : Kernel) (c : Slot) : Decidable (k.Unprivileged c) :=
  inferInstanceAs (Decidable (_ ∧ _))

section Runs

-- The memory, as address and length, that is clear of the kernel's variables.
variable (clear : UInt32 → UInt32 → Prop)

/-- A step while unprivileged tasks run.  A call that has the kernel write over its own
variables may leave any state. -/
def ServesRequest (k : Kernel) (l : Slot × Request) (k' : Kernel) : Prop :=
  match l.2 with
  | .syscall s env => k.Unprivileged l.1 ∧
      ((∀ w ∈ s.writes env, clear w.1 w.2) → k' = (s.exec (k.onBehalf l.1) env).1)
  | .irq n regs => k' = ((k.onBehalf l.1).irqHandler n regs).1

/-- The requests that keep the privileges: harmless calls that write nothing of the kernel. -/
def KeepsPrivilege (k : Kernel) (l : Slot × Request) : Prop :=
  match l.2 with
  | .syscall s env => (∀ w ∈ s.writes env, clear w.1 w.2) ∧ (k.onBehalf l.1).Harmless env s
  | .irq _ _ => True

/-- The steps that keep the privileges. -/
def ServesSafely (k : Kernel) (l : Slot × Request) (k' : Kernel) : Prop :=
  ServesRequest clear k l k' ∧ KeepsPrivilege clear k l

variable {clear}

theorem NoLeak.of_onBehalf {k k' : Kernel} {c : Slot} (h : NoLeak (k.onBehalf c) k') :
    NoLeak k k' := ⟨h.created, h.tasks, h.io⟩

theorem noLeak_irqHandler (k : Kernel) (irq : Fin 16) (regs : UInt32) :
    NoLeak k (k.irqHandler irq regs).1 := by
  refine irqHandler_invariant (I := NoLeak k) (.refl k) irq regs ?_ ?_ ?_
  · intro k' h
    refine h.trans ?_
    rcases timerCallback_evolution k' regs with ht | ⟨k'', ht, hne, heq⟩
    · exact .of_tame ht (sameIo_timerCallback k' regs)
    · refine ⟨?_, fun i hi => ?_, fun i hi => (sameIo_timerCallback k' regs i).symm.trans hi⟩
      · rw [heq, switchTo_created]
        exact ht.created
      · obtain ⟨ha, hid, hs⟩ := switchTo_identity k'' regs hne i
        rw [heq] at hi ⊢
        rw [ha, (ht.tasks i).active] at hi
        exact ⟨hi, hs.trans (ht.tasks i).serial, hid.trans (ht.tasks i).id⟩
  · intro k' h
    exact h.trans (.of_tame (tame_routeIrq k' irq) (sameIo_routeIrq k' irq))
  · intro k' h
    refine h.trans ⟨?_, fun i hi => ?_, fun i hi => ?_⟩
    · unfold taskPreemptCheck
      split_ifs <;> rfl
    · rw [taskPreemptCheck_tasks] at hi ⊢
      exact ⟨hi, rfl, rfl⟩
    · rwa [taskPreemptCheck_tasks] at hi

/-- **Privilege over whole runs.**  In every run of system calls of unprivileged ring-3 tasks
and interrupts, in any interleaving, no task becomes I/O-privileged and none is created, if no
call names an active unprivileged task to `SYS_GRANT_IO`, none succeeds in `SYS_CREATE_TASK`,
and none has the kernel write over its own variables. -/
theorem privilege_kept {k k' : Kernel} {ls : List (Slot × Request)}
    (hrun : Run (ServesSafely clear) k ls k') :
    NoLeak k k' := by
  refine hrun.invariant (fun k₁ l k₂ hstep h => h.trans ?_) (NoLeak.refl k)
  obtain ⟨c, req⟩ := l
  cases req with
  | syscall s env =>
    obtain ⟨⟨_, hexec⟩, hclear, hharm⟩ := hstep
    rw [hexec hclear]
    exact NoLeak.of_onBehalf ((noLeak_exec_iff _ env s).mpr hharm)
  | irq n regs =>
    rw [hstep.1]
    exact NoLeak.of_onBehalf (noLeak_irqHandler _ n regs)

end Runs

/-- After the start, one ring-3 task without I/O privilege, in slot 1. -/
def oneUser : Kernel := ((boot 0x1000).taskCreateUser [] 5 false 0x8000 0xA000 0xB000).1

/-- The other parts of the kernel succeed. -/
def answering : Answers := ⟨0, 1, [], 0xC000, 0xE000, 0xF000⟩

theorem oneUser_unprivileged : oneUser.Unprivileged 1 := by decide

theorem oneUser_pid : (oneUser.onBehalf 1).taskGetByPid 77 = none := by decide

theorem privilege_kept_oneUser : ∃ k', Run (ServesSafely fun _ _ => True) oneUser
    [(1, .syscall .getpid answering), (1, .syscall (.grantIo 77) answering)] k' ∧
    NoLeak oneUser k' := by
  have hrun : Run (ServesSafely fun _ _ => True) oneUser
      [(1, .syscall .getpid answering), (1, .syscall (.grantIo 77) answering)]
      ((oneUser.onBehalf 1).sysGrantIo 77).1 := by
    refine .cons ⟨⟨oneUser_unprivileged, fun _ => rfl⟩, fun _ _ => trivial, trivial⟩
      (.cons ⟨⟨oneUser_unprivileged, fun _ => rfl⟩, fun _ _ => trivial, fun i hi => ?_⟩ (.nil _))
    have hnone : some i = none := hi.symm.trans oneUser_pid
    cases hnone
  exact ⟨_, hrun, privilege_kept hrun⟩

/-- An unprivileged ring-3 task makes itself I/O-privileged by `SYS_GRANT_IO`, and it creates
a task by `SYS_CREATE_TASK`. -/
theorem unprivileged_grants_and_creates : oneUser.Unprivileged 1 ∧
    (∃ k', Run (ServesRequest fun _ _ => True) oneUser
      [(1, .syscall (.grantIo 0) answering)] k' ∧
      (k'.tasks 1).ioPrivileged = true) ∧
    ∃ k', Run (ServesRequest fun _ _ => True) oneUser
      [(1, .syscall (.createTask [] 0x40000000 5) answering)] k' ∧
      (oneUser.tasks 2).active = false ∧ (k'.tasks 2).active = true := by
  have hu := oneUser_unprivileged
  refine ⟨hu, ⟨_, .cons ⟨hu, fun _ => rfl⟩ (.nil _), ?_⟩,
    ⟨_, .cons ⟨hu, fun _ => rfl⟩ (.nil _), ?_, ?_⟩⟩
  · decide
  · decide
  · decide

end Kernel

end Microkernel

/-
# What most functions leave alone

Most functions of the kernel neither create nor end a task nor switch to another one.
`Tame k k'` lists what such a function keeps: which task is current, the identity of
every task and the context it is resumed with, and the registers.  It may change the
state of tasks, but it makes none running, and it keeps `ticks_left` below the quantum.
The relation is reflexive and transitive, so each function gets it from its parts.
-/
import Microkernel.System

namespace Microkernel

namespace Kernel

/-- The new entry of a slot has the identity and the saved context of the old one. -/
structure TameTask (t t' : Task) : Prop where
  id : t'.id = t.id
  serial : t'.serial = t.serial
  active : t'.active = t.active
  quantum : t'.quantum = t.quantum
  savedEsp : t'.savedEsp = t.savedEsp
  pageDirectory : t'.pageDirectory = t.pageDirectory
  isUser : t'.isUser = t.isUser
  kernelStackTop : t'.kernelStackTop = t.kernelStackTop
  running : t'.state = .running → t.state = .running
  ticks : t.ticksLeft ≤ t.quantum → t'.ticksLeft ≤ t'.quantum

theorem TameTask.refl (t : Task) : TameTask t t :=
  ⟨rfl, rfl, rfl, rfl, rfl, rfl, rfl, rfl, fun h => h, fun h => h⟩

theorem TameTask.trans {t t' t'' : Task} (h : TameTask t t') (h' : TameTask t' t'') :
    TameTask t t'' where
  id := h'.id.trans h.id
  serial := h'.serial.trans h.serial
  active := h'.active.trans h.active
  quantum := h'.quantum.trans h.quantum
  savedEsp := h'.savedEsp.trans h.savedEsp
  pageDirectory := h'.pageDirectory.trans h.pageDirectory
  isUser := h'.isUser.trans h.isUser
  kernelStackTop := h'.kernelStackTop.trans h.kernelStackTop
  running := fun hr => h.running (h'.running hr)
  ticks := fun ht => h'.ticks (h.ticks ht)

/-- The state `k'` differs from `k` only as the header of this file says. -/
structure Tame (k k' : Kernel) : Prop where
  currentTask : k'.currentTask = k.currentTask
  nextPid : k'.nextPid = k.nextPid
  created : k'.created = k.created
  kernelPd : k'.kernelPd = k.kernelPd
  cr3 : k'.cr3 = k.cr3
  tssEsp0 : k'.tssEsp0 = k.tssEsp0
  switchPending : k'.switchPending = k.switchPending
  tasks : ∀ i, TameTask (k.tasks i) (k'.tasks i)

namespace Tame

variable {k k' k'' : Kernel}

theorem refl (k : Kernel) : Tame k k :=
  ⟨rfl, rfl, rfl, rfl, rfl, rfl, rfl, fun _ => .refl _⟩

theorem trans (h : Tame k k') (h' : Tame k' k'') : Tame k k'' where
  currentTask := h'.currentTask.trans h.currentTask
  nextPid := h'.nextPid.trans h.nextPid
  created := h'.created.trans h.created
  kernelPd := h'.kernelPd.trans h.kernelPd
  cr3 := h'.cr3.trans h.cr3
  tssEsp0 := h'.tssEsp0.trans h.tssEsp0
  switchPending := h'.switchPending.trans h.switchPending
  tasks := fun i => (h.tasks i).trans (h'.tasks i)

/-- Overwriting an entry by one with the same identity. -/
theorem setTask {i : Slot} {t : Task} (h : TameTask (k.tasks i) t) : Tame k (k.setTask i t) := by
  refine ⟨rfl, rfl, rfl, rfl, rfl, rfl, rfl, fun j => ?_⟩
  by_cases hj : j = i
  · subst hj
    simpa using h
  · simpa [hj] using TameTask.refl (k.tasks j)

/-- Changing only variables the relation does not mention. -/
theorem of_tasks_eq (ht : k'.tasks = k.tasks) (hc : k'.currentTask = k.currentTask)
    (hn : k'.nextPid = k.nextPid) (hcr : k'.created = k.created)
    (hp : k'.kernelPd = k.kernelPd) (h3 : k'.cr3 = k.cr3) (he : k'.tssEsp0 = k.tssEsp0)
    (hs : k'.switchPending = k.switchPending) : Tame k k' :=
  ⟨hc, hn, hcr, hp, h3, he, hs, fun i => by rw [ht]; exact .refl _⟩

end Tame

/-- An entry that keeps the listed fields and is not running. -/
theorem TameTask.of_not_running {t t' : Task} (hid : t'.id = t.id) (hs : t'.serial = t.serial)
    (ha : t'.active = t.active) (hq : t'.quantum = t.quantum) (he : t'.savedEsp = t.savedEsp)
    (hp : t'.pageDirectory = t.pageDirectory) (hu : t'.isUser = t.isUser)
    (hk : t'.kernelStackTop = t.kernelStackTop) (ht : t'.ticksLeft = t.ticksLeft)
    (hr : t'.state ≠ .running) : TameTask t t' :=
  ⟨hid, hs, ha, hq, he, hp, hu, hk, fun h => absurd h hr, fun h => by rw [ht, hq]; exact h⟩

variable (k : Kernel)

/-! ## The functions of `task.c` -/

/-- `task_yield` only gives up the quantum of the current task. -/
theorem taskYield_tasks (i : Slot) :
    k.taskYield.tasks i =
      { k.tasks i with ticksLeft := if i = k.currentTask then 0 else (k.tasks i).ticksLeft } := by
  by_cases h : i = k.currentTask
  · subst h
    simp [taskYield, current]
  · simp [taskYield, h]

theorem tame_taskYield : Tame k k.taskYield :=
  .setTask ⟨rfl, rfl, rfl, rfl, rfl, rfl, rfl, rfl, fun h => h, fun _ => UInt32.zero_le⟩

theorem tame_sleepUntil (wakeTick : UInt32) : Tame k (k.sleepUntil wakeTick) := by
  have h₁ : Tame k (k.setTask k.currentTask { k.current with
      state := .sleeping, wakeTick := wakeTick, call := k.calls }) :=
    .setTask (.of_not_running rfl rfl rfl rfl rfl rfl rfl rfl rfl (by simp))
  have h₂ : Tame (k.setTask k.currentTask { k.current with
      state := .sleeping, wakeTick := wakeTick, call := k.calls })
      { k.setTask k.currentTask { k.current with
        state := .sleeping, wakeTick := wakeTick, call := k.calls } with calls := k.calls + 1 } :=
    .of_tasks_eq rfl rfl rfl rfl rfl rfl rfl rfl
  exact (h₁.trans h₂).trans (tame_taskYield _)

theorem tame_wakeSleeping : Tame k k.wakeSleeping := by
  refine ⟨rfl, rfl, rfl, rfl, rfl, rfl, rfl, fun i => ?_⟩
  show TameTask (k.tasks i) (wakeTask k.tickCount (k.tasks i))
  unfold wakeTask
  split_ifs
  · exact .of_not_running rfl rfl rfl rfl rfl rfl rfl rfl rfl (by simp)
  · exact .refl _

theorem tame_countTick : Tame k k.countTick :=
  .setTask ⟨rfl, rfl, rfl, rfl, rfl, rfl, rfl, rfl, fun h => h, fun h => h⟩

theorem tame_countQuantum : Tame k k.countQuantum := by
  unfold countQuantum
  split_ifs with h
  · refine .setTask ⟨rfl, rfl, rfl, rfl, rfl, rfl, rfl, rfl, fun h => h, fun hle => ?_⟩
    have h1 : (1 : UInt32) ≤ k.current.ticksLeft := by
      rw [UInt32.lt_iff_toNat_lt] at h
      rw [UInt32.le_iff_toNat_le]
      exact h
    rw [UInt32.le_iff_toNat_le] at hle ⊢
    show (k.current.ticksLeft - 1).toNat ≤ _
    rw [UInt32.toNat_sub_of_le _ _ h1]
    exact (Nat.sub_le _ _).trans hle
  · exact .refl k

/-! ## Ending and creating a task -/

@[simp] theorem endTask_tasks_self (i : Slot) :
    (k.endTask i).tasks i =
      { k.tasks i with state := .terminated, active := false, pageDirectory := 0 } := by
  simp [endTask]

theorem endTask_tasks_ne {i j : Slot} (h : j ≠ i) : (k.endTask i).tasks j = k.tasks j := by
  simp [endTask, h]

theorem ne_of_active_endTask {i j : Slot} (h : ((k.endTask i).tasks j).active = true) :
    j ≠ i := by
  rintro rfl
  rw [endTask_tasks_self] at h
  exact absurd h (by simp)

@[simp] theorem addTask_tasks_self (slot : Slot) (t : Task) :
    (k.addTask slot t).tasks slot = t := by
  simp [addTask]

theorem addTask_tasks_ne {slot j : Slot} (t : Task) (h : j ≠ slot) :
    (k.addTask slot t).tasks j = k.tasks j := by
  simp [addTask, h]

variable {k}

/-- `task_kill` never takes slot 0, and the slot it takes holds the PID. -/
theorem killSlot_eq_some {id : UInt32} {i : Slot} (h : k.killSlot id = some i) :
    i ≠ 0 ∧ (k.tasks i).active = true ∧ (k.tasks i).id = id := by
  have := List.find?_some h
  simp only [Bool.and_eq_true, bne_iff_ne, beq_iff_eq] at this
  exact ⟨this.2, this.1.1, this.1.2⟩

/-- The creation functions take an inactive slot. -/
theorem freeSlot_eq_some {i : Slot} (h : k.freeSlot = some i) : (k.tasks i).active = false := by
  have := List.find?_some h
  simpa using this

/-- What `task_exit` does outside slot 0. -/
theorem taskExit_of_ne (h : k.currentTask ≠ 0) :
    k.taskExit = ({ k.endTask k.currentTask with
      cr3 := if k.current.pageDirectory ≠ 0 then k.kernelPd else k.cr3 }.taskYield, .yields) :=
  if_neg h

variable (k)

/-! ## The functions of `ipc.c` -/

theorem tame_record (e : Event) : Tame k (k.record e) :=
  .of_tasks_eq rfl rfl rfl rfl rfl rfl rfl rfl

theorem tame_countMessage : Tame k k.countMessage :=
  .of_tasks_eq rfl rfl rfl rfl rfl rfl rfl rfl

theorem tame_beginCall : Tame k k.beginCall := by
  have h : Tame k (k.setTask k.currentTask { k.current with call := k.calls }) :=
    .setTask ⟨rfl, rfl, rfl, rfl, rfl, rfl, rfl, rfl, fun h => h, fun h => h⟩
  exact h.trans (.of_tasks_eq rfl rfl rfl rfl rfl rfl rfl rfl)

theorem tame_submit (destPid : UInt32) (awaits : Bool) : Tame k (k.submit destPid awaits) :=
  ((tame_beginCall k).trans (tame_record _ _)).trans (tame_countMessage _)

theorem tame_fillBuffer (i : Slot) (msg : Message) : Tame k (k.fillBuffer i msg) :=
  .setTask (.of_not_running rfl rfl rfl rfl rfl rfl rfl rfl rfl (by simp))

theorem tame_deliverNow (d : Slot) (msg : Message) : Tame k (k.deliverNow d msg) :=
  (tame_record _ _).trans (tame_fillBuffer _ _ _)

theorem tame_blockSending (on : BlockedOn) (destPid : UInt32) (msg : Message) :
    Tame k (k.blockSending on destPid msg) := by
  refine Tame.trans (.setTask ?_) (tame_taskYield _)
  exact .of_not_running rfl rfl rfl rfl rfl rfl rfl rfl rfl (by simp)

theorem tame_blockReceiving (fromPid : UInt32) (msg : Message) :
    Tame k (k.blockReceiving fromPid msg) := by
  refine Tame.trans (.setTask ?_) (tame_taskYield _)
  exact .of_not_running rfl rfl rfl rfl rfl rfl rfl rfl rfl (by simp)

theorem tame_ipcSend (destPid : UInt32) (msg : Option Message) :
    Tame k (k.ipcSend destPid msg).1 := by
  unfold ipcSend
  split
  · exact .refl k
  · split
    · exact .refl k
    · dsimp only
      split_ifs
      · exact (tame_submit _ _ _).trans (tame_deliverNow _ _ _)
      · exact (tame_submit _ _ _).trans (tame_blockSending _ _ _ _)

theorem tame_ipcSendrec (destPid : UInt32) (msg : Option Message) :
    Tame k (k.ipcSendrec destPid msg).1 := by
  unfold ipcSendrec
  split
  · exact .refl k
  · split
    · exact .refl k
    · dsimp only
      refine (tame_submit _ destPid true).trans (Tame.trans ?_ (tame_blockSending _ _ _ _))
      split_ifs
      · exact tame_deliverNow _ _ _
      · exact .refl _

theorem tame_takeNotification : Tame k k.takeNotification := by
  have h : Tame k (k.setTask k.currentTask
      { k.current with msgBuf := k.notifyMsg (notifyIndex k.current.id) }) :=
    .setTask ⟨rfl, rfl, rfl, rfl, rfl, rfl, rfl, rfl, fun h => h, fun h => h⟩
  exact h.trans (.of_tasks_eq rfl rfl rfl rfl rfl rfl rfl rfl)

theorem tame_takeMessage (s : Slot) : Tame k (k.takeMessage s) := by
  unfold takeMessage
  have h : Tame k (k.setTask k.currentTask { k.current with
      msgBuf := { (k.tasks s).msgBuf with sender := (k.tasks s).id } }) :=
    .setTask ⟨rfl, rfl, rfl, rfl, rfl, rfl, rfl, rfl, fun h => h, fun h => h⟩
  dsimp only
  split_ifs
  all_goals
    refine (h.trans (tame_record _ _)).trans (.setTask ?_)
    exact .of_not_running rfl rfl rfl rfl rfl rfl rfl rfl rfl (by simp)

theorem tame_ipcReceive (fromPid : UInt32) (msg : Option Message) :
    Tame k (k.ipcReceive fromPid msg).1 := by
  unfold ipcReceive
  split
  · exact .refl k
  · dsimp only
    refine (tame_beginCall k).trans ?_
    split_ifs
    · exact tame_takeNotification _
    · split
      · exact tame_takeMessage _ _
      · exact tame_blockReceiving _ _ _

theorem tame_ipcReply (destPid : UInt32) (msg : Option Message) :
    Tame k (k.ipcReply destPid msg).1 := by
  unfold ipcReply
  split
  · exact .refl k
  · split
    · exact .refl k
    · split_ifs
      · exact ((tame_record _ _).trans (tame_fillBuffer _ _ _)).trans (tame_countMessage _)
      · exact .refl k

theorem tame_ipcNotify (destPid : UInt32) (msg : Message) :
    Tame k (k.ipcNotify destPid msg).1 := by
  unfold ipcNotify
  split
  · exact .refl k
  · dsimp only
    refine (tame_countMessage k).trans ?_
    split_ifs
    · exact (tame_record _ _).trans (tame_fillBuffer _ _ _)
    · exact .of_tasks_eq rfl rfl rfl rfl rfl rfl rfl rfl

theorem tame_ipcRegisterService (name : List UInt8) (pid : UInt32) :
    Tame k (k.ipcRegisterService name pid).1 := by
  unfold ipcRegisterService
  split
  · exact .of_tasks_eq rfl rfl rfl rfl rfl rfl rfl rfl
  · split
    · exact .of_tasks_eq rfl rfl rfl rfl rfl rfl rfl rfl
    · exact .refl k

/-! ## The system calls and interrupts -/

theorem tame_sysGrantIo (pid : UInt32) : Tame k (k.sysGrantIo pid).1 := by
  unfold sysGrantIo
  split
  · exact .setTask ⟨rfl, rfl, rfl, rfl, rfl, rfl, rfl, rfl, fun h => h, fun h => h⟩
  · exact .refl k

theorem tame_sysRegisterIrq (irq : UInt32) : Tame k (k.sysRegisterIrq irq).1 := by
  unfold sysRegisterIrq
  split_ifs
  · have h : Tame k (k.setTask k.currentTask { k.current with
        ownedIrqs := k.current.ownedIrqs ||| (1 <<< irq) }) :=
      .setTask ⟨rfl, rfl, rfl, rfl, rfl, rfl, rfl, rfl, fun h => h, fun h => h⟩
    exact h.trans (.of_tasks_eq rfl rfl rfl rfl rfl rfl rfl rfl)
  · exact .refl k

theorem tame_routeIrq (irq : Fin 16) : Tame k (k.routeIrq irq) := by
  unfold routeIrq
  dsimp only
  split_ifs
  · exact tame_ipcNotify _ _ _
  · exact .refl k

/-- The calls that create or end a task. -/
def changesTasks : Call → Bool
  | .taskExit | .taskKill _ | .pageFault | .taskCreate .. | .taskCreateUser ..
  | .taskCreateFromElf .. => true
  | _ => false

/-- **All other calls are tame.** -/
theorem tame_exec (c : Call) (h : changesTasks c = false) : Tame k (c.exec k).1 := by
  cases c with
  | ipcSend d m => exact tame_ipcSend k d m
  | ipcReceive f m => exact tame_ipcReceive k f m
  | ipcSendrec d m => exact tame_ipcSendrec k d m
  | ipcReply d m => exact tame_ipcReply k d m
  | ipcNotify d m => exact tame_ipcNotify k d m
  | taskYield => exact tame_taskYield k
  | taskSleep ms => exact tame_sleepUntil k _
  | gpu3dPresent => exact tame_sleepUntil k _
  | registerSvc name => exact tame_ipcRegisterService k name _
  | registerIrq irq => exact tame_sysRegisterIrq k irq
  | grantIo pid => exact tame_sysGrantIo k pid
  | setQuantum | setPreemptive | lockScheduler | unlockScheduler =>
    exact .of_tasks_eq rfl rfl rfl rfl rfl rfl rfl rfl
  | taskExit | taskKill | pageFault | taskCreate | taskCreateUser | taskCreateFromElf =>
    exact absurd h (by simp [changesTasks])

end Kernel

end Microkernel

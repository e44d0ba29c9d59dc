/-
# Input events

The event queue of `virtio_input.c`: the buffers posted at the start, the device that writes events
into them in any order, and `virtio_input_poll`, which hands each event to `process_event` and posts
its buffer again.  A call of `virtio_input_poll` goes from one of its own steps to the next while the
device works.
-/
import Microkernel.VirtqueueRuns

namespace Microkernel

/-- `virtio_input_event_t`. -/
structure InputEvent where
  type : UInt16
  code : UInt16
  value : UInt32
  deriving DecidableEq

/-- `NUM_EVENT_BUFS` and `sizeof(virtio_input_event_t)`. -/
def numEventBufs : ℕ := 64
def eventSize : UInt32 := 8

/-- `&event_bufs[i]`; the array is at `base`. -/
def eventAddr (base : UInt32) (i : ℕ) : UInt32 := base + eventSize * UInt32.ofNat i

/-- `buf_idx` in `virtio_input_poll`. -/
def bufIdx (base ev : UInt32) : ℕ := ((ev - base) / eventSize).toNat

/-! ## The mouse -/

/-- The variables that `process_event` reads and changes. -/
structure Mouse where
  x : Int32
  y : Int32
  maxX : Int32
  maxY : Int32
  buttons : UInt8
  prevButtons : UInt8
  absXMax : UInt32
  absYMax : UInt32
  pendingX : UInt32
  pendingY : UInt32
  hasPendingX : Bool
  hasPendingY : Bool

/-- The constants of `virtio_input.h`. -/
def evSyn : UInt16 := 0
def evKey : UInt16 := 1
def evRel : UInt16 := 2
def evAbs : UInt16 := 3
def relX : UInt16 := 0
def relY : UInt16 := 1
def absX : UInt16 := 0
def absY : UInt16 := 1
def btnLeft : UInt16 := 0x110
def btnRight : UInt16 := 0x111
def btnMiddle : UInt16 := 0x112
def synReport : UInt16 := 0

/-- A relative motion, kept on the screen. -/
def moveBy (pos max : Int32) (value : UInt32) : Int32 :=
  let pos := pos + value.toInt32
  let pos := if pos < 0 then 0 else pos
  if pos > max then max else pos

/-- A pending absolute position, scaled to the screen. -/
def scaleTo (max : Int32) (absMax pending : UInt32) : Int32 :=
  ((if pending > absMax then absMax else pending) * max.toUInt32 / absMax).toInt32

/-- A button that is pressed or released. -/
def pressButton (buttons bit : UInt8) (value : UInt32) : UInt8 :=
  if value ≠ 0 then buttons ||| bit else buttons &&& ~~~bit

/-- `process_event`. -/
def Mouse.processEvent (m : Mouse) (ev : InputEvent) : Mouse :=
  if ev.type = evAbs then
    if ev.code = absX then { m with pendingX := ev.value, hasPendingX := true }
    else if ev.code = absY then { m with pendingY := ev.value, hasPendingY := true }
    else m
  else if ev.type = evRel then
    if ev.code = relX then { m with x := moveBy m.x m.maxX ev.value }
    else if ev.code = relY then { m with y := moveBy m.y m.maxY ev.value }
    else m
  else if ev.type = evKey then
    if ev.code = btnLeft then { m with buttons := pressButton m.buttons 1 ev.value }
    else if ev.code = btnRight then { m with buttons := pressButton m.buttons 2 ev.value }
    else if ev.code = btnMiddle then { m with buttons := pressButton m.buttons 4 ev.value }
    else m
  else if ev.type = evSyn then
    if ev.code = synReport then
      { m with
        x := if m.hasPendingX ∧ m.absXMax > 0 then scaleTo m.maxX m.absXMax m.pendingX else m.x
        y := if m.hasPendingY ∧ m.absYMax > 0 then scaleTo m.maxY m.absYMax m.pendingY else m.y
        hasPendingX := false
        hasPendingY := false }
    else m
  else m

/-! ## The queue -/

namespace Virtq

variable (q : Virtq)

/-- `post_event_buf` for the buffer at `addr`. -/
def postEventBuf (addr : UInt32) : Virtq :=
  if q.numFree < 1 then q
  else
    let di := q.freeHead
    { q.setDesc di ⟨addr.toUInt64, eventSize, vringDescFWrite, 0⟩ with
      freeHead := (q.desc di).next
      numFree := sub16 q.numFree 1 }.offer di

/-- `virtio_input_poll`, "free descriptor". -/
def freeEventDesc (di : ℕ) : Virtq :=
  { q.setDesc di { q.desc di with next := q.freeHead } with
    freeHead := di % 65536
    numFree := (q.numFree + 1) % 65536
    lastUsedIdx := (q.lastUsedIdx + 1) % 65536 }

end Virtq

/-- Where `virtio_input_poll` is: outside, before the test of its loop, or in a round, behind
`process_event` or behind the freeing of the descriptor; `di` is `desc_idx` and `ev` the address of
the event. -/
inductive InputPhase where
  | idle
  | polling
  | processed (di : ℕ) (ev : UInt32)
  | freed (ev : UInt32)

/-- The event queue with the device.  The last two fields are history: the events that the device
wrote, in the order in which it returned them, and those that `process_event` got. -/
structure InputSystem extends VirtioSystem where
  base : UInt32
  mem : UInt32 → InputEvent
  mouse : Mouse
  phase : InputPhase
  written : List InputEvent
  processed : List InputEvent

namespace InputSystem

variable (s : InputSystem)

/-- The address in a descriptor. -/
def addrOf (di : ℕ) : UInt32 := (s.q.desc di).addr.toUInt32

/-- `post_event_buf`. -/
def post (i : ℕ) : InputSystem :=
  { s with
    q := s.q.postEventBuf (eventAddr s.base i)
    submitted := if s.q.numFree < 1 then s.submitted else s.submitted ++ [s.q.freeHead] }

/-- The number of buffers that `prefill_eventq` posts. -/
def prefillCount (qsize : ℕ) : ℕ := min numEventBufs (qsize - 2)

/-- `prefill_eventq`. -/
def prefillEventq : InputSystem :=
  (List.range (prefillCount s.q.size)).foldl post
    { s with mem := fun a => if a - s.base < 512 then ⟨0, 0, 0⟩ else s.mem a }

/-- The end of a round of `virtio_input_poll`: the buffer is cleared and posted again. -/
def repost (ev : UInt32) : InputSystem :=
  if bufIdx s.base ev < numEventBufs then
    { { s with mem := Function.update s.mem ev ⟨0, 0, 0⟩ }.post (bufIdx s.base ev) with
      phase := .polling }
  else { s with phase := .polling }

/-- What happens to the queue. -/
inductive Event where
  /-- `virtio_input_poll` is called. -/
  | enter
  /-- A round begins: an event is processed. -/
  | process
  | free
  | repost
  /-- The loop ends. -/
  | leave
  /-- The device takes the next buffer. -/
  | fetch
  /-- The device writes an event into a buffer it has taken, and returns it. -/
  | complete (head : ℕ) (ev : InputEvent)

/-- The steps of the driver and the device. -/
inductive Step : InputSystem → Event → InputSystem → Prop where
  | enter {s : InputSystem} : s.phase = .idle →
      Step s .enter { s with
        phase := .polling
        mouse := { s.mouse with prevButtons := s.mouse.buttons } }
  | process {s : InputSystem} : s.phase = .polling → s.q.lastUsedIdx ≠ s.q.usedIdx →
      Step s .process { s with
        phase := .processed s.q.usedHead (s.addrOf s.q.usedHead)
        mouse := s.mouse.processEvent (s.mem (s.addrOf s.q.usedHead))
        processed := s.processed ++ [s.mem (s.addrOf s.q.usedHead)] }
  | free {s : InputSystem} {di : ℕ} {ev : UInt32} : s.phase = .processed di ev →
      Step s .free { s with
        q := s.q.freeEventDesc di
        polled := s.polled ++ [di]
        phase := .freed ev }
  | repost {s : InputSystem} {ev : UInt32} : s.phase = .freed ev → Step s .repost (s.repost ev)
  | leave {s : InputSystem} : s.phase = .polling → s.q.lastUsedIdx = s.q.usedIdx →
      Step s .leave { s with phase := .idle }
  | fetch {s : InputSystem} : s.lastAvail ≠ s.q.availIdx →
      Step s .fetch { s with
        lastAvail := (s.lastAvail + 1) % 65536
        held := s.availHead :: s.held
        fetched := s.fetched ++ [s.availHead] }
  | complete {s : InputSystem} {head : ℕ} (ev : InputEvent) : head ∈ s.held →
      Step s (.complete head ev) { s with
        q := { s.q with
          usedRing := Function.update s.q.usedRing (s.q.usedIdx % s.q.size) (head, eventSize)
          usedIdx := (s.q.usedIdx + 1) % 65536 }
        mem := Function.update s.mem (s.addrOf head) ev
        held := s.held.erase head
        completed := s.completed ++ [head]
        written := s.written ++ [ev] }

/-- The driver after `prefill_eventq` on a queue of this size. -/
def start (qsize : ℕ) (base : UInt32) (mem : UInt32 → InputEvent) (mouse : Mouse) : InputSystem :=
  prefillEventq { VirtioSystem.start qsize with
    base := base, mem := mem, mouse := mouse, phase := .idle, written := [], processed := [] }

end InputSystem

end Microkernel

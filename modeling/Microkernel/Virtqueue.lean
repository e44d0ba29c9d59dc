/-
# Virtqueues

The queue functions of `virtio.c`: the set-up of a queue, `virtio_send` and `virtio_poll`,
and the device on the other side, which takes heads from the available ring and returns them
through the used ring in any order.

The 16-bit variables are natural numbers below `2 ^ 16`.  Loops that the data could keep
going forever have a fuel argument; `none` means that it did not suffice.
-/
import Microkernel.RingLog
import Microkernel.Runs

namespace Microkernel

/-- `VRING_DESC_F_NEXT` and `VRING_DESC_F_WRITE`. -/
def vringDescFNext : UInt16 := 1
def vringDescFWrite : UInt16 := 2

/-- `VIRTQ_MAX_SIZE`. -/
def virtqMaxSize : ℕ := 256

/-- The end mark of the free list. -/
def noDesc : ℕ := 0xFFFF

/-- `virtq_desc_t`. -/
structure VirtqDesc where
  addr : UInt64
  len : UInt32
  flags : UInt16
  next : ℕ

/-- `flags & VRING_DESC_F_NEXT`. -/
def VirtqDesc.hasNext (d : VirtqDesc) : Bool := d.flags &&& vringDescFNext != 0

/-- `virtq_t` with the three parts it points to; `usedRing` has the fields `id` and `len`. -/
structure Virtq where
  size : ℕ
  freeHead : ℕ
  numFree : ℕ
  lastUsedIdx : ℕ
  desc : ℕ → VirtqDesc
  availIdx : ℕ
  availRing : ℕ → ℕ
  usedIdx : ℕ
  usedRing : ℕ → ℕ × UInt32

namespace Virtq

/-- The part of `virtio_setup_queue` that lays out the queue: zeroed memory, and the free
list through all descriptors. -/
def init (qsize : ℕ) : Virtq where
  size := qsize
  freeHead := 0
  numFree := qsize
  lastUsedIdx := 0
  desc := fun i => ⟨0, 0, 0, if i + 1 < qsize then i + 1 else if i + 1 = qsize then noDesc else 0⟩
  availIdx := 0
  availRing := fun _ => 0
  usedIdx := 0
  usedRing := fun _ => (0, 0)

/-- `virtio_setup_queue`, for a queue of the device whose memory is found; `none` when the
queue is not available. -/
def virtioSetupQueue (maxSize : ℕ) : Option Virtq :=
  if maxSize = 0 then none
  else some (init (if virtqMaxSize < maxSize then virtqMaxSize else maxSize))

variable (q : Virtq)

/-- Overwrite one descriptor. -/
def setDesc (i : ℕ) (d : VirtqDesc) : Virtq := { q with desc := Function.update q.desc i d }

/-- Subtraction of 16-bit numbers. -/
def sub16 (a b : ℕ) : ℕ := (a + 65536 - b) % 65536

/-- The descriptors `virtio_send` needs. -/
def needed (inLen : UInt32) : ℕ := if 0 < inLen then 2 else 1

/-- The part of `virtio_send` that takes descriptors off the free list and fills them. -/
def takeDescs (outAddr outLen inAddr inLen : UInt32) : Virtq :=
  let head := q.freeHead
  let q := q.setDesc head { q.desc head with
    addr := outAddr.toUInt64
    len := outLen
    flags := if 0 < inLen then vringDescFNext else 0 }
  if 0 < inLen then
    let nextIdx := (q.desc head).next
    let q := q.setDesc nextIdx { q.desc nextIdx with
      addr := inAddr.toUInt64
      len := inLen
      flags := vringDescFWrite }
    { q with freeHead := (q.desc nextIdx).next, numFree := sub16 q.numFree 2 }
  else { q with freeHead := (q.desc head).next, numFree := sub16 q.numFree 1 }

/-- The part of `virtio_send` that adds a head to the available ring. -/
def offer (head : ℕ) : Virtq :=
  { q with
    availRing := Function.update q.availRing (q.availIdx % q.size) head
    availIdx := (q.availIdx + 1) % 65536 }

/-- `virtio_send`: the head, or `-1`. -/
def virtioSend (outAddr outLen inAddr inLen : UInt32) : Virtq × ℤ :=
  if q.numFree < needed inLen then (q, -1)
  else ((q.takeDescs outAddr outLen inAddr inLen).offer q.freeHead, q.freeHead)

/-- `virtio_poll`, "return to free list". -/
def release (di : ℕ) : Virtq :=
  { q.setDesc di { q.desc di with next := q.freeHead } with
    freeHead := di
    numFree := (q.numFree + 1) % 65536 }

/-- The inner loop of `virtio_poll`. -/
def freeChain : ℕ → Virtq → ℕ → Option Virtq
  | 0, _, _ => none
  | fuel + 1, q, di =>
    if (q.desc di).hasNext then freeChain fuel (q.release di) (q.desc di).next
    else some (q.release di)

/-- The head the next round of `virtio_poll` frees. -/
def usedHead : ℕ := (q.usedRing (q.lastUsedIdx % q.size)).1

/-- One round of the outer loop of `virtio_poll`. -/
def pollRound (fuel : ℕ) (q : Virtq) : Option Virtq :=
  (freeChain fuel q (q.usedHead % 65536)).map fun q =>
    { q with lastUsedIdx := (q.lastUsedIdx + 1) % 65536 }

/-- The outer loop of `virtio_poll`. -/
def pollLoop : ℕ → Virtq → Option Virtq
  | 0, _ => none
  | fuel + 1, q =>
    if q.lastUsedIdx = q.usedIdx then some q
    else (q.pollRound fuel).bind (pollLoop fuel)

/-- `virtio_poll`. -/
def virtioPoll (fuel : ℕ) (q : Virtq) : Option (Virtq × Bool) :=
  if q.lastUsedIdx = q.usedIdx then some (q, false)
  else (pollLoop fuel q).map (·, true)

/-- The descriptors of the request with this head. -/
def chain (head : ℕ) : List ℕ :=
  if (q.desc head).hasNext then [head, (q.desc head).next] else [head]

end Virtq

/-! ## The driver and the device -/

/-- A queue with the device: the number of heads it took (`lastAvail`, 16 bits) and those it
is working on.  The other four fields are history: the heads submitted, taken by the device,
returned by it and seen by `virtio_poll`, the latest last. -/
structure VirtioSystem where
  q : Virtq
  lastAvail : ℕ
  held : List ℕ
  submitted : List ℕ
  fetched : List ℕ
  completed : List ℕ
  polled : List ℕ

/-- What happens to a queue. -/
inductive VirtioEvent where
  | send (outAddr outLen inAddr inLen : UInt32)
  /-- The device takes the next head from the available ring. -/
  | fetch
  /-- The device returns a head it is working on. -/
  | complete (head : ℕ) (len : UInt32)
  /-- One round of the loop of `virtio_poll`. -/
  | pollRound
  /-- A call of `virtio_poll` that the device does not interrupt. -/
  | poll

namespace VirtioSystem

/-- The system after the set-up of a queue. -/
def start (qsize : ℕ) : VirtioSystem := ⟨Virtq.init qsize, 0, [], [], [], [], []⟩

variable (s : VirtioSystem)

/-- The system after a call of `virtio_send`. -/
def afterSend (outAddr outLen inAddr inLen : UInt32) : VirtioSystem :=
  let r := s.q.virtioSend outAddr outLen inAddr inLen
  { s with
    q := r.1
    submitted := if r.2 < 0 then s.submitted else s.submitted ++ [r.2.toNat] }

/-- The head in the slot of the available ring that the device reads next. -/
def availHead : ℕ := s.q.availRing (s.lastAvail % s.q.size)

/-- The steps of the system. -/
inductive Step : VirtioSystem → VirtioEvent → VirtioSystem → Prop where
  | send {s : VirtioSystem} (outAddr outLen inAddr inLen : UInt32) :
      Step s (.send outAddr outLen inAddr inLen) (s.afterSend outAddr outLen inAddr inLen)
  | fetch {s : VirtioSystem} : s.lastAvail ≠ s.q.availIdx →
      Step s .fetch { s with
        lastAvail := (s.lastAvail + 1) % 65536
        held := s.availHead :: s.held
        fetched := s.fetched ++ [s.availHead] }
  | complete {s : VirtioSystem} {head : ℕ} (len : UInt32) : head ∈ s.held →
      Step s (.complete head len) { s with
        q := { s.q with
          usedRing := Function.update s.q.usedRing (s.q.usedIdx % s.q.size) (head, len)
          usedIdx := (s.q.usedIdx + 1) % 65536 }
        held := s.held.erase head
        completed := s.completed ++ [head] }
  | pollRound {s : VirtioSystem} {fuel : ℕ} {q : Virtq} : s.q.lastUsedIdx ≠ s.q.usedIdx →
      s.q.pollRound fuel = some q →
      Step s .pollRound { s with q := q, polled := s.polled ++ [s.q.usedHead] }
  | poll {s : VirtioSystem} {fuel : ℕ} {r : Virtq × Bool} : s.q.virtioPoll fuel = some r →
      Step s .poll { s with q := r.1, polled := s.completed }

/-- Submitted, not yet taken by the device. -/
def waiting : List ℕ := s.submitted.drop s.fetched.length

/-- Returned by the device, not yet seen by `virtio_poll`. -/
def returned : List ℕ := s.completed.drop s.polled.length

/-- The heads of the requests in flight. -/
def outstanding : List ℕ := s.waiting ++ (s.held ++ s.returned)

end VirtioSystem

end Microkernel

/-
# GPU commands

`gpu_cmd` of `virtio_gpu.c` and `gpu3d_cmd` of `virgl.c`: a command is copied to a static
buffer, sent through the control queue, waited for with `virtio_wait`, and the response is
copied back from a static buffer.  Tasks issue commands in any interleaving, and the device
takes and completes them at any time.

Each driver has one pair of buffers, and both use one queue.  `virtio_wait` ends when
`virtio_poll` saw a completion, of whatever request, or after more than 50 ticks.
-/
import Microkernel.VirtqueueRuns

namespace Microkernel

/-- The two drivers: `gpu_cmd` with `cmd_buf` and `resp_buf`, and `gpu3d_cmd` with
`v3d_cmd_buf` and `v3d_resp_buf`. -/
inductive GpuDriver where
  | gpu2d
  | gpu3d
  deriving DecidableEq

/-- A request: its driver, the command as it was given, and `resp_len`.  The number is
history. -/
structure GpuRequest where
  number : ℕ
  driver : GpuDriver
  cmd : List UInt8
  respLen : ℕ

/-- A call of `gpu_cmd` that is in `virtio_wait`. -/
structure GpuCall where
  request : GpuRequest
  startTicks : UInt32

/-- A call that returned: its request, the result, and what was copied to the caller. -/
structure GpuResult where
  request : GpuRequest
  ok : Bool
  copied : List UInt8

/-- `VIRTIO_GPU_RESP_ERR_UNSPEC`. -/
def respErrUnspec : ℕ := 0x1200

/-- `hdr->type` of a response, in little-endian order. -/
def respType (resp : List UInt8) : ℕ :=
  (resp.getD 0 0).toNat + 256 * (resp.getD 1 0).toNat + 65536 * (resp.getD 2 0).toNat +
    16777216 * (resp.getD 3 0).toNat

/-- Write bytes to the front of a buffer. -/
def overlay (bytes buf : List UInt8) : List UInt8 := bytes ++ buf.drop bytes.length

/-- The queue, the buffers, the timer and the tasks that wait.  `owner` is the request whose
descriptors begin at a head.  The last three fields are history: the number of the next
request, what the device wrote for a request, and the calls that returned. -/
structure GpuSystem where
  vio : VirtioSystem
  ticks : UInt32
  cmdBuf : GpuDriver → List UInt8
  respBuf : GpuDriver → List UInt8
  calls : ℕ → Option GpuCall
  owner : ℕ → GpuRequest
  count : ℕ
  written : ℕ → Option (List UInt8)
  results : List GpuResult

/-- The addresses of the buffers. -/
structure GpuAddresses where
  cmdBuf : GpuDriver → UInt32
  respBuf : GpuDriver → UInt32

/-- What happens: a task begins a command or goes once through the loop of `virtio_wait`, the
device takes a request or completes one, and time passes. -/
inductive GpuEvent where
  | begin (task : ℕ) (driver : GpuDriver) (cmd : List UInt8) (respLen : ℕ)
  | wait (task : ℕ)
  | fetch
  | complete (head : ℕ) (resp : List UInt8)
  | tick (n : UInt32)

namespace GpuSystem

/-- A new control queue, and no command yet. -/
def start (qsize : ℕ) (cmdBuf respBuf : GpuDriver → List UInt8) (owner : ℕ → GpuRequest) :
    GpuSystem where
  vio := VirtioSystem.start qsize
  ticks := 0
  cmdBuf := cmdBuf
  respBuf := respBuf
  calls := fun _ => none
  owner := owner
  count := 0
  written := fun _ => none
  results := []

variable (s : GpuSystem)

/-- The part of `gpu_cmd` before the wait: both buffers are written, then the request is sent;
without descriptors the call returns `false` at once. -/
def beginCmd (addr : GpuAddresses) (task : ℕ) (d : GpuDriver) (cmd : List UInt8) (respLen : ℕ) :
    GpuSystem :=
  let s := { s with
    cmdBuf := Function.update s.cmdBuf d (overlay cmd (s.cmdBuf d))
    respBuf := Function.update s.respBuf d (overlay (List.replicate respLen 0) (s.respBuf d)) }
  let r := s.vio.q.virtioSend (addr.cmdBuf d) (UInt32.ofNat cmd.length) (addr.respBuf d)
    (UInt32.ofNat respLen)
  if r.2 < 0 then s
  else
    let request : GpuRequest := ⟨s.count, d, cmd, respLen⟩
    { s with
      vio := s.vio.afterSend (addr.cmdBuf d) (UInt32.ofNat cmd.length) (addr.respBuf d)
        (UInt32.ofNat respLen)
      calls := Function.update s.calls task (some ⟨request, s.ticks⟩)
      owner := Function.update s.owner r.2.toNat request
      count := s.count + 1 }

/-- The part of `gpu_cmd` after the wait. -/
def finishCmd (task : ℕ) (c : GpuCall) : GpuSystem :=
  let copied := (s.respBuf c.request.driver).take c.request.respLen
  { s with
    calls := Function.update s.calls task none
    results := ⟨c.request, decide (respType copied < respErrUnspec), copied⟩ :: s.results }

/-- `virtio_wait` gives up. -/
def timedOut (c : GpuCall) : Prop := 50 < s.ticks - c.startTicks

instance (c : GpuCall) : Decidable (s.timedOut c) := inferInstanceAs (Decidable (_ < _))

/-- The state after one round of the loop of `virtio_wait`: it ends when `virtio_poll` returned
true or the time is over, else the task yields. -/
def afterPoll (task : ℕ) (c : GpuCall) (r : Virtq × Bool) : GpuSystem :=
  let s := { s with vio := { s.vio with q := r.1, polled := s.vio.completed } }
  if r.2 = true ∨ s.timedOut c then s.finishCmd task c else s

/-- The steps. -/
inductive Step (addr : GpuAddresses) : GpuSystem → GpuEvent → GpuSystem → Prop where
  | begin {s : GpuSystem} {task : ℕ} (d : GpuDriver) (cmd : List UInt8) (respLen : ℕ) :
      s.calls task = none →
      Step addr s (.begin task d cmd respLen) (s.beginCmd addr task d cmd respLen)
  | wait {s : GpuSystem} {task : ℕ} {c : GpuCall} {fuel : ℕ} {r : Virtq × Bool} :
      s.calls task = some c → s.vio.q.virtioPoll fuel = some r →
      Step addr s (.wait task) (s.afterPoll task c r)
  | fetch {s : GpuSystem} {v : VirtioSystem} : VirtioSystem.Step s.vio .fetch v →
      Step addr s .fetch { s with vio := v }
  | complete {s : GpuSystem} {head : ℕ} {v : VirtioSystem} {resp : List UInt8} :
      VirtioSystem.Step s.vio (.complete head (UInt32.ofNat resp.length)) v →
      resp.length ≤ (s.owner head).respLen →
      Step addr s (.complete head resp) { s with
        vio := v
        respBuf := Function.update s.respBuf (s.owner head).driver
          (overlay resp (s.respBuf (s.owner head).driver))
        written := Function.update s.written (s.owner head).number (some resp) }
  | tick {s : GpuSystem} (n : UInt32) : Step addr s (.tick n) { s with ticks := s.ticks + n }

/-- The heads that the device has or will take. -/
def pending : List ℕ := s.vio.waiting ++ s.vio.held

/-- A driver is idle: no call of it waits, and the device has no request of it. -/
def Idle (d : GpuDriver) : Prop :=
  (∀ task c, s.calls task = some c → c.request.driver ≠ d) ∧
    ∀ head ∈ s.pending, (s.owner head).driver ≠ d

/-- The condition on the steps: a command is only begun when its driver is idle, and when a
call leaves `virtio_wait`, its own request is no longer with the device. -/
def Orderly : GpuEvent → Prop
  | .begin _ d _ _ => s.Idle d
  | .wait task => ∀ c, s.calls task = some c →
      (s.vio.q.lastUsedIdx ≠ s.vio.q.usedIdx ∨ s.timedOut c) →
      ∀ head ∈ s.pending, s.owner head ≠ c.request
  | _ => True

/-- A response of the device as the caller should get it: the bytes after it are zero. -/
def padded (resp : List UInt8) (respLen : ℕ) : List UInt8 :=
  overlay resp (List.replicate respLen 0)

/-- A call matches its response: if it returned true, the device completed that request with a
response that is no error, and this is what was copied. -/
def Matched (r : GpuResult) : Prop :=
  r.ok = true → ∃ resp, s.written r.request.number = some resp ∧
    r.copied = padded resp r.request.respLen ∧ respType r.copied < respErrUnspec

/-- The buffers of a request that the device has or will take are as they were when it was
sent. -/
def Untouched (head : ℕ) : Prop :=
  (s.cmdBuf (s.owner head).driver).take (s.owner head).cmd.length = (s.owner head).cmd ∧
    (s.respBuf (s.owner head).driver).take (s.owner head).respLen =
      List.replicate (s.owner head).respLen 0

end GpuSystem

end Microkernel

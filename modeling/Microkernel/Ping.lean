/-
# Pings

`net_ping` with `resolve_mac`, while frames arrive and time passes.  Frames are processed from
the interrupt and from `net_poll`, at any time and by any task; a call of `net_ping` goes from one
of its own steps to the next in between.

`ping_received` is set by every echo reply.  When every echo reply that comes during a call is the
one to its request, the call returns true only for that reply, with the time it took.
-/
import Microkernel.NetBounds

namespace Microkernel

/-- A ping: what `net_ping` has in its variables after it reset the flag. -/
structure Ping where
  target : IpAddr
  seq : ℕ
  sendTime : UInt32
  deadline : UInt32

/-- Where a call of `net_ping` is: in the loop of `resolve_mac`, before `net_send_raw` with the
request, or in its own loop, where `polled` says whether `net_poll` was called in this round. -/
inductive PingPhase where
  | idle
  | resolving (target : IpAddr) (timeoutMs start : UInt32)
  | sending (p : Ping) (pkt : List UInt8)
  | waiting (p : Ping) (polled : Bool)

/-- A call that returned true: the ping, the time it reported, and the frames that were received
since its request was sent, with their times. -/
structure PingResult where
  ping : Ping
  rtt : UInt32
  log : List (Buffer × UInt32)

/-- The network and a task that calls `net_ping` again and again.  The last two fields are
history: the frames received since the last request was sent, and the calls that returned
true. -/
structure PingSystem where
  net : Net
  phase : PingPhase
  log : List (Buffer × UInt32)
  results : List PingResult

/-- What happens: the steps of `net_ping`, the frames received, and the time. -/
inductive PingEvent where
  | begin (target : IpAddr) (timeoutMs : UInt32)
  | resolve
  | send
  | enter
  | check
  | receive (frame : Buffer) (len : ℕ)
  | tick (k : UInt32)
  /-- Another part of the kernel changes other variables of `net.c`. -/
  | other

namespace Net

variable (n : Net)

/-- The address that `resolve_mac` looks up. -/
def arpTarget (target : IpAddr) : IpAddr :=
  if ∀ i : Fin 4, target[i] &&& n.netmask[i] = n.ourIp[i] &&& n.netmask[i] then target
  else n.gatewayIp

/-- The bytes of `net_send_arp_request`. -/
def arpRequest (target : IpAddr) : List UInt8 :=
  List.replicate 6 0xFF ++ n.ourMac.toList ++ [0x08, 0x06, 0, 1, 0x08, 0, 6, 4, 0, 1] ++
    n.ourMac.toList ++ n.ourIp.toList ++ List.replicate 6 0 ++ target.toList

/-- `htons` of a 16-bit number, in memory. -/
def netBytes (v : ℕ) : List UInt8 := bytes16 (ntohs v)

/-- The IP header of `net_ping`, with the checksum `sum`. -/
def pingIpHeader (target : IpAddr) (seq sum : ℕ) : List UInt8 :=
  [0x45, 0] ++ netBytes 60 ++ netBytes seq ++ [0, 0, 64, 1] ++ bytes16 sum ++ n.ourIp.toList ++
    target.toList

/-- The ICMP message of `net_ping`, with the checksum `sum`. -/
def pingMessage (seq sum : ℕ) : List UInt8 :=
  [8, 0] ++ bytes16 sum ++ netBytes 0x1234 ++ netBytes seq ++ (List.range 32).map UInt8.ofNat

/-- The bytes of `pkt` in `net_ping`. -/
def pingRequest (dst : MacAddr) (target : IpAddr) (seq : ℕ) : List UInt8 :=
  dst.toList ++ n.ourMac.toList ++ [0x08, 0x00] ++
    n.pingIpHeader target seq (ipChecksum (n.pingIpHeader target seq 0)) ++
    pingMessage seq (ipChecksum (pingMessage seq 0))

end Net

namespace PingSystem

variable (s : PingSystem)

/-- The part of `net_ping` from the look-up to the reading of the time. -/
def prepare (target : IpAddr) (timeoutMs : UInt32) (dst : MacAddr) : PingSystem :=
  { s with
    net := { s.net with pingSeq := (s.net.pingSeq + 1) % 2 ^ 16, pingReceived := false }
    phase := .sending ⟨target, s.net.pingSeq, s.net.ticks,
      s.net.ticks + timeoutMs * 100 / 1000⟩ (s.net.pingRequest dst target s.net.pingSeq) }

/-- The call of `resolve_mac`, up to its loop; without an entry it sends a request. -/
def beginPing (target : IpAddr) (timeoutMs : UInt32) : Access PingSystem :=
  if s.net.nicAvailable = false then .ok s
  else
    match netArpLookup s.net.arpCache (s.net.arpTarget target) with
    | some dst => .ok (s.prepare target timeoutMs dst)
    | none =>
      (s.net.netSendRaw (.ofList (s.net.arpRequest (s.net.arpTarget target))) 42).map fun n =>
        { s with net := n, phase := .resolving target timeoutMs s.net.ticks }

/-- One round of the loop of `resolve_mac`. -/
def resolveRound (target : IpAddr) (timeoutMs start : UInt32) : PingSystem :=
  if s.net.ticks - start < 200 then s
  else
    match netArpLookup s.net.arpCache (s.net.arpTarget target) with
    | some dst => s.prepare target timeoutMs dst
    | none => { s with phase := .idle }

/-- The test of the loop of `net_ping`. -/
def enterRound (p : Ping) : PingSystem :=
  { s with phase := if s.net.ticks < p.deadline then .waiting p true else .idle }

/-- The part of the loop after `net_poll`. -/
def checkRound (p : Ping) : PingSystem :=
  if s.net.pingReceived then
    { s with
      phase := .idle
      results := ⟨p, (s.net.pingRecvTime - p.sendTime) * 10, s.log⟩ :: s.results }
  else { s with phase := .waiting p false }

/-- The steps. -/
inductive Step : PingSystem → PingEvent → PingSystem → Prop where
  | begin {s t : PingSystem} (target : IpAddr) (timeoutMs : UInt32) : s.phase = .idle →
      s.beginPing target timeoutMs = .ok t → Step s (.begin target timeoutMs) t
  | resolve {s : PingSystem} {target : IpAddr} {timeoutMs start : UInt32} :
      s.phase = .resolving target timeoutMs start →
      Step s .resolve (s.resolveRound target timeoutMs start)
  | send {s : PingSystem} {p : Ping} {pkt : List UInt8} {n : Net} : s.phase = .sending p pkt →
      s.net.netSendRaw (.ofList pkt) pkt.length = .ok n →
      Step s .send { s with net := n, phase := .waiting p false, log := [] }
  | enter {s : PingSystem} {p : Ping} : s.phase = .waiting p false → Step s .enter (s.enterRound p)
  | check {s : PingSystem} {p : Ping} : s.phase = .waiting p true → Step s .check (s.checkRound p)
  | receive {s : PingSystem} {n : Net} (frame : Buffer) (len : ℕ) :
      s.net.processRxPacket frame len = .ok n →
      Step s (.receive frame len) { s with net := n, log := (frame, s.net.ticks) :: s.log }
  | tick {s : PingSystem} (k : UInt32) :
      Step s (.tick k) { s with net := { s.net with ticks := s.net.ticks + k } }
  | other {s : PingSystem} {n : Net} : n.ticks = s.net.ticks →
      n.pingReceived = s.net.pingReceived → n.pingRecvTime = s.net.pingRecvTime →
      Step s .other { s with net := n }

/-! ## What a ping promises -/

/-- The frame is an echo reply from the target with the identifier and the sequence number of
the request. -/
def IsReplyTo (frame : Buffer) (p : Ping) : Prop :=
  frame.mem.loadLE 23 1 = ipProtoIcmp ∧
    frame.mem.loadLE (14 + frame.mem.loadLE 14 1 % 16 * 4) 1 = icmpEchoReply ∧
    (Vector.ofFn fun i : Fin 4 => frame.mem (26 + i)) = p.target ∧
    fieldAt frame (14 + frame.mem.loadLE 14 1 % 16 * 4 + 4) = 0x1234 ∧
    fieldAt frame (14 + frame.mem.loadLE 14 1 % 16 * 4 + 6) = p.seq

instance (frame : Buffer) (p : Ping) : Decidable (IsReplyTo frame p) :=
  inferInstanceAs (Decidable (_ ∧ _ ∧ _ ∧ _ ∧ _))

/-- The reply to a ping was received at a time. -/
def Answered (log : List (Buffer × UInt32)) (p : Ping) (time : UInt32) : Prop :=
  ∃ frame, (frame, time) ∈ log ∧ IsReplyTo frame p

/-- A call that returned true got its own reply, and reports the time between. -/
def Honest (r : PingResult) : Prop :=
  ∃ time, Answered r.log r.ping time ∧ r.rtt = (time - r.ping.sendTime) * 10

/-- The condition on the steps: what is taken for an echo reply after the flag was reset is the
reply to the request, and comes after it was sent. -/
def OnlyOwnReplies : PingEvent → Prop
  | .receive frame len => Net.IsEchoReply frame len →
      (∀ p pkt, s.phase ≠ .sending p pkt) ∧ ∀ p polled, s.phase = .waiting p polled →
        IsReplyTo frame p
  | _ => True

/-- What holds of a system in which only own replies come. -/
structure Attributed (s : PingSystem) : Prop where
  sending : ∀ p pkt, s.phase = .sending p pkt → s.net.pingReceived = false
  waiting : ∀ p polled, s.phase = .waiting p polled → s.net.pingReceived = true →
    Answered s.log p s.net.pingRecvTime
  results : ∀ r ∈ s.results, Honest r

variable {s} {t : PingSystem}

/-- A step that leaves no call between the reset of the flag and its return. -/
theorem attributed_of_phase (hsending : ∀ p pkt, t.phase ≠ .sending p pkt)
    (hwaiting : ∀ p polled, t.phase ≠ .waiting p polled) (hresults : ∀ r ∈ t.results, Honest r) :
    Attributed t :=
  ⟨fun p pkt h => absurd h (hsending p pkt), fun p polled h => absurd h (hwaiting p polled),
    hresults⟩

/-- Nothing was received since the flag was reset. -/
theorem Attributed.prepare (h : Attributed s) (target : IpAddr) (timeoutMs : UInt32)
    (dst : MacAddr) : Attributed (s.prepare target timeoutMs dst) := by
  refine ⟨fun p pkt _ => rfl, fun p polled hphase => ?_, h.results⟩
  cases hphase

theorem Attributed.begin (h : Attributed s) {target : IpAddr} {timeoutMs : UInt32}
    (ht : s.beginPing target timeoutMs = .ok t) : Attributed t := by
  unfold beginPing at ht
  split_ifs at ht
  · cases ht
    exact h
  · cases hlook : netArpLookup s.net.arpCache (s.net.arpTarget target) with
    | some dst =>
      rw [hlook] at ht
      cases ht
      exact h.prepare target timeoutMs dst
    | none =>
      rw [hlook] at ht
      obtain ⟨n, -, rfl⟩ := Access.map_eq_ok.mp ht
      exact attributed_of_phase (fun p pkt => PingPhase.noConfusion)
        (fun p polled => PingPhase.noConfusion) h.results

theorem Attributed.resolve (h : Attributed s) (target : IpAddr) (timeoutMs start : UInt32) :
    Attributed (s.resolveRound target timeoutMs start) := by
  unfold resolveRound
  split_ifs
  · exact h
  · cases netArpLookup s.net.arpCache (s.net.arpTarget target) with
    | some dst => exact h.prepare target timeoutMs dst
    | none =>
      exact attributed_of_phase (fun p pkt => PingPhase.noConfusion)
        (fun p polled => PingPhase.noConfusion) h.results

/-- The request is sent while the flag is not set. -/
theorem Attributed.send (h : Attributed s) {p : Ping} {pkt : List UInt8} {n : Net}
    (hphase : s.phase = .sending p pkt)
    (hn : s.net.netSendRaw (.ofList pkt) pkt.length = .ok n) :
    Attributed { s with net := n, phase := .waiting p false, log := [] } := by
  have hquiet := Net.quiet_netSendRaw _ _ n hn
  refine ⟨fun q pkt' hq => ?_, fun q polled _ hflag => ?_, h.results⟩
  · cases hq
  · dsimp only at hflag
    rw [hquiet.pingReceived, h.sending p pkt hphase] at hflag
    cases hflag

theorem Attributed.enter (h : Attributed s) {p : Ping} (hphase : s.phase = .waiting p false) :
    Attributed (s.enterRound p) := by
  unfold enterRound
  split_ifs
  · refine ⟨fun q pkt hq => ?_, fun q polled hq hflag => ?_, h.results⟩
    · cases hq
    · cases hq
      exact h.waiting p false hphase hflag
  · exact attributed_of_phase (fun p pkt => PingPhase.noConfusion)
      (fun p polled => PingPhase.noConfusion) h.results

/-- **A call that returns true** has its reply in the log. -/
theorem Attributed.check (h : Attributed s) {p : Ping} (hphase : s.phase = .waiting p true) :
    Attributed (s.checkRound p) := by
  unfold checkRound
  split_ifs with hflag
  · refine attributed_of_phase (fun p pkt => PingPhase.noConfusion)
      (fun p polled => PingPhase.noConfusion) fun r hr => ?_
    rcases List.mem_cons.mp hr with rfl | hr
    · exact ⟨s.net.pingRecvTime, h.waiting p true hphase hflag, rfl⟩
    · exact h.results r hr
  · refine ⟨fun q pkt hq => ?_, fun q polled hq hset => ?_, h.results⟩
    · cases hq
    · exact absurd hset hflag

/-- **A frame is received.** -/
theorem Attributed.receive (h : Attributed s) {n : Net} {frame : Buffer} {len : ℕ}
    (honly : s.OnlyOwnReplies (.receive frame len))
    (hn : s.net.processRxPacket frame len = .ok n) :
    Attributed { s with net := n, log := (frame, s.net.ticks) :: s.log } := by
  obtain ⟨hreply, hother⟩ := Net.processRxPacket_effect hn
  by_cases hecho : Net.IsEchoReply frame len
  · have heffect := hreply hecho
    obtain ⟨hsending, hwaiting⟩ := honly hecho
    refine ⟨fun p pkt hp => absurd hp (hsending p pkt), fun p polled hp _ => ?_, h.results⟩
    refine ⟨frame, ?_, hwaiting p polled hp⟩
    dsimp only
    rw [heffect.pingRecvTime]
    exact List.mem_cons_self
  · have heffect := hother hecho
    refine ⟨fun p pkt hp => ?_, fun p polled hp hflag => ?_, h.results⟩
    · exact heffect.pingReceived.trans (h.sending p pkt hp)
    · dsimp only at hflag ⊢
      rw [heffect.pingReceived] at hflag
      obtain ⟨f, hf, hmatch⟩ := h.waiting p polled hp hflag
      rw [heffect.pingRecvTime]
      exact ⟨f, List.mem_cons_of_mem _ hf, hmatch⟩

/-- **Every step keeps the replies attributed.** -/
theorem Attributed.step {e : PingEvent} (h : Attributed s) (honly : s.OnlyOwnReplies e)
    (hst : Step s e t) : Attributed t := by
  cases hst with
  | begin target timeoutMs _ ht => exact h.begin ht
  | resolve _ => exact h.resolve _ _ _
  | send hphase hn => exact h.send hphase hn
  | enter hphase => exact h.enter hphase
  | check hphase => exact h.check hphase
  | receive frame len hn => exact h.receive honly hn
  | tick k => exact ⟨h.sending, h.waiting, h.results⟩
  | other hticks hflag htime =>
    refine ⟨fun p pkt hp => hflag.trans (h.sending p pkt hp), fun p polled hp hset => ?_, h.results⟩
    dsimp only at hset ⊢
    rw [htime]
    exact h.waiting p polled hp (hflag ▸ hset)

/-- A system in which no ping was sent yet. -/
def start (n : Net) : PingSystem := ⟨n, .idle, [], []⟩

/-- **Pings and replies.**  In every run of `net_ping`, the frames and the time in which what is
taken for an echo reply during a ping is the reply to it, a call that returns true received its
reply after the request was sent, and the time it reports is the difference of the two times. -/
theorem ping_gets_own_reply {n : Net} {es : List PingEvent}
    (hrun : Run (fun s e t => s.OnlyOwnReplies e ∧ Step s e t) (start n) es s) :
    ∀ r ∈ s.results, Honest r := by
  have h : Attributed s := by
    refine hrun.invariant (fun _ _ _ hst h => h.step hst.1 hst.2) ?_
    refine attributed_of_phase (fun p pkt => PingPhase.noConfusion)
      (fun p polled => PingPhase.noConfusion) fun r hr => ?_
    cases hr
  exact h.results

/-! ## One ping -/

/-- The gateway is in the ARP cache. -/
def pingNet : Net :=
  { Net.started with
    arpCache := ⟨Net.gatewayAddr, .replicate 6 0x52, true⟩ :: Net.started.arpCache }

/-- The ping of the gateway at the start. -/
def gatewayPing : Ping := ⟨Net.gatewayAddr, 0, 0, 200⟩

/-- An echo reply with sequence number 0 from `10.0.2.host`. -/
def replyFrom (host : UInt8) : Buffer := ⟨42, fun x =>
  match x with
  | 12 => 0x08 | 14 => 0x45 | 17 => 28 | 22 => 64 | 23 => 1
  | 26 => 10 | 28 => 2 | 29 => host | 30 => 10 | 32 => 2 | 33 => 15
  | 38 => 0x12 | 39 => 0x34 | _ => 0⟩

/-- A ping of the gateway, and an echo reply after three ticks. -/
def pingEvents (host : UInt8) : List PingEvent :=
  [.begin Net.gatewayAddr 2000, .send, .tick 3, .receive (replyFrom host) 42, .enter, .check]

theorem processRxPacket_replyFrom (host : UInt8) (n : Net) :
    n.processRxPacket (replyFrom host) 42 =
      .ok { n with pingReceived := true, pingRecvTime := n.ticks } := by
  have htype : netField (replyFrom host) 12 = .ok ethTypeIp := by
    simp [netField, Buffer.load, replyFrom, Memory.loadLE, ntohs, ethTypeIp, Except.map]
  have hver : (replyFrom host).load 14 1 = .ok 0x45 := rfl
  have htotal : netField (replyFrom host) 16 = .ok 28 := by
    simp [netField, Buffer.load, replyFrom, Memory.loadLE, ntohs, Except.map]
  have hproto : (replyFrom host).load 23 1 = .ok ipProtoIcmp := rfl
  have hicmp : (replyFrom host).load (14 + 0x45 % 16 * 4) 1 = .ok icmpEchoReply := rfl
  unfold Net.processRxPacket
  rw [if_neg (by decide), htype, Access.ok_bind, if_neg (by decide), if_pos (by decide)]
  unfold Net.processIp
  rw [hver, Access.ok_bind, htotal, Access.ok_bind, hproto, Access.ok_bind, if_pos rfl]
  unfold Net.processIcmp
  rw [hicmp, Access.ok_bind, if_neg (by decide), if_pos rfl]

/-- The ping of the gateway returns true, whoever replies. -/
theorem run_pingEvents (host : UInt8) :
    ∃ s, Run (fun s e t => (IsReplyTo (replyFrom host) gatewayPing → s.OnlyOwnReplies e) ∧
      Step s e t) (start pingNet) (pingEvents host) s ∧
      s.results = [⟨gatewayPing, 30, [(replyFrom host, 3)]⟩] := by
  have hbegin : (start pingNet).beginPing #v[10, 0, 2, 2] 2000 =
      .ok ((start pingNet).prepare #v[10, 0, 2, 2] 2000 (.replicate 6 0x52)) := rfl
  obtain ⟨n, hn⟩ : Access.Inside (((start pingNet).prepare #v[10, 0, 2, 2] 2000
      (.replicate 6 0x52)).net.netSendRaw (.ofList (pingNet.pingRequest (.replicate 6 0x52)
        #v[10, 0, 2, 2] 0)) (pingNet.pingRequest (.replicate 6 0x52) #v[10, 0, 2, 2] 0).length) :=
    Net.inside_netSendRaw (Draft.ofList_setUpTo _) le_rfl le_rfl
  have hticks : n.ticks = 0 := (Net.quiet_netSendRaw _ _ n hn).ticks
  let afterTick : PingSystem := ⟨{ n with ticks := n.ticks + 3 }, .waiting gatewayPing false, [], []⟩
  let afterReply : PingSystem := ⟨{ n with
    ticks := n.ticks + 3, pingReceived := true, pingRecvTime := n.ticks + 3 },
    .waiting gatewayPing false, [(replyFrom host, n.ticks + 3)], []⟩
  let afterEnter : PingSystem := { afterReply with phase := .waiting gatewayPing true }
  have henter : Step afterReply .enter afterEnter := by
    have heq : afterReply.enterRound gatewayPing = afterEnter := by
      unfold enterRound
      rw [if_pos]
      show n.ticks + 3 < 200
      rw [hticks]
      decide
    rw [← heq]
    exact .enter rfl
  refine ⟨_, .cons ⟨fun _ => trivial, .begin _ _ rfl hbegin⟩ (.cons ⟨fun _ => trivial, .send rfl hn⟩
    (.cons ⟨fun _ => trivial, .tick 3⟩ (.cons (t := afterReply) ⟨fun h _ => ⟨?_, ?_⟩, ?_⟩
      (.cons ⟨fun _ => trivial, henter⟩ (.cons ⟨fun _ => trivial, @Step.check afterEnter _ rfl⟩
        (.nil _)))))), ?_⟩
  · exact fun p pkt => PingPhase.noConfusion
  · intro p polled hp
    cases hp
    exact h
  · exact @Step.receive afterTick _ _ _ (processRxPacket_replyFrom host _)
  · show [(⟨gatewayPing, (n.ticks + 3 - 0) * 10, [(replyFrom host, n.ticks + 3)]⟩ : PingResult)] = _
    rw [hticks]
    rfl

/-- The gateway replies. -/
theorem ping_gets_own_reply_gateway :
    ∃ s, Run (fun s e t => s.OnlyOwnReplies e ∧ Step s e t) (start pingNet) (pingEvents 2) s ∧
      s.results.map PingResult.rtt = [30] ∧ ∀ r ∈ s.results, Honest r := by
  obtain ⟨s, hrun, hresults⟩ := run_pingEvents 2
  have hown : Run (fun s e t => s.OnlyOwnReplies e ∧ Step s e t) (start pingNet) (pingEvents 2) s :=
    hrun.mono fun _ _ _ hst => ⟨hst.1 (by decide), hst.2⟩
  refine ⟨s, hown, ?_, ping_gets_own_reply hown⟩
  rw [hresults]
  rfl

/-- **Another host replies** and the ping of the gateway returns true. -/
theorem foreign_reply_answers :
    ∃ s, Run Step (start pingNet) (pingEvents 3) s ∧ ∃ r ∈ s.results, ¬ Honest r := by
  obtain ⟨s, hrun, hresults⟩ := run_pingEvents 3
  refine ⟨s, hrun.mono fun _ _ _ hst => hst.2, _, hresults ▸ List.mem_cons_self, ?_⟩
  rintro ⟨time, ⟨frame, hmem, hreply⟩, -⟩
  rw [List.mem_singleton] at hmem
  cases hmem
  exact absurd hreply (by decide)

end PingSystem

end Microkernel

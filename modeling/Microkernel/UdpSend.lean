/-
# Sending datagrams

`net_send_udp`, and the way of a datagram from one machine to another: the frame that it gives to
the device, padded to 60 bytes, calls the handler of the receiver with the payload and nothing of
the padding.
-/
import Microkernel.Ping
import Microkernel.NetFields
import Microkernel.DraftPieces

namespace Microkernel

open Access

/-- The variables of `net.c` with those that only the senders have. -/
structure NetStack extends Net where
  dnsServer : IpAddr
  ipIdCounter : UInt16

namespace Net

variable (n : Net)

/-- The IP header of `net_send_udp`, with the checksum `sum`. -/
def udpIpHeader (dst : IpAddr) (len : ℕ) (ipId : UInt16) (sum : ℕ) : List UInt8 :=
  [0x45, 0] ++ (netBytes (28 + len) ++ (netBytes ipId.toNat ++ ([0, 0, 64, 17] ++ (bytes16 sum ++
    (n.ourIp.toList ++ dst.toList)))))

/-- The UDP header of `net_send_udp` and the payload. -/
def udpMessage (srcPort dstPort : UInt16) (data : List UInt8) : List UInt8 :=
  netBytes srcPort.toNat ++ (netBytes dstPort.toNat ++ (netBytes (8 + data.length) ++
    ([0, 0] ++ data)))

/-- The bytes of `pkt` in `net_send_udp`. -/
def udpPacket (mac : MacAddr) (dst : IpAddr) (ipId srcPort dstPort : UInt16) (data : List UInt8) :
    List UInt8 :=
  mac.toList ++ (n.ourMac.toList ++ ([0x08, 0x00] ++
    (n.udpIpHeader dst data.length ipId (ipChecksum (n.udpIpHeader dst data.length ipId 0)) ++
      udpMessage srcPort dstPort data)))

end Net

/-- `net_send_udp` behind the call of `resolve_mac`, whose result is `mac`. -/
def NetStack.netSendUdp (s : NetStack) (mac : Option MacAddr) (dst : IpAddr)
    (srcPort dstPort : UInt16) (data : List UInt8) : Access (NetStack × Bool) :=
  if s.nicAvailable = false then .ok (s, false)
  else if 1400 < data.length then .ok (s, false)
  else
    match mac with
    | none => .ok (s, false)
    | some mac =>
      if 1500 < 42 + data.length then .ok (s, false)
      else
        (s.netSendRaw (.ofList (s.udpPacket mac dst s.ipIdCounter srcPort dstPort data))
          (42 + data.length)).map fun n =>
            ({ s with toNet := n, ipIdCounter := s.ipIdCounter + 1 }, true)

/-- The payload is an answer that the DNS part of `process_udp` takes. -/
def Net.TakesAnswer (r : Net) (srcPort : UInt16) (data : List UInt8) : Prop :=
  srcPort = 53 ∧ 12 ≤ data.length ∧ ∃ ip, dnsAnswer (bufferOf data) r.dnsTxnId = .ok (some ip)

/-! ## The frame -/

theorem netBytes_eq_be16 {v : ℕ} (hv : v < 2 ^ 16) : Net.netBytes v = be16 v := by
  have hhigh : v / 256 < 256 := by omega
  have hlow : (v / 256 + v % 256 * 256) / 256 = v % 256 := by
    rw [Nat.add_mul_div_right _ _ (by norm_num), Nat.div_eq_of_lt hhigh, Nat.zero_add]
  unfold Net.netBytes bytes16 be16 ntohs
  rw [hlow]
  congr 1
  · apply UInt8.toNat_inj.mp
    rw [UInt8.toNat_ofNat', UInt8.toNat_ofNat']
    omega
  · congr 1
    apply UInt8.toNat_inj.mp
    rw [UInt8.toNat_ofNat', UInt8.toNat_ofNat']
    omega

theorem udpMessage_eq {srcPort dstPort : UInt16} {data : List UInt8} (hlen : data.length ≤ 1400) :
    Net.udpMessage srcPort dstPort data = udpDatagram srcPort dstPort 0 data := by
  unfold Net.udpMessage udpDatagram
  rw [netBytes_eq_be16 srcPort.toNat_lt, netBytes_eq_be16 dstPort.toNat_lt,
    netBytes_eq_be16 (by omega)]
  rfl

theorem length_udpPacket (n : Net) (mac : MacAddr) (dst : IpAddr) (ipId srcPort dstPort : UInt16)
    (data : List UInt8) :
    (n.udpPacket mac dst ipId srcPort dstPort data).length = 42 + data.length := by
  unfold Net.udpPacket Net.udpIpHeader Net.udpMessage Net.netBytes bytes16
  simp only [List.length_append, Vector.length_toList, List.length_cons, List.length_nil]
  omega

/-- The frame on the wire. -/
def udpFrame (n : Net) (mac : MacAddr) (dst : IpAddr) (ipId srcPort dstPort : UInt16)
    (data : List UInt8) : List UInt8 :=
  n.udpPacket mac dst ipId srcPort dstPort data ++ List.replicate (60 - (42 + data.length)) 0

/-- **`net_send_udp` gives the frame to the device.** -/
theorem netSendUdp_eq {s : NetStack} {mac : MacAddr} {dst : IpAddr} {srcPort dstPort : UInt16}
    {data : List UInt8} (hnic : s.nicAvailable = true) (hlen : data.length ≤ 1400) :
    s.netSendUdp (some mac) dst srcPort dstPort data =
      .ok ({ s with
        sent := udpFrame s.toNet mac dst s.ipIdCounter srcPort dstPort data :: s.sent
        ipIdCounter := s.ipIdCounter + 1 }, true) := by
  have hpacket := length_udpPacket s.toNet mac dst s.ipIdCounter srcPort dstPort data
  have hread := (Draft.ofList_shows
    (s.udpPacket mac dst s.ipIdCounter srcPort dstPort data)).read_all
  rw [hpacket] at hread
  have hnot : ¬ s.nicAvailable = false := by
    rw [hnic]
    exact Bool.noConfusion
  unfold NetStack.netSendUdp
  rw [if_neg hnot, if_neg (by omega)]
  dsimp only
  rw [if_neg (by omega)]
  unfold Net.netSendRaw
  rw [if_neg, hread]
  · rfl
  · rintro (hoff | hlong)
    · exact hnot hoff
    · exact absurd hlong (by unfold txBufSize; omega)

/-! ## The way of a datagram -/

variable {n r : Net} {mac : MacAddr} {dst : IpAddr} {ipId srcPort dstPort : UInt16}
  {data : List UInt8}

theorem length_udpFrame :
    (udpFrame n mac dst ipId srcPort dstPort data).length = max 60 (42 + data.length) := by
  unfold udpFrame
  rw [List.length_append, length_udpPacket, List.length_replicate]
  omega

/-- What `process_rx_packet` reads of the frame. -/
theorem holds_udpFrame (hlen : data.length ≤ 1400) :
    let frame := bufferOf (udpFrame n mac dst ipId srcPort dstPort data)
    netField frame 12 = .ok ethTypeIp ∧ frame.load 14 1 = .ok 0x45 ∧
      netField frame 16 = .ok (28 + data.length) ∧ frame.load 23 1 = .ok ipProtoUdp ∧
      frame.vec 26 4 = .ok n.ourIp ∧ frame.Holds 34 (udpDatagram srcPort dstPort 0 data) := by
  intro frame
  have hholds := holds_bufferOf (udpFrame n mac dst ipId srcPort dstPort data)
  have hpacket := (frame.holds_append.mp hholds).1
  have hproto : ([0, 0, 64, 17] : List UInt8) = [0, 0, 64] ++ [17] := rfl
  unfold Net.udpPacket Net.udpIpHeader at hpacket
  rw [udpMessage_eq hlen, netBytes_eq_be16 (by omega), netBytes_eq_be16 ipId.toNat_lt, hproto]
    at hpacket
  generalize ipChecksum _ = sum at hpacket
  simp only [frame.holds_append, Vector.length_toList, length_be16, length_bytes16,
    List.length_append, List.length_cons, List.length_nil, Nat.zero_add, Nat.reduceAdd] at hpacket
  obtain ⟨-, -, htype, ⟨hver, htotal, -, ⟨-, hudp⟩, -, hsrc, -⟩, hdatagram⟩ := hpacket
  exact ⟨netField_of_holds htype (by norm_num [ethTypeIp]), frame.load_of_holds hver,
    netField_of_holds htotal (by omega), frame.load_of_holds hudp, vec_of_holds hsrc, hdatagram⟩

/-- What the receiver sees as the payload has nothing of the padding. -/
theorem payload_udpFrame (hlen : data.length ≤ 1400) :
    (⟨data.length, fun i =>
      (bufferOf (udpFrame n mac dst ipId srcPort dstPort data)).mem (42 + i)⟩ : Buffer) =
      bufferOf data := by
  obtain ⟨-, -, -, -, -, hdatagram⟩ := @holds_udpFrame n mac dst ipId srcPort dstPort data hlen
  have hholds := (@processUdp_datagram n _ n.ourIp 34 _ _ _ _ _ hdatagram (by omega) le_rfl).1
  unfold bufferOf
  congr 1
  funext i
  rcases Nat.lt_or_ge i data.length with hi | hi
  · have hbyte := (Buffer.holds_iff.mp hholds).2 i hi
    rw [List.getD_eq_getElem?_getD, hbyte]
    rfl
  · -- behind the payload there are zeros, and then nothing
    have hpacket := length_udpPacket n mac dst ipId srcPort dstPort data
    rw [List.getD_eq_default _ _ hi]
    show (n.udpPacket mac dst ipId srcPort dstPort data ++
      List.replicate (60 - (42 + data.length)) 0).getD (42 + i) 0 = 0
    rw [List.getD_eq_getElem?_getD, List.getElem?_append_right (by omega), List.getElem?_replicate]
    split_ifs
    · rfl
    · rfl

/-- **The receiver of a frame of `net_send_udp`** gets to the payload. -/
theorem processRxPacket_udpFrame (hlen : data.length ≤ 1400) :
    r.processRxPacket (bufferOf (udpFrame n mac dst ipId srcPort dstPort data))
        (udpFrame n mac dst ipId srcPort dstPort data).length =
      r.deliverUdp (bufferOf (udpFrame n mac dst ipId srcPort dstPort data)) n.ourIp
        srcPort.toNat dstPort.toNat 42 data.length := by
  obtain ⟨htype, hver, htotal, hproto, hsrc, hdatagram⟩ :=
    @holds_udpFrame n mac dst ipId srcPort dstPort data hlen
  obtain ⟨-, hudp⟩ := @processUdp_datagram r _ n.ourIp 34 (8 + data.length) _ _ _ _ hdatagram
    (by omega) le_rfl
  have hdiff : diff32 (28 + data.length) (0x45 % 16 * 4) = 8 + data.length := by
    unfold diff32
    omega
  unfold Net.processRxPacket
  rw [if_neg (by rw [length_udpFrame]; omega), htype, ok_bind,
    if_neg (fun harp => absurd harp.1 (by decide)),
    if_pos ⟨rfl, by rw [length_udpFrame]; omega⟩]
  unfold Net.processIp
  rw [hver, ok_bind, htotal, ok_bind, hproto, ok_bind, if_neg (by decide), if_pos rfl, hsrc, ok_bind,
    hdiff]
  exact hudp

/-- **UDP round trip.**  Every datagram of up to 1400 bytes for which the address is resolved is
sent, and a receiver with a handler that gets the frame calls it once, with the address of the
sender, the ports and the payload, unless the payload is a DNS answer that it waits for. -/
theorem udp_round_trip {s : NetStack} (mac : MacAddr) (dst : IpAddr) (srcPort dstPort : UInt16)
    {data : List UInt8} (hnic : s.nicAvailable = true) (hlen : data.length ≤ 1400) :
    ∃ frame : List UInt8, 60 ≤ frame.length ∧
      s.netSendUdp (some mac) dst srcPort dstPort data =
        .ok ({ s with sent := frame :: s.sent, ipIdCounter := s.ipIdCounter + 1 }, true) ∧
      ∀ r : Net, r.udpHandler = true → ¬ r.TakesAnswer srcPort data →
        r.processRxPacket (bufferOf frame) frame.length =
          .ok { r with
            handled := ⟨s.ourIp, srcPort.toNat, dstPort.toNat, data⟩ :: r.handled } := by
  refine ⟨_, ?_, netSendUdp_eq hnic hlen, ?_⟩
  · rw [length_udpFrame]
    exact le_max_left _ _
  · intro r hreg hnot
    rw [processRxPacket_udpFrame hlen]
    have hpayload := @payload_udpFrame s.toNet mac dst s.ipIdCounter srcPort dstPort data hlen
    have hslice : (bufferOf (udpFrame s.toNet mac dst s.ipIdCounter srcPort dstPort data)).slice 42
        data.length = .ok (bufferOf data) := by
      rw [← hpayload]
      unfold Buffer.slice
      rw [if_pos]
      right
      show _ ≤ (udpFrame s.toNet mac dst s.ipIdCounter srcPort dstPort data).length
      rw [length_udpFrame]
      exact le_max_right _ _
    have hcall : r.callUdpHandler
        (bufferOf (udpFrame s.toNet mac dst s.ipIdCounter srcPort dstPort data)) s.ourIp
        srcPort.toNat dstPort.toNat 42 data.length =
          .ok { r with
            handled := ⟨s.ourIp, srcPort.toNat, dstPort.toNat, data⟩ :: r.handled } := by
      unfold Net.callUdpHandler
      rw [if_pos hreg, hslice]
      exact congrArg (fun l => Except.ok { r with
        handled := ⟨s.ourIp, srcPort.toNat, dstPort.toNat, l⟩ :: r.handled }) (toList_bufferOf data)
    unfold Net.deliverUdp
    by_cases hdns : srcPort.toNat = dnsPort ∧ 12 ≤ data.length
    · rw [if_pos hdns, hslice, ok_bind]
      obtain ⟨answer, hanswer⟩ := @inside_dnsAnswer (bufferOf data) hdns.2 r.dnsTxnId
      rw [hanswer, ok_bind]
      cases answer with
      | none => exact hcall
      | some ip => exact absurd ⟨UInt16.toNat_inj.mp hdns.1, hdns.2, ip, hanswer⟩ hnot
    · rw [if_neg hdns]
      exact hcall

/-- A datagram with two bytes. -/
theorem udp_round_trip_two :
    ∃ frame : List UInt8, 60 ≤ frame.length ∧
      (⟨Net.started, #v[10, 0, 2, 3], 1⟩ : NetStack).netSendUdp (some (.replicate 6 1))
        #v[10, 0, 2, 2] 1024 7 [1, 2] =
        .ok (⟨{ Net.started with sent := [frame] }, #v[10, 0, 2, 3], 2⟩, true) ∧
      ({ Net.started with udpHandler := true } : Net).processRxPacket (bufferOf frame)
        frame.length = .ok { Net.started with
          udpHandler := true
          handled := [⟨#v[10, 0, 2, 15], 1024, 7, [1, 2]⟩] } := by
  obtain ⟨frame, hsize, hsend, hreceive⟩ := @udp_round_trip ⟨Net.started, #v[10, 0, 2, 3], 1⟩
    (.replicate 6 1) #v[10, 0, 2, 2] 1024 7 [1, 2] rfl (by decide)
  refine ⟨frame, hsize, hsend, hreceive _ rfl ?_⟩
  intro hanswer
  exact absurd hanswer.1 (by decide)

end Microkernel

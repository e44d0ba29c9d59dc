/-
# Receiving frames

The receive path of `net.c`: the loop over the ring of the RTL8139, the Ethernet, ARP, IP, ICMP
and UDP headers, the DNS answer, and the frames that are sent back.

A received frame is a buffer of its own length.  A read that is not inside it is a fault, and so
is handing on a payload that does not lie in it, or reading a byte of a reply that was never set.
Offsets are natural numbers; where the code subtracts 32-bit numbers, the difference wraps.
-/
import Microkernel.Drafts

namespace Microkernel

/-! ## Numbers -/

/-- `ntohs` and `htons`. -/
def ntohs (v : ℕ) : ℕ := v / 256 + v % 256 * 256

/-- A 32-bit difference. -/
def diff32 (a b : ℕ) : ℕ := (a + 2 ^ 32 - b) % 2 ^ 32

/-- A 16-bit field of a header, in network order. -/
def netField (b : Buffer) (off : ℕ) : Access ℕ := (b.load off 2).map ntohs

/-- The two bytes of a number, least significant first. -/
def bytes16 (v : ℕ) : List UInt8 := [UInt8.ofNat v, UInt8.ofNat (v / 256)]

/-- The first loop of `ip_checksum`: the sum of the 16-bit words; a last odd byte counts as it
is. -/
def wordSum : List UInt8 → ℕ
  | [] => 0
  | [b] => b.toNat
  | b₀ :: b₁ :: bs => b₀.toNat + 256 * b₁.toNat + wordSum bs

/-- The second loop of `ip_checksum`: carries are added back. -/
def foldCarries (sum : ℕ) : ℕ :=
  if sum / 2 ^ 16 = 0 then sum else foldCarries (sum % 2 ^ 16 + sum / 2 ^ 16)
termination_by sum
decreasing_by omega

/-- `ip_checksum`. -/
def ipChecksum (data : List UInt8) : ℕ := 2 ^ 16 - 1 - foldCarries (wordSum data)

/-! ## The state -/

/-- `ip_addr_t` and `mac_addr_t`. -/
abbrev IpAddr := Vector UInt8 4
abbrev MacAddr := Vector UInt8 6

/-- An entry of `arp_cache`. -/
structure ArpEntry where
  ip : IpAddr
  mac : MacAddr
  valid : Bool
  deriving DecidableEq

/-- A call of `udp_handler`. -/
structure UdpCall where
  srcIp : IpAddr
  srcPort : ℕ
  dstPort : ℕ
  payload : List UInt8
  deriving DecidableEq

/-- The variables of `net.c` and the tick counter; `udpHandler` says whether one is registered.
The last two fields are history: the frames given to the device and the calls of the handler,
the latest first. -/
structure Net where
  nicAvailable : Bool
  ourMac : MacAddr
  ourIp : IpAddr
  gatewayIp : IpAddr
  netmask : IpAddr
  rxOffset : ℕ
  arpCache : List ArpEntry
  pingReceived : Bool
  pingRecvTime : UInt32
  pingSeq : ℕ
  udpHandler : Bool
  dnsReceived : Bool
  dnsResult : IpAddr
  dnsTxnId : ℕ
  ticks : UInt32
  sent : List (List UInt8)
  handled : List UdpCall

/-- The sizes of the arrays. -/
def rxBufSize : ℕ := 8192 + 16 + 1500
def txBufSize : ℕ := 1536
def replySize : ℕ := 1500

/-- The constants of `net.h`. -/
def ethTypeArp : ℕ := 0x0806
def ethTypeIp : ℕ := 0x0800
def arpOpRequest : ℕ := 1
def ipProtoIcmp : ℕ := 1
def ipProtoUdp : ℕ := 17
def icmpEchoReply : ℕ := 0
def icmpEchoRequest : ℕ := 8
def dnsPort : ℕ := 53
def dnsTypeA : ℕ := 1
def dnsFlagQr : ℕ := 0x8000

/-- `arp_cache_add`. -/
def arpCacheAdd (cache : List ArpEntry) (ip : IpAddr) (mac : MacAddr) : List ArpEntry :=
  match cache.findIdx? fun e => e.valid && e.ip == ip with
  | some i => cache.modify i fun e => { e with mac := mac }
  | none =>
    match cache.findIdx? fun e => !e.valid with
    | some i => cache.set i ⟨ip, mac, true⟩
    | none => cache

/-- `net_arp_lookup`. -/
def netArpLookup (cache : List ArpEntry) (ip : IpAddr) : Option MacAddr :=
  (cache.find? fun e => e.valid && e.ip == ip).map ArpEntry.mac

/-! ## DNS answers -/

/-- `(*p & 0xC0) == 0xC0`. -/
def isPointer (c : ℕ) : Bool := c &&& 0xC0 == 0xC0

/-- The loop over the name of the question, up to the first byte after the question; it runs out
of rounds with a fault. -/
def skipQuestion (b : Buffer) : ℕ → ℕ → Access ℕ
  | 0, _ => .error .read
  | k + 1, p =>
    if p < b.size then
      (b.load p 1).bind fun c =>
        if c = 0 then .ok (p + 1 + 4)
        else if isPointer c then .ok (p + 2 + 4)
        else skipQuestion b k (p + c + 1)
    else .ok (p + 1 + 4)

/-- The loop over the labels of a name in an answer. -/
def skipLabels (b : Buffer) : ℕ → ℕ → Access ℕ
  | 0, _ => .error .read
  | k + 1, p =>
    if p < b.size then
      (b.load p 1).bind fun c => if c = 0 then .ok (p + 1) else skipLabels b k (p + c + 1)
    else .ok (p + 1)

/-- The name of an answer. -/
def skipName (b : Buffer) (p : ℕ) : Access ℕ :=
  (b.load p 1).bind fun c => if isPointer c then .ok (p + 2) else skipLabels b (b.size + 1) p

/-- The loop over the answers: the address of the first `A` record. -/
def dnsAnswers (b : Buffer) : ℕ → ℕ → Access (Option IpAddr)
  | 0, _ => .ok none
  | k + 1, p =>
    if p + 12 ≤ b.size then
      (skipName b p).bind fun p =>
        if p + 10 > b.size then .ok none
        else
          (netField b p).bind fun rtype =>
          (netField b (p + 8)).bind fun rdlen =>
            if rtype = dnsTypeA ∧ rdlen = 4 ∧ p + 10 + 4 ≤ b.size then
              (b.vec (p + 10) 4).map some
            else dnsAnswers b k (p + 10 + rdlen)
    else .ok none

/-- The DNS part of `process_udp`. -/
def dnsAnswer (b : Buffer) (txnId : ℕ) : Access (Option IpAddr) :=
  (netField b 0).bind fun id =>
  (netField b 2).bind fun flags =>
  (netField b 6).bind fun ancount =>
    if id = txnId ∧ flags &&& dnsFlagQr ≠ 0 ∧ 0 < ancount then
      (skipQuestion b (b.size + 1) 12).bind fun p => dnsAnswers b ancount p
    else .ok none

namespace Net

variable (n : Net)

/-- `net_send_raw`. -/
def netSendRaw (data : Draft) (len : ℕ) : Access Net :=
  if n.nicAvailable = false ∨ txBufSize < len then .ok n
  else
    (data.read 0 len).map fun bytes =>
      { n with sent := (bytes ++ List.replicate (60 - len) 0) :: n.sent }

/-! ## UDP -/

/-- The end of `process_udp`: the handler gets the payload. -/
def callUdpHandler (frame : Buffer) (srcIp : IpAddr) (sport dport off payloadLen : ℕ) :
    Access Net :=
  if n.udpHandler then
    (frame.slice off payloadLen).map fun payload =>
      { n with handled := ⟨srcIp, sport, dport, payload.toList⟩ :: n.handled }
  else .ok n

/-- The part of `process_udp` after the checks, for the payload at `off` of the frame. -/
def deliverUdp (frame : Buffer) (srcIp : IpAddr) (sport dport off payloadLen : ℕ) : Access Net :=
  if sport = dnsPort ∧ 12 ≤ payloadLen then
    (frame.slice off payloadLen).bind fun payload =>
    (dnsAnswer payload n.dnsTxnId).bind fun answer =>
      match answer with
      | some ip => .ok { n with dnsResult := ip, dnsReceived := true }
      | none => n.callUdpHandler frame srcIp sport dport off payloadLen
  else n.callUdpHandler frame srcIp sport dport off payloadLen

/-- `process_udp`, for the datagram at `off` of the frame. -/
def processUdp (frame : Buffer) (srcIp : IpAddr) (off len : ℕ) : Access Net :=
  if len < 8 then .ok n
  else
    (netField frame off).bind fun sport =>
    (netField frame (off + 2)).bind fun dport =>
    (netField frame (off + 4)).bind fun udpLen =>
      if udpLen < 8 ∨ len < udpLen then .ok n
      else n.deliverUdp frame srcIp sport dport (off + 8) (udpLen - 8)

/-! ## ICMP -/

/-- The reply to an echo request with IP header length `h` and total length `t`. -/
def echoReply (frame : Buffer) (h t : ℕ) : Access Net :=
  if 14 + t > replySize then .ok n
  else
    (frame.bytes 0 (14 + t)).bind fun data =>
    (frame.vec 6 6).bind fun ethSrc =>
    (frame.vec 26 4).bind fun ipSrc =>
    ((Draft.blank replySize).store 0 data).bind fun reply =>
    (reply.store 0 ethSrc.toList).bind fun reply =>
    (reply.store 6 n.ourMac.toList).bind fun reply =>
    (reply.store 30 ipSrc.toList).bind fun reply =>
    (reply.store 26 n.ourIp.toList).bind fun reply =>
    (reply.store 24 [0, 0]).bind fun reply =>
    (reply.read 14 h).bind fun header =>
    (reply.store 24 (bytes16 (ipChecksum header))).bind fun reply =>
    (reply.store (14 + h) [UInt8.ofNat icmpEchoReply]).bind fun reply =>
    (reply.store (14 + h + 2) [0, 0]).bind fun reply =>
    (reply.read (14 + h) (diff32 t h)).bind fun message =>
    (reply.store (14 + h + 2) (bytes16 (ipChecksum message))).bind fun reply =>
      n.netSendRaw reply (14 + t)

/-- The ICMP part of `process_rx_packet`. -/
def processIcmp (frame : Buffer) (h t : ℕ) : Access Net :=
  (frame.load (14 + h) 1).bind fun type =>
    if type = icmpEchoRequest then n.echoReply frame h t
    else if type = icmpEchoReply then .ok { n with pingReceived := true, pingRecvTime := n.ticks }
    else .ok n

/-! ## IP, ARP and Ethernet -/

/-- The IP part of `process_rx_packet`. -/
def processIp (frame : Buffer) : Access Net :=
  (frame.load 14 1).bind fun verIhl =>
  (netField frame 16).bind fun ipTotal =>
  (frame.load 23 1).bind fun protocol =>
    if protocol = ipProtoIcmp then n.processIcmp frame (verIhl % 16 * 4) ipTotal
    else if protocol = ipProtoUdp then
      (frame.vec 26 4).bind fun src =>
        n.processUdp frame src (14 + verIhl % 16 * 4) (diff32 ipTotal (verIhl % 16 * 4))
    else .ok n

/-- The bytes of an ARP reply to `tha` and `tpa`. -/
def arpReply (tha : MacAddr) (tpa : IpAddr) : List UInt8 :=
  tha.toList ++ n.ourMac.toList ++ [0x08, 0x06, 0, 1, 0x08, 0, 6, 4, 0, 2] ++ n.ourMac.toList ++
    n.ourIp.toList ++ tha.toList ++ tpa.toList

/-- The ARP part of `process_rx_packet`. -/
def processArp (frame : Buffer) : Access Net :=
  (netField frame 20).bind fun op =>
  (frame.vec 22 6).bind fun sha =>
  (frame.vec 28 4).bind fun spa =>
  (frame.vec 38 4).bind fun tpa =>
    let n := { n with arpCache := arpCacheAdd n.arpCache spa sha }
    if op = arpOpRequest ∧ tpa = n.ourIp then
      ((Draft.blank 42).store 0 (n.arpReply sha spa)).bind fun reply => n.netSendRaw reply 42
    else .ok n

/-- `process_rx_packet`; `len` is the length the caller gives. -/
def processRxPacket (frame : Buffer) (len : ℕ) : Access Net :=
  if len < 14 then .ok n
  else
    (netField frame 12).bind fun ethertype =>
      if ethertype = ethTypeArp ∧ 42 ≤ len then n.processArp frame
      else if ethertype = ethTypeIp ∧ 34 ≤ len then n.processIp frame
      else .ok n

/-! ## The receive ring -/

/-- `rx_size` of a header. -/
def rxSize (header : ℕ) : ℕ := header / 2 ^ 16 % 2 ^ 16

/-- A header that ends the loop. -/
def endsLoop (header : ℕ) : Bool :=
  rxSize header == 0 || decide (rxSize header > 1504) || header % 2 == 0

/-- The next value of `rx_offset`. -/
def nextOffset (off size : ℕ) : ℕ :=
  let next := (off + size + 4 + 3) / 4 * 4
  if next ≥ 8192 then next - 8192 else next

/-- One round of the receive loop, with the ring as the device has filled it; `none` when the
loop ends.  The frame is what lies between the header and the checksum. -/
def rxRound (ring : Memory) : Access (Option Net) :=
  let rx : Buffer := ⟨rxBufSize, ring⟩
  (rx.load n.rxOffset 4).bind fun header =>
    if endsLoop header then .ok none
    else
      (rx.slice (n.rxOffset + 4) (rxSize header - 4)).bind fun frame =>
      (n.processRxPacket frame (diff32 (rxSize header) 4)).map fun n =>
        some { n with rxOffset := nextOffset n.rxOffset (rxSize header) }

/-- The receive loop; there is one ring for each round in which the device has a frame. -/
def rxLoop : List Memory → Net → Access Net
  | [], n => .ok n
  | ring :: rings, n =>
    (n.rxRound ring).bind fun r =>
      match r with
      | none => .ok n
      | some n => rxLoop rings n

/-- `rtl_irq_handler`. -/
def rtlIrqHandler (status : ℕ) (rings : List Memory) : Access Net :=
  if status % 2 = 1 then rxLoop rings n else .ok n

/-- `net_poll`. -/
def netPoll (status : ℕ) (rings : List Memory) : Access Net :=
  if n.nicAvailable = false then .ok n
  else if status ≠ 0 then
    if status % 2 = 1 then rxLoop rings n else .ok n
  else .ok n

end Net

end Microkernel

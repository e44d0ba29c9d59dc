/-
# Received frames and their bounds

When the receive path stays inside the frame.  The length of the frame, the header length and the
total length of the IP header and the length of the UDP header come from the sender; the code
compares the first with fixed sizes and the last with the difference of the other two, and that
is not enough.  `FrameOk` adds the comparisons that are missing, and is exact.
-/
import Microkernel.Net
import Microkernel.Runs

namespace Microkernel

open Access

/-! ## Fields -/

/-- The value of a 16-bit field of a header. -/
def fieldAt (b : Buffer) (off : ℕ) : ℕ := ntohs (b.mem.loadLE off 2)

theorem inside_netField_bind {α : Type} {b : Buffer} {off : ℕ} {f : ℕ → Access α} :
    Inside ((netField b off).bind f) ↔ off + 2 ≤ b.size ∧ Inside (f (fieldAt b off)) := by
  unfold netField Buffer.load
  split_ifs with h
  · exact ⟨fun hf => ⟨h, hf⟩, fun hf => hf.2⟩
  · exact ⟨fun hf => absurd hf (not_inside_error _), fun hf => absurd hf.1 h⟩

/-! ## DNS answers -/

/-- The loop over the question stays inside: a round goes at least one byte ahead. -/
theorem inside_skipQuestion {b : Buffer} {k : ℕ} :
    ∀ {p : ℕ}, 1 ≤ k → b.size < k + p → Inside (skipQuestion b k p) := by
  induction k with
  | zero =>
    intro p hk
    omega
  | succ k ih =>
    intro p _ hsize
    unfold skipQuestion
    split_ifs with hp
    · rw [b.inside_load_bind]
      refine ⟨hp, ?_⟩
      split_ifs
      · exact inside_ok _
      · exact inside_ok _
      · exact ih (by omega) (by omega)
    · exact inside_ok _

theorem inside_skipLabels {b : Buffer} {k : ℕ} :
    ∀ {p : ℕ}, 1 ≤ k → b.size < k + p → Inside (skipLabels b k p) := by
  induction k with
  | zero =>
    intro p hk
    omega
  | succ k ih =>
    intro p _ hsize
    unfold skipLabels
    split_ifs with hp
    · rw [b.inside_load_bind]
      refine ⟨hp, ?_⟩
      split_ifs
      · exact inside_ok _
      · exact ih (by omega) (by omega)
    · exact inside_ok _

theorem inside_skipName {b : Buffer} {p : ℕ} (hp : p < b.size) : Inside (skipName b p) := by
  unfold skipName
  rw [b.inside_load_bind]
  refine ⟨hp, ?_⟩
  split_ifs
  · exact inside_ok _
  · exact inside_skipLabels (by omega) (by omega)

theorem inside_dnsAnswers {b : Buffer} {k : ℕ} : ∀ {p : ℕ}, Inside (dnsAnswers b k p) := by
  induction k with
  | zero => exact inside_ok _
  | succ k ih =>
    intro p
    unfold dnsAnswers
    split_ifs with hp
    · obtain ⟨p', hp'⟩ := inside_skipName (b := b) (p := p) (by omega)
      rw [hp', ok_bind]
      split_ifs with hend
      · exact inside_ok _
      · rw [inside_netField_bind, inside_netField_bind]
        refine ⟨by omega, by omega, ?_⟩
        split_ifs with ha
        · rw [inside_map, Buffer.vec, if_pos ha.2.2]
          exact inside_ok _
        · exact ih
    · exact inside_ok _

/-- **The DNS part reads only the payload**, whatever it holds. -/
theorem inside_dnsAnswer {b : Buffer} (h : 12 ≤ b.size) (txnId : ℕ) :
    Inside (dnsAnswer b txnId) := by
  unfold dnsAnswer
  rw [inside_netField_bind, inside_netField_bind, inside_netField_bind]
  refine ⟨by omega, by omega, by omega, ?_⟩
  split_ifs
  · obtain ⟨p, hp⟩ := inside_skipQuestion (b := b) (k := b.size + 1) (p := 12) (by omega) (by omega)
    rw [hp, ok_bind]
    exact inside_dnsAnswers
  · exact inside_ok _

/-! ## The conditions -/

/-- The condition on an ICMP message at header length `h` in a packet of total length `t`. -/
def IcmpOk (frame : Buffer) (h t : ℕ) : Prop :=
  14 + h < frame.size ∧
    (frame.mem.loadLE (14 + h) 1 = icmpEchoRequest → 14 + t ≤ replySize →
      14 + t ≤ frame.size ∧ h ≤ t)

/-- The condition on a datagram at `off`, for which `len` bytes should be there. -/
def UdpOk (handler : Bool) (frame : Buffer) (off len : ℕ) : Prop :=
  8 ≤ len → off + 6 ≤ frame.size ∧
    (8 ≤ fieldAt frame (off + 4) → fieldAt frame (off + 4) ≤ len →
      (handler = true ∨ fieldAt frame off = dnsPort ∧ 12 ≤ fieldAt frame (off + 4) - 8) →
      fieldAt frame (off + 4) - 8 = 0 ∨ off + 8 + (fieldAt frame (off + 4) - 8) ≤ frame.size)

/-- The condition on a frame; `handler` says whether a UDP handler is registered. -/
def FrameOk (handler : Bool) (frame : Buffer) : Prop :=
  34 ≤ frame.size → fieldAt frame 12 = ethTypeIp →
    (frame.mem.loadLE 23 1 = ipProtoIcmp →
      IcmpOk frame (frame.mem.loadLE 14 1 % 16 * 4) (fieldAt frame 16)) ∧
    (frame.mem.loadLE 23 1 = ipProtoUdp →
      UdpOk handler frame (14 + frame.mem.loadLE 14 1 % 16 * 4)
        (diff32 (fieldAt frame 16) (frame.mem.loadLE 14 1 % 16 * 4)))

namespace Net

variable {n : Net} {frame : Buffer}

/-! ## UDP -/

theorem inside_callUdpHandler {srcIp : IpAddr} {sport dport off len : ℕ} :
    Inside (n.callUdpHandler frame srcIp sport dport off len) ↔
      (n.udpHandler = true → len = 0 ∨ off + len ≤ frame.size) := by
  unfold callUdpHandler
  split_ifs with hreg
  · rw [inside_map, Buffer.inside_slice]
    exact ⟨fun h _ => h, fun h => h hreg⟩
  · exact ⟨fun _ hr => absurd hr hreg, fun _ => inside_ok _⟩

theorem inside_deliverUdp {srcIp : IpAddr} {sport dport off len : ℕ} :
    Inside (n.deliverUdp frame srcIp sport dport off len) ↔
      (n.udpHandler = true ∨ sport = dnsPort ∧ 12 ≤ len → len = 0 ∨ off + len ≤ frame.size) := by
  unfold deliverUdp
  split_ifs with hdns
  · rw [Buffer.inside_slice_bind]
    constructor
    · exact fun h _ => h.1
    · intro h
      have hslice := h (Or.inr hdns)
      refine ⟨hslice, ?_⟩
      obtain ⟨answer, hanswer⟩ := inside_dnsAnswer
        (b := ⟨len, fun i => frame.mem (off + i)⟩) hdns.2 n.dnsTxnId
      rw [hanswer, ok_bind]
      cases answer with
      | some ip => exact inside_ok _
      | none => exact inside_callUdpHandler.mpr fun _ => hslice
  · rw [inside_callUdpHandler]
    constructor
    · rintro h (hreg | hd)
      · exact h hreg
      · exact absurd hd hdns
    · exact fun h hreg => h (Or.inl hreg)

/-- **`process_udp` stays inside** exactly under the condition. -/
theorem inside_processUdp {srcIp : IpAddr} {off len : ℕ} :
    Inside (n.processUdp frame srcIp off len) ↔ UdpOk n.udpHandler frame off len := by
  unfold processUdp UdpOk
  split_ifs with hlen
  · exact ⟨fun _ h => absurd h (by omega), fun _ => inside_ok _⟩
  · rw [inside_netField_bind, inside_netField_bind, inside_netField_bind]
    split_ifs with hbad
    · constructor
      · rintro ⟨-, -, h4, -⟩ -
        exact ⟨by omega, fun h8 hle => absurd hbad (by omega)⟩
      · intro h
        obtain ⟨h6, -⟩ := h (by omega)
        exact ⟨by omega, by omega, by omega, inside_ok _⟩
    · rw [inside_deliverUdp]
      constructor
      · rintro ⟨-, -, h4, h⟩ -
        exact ⟨by omega, fun _ _ => h⟩
      · intro h
        obtain ⟨h6, h⟩ := h (by omega)
        exact ⟨by omega, by omega, by omega, h (by omega) (by omega)⟩

/-! ## ICMP -/

/-- Sending bytes that are set. -/
theorem inside_netSendRaw {data : Draft} {size k len : ℕ} (h : data.SetUpTo size k)
    (hk : k ≤ size) (hlen : len ≤ k) : Inside (n.netSendRaw data len) := by
  unfold netSendRaw
  split_ifs
  · exact inside_ok _
  · rw [inside_map]
    exact h.read hk (by omega)

theorem le_diff32 {h t : ℕ} (hh : h ≤ 60) (hlt : t < h) : 1500 < diff32 t h := by
  unfold diff32
  omega

theorem diff32_of_le {h t : ℕ} (ht : t < 2 ^ 32) (hle : h ≤ t) : diff32 t h = t - h := by
  unfold diff32
  omega

/-- A computation after a store that is inside. -/
theorem inside_of_store_bind {α : Type} {d : Draft} {off : ℕ} {bs : List UInt8}
    {f : Draft → Access α} (h : Inside ((d.store off bs).bind f)) :
    ∃ d', d'.size = d.size ∧ Inside (f d') := by
  obtain ⟨d', hd', hf⟩ := inside_bind.mp h
  unfold Draft.store at hd'
  split_ifs at hd'
  cases hd'
  refine ⟨_, ?_, hf⟩
  rfl

/-- **The echo path stays inside**, and sends only bytes that are set, exactly under the
condition. -/
theorem inside_echoReply {h t : ℕ} (hh : h ≤ 60) (hsize : 34 ≤ frame.size) :
    Inside (n.echoReply frame h t) ↔
      (14 + t ≤ replySize → 14 + t ≤ frame.size ∧ h ≤ t) := by
  unfold echoReply
  split_ifs with hlarge
  · exact ⟨fun _ hle => absurd hle (by omega), fun _ => inside_ok _⟩
  · rw [Buffer.inside_bytes_bind, Buffer.inside_vec_bind, Buffer.inside_vec_bind]
    constructor
    · rintro ⟨hdata, -, -, hrest⟩ -
      refine ⟨by omega, ?_⟩
      by_contra hlt
      -- the message would have more bytes than the array
      obtain ⟨d₁, hd₁, hrest⟩ := inside_of_store_bind hrest
      obtain ⟨d₂, hd₂, hrest⟩ := inside_of_store_bind hrest
      obtain ⟨d₃, hd₃, hrest⟩ := inside_of_store_bind hrest
      obtain ⟨d₄, hd₄, hrest⟩ := inside_of_store_bind hrest
      obtain ⟨d₅, hd₅, hrest⟩ := inside_of_store_bind hrest
      obtain ⟨d₆, hd₆, hrest⟩ := inside_of_store_bind hrest
      obtain ⟨header, -, hrest⟩ := inside_bind.mp hrest
      obtain ⟨d₇, hd₇, hrest⟩ := inside_of_store_bind hrest
      obtain ⟨d₈, hd₈, hrest⟩ := inside_of_store_bind hrest
      obtain ⟨d₉, hd₉, hrest⟩ := inside_of_store_bind hrest
      obtain ⟨message, hmessage, -⟩ := inside_bind.mp hrest
      have hle := Draft.le_of_inside_read ⟨message, hmessage⟩
      have hdiff := le_diff32 hh (not_le.mp hlt)
      rw [hd₉, hd₈, hd₇, hd₆, hd₅, hd₄, hd₃, hd₂, hd₁] at hle
      change _ ∨ _ ≤ 1500 at hle
      omega
    · intro hok
      obtain ⟨hdata, hle⟩ := hok (by omega)
      have hsmall : 14 + t ≤ 1500 := not_lt.mp hlarge
      refine ⟨by omega, by omega, by omega, ?_⟩
      -- each store keeps the bytes of the request set
      refine (Draft.blank_setUpTo 1500).inside_store_bind (m := 14 + t) ?_ ?_ fun d₁ hd₁ => ?_
      · rw [List.length_map, List.length_range]
        omega
      · rw [List.length_map, List.length_range]
        omega
      refine hd₁.inside_store_bind (by simp) (fun x hx => Or.inl hx) fun d₂ hd₂ => ?_
      refine hd₂.inside_store_bind (by simp) (fun x hx => Or.inl hx) fun d₃ hd₃ => ?_
      refine hd₃.inside_store_bind (by simp) (fun x hx => Or.inl hx) fun d₄ hd₄ => ?_
      refine hd₄.inside_store_bind (by simp) (fun x hx => Or.inl hx) fun d₅ hd₅ => ?_
      refine hd₅.inside_store_bind (by simp) (fun x hx => Or.inl hx) fun d₆ hd₆ => ?_
      obtain ⟨header, hheader⟩ := hd₆.read hsmall (show 14 + h ≤ 14 + t by omega)
      rw [hheader, ok_bind]
      refine hd₆.inside_store_bind (by simp [bytes16]) (fun x hx => Or.inl hx) fun d₇ hd₇ => ?_
      refine hd₇.inside_store_bind (by simp; omega) (fun x hx => Or.inl hx) fun d₈ hd₈ => ?_
      refine hd₈.inside_store_bind (by simp; omega) (fun x hx => Or.inl hx) fun d₉ hd₉ => ?_
      obtain ⟨message, hmessage⟩ := hd₉.read hsmall (show 14 + h + diff32 t h ≤ 14 + t by
        rw [diff32_of_le (by omega) hle]
        omega)
      rw [hmessage, ok_bind]
      refine hd₉.inside_store_bind (by simp [bytes16]; omega) (fun x hx => Or.inl hx)
        fun d hd => ?_
      exact inside_netSendRaw hd hsmall le_rfl

theorem inside_processIcmp {h t : ℕ} (hh : h ≤ 60) (hsize : 34 ≤ frame.size) :
    Inside (n.processIcmp frame h t) ↔ IcmpOk frame h t := by
  unfold processIcmp IcmpOk
  rw [frame.inside_load_bind]
  refine and_congr Nat.succ_le_iff ?_
  split_ifs with hreq hrep
  · rw [inside_echoReply hh hsize]
    exact ⟨fun hok _ => hok, fun hok => hok hreq⟩
  · exact ⟨fun _ hr => absurd hr hreq, fun _ => inside_ok _⟩
  · exact ⟨fun _ hr => absurd hr hreq, fun _ => inside_ok _⟩

/-! ## Frames -/

theorem inside_processArp (hsize : 42 ≤ frame.size) : Inside (n.processArp frame) := by
  unfold processArp
  rw [inside_netField_bind, Buffer.inside_vec_bind, Buffer.inside_vec_bind, Buffer.inside_vec_bind]
  refine ⟨by omega, by omega, by omega, by omega, ?_⟩
  dsimp only
  split_ifs
  · refine (Draft.blank_setUpTo 42).inside_store_bind (m := 42) ?_ ?_ fun d hd => ?_
    · simp [arpReply]
    · simp [arpReply]
    · exact inside_netSendRaw hd le_rfl le_rfl
  · exact inside_ok _

theorem inside_processIp (hsize : 34 ≤ frame.size) :
    Inside (n.processIp frame) ↔
      (frame.mem.loadLE 23 1 = ipProtoIcmp →
        IcmpOk frame (frame.mem.loadLE 14 1 % 16 * 4) (fieldAt frame 16)) ∧
      (frame.mem.loadLE 23 1 = ipProtoUdp →
        UdpOk n.udpHandler frame (14 + frame.mem.loadLE 14 1 % 16 * 4)
          (diff32 (fieldAt frame 16) (frame.mem.loadLE 14 1 % 16 * 4))) := by
  unfold processIp
  rw [frame.inside_load_bind, inside_netField_bind, frame.inside_load_bind]
  have hmod := Nat.mod_lt (frame.mem.loadLE 14 1) (by norm_num : 0 < 16)
  have hne : ¬ ipProtoIcmp = ipProtoUdp := by decide
  have hhead : (14 + 1 ≤ frame.size ∧ 16 + 2 ≤ frame.size ∧ 23 + 1 ≤ frame.size) := by omega
  split_ifs with hicmp hudp
  · rw [inside_processIcmp (by omega) hsize]
    constructor
    · rintro ⟨-, -, -, hok⟩
      exact ⟨fun _ => hok, fun hu => absurd (hicmp.symm.trans hu) hne⟩
    · exact fun hok => ⟨hhead.1, hhead.2.1, hhead.2.2, hok.1 hicmp⟩
  · rw [Buffer.inside_vec_bind, inside_processUdp]
    constructor
    · rintro ⟨-, -, -, -, hok⟩
      exact ⟨fun hi => absurd hi hicmp, fun _ => hok⟩
    · exact fun hok => ⟨hhead.1, hhead.2.1, hhead.2.2, by omega, hok.2 hudp⟩
  · exact ⟨fun _ => ⟨fun hi => absurd hi hicmp, fun hu => absurd hu hudp⟩,
      fun _ => ⟨hhead.1, hhead.2.1, hhead.2.2, inside_ok _⟩⟩

/-- **`process_rx_packet` stays inside the frame** exactly under the condition. -/
theorem inside_processRxPacket :
    Inside (n.processRxPacket frame frame.size) ↔ FrameOk n.udpHandler frame := by
  have hne : ¬ ethTypeIp = ethTypeArp := by decide
  unfold processRxPacket FrameOk
  split_ifs with hlen
  · exact ⟨fun _ h => absurd h (by omega), fun _ => inside_ok _⟩
  · rw [inside_netField_bind]
    split_ifs with harp hip
    · constructor
      · exact fun _ _ h => absurd (h.symm.trans harp.1) hne
      · exact fun _ => ⟨by omega, inside_processArp harp.2⟩
    · rw [inside_processIp hip.2]
      exact ⟨fun h _ _ => h.2, fun h => ⟨by omega, h hip.2 hip.1⟩⟩
    · constructor
      · exact fun _ hsize h => absurd ⟨h, hsize⟩ hip
      · exact fun _ => ⟨by omega, inside_ok _⟩

/-! ## What the receive path keeps -/

/-- The variables that only an echo reply or the receive loop changes. -/
structure Quiet (n n' : Net) : Prop where
  udpHandler : n'.udpHandler = n.udpHandler
  rxOffset : n'.rxOffset = n.rxOffset
  ticks : n'.ticks = n.ticks
  pingReceived : n'.pingReceived = n.pingReceived
  pingRecvTime : n'.pingRecvTime = n.pingRecvTime

theorem quiet_refl (n : Net) : Quiet n n := ⟨rfl, rfl, rfl, rfl, rfl⟩

theorem quiet_netSendRaw (data : Draft) (len : ℕ) : Always (n.netSendRaw data len) n.Quiet := by
  unfold netSendRaw
  split_ifs
  · exact always_ok n.quiet_refl
  · exact always_map fun _ => ⟨rfl, rfl, rfl, rfl, rfl⟩

theorem quiet_callUdpHandler (frame : Buffer) (srcIp : IpAddr) (sport dport off len : ℕ) :
    Always (n.callUdpHandler frame srcIp sport dport off len) n.Quiet := by
  unfold callUdpHandler
  split_ifs
  · exact always_map fun _ => ⟨rfl, rfl, rfl, rfl, rfl⟩
  · exact always_ok n.quiet_refl

theorem quiet_processUdp (frame : Buffer) (srcIp : IpAddr) (off len : ℕ) :
    Always (n.processUdp frame srcIp off len) n.Quiet := by
  unfold processUdp
  split_ifs
  · exact always_ok n.quiet_refl
  · refine always_bind fun sport => always_bind fun dport => always_bind fun udpLen => ?_
    split_ifs
    · exact always_ok n.quiet_refl
    · unfold deliverUdp
      split_ifs
      · refine always_bind fun payload => always_bind fun answer => ?_
        cases answer with
        | some ip => exact always_ok ⟨rfl, rfl, rfl, rfl, rfl⟩
        | none => exact quiet_callUdpHandler frame srcIp _ _ _ _
      · exact quiet_callUdpHandler frame srcIp _ _ _ _

theorem quiet_echoReply (frame : Buffer) (h t : ℕ) : Always (n.echoReply frame h t) n.Quiet := by
  unfold echoReply
  split_ifs
  · exact always_ok n.quiet_refl
  · iterate 15 refine always_bind fun _ => ?_
    exact quiet_netSendRaw _ _

theorem quiet_processArp (frame : Buffer) : Always (n.processArp frame) n.Quiet := by
  unfold processArp
  refine always_bind fun op => always_bind fun sha => always_bind fun spa => always_bind fun tpa => ?_
  dsimp only
  split_ifs
  · refine always_bind fun reply n' hn' => ?_
    obtain ⟨h₁, h₂, h₃, h₄, h₅⟩ := quiet_netSendRaw reply 42 n' hn'
    exact ⟨h₁, h₂, h₃, h₄, h₅⟩
  · exact always_ok ⟨rfl, rfl, rfl, rfl, rfl⟩

/-- The frame is taken for an echo reply. -/
def IsEchoReply (frame : Buffer) (len : ℕ) : Prop :=
  34 ≤ len ∧ fieldAt frame 12 = ethTypeIp ∧ frame.mem.loadLE 23 1 = ipProtoIcmp ∧
    frame.mem.loadLE (14 + frame.mem.loadLE 14 1 % 16 * 4) 1 = icmpEchoReply

/-- What an echo reply does. -/
structure Replied (n n' : Net) : Prop where
  udpHandler : n'.udpHandler = n.udpHandler
  rxOffset : n'.rxOffset = n.rxOffset
  ticks : n'.ticks = n.ticks
  pingReceived : n'.pingReceived = true
  pingRecvTime : n'.pingRecvTime = n.ticks

theorem netField_eq_ok {b : Buffer} {off v : ℕ} :
    netField b off = .ok v ↔ off + 2 ≤ b.size ∧ fieldAt b off = v := by
  unfold netField fieldAt
  rw [map_eq_ok]
  constructor
  · rintro ⟨w, hw, rfl⟩
    obtain ⟨hle, rfl⟩ := b.load_eq_ok.mp hw
    exact ⟨hle, rfl⟩
  · rintro ⟨hle, rfl⟩
    exact ⟨_, b.load_of_le hle, rfl⟩

theorem processIcmp_effect {h t : ℕ} {n' : Net} (hn' : n.processIcmp frame h t = .ok n') :
    (frame.mem.loadLE (14 + h) 1 = icmpEchoReply → n.Replied n') ∧
      (frame.mem.loadLE (14 + h) 1 ≠ icmpEchoReply → n.Quiet n') := by
  unfold processIcmp at hn'
  obtain ⟨type, htype, hn'⟩ := bind_eq_ok.mp hn'
  obtain ⟨-, rfl⟩ := frame.load_eq_ok.mp htype
  have hne : ¬ icmpEchoRequest = icmpEchoReply := by decide
  split_ifs at hn' with hreq hrep
  · exact ⟨fun hrep => absurd (hreq.symm.trans hrep) hne, fun _ => quiet_echoReply _ _ _ n' hn'⟩
  · cases hn'
    exact ⟨fun _ => ⟨rfl, rfl, rfl, rfl, rfl⟩, fun h => absurd hrep h⟩
  · cases hn'
    exact ⟨fun h => absurd h hrep, fun _ => n.quiet_refl⟩

/-- **Only an echo reply sets the flag of a ping**, and any echo reply does. -/
theorem processRxPacket_effect {len : ℕ} {n' : Net}
    (hn' : n.processRxPacket frame len = .ok n') :
    (IsEchoReply frame len → n.Replied n') ∧ (¬ IsEchoReply frame len → n.Quiet n') := by
  have hne : ¬ ethTypeArp = ethTypeIp := by decide
  unfold processRxPacket at hn'
  split_ifs at hn' with hlen
  · cases hn'
    exact ⟨fun h => absurd h.1 (by omega), fun _ => n.quiet_refl⟩
  · obtain ⟨ethertype, htype, hn'⟩ := bind_eq_ok.mp hn'
    obtain ⟨-, rfl⟩ := netField_eq_ok.mp htype
    split_ifs at hn' with harp hip
    · exact ⟨fun h => absurd (harp.1.symm.trans h.2.1) hne, fun _ => quiet_processArp _ n' hn'⟩
    · unfold processIp at hn'
      obtain ⟨verIhl, hver, hn'⟩ := bind_eq_ok.mp hn'
      obtain ⟨-, rfl⟩ := frame.load_eq_ok.mp hver
      obtain ⟨ipTotal, -, hn'⟩ := bind_eq_ok.mp hn'
      obtain ⟨protocol, hproto, hn'⟩ := bind_eq_ok.mp hn'
      obtain ⟨-, rfl⟩ := frame.load_eq_ok.mp hproto
      split_ifs at hn' with hicmp hudp
      · obtain ⟨hreply, hother⟩ := processIcmp_effect hn'
        exact ⟨fun h => hreply h.2.2.2, fun h => hother fun hr => h ⟨hip.2, hip.1, hicmp, hr⟩⟩
      · obtain ⟨src, -, hn'⟩ := bind_eq_ok.mp hn'
        exact ⟨fun h => absurd h.2.2.1 hicmp, fun _ => quiet_processUdp _ _ _ _ n' hn'⟩
      · cases hn'
        exact ⟨fun h => absurd h.2.2.1 hicmp, fun _ => n.quiet_refl⟩
    · cases hn'
      exact ⟨fun h => absurd ⟨h.2.1, h.1⟩ hip, fun _ => n.quiet_refl⟩

/-- Receiving a frame changes neither the registration of the handler nor `rx_offset`. -/
theorem processRxPacket_setup {len : ℕ} {n' : Net} (hn' : n.processRxPacket frame len = .ok n') :
    n'.udpHandler = n.udpHandler ∧ n'.rxOffset = n.rxOffset := by
  obtain ⟨hreply, hother⟩ := processRxPacket_effect hn'
  by_cases h : IsEchoReply frame len
  · exact ⟨(hreply h).udpHandler, (hreply h).rxOffset⟩
  · exact ⟨(hother h).udpHandler, (hother h).rxOffset⟩

/-! ## The receive ring -/

/-- `rx_offset` is the place of a header. -/
def OffsetOk (off : ℕ) : Prop := off < 8192 ∧ 4 ∣ off

theorem offsetOk_nextOffset {off size : ℕ} (hoff : OffsetOk off) (hsize : size ≤ 1504) :
    OffsetOk (nextOffset off size) := by
  obtain ⟨hlt, hdvd⟩ := hoff
  unfold nextOffset OffsetOk
  dsimp only
  split_ifs <;> constructor <;> omega

/-- The header at `off` and the frame behind it. -/
def headerAt (ring : Memory) (off : ℕ) : ℕ := ring.loadLE off 4

def frameAt (ring : Memory) (off : ℕ) : Buffer :=
  ⟨rxSize (headerAt ring off) - 4, fun i => ring (off + 4 + i)⟩

/-- The condition on what the device has put at `off`: unless the header ends the loop, it
counts the four bytes of the checksum, and the frame meets its condition. -/
def RingOk (handler : Bool) (ring : Memory) (off : ℕ) : Prop :=
  endsLoop (headerAt ring off) = false →
    4 ≤ rxSize (headerAt ring off) ∧ FrameOk handler (frameAt ring off)

/-- The condition on the rounds of the receive loop from `off` on. -/
def RingsOk (handler : Bool) : List Memory → ℕ → Prop
  | [], _ => True
  | ring :: rings, off => RingOk handler ring off ∧
      (endsLoop (headerAt ring off) = false →
        RingsOk handler rings (nextOffset off (rxSize (headerAt ring off))))

theorem rxSize_le {header : ℕ} (h : endsLoop header = false) :
    0 < rxSize header ∧ rxSize header ≤ 1504 := by
  unfold endsLoop at h
  simp only [Bool.or_eq_false_iff, beq_eq_false_iff_ne, decide_eq_false_iff_not] at h
  omega

/-- A frame without room for the checksum is read beyond its end. -/
theorem not_inside_processRxPacket {len : ℕ} (hlen : 14 ≤ len) (hsize : frame.size < 14) :
    ¬ Inside (n.processRxPacket frame len) := by
  unfold processRxPacket
  rw [if_neg (by omega), inside_netField_bind]
  rintro ⟨h, -⟩
  omega

/-- The header and the frame of a round lie in the ring. -/
theorem rxRound_eq {ring : Memory} (hoff : OffsetOk n.rxOffset) :
    n.rxRound ring = if endsLoop (headerAt ring n.rxOffset) then .ok none
      else (n.processRxPacket (frameAt ring n.rxOffset)
        (diff32 (rxSize (headerAt ring n.rxOffset)) 4)).map fun n' =>
          some { n' with rxOffset := nextOffset n'.rxOffset (rxSize (headerAt ring n.rxOffset)) } := by
  have hlt := hoff.1
  unfold rxRound
  dsimp only
  rw [Buffer.load_of_le _ (by unfold rxBufSize; show _ ≤ 8192 + 16 + 1500; omega), ok_bind]
  change (if endsLoop (headerAt ring n.rxOffset) = true then _ else _) = _
  cases hends : endsLoop (headerAt ring n.rxOffset) with
  | true => rw [if_pos rfl, if_pos rfl]
  | false =>
    obtain ⟨hpos, hmax⟩ := rxSize_le hends
    rw [if_neg Bool.false_ne_true, if_neg Bool.false_ne_true]
    change ((Buffer.slice ⟨rxBufSize, ring⟩ (n.rxOffset + 4)
      (rxSize (headerAt ring n.rxOffset) - 4)).bind _) = _
    have hslice : rxSize (headerAt ring n.rxOffset) - 4 = 0 ∨
        n.rxOffset + 4 + (rxSize (headerAt ring n.rxOffset) - 4) ≤ rxBufSize := by
      unfold rxBufSize
      omega
    unfold Buffer.slice
    rw [if_pos hslice, ok_bind]
    rfl

/-- **One round stays inside** exactly under the condition. -/
theorem inside_rxRound {ring : Memory} (hoff : OffsetOk n.rxOffset) :
    Inside (n.rxRound ring) ↔ RingOk n.udpHandler ring n.rxOffset := by
  rw [rxRound_eq hoff]
  unfold RingOk
  cases hends : endsLoop (headerAt ring n.rxOffset) with
  | true => exact ⟨fun _ h => (nomatch h), fun _ => inside_ok _⟩
  | false =>
    obtain ⟨hpos, hmax⟩ := rxSize_le hends
    rw [if_neg Bool.false_ne_true, inside_map]
    by_cases hfour : 4 ≤ rxSize (headerAt ring n.rxOffset)
    · rw [diff32_of_le (by omega) hfour]
      have hframe : Inside (n.processRxPacket (frameAt ring n.rxOffset)
          (rxSize (headerAt ring n.rxOffset) - 4)) ↔ _ := inside_processRxPacket
      exact ⟨fun h _ => ⟨hfour, hframe.mp h⟩, fun h => hframe.mpr (h rfl).2⟩
    · -- the length wraps around
      constructor
      · intro h
        refine absurd h (not_inside_processRxPacket ?_ ?_)
        · unfold diff32
          omega
        · show rxSize (headerAt ring n.rxOffset) - 4 < 14
          omega
      · exact fun h => absurd (h rfl).1 hfour

/-- What a round gives when it does not end the loop. -/
theorem rxRound_eq_some {ring : Memory} {n' : Net} (hoff : OffsetOk n.rxOffset)
    (h : n.rxRound ring = .ok (some n')) :
    endsLoop (headerAt ring n.rxOffset) = false ∧ n'.udpHandler = n.udpHandler ∧
      n'.rxOffset = nextOffset n.rxOffset (rxSize (headerAt ring n.rxOffset)) := by
  rw [rxRound_eq hoff] at h
  split_ifs at h with hends
  · cases h
  · obtain ⟨n₁, hn₁, h⟩ := map_eq_ok.mp h
    cases h
    obtain ⟨hhandler, hoffset⟩ := processRxPacket_setup hn₁
    refine ⟨Bool.eq_false_iff.mpr hends, hhandler, ?_⟩
    dsimp only
    rw [hoffset]

theorem rxRound_eq_none {ring : Memory} (hoff : OffsetOk n.rxOffset)
    (h : n.rxRound ring = .ok none) : endsLoop (headerAt ring n.rxOffset) = true := by
  rw [rxRound_eq hoff] at h
  split_ifs at h with hends
  · exact hends
  · obtain ⟨n₁, -, h⟩ := map_eq_ok.mp h
    cases h

/-- **The receive loop stays inside** exactly under the condition. -/
theorem inside_rxLoop {rings : List Memory} (hoff : OffsetOk n.rxOffset) :
    Inside (rxLoop rings n) ↔ RingsOk n.udpHandler rings n.rxOffset := by
  induction rings generalizing n with
  | nil => exact ⟨fun _ => trivial, fun _ => inside_ok _⟩
  | cons ring rings ih =>
    unfold rxLoop RingsOk
    rw [inside_bind, ← inside_rxRound hoff]
    constructor
    · rintro ⟨r, hr, h⟩
      refine ⟨⟨r, hr⟩, fun hends => ?_⟩
      cases r with
      | none =>
        rw [rxRound_eq_none hoff hr] at hends
        cases hends
      | some n' =>
        obtain ⟨-, hhandler, hoffset⟩ := rxRound_eq_some hoff hr
        have hnext := offsetOk_nextOffset hoff (rxSize_le hends).2
        rw [← hoffset] at hnext ⊢
        rw [← hhandler]
        exact (ih hnext).mp h
    · rintro ⟨⟨r, hr⟩, h⟩
      refine ⟨r, hr, ?_⟩
      cases r with
      | none => exact inside_ok _
      | some n' =>
        obtain ⟨hends, hhandler, hoffset⟩ := rxRound_eq_some hoff hr
        have hnext := offsetOk_nextOffset hoff (rxSize_le hends).2
        have hrest := h hends
        rw [← hoffset] at hnext hrest
        rw [← hhandler] at hrest
        exact (ih hnext).mpr hrest

theorem offsetOk_rxLoop {rings : List Memory} {n' : Net} (hoff : OffsetOk n.rxOffset)
    (h : rxLoop rings n = .ok n') : OffsetOk n'.rxOffset := by
  induction rings generalizing n with
  | nil =>
    cases h
    exact hoff
  | cons ring rings ih =>
    unfold rxLoop at h
    obtain ⟨r, hr, h⟩ := bind_eq_ok.mp h
    cases r with
    | none =>
      cases h
      exact hoff
    | some n₁ =>
      obtain ⟨hends, -, hoffset⟩ := rxRound_eq_some hoff hr
      refine ih ?_ h
      rw [hoffset]
      exact offsetOk_nextOffset hoff (rxSize_le hends).2

/-! ## Runs -/

/-- A call of one of the two functions that receive; `rings` are the contents of the ring in the
rounds in which the device has a frame. -/
inductive RxCall where
  | irq (status : ℕ) (rings : List Memory)
  | poll (status : ℕ) (rings : List Memory)

/-- The call. -/
def receive (n : Net) : RxCall → Access Net
  | .irq status rings => n.rtlIrqHandler status rings
  | .poll status rings => n.netPoll status rings

/-- A call receives, or the rest of the kernel changes any variable other than `rx_offset`. -/
inductive RxStep : Net → Option RxCall → Net → Prop where
  | call {n n' : Net} {c : RxCall} : n.receive c = .ok n' → RxStep n (some c) n'
  | other {n n' : Net} : n'.rxOffset = n.rxOffset → RxStep n none n'

/-- The condition on a call. -/
def CallOk (n : Net) : RxCall → Prop
  | .irq status rings => status % 2 = 1 → RingsOk n.udpHandler rings n.rxOffset
  | .poll status rings => n.nicAvailable = true → status % 2 = 1 →
      RingsOk n.udpHandler rings n.rxOffset

theorem inside_receive (hoff : OffsetOk n.rxOffset) (c : RxCall) :
    Inside (n.receive c) ↔ n.CallOk c := by
  cases c with
  | irq status rings =>
    unfold receive rtlIrqHandler CallOk
    dsimp only
    split_ifs with hstatus
    · rw [inside_rxLoop hoff]
      exact ⟨fun h _ => h, fun h => h hstatus⟩
    · exact ⟨fun _ hs => absurd hs hstatus, fun _ => inside_ok _⟩
  | poll status rings =>
    unfold receive netPoll CallOk
    dsimp only
    split_ifs with hnic hne hstatus
    · rw [hnic]
      exact ⟨fun _ h => (nomatch h), fun _ => inside_ok _⟩
    · rw [inside_rxLoop hoff]
      exact ⟨fun h _ _ => h, fun h => h (Bool.eq_true_of_not_eq_false hnic) hstatus⟩
    · exact ⟨fun _ _ hs => absurd hs hstatus, fun _ => inside_ok _⟩
    · exact ⟨fun _ _ hs => absurd hs (by omega), fun _ => inside_ok _⟩

theorem offsetOk_receive {n' : Net} {c : RxCall} (hoff : OffsetOk n.rxOffset)
    (h : n.receive c = .ok n') : OffsetOk n'.rxOffset := by
  cases c with
  | irq status rings =>
    unfold receive rtlIrqHandler at h
    dsimp only at h
    split_ifs at h
    · exact offsetOk_rxLoop hoff h
    · cases h
      exact hoff
  | poll status rings =>
    unfold receive netPoll at h
    dsimp only at h
    split_ifs at h
    · cases h
      exact hoff
    · exact offsetOk_rxLoop hoff h
    · cases h
      exact hoff
    · cases h
      exact hoff

/-- **Received frames and their bounds.**  In every state that `net.c` reaches from one with
`rx_offset = 0`, by any calls that stayed inside and any other changes, the next call reads only
bytes of the frames, sends only bytes that were set and hands on only payloads inside their frame,
if and only if every frame it comes to meets the condition. -/
theorem received_frames_inside_iff {start : Net} (hstart : start.rxOffset = 0)
    {es : List (Option RxCall)} (hrun : Run RxStep start es n) (c : RxCall) :
    Inside (n.receive c) ↔ n.CallOk c := by
  have hoff : OffsetOk n.rxOffset := by
    refine hrun.invariant (I := fun n => OffsetOk n.rxOffset) ?_ ?_
    · intro s e t hst hoff
      cases hst with
      | call hcall => exact offsetOk_receive hoff hcall
      | other heq => rwa [heq]
    · rw [hstart]
      exact ⟨by norm_num, dvd_zero 4⟩
  exact inside_receive hoff c

/-- `gateway_ip` at the start. -/
def gatewayAddr : Vector UInt8 4 := #v[10, 0, 2, 2]

/-- The variables after `net_init`, with a MAC address of zeros. -/
def started : Net where
  nicAvailable := true
  ourMac := .replicate 6 0
  ourIp := #v[10, 0, 2, 15]
  gatewayIp := gatewayAddr
  netmask := #v[255, 255, 255, 0]
  rxOffset := 0
  arpCache := List.replicate 16 ⟨.replicate 4 0, .replicate 6 0, false⟩
  pingReceived := false
  pingRecvTime := 0
  pingSeq := 0
  udpHandler := false
  dnsReceived := false
  dnsResult := .replicate 4 0
  dnsTxnId := 0x1234
  ticks := 0
  sent := []
  handled := []

/-- A ring that holds one frame at its beginning. -/
def ringOf (frame : List UInt8) : Memory := fun x =>
  (bytes16 1 ++ bytes16 (frame.length + 4) ++ frame).getD x 0

/-- An ICMP echo request of 42 bytes; `lo` and `hi` are its total length. -/
def echoRequest (hi lo : UInt8) : List UInt8 :=
  List.replicate 12 0 ++ [0x08, 0x00] ++ [0x45, 0, hi, lo, 0, 0, 0, 0, 64, 1] ++
    List.replicate 10 0 ++ [8, 0, 0, 0, 0, 0, 0, 0]

/-- A handler is registered, then an echo request comes whose total length is 28. -/
theorem received_frames_inside_echo :
    Inside (({ started with udpHandler := true } : Net).receive
      (.irq 1 [ringOf (echoRequest 0 28)])) := by
  have hrun : Run RxStep started [none] { started with udpHandler := true } :=
    .cons (@RxStep.other started { started with udpHandler := true } rfl) (.nil _)
  refine (received_frames_inside_iff rfl hrun _).mpr ?_
  intro _
  refine ⟨fun _ => ⟨by decide, fun _ _ => ⟨fun _ => ?_, fun hudp => absurd hudp (by decide)⟩⟩,
    fun _ => trivial⟩
  exact ⟨by decide, fun _ _ => by decide⟩

/-- **The echo reply leaks what follows the frame**: an echo request of 42 bytes whose IP header
promises 1028. -/
theorem short_echo_outside : ¬ Inside (started.receive (.irq 1 [ringOf (echoRequest 4 4)])) := by
  intro h
  have hoff : OffsetOk started.rxOffset := ⟨by decide, by decide⟩
  have hok := ((inside_receive hoff _).mp h rfl).1 (by decide)
  have hecho := (hok.2 (by decide) (by decide)).1 (by decide)
  exact absurd (hecho.2 (by decide) (by decide)).1 (by decide)

end Net

end Microkernel

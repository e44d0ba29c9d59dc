/-
# Echo replies

The frame that `process_rx_packet` sends back for an echo request: an edited copy of the request,
in which both checksums verify.  `ip_checksum` adds little-endian words; that the receiver adds the
words in network order does not matter, since a swap of the bytes is a multiplication by 256.
-/
import Microkernel.NetFields
import Microkernel.DraftPieces
import Microkernel.OnesComplement

namespace Microkernel

open Access OnesComplement

/-! ## The checksum -/

variable {l l' : List UInt8}

/-- The sum of two pieces, of which the first has an even length. -/
theorem wordSum_append (hl : l.length % 2 = 0) : wordSum (l ++ l') = wordSum l + wordSum l' := by
  induction l using wordSum.induct with
  | case1 => exact (Nat.zero_add _).symm
  | case2 b => cases hl
  | case3 b₀ b₁ bs ih =>
    rw [List.length_cons, List.length_cons] at hl
    rw [List.cons_append, List.cons_append, wordSum, wordSum, ih (by omega)]
    omega

theorem length_bytes16_even (c : ℕ) : (bytes16 c).length % 2 = 0 := by
  rw [length_bytes16]

theorem wordSum_bytes16 {c : ℕ} (hc : c < 2 ^ 16) : wordSum (bytes16 c) = c := by
  have hlow : (UInt8.ofNat c).toNat = c % 256 := UInt8.toNat_ofNat'
  have hhigh : (UInt8.ofNat (c / 256)).toNat = c / 256 := by
    rw [UInt8.toNat_ofNat']
    exact Nat.mod_eq_of_lt (by omega)
  unfold bytes16
  rw [wordSum, wordSum, hlow, hhigh]
  omega

/-- The words of the code are those of the message, with the bytes swapped. -/
theorem wordSum_modEq (bs : List UInt8) : 256 * wordSum bs ≡ (words bs).sum [MOD 65535] := by
  induction bs using wordSum.induct with
  | case1 => rfl
  | case2 b =>
    rw [wordSum, words, List.sum_singleton]
  | case3 b₀ b₁ bs ih =>
    rw [wordSum, words, List.sum_cons]
    unfold Nat.ModEq at ih ⊢
    omega

theorem wordSum_pos (bs : List UInt8) : 0 < wordSum bs ↔ 0 < (words bs).sum := by
  induction bs using wordSum.induct with
  | case1 => rfl
  | case2 b =>
    rw [wordSum, words, List.sum_singleton]
    omega
  | case3 b₀ b₁ bs ih =>
    rw [wordSum, words, List.sum_cons]
    omega

/-- **When a message is right**, in the words of the code. -/
theorem verifies_iff_wordSum (bs : List UInt8) :
    Verifies bs ↔ 0 < wordSum bs ∧ 65535 ∣ wordSum bs := by
  rw [verifies_iff, wordSum_pos]
  apply and_congr_right
  intro _
  have hswap := wordSum_modEq bs
  rw [← Nat.modEq_zero_iff_dvd, ← Nat.modEq_zero_iff_dvd]
  constructor
  · intro hzero
    have hprod : 65535 ∣ 256 * wordSum bs := (Nat.modEq_zero_iff_dvd).mp (hswap.trans hzero)
    have hcoprime : Nat.Coprime 65535 256 := by norm_num
    exact (Nat.modEq_zero_iff_dvd).mpr (hcoprime.dvd_of_dvd_mul_left hprod)
  · intro hzero
    exact hswap.symm.trans ((hzero.mul_left 256).trans rfl)

/-- The second loop of `ip_checksum` gives a word with the same remainder, zero only for zero. -/
theorem foldCarries_spec (s : ℕ) :
    foldCarries s < 2 ^ 16 ∧ foldCarries s ≡ s [MOD 65535] ∧ (0 < foldCarries s ↔ 0 < s) := by
  induction s using foldCarries.induct with
  | case1 s hs =>
    rw [foldCarries, if_pos hs]
    exact ⟨by omega, rfl, Iff.rfl⟩
  | case2 s hs ih =>
    obtain ⟨hlt, hmod, hpos⟩ := ih
    rw [foldCarries, if_neg hs]
    refine ⟨hlt, hmod.trans ?_, hpos.trans ?_⟩
    · unfold Nat.ModEq
      omega
    · omega

/-- **The checksum verifies**: a message in which the checksum field has the value of `ip_checksum`
over the message with a zero there. -/
theorem verifies_ipChecksum (hl : l.length % 2 = 0) :
    Verifies (l ++ (bytes16 (ipChecksum (l ++ ([0, 0] ++ l'))) ++ l')) := by
  obtain ⟨hlt, hmod, hpos⟩ := foldCarries_spec (wordSum l + wordSum l')
  have hzero : wordSum (l ++ ([0, 0] ++ l')) = wordSum l + wordSum l' := by
    rw [wordSum_append hl, wordSum_append rfl]
    congr 1
    exact Nat.zero_add _
  have hsum : ipChecksum (l ++ ([0, 0] ++ l')) = 65535 - foldCarries (wordSum l + wordSum l') := by
    unfold ipChecksum
    rw [hzero]
    rfl
  rw [verifies_iff_wordSum, hsum, wordSum_append hl, wordSum_append (length_bytes16_even _),
    wordSum_bytes16 (by omega), ← Nat.modEq_zero_iff_dvd]
  unfold Nat.ModEq at hmod ⊢
  constructor
  · omega
  · omega

/-! ## Parts of a frame -/

/-- The `k` bytes of a frame from `off` on. -/
def framePart (frame : Buffer) (off k : ℕ) : List UInt8 :=
  (List.range k).map fun i => frame.mem (off + i)

@[simp] theorem length_framePart (frame : Buffer) (off k : ℕ) :
    (framePart frame off k).length = k := by
  unfold framePart
  rw [List.length_map, List.length_range]

/-- A part is made of its first bytes and the others. -/
theorem framePart_add (frame : Buffer) (off k k' : ℕ) :
    framePart frame off (k + k') = framePart frame off k ++ framePart frame (off + k) k' := by
  unfold framePart
  rw [List.range_add, List.map_append, List.map_map]
  congr 1
  apply List.map_congr_left
  intro i _
  rw [Function.comp_apply, Nat.add_assoc]

/-- The bytes of a request by what the reply does with them. -/
theorem framePart_request (frame : Buffer) {h t : ℕ} (hh : 20 ≤ h) (ht : h + 8 ≤ t) :
    framePart frame 0 (14 + t) =
      framePart frame 0 6 ++ (framePart frame 6 6 ++ (framePart frame 12 2 ++
      (framePart frame 14 10 ++ (framePart frame 24 2 ++ (framePart frame 26 4 ++
      (framePart frame 30 4 ++ (framePart frame 34 (h - 20) ++ (framePart frame (14 + h) 1 ++
      (framePart frame (14 + h + 1) 1 ++ (framePart frame (14 + h + 2) 2 ++
      framePart frame (14 + h + 4) (t - h - 4))))))))))) := by
  have hsize : 14 + t = 6 + (6 + (2 + (10 + (2 + (4 + (4 + (h - 20 + (1 + (1 + (2 +
      (t - h - 4))))))))))) := by omega
  have hoff : 34 + (h - 20) = 14 + h := by omega
  rw [hsize]
  simp only [framePart_add, Nat.zero_add, Nat.reduceAdd, hoff, Nat.add_assoc]

/-- A part is what the frame holds there. -/
theorem framePart_of_holds {frame : Buffer} {off : ℕ} {bs : List UInt8} (h : frame.Holds off bs) :
    framePart frame off bs.length = bs := h.2

/-! ## The reply -/

/-- The reply that belongs to an echo request with IP header length `h` and total length `t`. -/
structure RepliesTo (n : Net) (frame : Buffer) (h t : ℕ) (reply : Buffer) : Prop where
  size_eq : reply.size = max 60 (14 + t)
  /-- It goes to the sender of the request. -/
  ethDst : reply.Holds 0 (framePart frame 6 6)
  ipDst : reply.Holds 30 (framePart frame 26 4)
  /-- It comes from this machine. -/
  ethSrc : reply.Holds 6 n.ourMac.toList
  ipSrc : reply.Holds 26 n.ourIp.toList
  /-- The other fields of the headers are those of the request. -/
  ethertype : reply.Holds 12 (framePart frame 12 2)
  ipFields : reply.Holds 14 (framePart frame 14 10)
  ipOptions : reply.Holds 34 (framePart frame 34 (h - 20))
  /-- The message is an echo reply with the identifier, the sequence number and the payload of the
  request. -/
  icmpType : reply.Holds (14 + h) [UInt8.ofNat icmpEchoReply]
  icmpCode : reply.Holds (14 + h + 1) (framePart frame (14 + h + 1) 1)
  echoed : reply.Holds (14 + h + 4) (framePart frame (14 + h + 4) (t - h - 4))
  /-- Both checksums are right. -/
  ipChecksum : Verifies (framePart reply 14 h)
  icmpChecksum : Verifies (framePart reply (14 + h) (t - h))

/-! ## Sending it -/

/-- An address in the request. -/
theorem vec_eq_framePart {frame : Buffer} {off k : ℕ} (hle : off + k ≤ frame.size) :
    ∃ v : Vector UInt8 k, frame.vec off k = .ok v ∧ v.toList = framePart frame off k := by
  refine ⟨_, if_pos hle, ?_⟩
  unfold framePart
  apply List.ext_getElem
  · rw [Vector.length_toList, List.length_map, List.length_range]
  · intro i h₁ h₂
    rw [List.getElem_map, List.getElem_range, Vector.getElem_toList, Vector.getElem_ofFn]

/-- The IP header of the reply, with this checksum. -/
def replyHeader (n : Net) (frame : Buffer) (h : ℕ) (sum : List UInt8) : List UInt8 :=
  framePart frame 14 10 ++ (sum ++ (n.ourIp.toList ++ (framePart frame 26 4 ++
    framePart frame 34 (h - 20))))

/-- The message of the reply, with this checksum. -/
def replyMessage (frame : Buffer) (h t : ℕ) (sum : List UInt8) : List UInt8 :=
  [UInt8.ofNat icmpEchoReply] ++ framePart frame (14 + h + 1) 1 ++ (sum ++
    framePart frame (14 + h + 4) (t - h - 4))

/-- The bytes of the reply. -/
def replyBytes (n : Net) (frame : Buffer) (h t : ℕ) : List UInt8 :=
  framePart frame 6 6 ++ (n.ourMac.toList ++ (framePart frame 12 2 ++
    (replyHeader n frame h (bytes16 (ipChecksum (replyHeader n frame h [0, 0]))) ++
      replyMessage frame h t (bytes16 (ipChecksum (replyMessage frame h t [0, 0]))))))

theorem length_replyBytes (n : Net) (frame : Buffer) {h t : ℕ} (hh : 20 ≤ h) (ht : h + 8 ≤ t) :
    (replyBytes n frame h t).length = 14 + t := by
  unfold replyBytes replyHeader replyMessage bytes16
  simp only [List.length_append, length_framePart, Vector.length_toList, List.length_cons,
    List.length_nil]
  omega

/-- **The echo path sends the reply.** -/
theorem echoReply_eq {n : Net} {frame : Buffer} {h t : ℕ} (hnic : n.nicAvailable = true)
    (hh : 20 ≤ h) (ht : h + 8 ≤ t) (hsize : 14 + t ≤ frame.size) (hmax : 14 + t ≤ 1500) :
    n.echoReply frame h t = .ok { n with
      sent := (replyBytes n frame h t ++ List.replicate (60 - (14 + t)) 0) :: n.sent } := by
  have hlarge : ¬ 14 + t > replySize := not_lt.mpr hmax
  have hbytes : frame.bytes 0 (14 + t) = .ok (framePart frame 0 (14 + t)) := if_pos (Or.inr (by omega))
  obtain ⟨ethSrc, hethSrc, hethSrc'⟩ := @vec_eq_framePart frame 6 6 (by omega)
  obtain ⟨ipSrc, hipSrc, hipSrc'⟩ := @vec_eq_framePart frame 26 4 (by omega)
  have hdiff : diff32 t h = t - h := Net.diff32_of_le (by omega) (by omega)
  unfold Net.echoReply
  rw [if_neg hlarge, hbytes, ok_bind, hethSrc, ok_bind, hipSrc, ok_bind, hdiff]
  -- the copy of the request, in pieces
  obtain ⟨d, hd, hs⟩ := @Draft.blank_store replySize (framePart frame 0 (14 + t)) (by
    rw [length_framePart]
    exact hmax)
  rw [hd, ok_bind, hethSrc', hipSrc']
  rw [framePart_request frame hh ht] at hs
  have hs : d.Shows replySize [framePart frame 0 6, framePart frame 6 6, framePart frame 12 2,
      framePart frame 14 10, framePart frame 24 2, framePart frame 26 4, framePart frame 30 4,
      framePart frame 34 (h - 20), framePart frame (14 + h) 1, framePart frame (14 + h + 1) 1,
      framePart frame (14 + h + 2) 2, framePart frame (14 + h + 4) (t - h - 4)].flatten := by
    simpa only [List.flatten_cons, List.flatten_nil, List.append_nil] using hs
  -- the addresses
  obtain ⟨d, hd, hs⟩ := hs.store_nth 0 0 (framePart frame 6 6) rfl rfl (by simp)
  rw [hd, ok_bind]
  obtain ⟨d, hd, hs⟩ := hs.store_nth 1 6 n.ourMac.toList rfl (by simp) (by simp)
  rw [hd, ok_bind]
  obtain ⟨d, hd, hs⟩ := hs.store_nth 6 30 (framePart frame 26 4) rfl (by simp) (by simp)
  rw [hd, ok_bind]
  obtain ⟨d, hd, hs⟩ := hs.store_nth 5 26 n.ourIp.toList rfl (by simp) (by simp)
  rw [hd, ok_bind]
  -- the checksum of the header
  obtain ⟨d, hd, hs⟩ := hs.store_nth 4 24 [0, 0] rfl (by simp) (by simp)
  rw [hd, ok_bind]
  have hheader : d.read 14 h = .ok (replyHeader n frame h [0, 0]) := by
    have hread := hs.read_nth 3 5 14 h (by simp) (by simp; omega)
    simpa only [List.set_cons_zero, List.set_cons_succ, List.drop_succ_cons, List.drop_zero,
      List.take_succ_cons, List.take_zero, List.flatten_cons, List.flatten_nil, List.append_nil,
      replyHeader] using hread
  rw [hheader, ok_bind]
  obtain ⟨d, hd, hs⟩ :=
    hs.store_nth 4 24 (bytes16 (ipChecksum (replyHeader n frame h [0, 0]))) rfl (by simp) rfl
  rw [hd, ok_bind]
  -- the type and the checksum of the message
  obtain ⟨d, hd, hs⟩ :=
    hs.store_nth 8 (14 + h) [UInt8.ofNat icmpEchoReply] rfl (by simp [bytes16]; omega) (by simp)
  rw [hd, ok_bind]
  obtain ⟨d, hd, hs⟩ :=
    hs.store_nth 10 (14 + h + 2) [0, 0] rfl (by simp [bytes16]; omega) (by simp)
  rw [hd, ok_bind]
  have hmessage : d.read (14 + h) (t - h) = .ok (replyMessage frame h t [0, 0]) := by
    have hread := hs.read_nth 8 4 (14 + h) (t - h) (by simp [bytes16]; omega) (by simp; omega)
    simpa only [List.set_cons_zero, List.set_cons_succ, List.drop_succ_cons, List.drop_zero,
      List.take_succ_cons, List.take_zero, List.flatten_cons, List.flatten_nil, List.append_nil,
      replyMessage, List.append_assoc] using hread
  rw [hmessage, ok_bind]
  obtain ⟨d, hd, hs⟩ := hs.store_nth 10 (14 + h + 2)
    (bytes16 (ipChecksum (replyMessage frame h t [0, 0]))) rfl (by simp [bytes16]; omega) rfl
  rw [hd, ok_bind]
  -- all of it is sent
  have hall : d.read 0 (14 + t) = .ok (replyBytes n frame h t) := by
    have hread := hs.read_nth 0 12 0 (14 + t) rfl (by simp [bytes16]; omega)
    simpa only [List.set_cons_zero, List.set_cons_succ, List.drop_succ_cons, List.drop_zero,
      List.take_succ_cons, List.take_zero, List.flatten_cons, List.flatten_nil, List.append_nil,
      replyBytes, replyHeader, replyMessage, List.append_assoc] using hread
  unfold Net.netSendRaw
  rw [if_neg, hall]
  · rfl
  · rintro (hoff | hlong)
    · rw [hnic] at hoff
      cases hoff
    · exact absurd hlong (by unfold txBufSize; omega)

/-- **The reply is the right one.** -/
theorem repliesTo_replyBytes (n : Net) (frame : Buffer) {h t : ℕ} (hh : 20 ≤ h) (ht : h + 8 ≤ t) :
    RepliesTo n frame h t
      (bufferOf (replyBytes n frame h t ++ List.replicate (60 - (14 + t)) 0)) := by
  have hlen := length_replyBytes n frame hh ht
  have hholds := holds_bufferOf (replyBytes n frame h t ++ List.replicate (60 - (14 + t)) 0)
  have hsize : (bufferOf (replyBytes n frame h t ++ List.replicate (60 - (14 + t)) 0)).size =
      max 60 (14 + t) := by
    show (replyBytes n frame h t ++ List.replicate (60 - (14 + t)) 0).length = _
    rw [List.length_append, hlen, List.length_replicate]
    omega
  generalize bufferOf (replyBytes n frame h t ++ List.replicate (60 - (14 + t)) 0) = reply
    at hholds hsize
  have hbytes := (reply.holds_append.mp hholds).1
  -- the header and the message, before they are taken apart
  have hparts : ∀ sum sum' : List UInt8, sum.length = 2 → sum'.length = 2 →
      (replyHeader n frame h sum).length = h ∧ (replyMessage frame h t sum').length = t - h := by
    intro sum sum' hsum hsum'
    unfold replyHeader replyMessage
    simp only [List.length_append, length_framePart, Vector.length_toList, List.length_cons,
      List.length_nil, hsum, hsum']
    omega
  obtain ⟨hheader, hmessage⟩ := hparts (bytes16 (ipChecksum (replyHeader n frame h [0, 0])))
    (bytes16 (ipChecksum (replyMessage frame h t [0, 0]))) rfl rfl
  unfold replyBytes at hbytes
  simp only [reply.holds_append, length_framePart, Vector.length_toList, hheader, Nat.zero_add,
    Nat.reduceAdd] at hbytes
  obtain ⟨hethDst, hethSrc, htype, hip, hicmp⟩ := hbytes
  have hipSum := framePart_of_holds hip
  have hicmpSum := framePart_of_holds hicmp
  rw [hheader] at hipSum
  rw [hmessage] at hicmpSum
  unfold replyHeader at hip
  unfold replyMessage at hicmp
  simp only [reply.holds_append, length_framePart, Vector.length_toList, length_bytes16,
    Nat.reduceAdd] at hip
  simp only [reply.holds_append, length_framePart, length_bytes16, List.length_singleton,
    List.length_append, Nat.reduceAdd, Nat.add_assoc] at hicmp
  exact {
    size_eq := hsize
    ethDst := hethDst
    ipDst := hip.2.2.2.1
    ethSrc := hethSrc
    ipSrc := hip.2.2.1
    ethertype := htype
    ipFields := hip.1
    ipOptions := hip.2.2.2.2
    icmpType := hicmp.1.1
    icmpCode := hicmp.1.2
    echoed := hicmp.2.2
    ipChecksum := by
      rw [hipSum]
      exact verifies_ipChecksum (by rw [length_framePart])
    icmpChecksum := by
      rw [hicmpSum]
      exact verifies_ipChecksum (by rw [List.length_append, length_framePart]; rfl) }

/-- **Echo replies are well formed.**  For every frame with an echo request whose IP header has at
least 20 bytes, whose message has at least 8, and which fits in the frame and in 1500 bytes, one
frame is sent, and it is the reply that belongs to the request. -/
theorem echo_reply_well_formed {n : Net} {frame : Buffer} {h t : ℕ} (hnic : n.nicAvailable = true)
    (htype : fieldAt frame 12 = ethTypeIp) (hproto : frame.mem.loadLE 23 1 = ipProtoIcmp)
    (hihl : h = frame.mem.loadLE 14 1 % 16 * 4) (htotal : t = fieldAt frame 16)
    (hecho : frame.mem.loadLE (14 + h) 1 = icmpEchoRequest) (hh : 20 ≤ h) (ht : h + 8 ≤ t)
    (hsize : 14 + t ≤ frame.size) (hmax : 14 + t ≤ 1500) :
    ∃ reply, n.processRxPacket frame frame.size = .ok { n with sent := reply :: n.sent } ∧
      RepliesTo n frame h t (bufferOf reply) := by
  refine ⟨_, ?_, repliesTo_replyBytes n frame hh ht⟩
  have hethertype : netField frame 12 = .ok ethTypeIp := Net.netField_eq_ok.mpr ⟨by omega, htype⟩
  have hlength : netField frame 16 = .ok t := Net.netField_eq_ok.mpr ⟨by omega, htotal.symm⟩
  have hicmp : frame.load (14 + h) 1 = .ok icmpEchoRequest := by
    rw [frame.load_of_le (by omega), hecho]
  unfold Net.processRxPacket
  rw [if_neg (by omega), hethertype, ok_bind, if_neg (fun harp => absurd harp.1 (by decide)),
    if_pos ⟨rfl, by omega⟩]
  unfold Net.processIp
  rw [frame.load_of_le (by omega), ok_bind, hlength, ok_bind, frame.load_of_le (by omega), ok_bind,
    hproto, if_pos rfl, ← hihl]
  unfold Net.processIcmp
  rw [hicmp, ok_bind, if_pos rfl, echoReply_eq hnic hh ht hsize hmax]

/-- A request with one byte of payload. -/
theorem echo_reply_well_formed_odd :
    ∃ reply, Net.started.processRxPacket (bufferOf (Net.echoRequest 0 29 ++ [7])) 43 =
        .ok { Net.started with sent := [reply] } ∧
      RepliesTo Net.started (bufferOf (Net.echoRequest 0 29 ++ [7])) 20 29 (bufferOf reply) :=
  echo_reply_well_formed rfl (by decide) (by decide) (by decide) (by decide) (by decide) le_rfl
    (by norm_num) le_rfl (by norm_num)

end Microkernel

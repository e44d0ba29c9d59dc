/-
# Fields of headers

What is read of a frame that holds a header: numbers in network order, addresses, and the payload
behind it.  The general facts are about buffers; `be16` is how a header has a number.
-/
import Microkernel.NetBounds
import Microkernel.BufferPieces

namespace Microkernel

open Access ByteNumbers

/-- A 16-bit number in network order. -/
def be16 (v : ℕ) : List UInt8 := [UInt8.ofNat (v / 256), UInt8.ofNat v]

@[simp] theorem length_be16 (v : ℕ) : (be16 v).length = 2 := rfl

@[simp] theorem length_bytes16 (v : ℕ) : (bytes16 v).length = 2 := rfl

theorem ntohs_numberOf_be16 {v : ℕ} (hv : v < 2 ^ 16) : ntohs (numberOf (be16 v)) = v := by
  have hhigh : (UInt8.ofNat (v / 256)).toNat = v / 256 := by
    rw [UInt8.toNat_ofNat']
    exact Nat.mod_eq_of_lt (by omega)
  have hlow : (UInt8.ofNat v).toNat = v % 256 := UInt8.toNat_ofNat'
  unfold be16 ntohs
  rw [numberOf_cons, numberOf_cons, numberOf_nil, hhigh, hlow]
  omega

section

variable {b : Buffer} {off : ℕ} {bs : List UInt8}

/-- A buffer with these bytes. -/
def bufferOf (bs : List UInt8) : Buffer := ⟨bs.length, fun i => bs.getD i 0⟩

theorem holds_bufferOf (bs : List UInt8) : (bufferOf bs).Holds 0 bs := by
  rw [Buffer.holds_iff]
  refine ⟨(Nat.zero_add _).le, ?_⟩
  intro i hi
  show bs[i]? = some (bs.getD (0 + i) 0)
  rw [Nat.zero_add, List.getD_eq_getElem?_getD, List.getElem?_eq_getElem hi, Option.getD_some]

theorem toList_bufferOf (bs : List UInt8) : (bufferOf bs).toList = bs := by
  have hbytes := (holds_bufferOf bs).2
  simp only [Nat.zero_add] at hbytes
  exact hbytes

/-- A field of a header. -/
theorem netField_of_holds {v : ℕ} (h : b.Holds off (be16 v)) (hv : v < 2 ^ 16) :
    netField b off = .ok v := by
  have hload : b.load off 2 = .ok (numberOf (be16 v)) := h.load_eq
  unfold netField
  rw [hload]
  exact congrArg Except.ok (ntohs_numberOf_be16 hv)

/-- An address in a header. -/
theorem vec_of_holds {n : ℕ} {v : Vector UInt8 n} (h : b.Holds off v.toList) :
    b.vec off n = .ok v := by
  obtain ⟨hle, hbytes⟩ := Buffer.holds_iff.mp h
  rw [Vector.length_toList] at hle hbytes
  unfold Buffer.vec
  rw [if_pos hle]
  congr 1
  apply Vector.ext
  intro i hi
  have hbyte := hbytes i hi
  rw [List.getElem?_eq_getElem (by rwa [Vector.length_toList])] at hbyte
  rw [Vector.getElem_ofFn, ← Option.some.inj hbyte]
  exact Vector.getElem_toList _

/-- A part of a buffer holds what the buffer holds there. -/
theorem holds_part (h : b.Holds off bs) :
    (⟨bs.length, fun i => b.mem (off + i)⟩ : Buffer).Holds 0 bs := by
  refine ⟨?_, ?_⟩
  · exact (Nat.zero_add _).le
  · conv_rhs => rw [← h.2]
    apply List.map_congr_left
    intro i _
    dsimp only
    rw [Nat.zero_add]

theorem slice_of_holds (h : b.Holds off bs) :
    b.slice off bs.length = .ok ⟨bs.length, fun i => b.mem (off + i)⟩ := by
  unfold Buffer.slice
  rw [if_pos (Or.inr h.1)]

end

/-! ## Datagrams -/

/-- A UDP header and the payload behind it. -/
def udpDatagram (sport dport checksum : UInt16) (payload : List UInt8) : List UInt8 :=
  be16 sport.toNat ++ (be16 dport.toNat ++ (be16 (8 + payload.length) ++
    (be16 checksum.toNat ++ payload)))

/-- **`process_udp` takes a datagram apart**; more bytes than its own do not matter. -/
theorem processUdp_datagram {n : Net} {frame : Buffer} {srcIp : IpAddr} {off len : ℕ}
    {sport dport checksum : UInt16} {payload : List UInt8}
    (h : frame.Holds off (udpDatagram sport dport checksum payload))
    (hfit : 8 + payload.length < 2 ^ 16) (hlen : 8 + payload.length ≤ len) :
    frame.Holds (off + 8) payload ∧ n.processUdp frame srcIp off len =
      n.deliverUdp frame srcIp sport.toNat dport.toNat (off + 8) payload.length := by
  unfold udpDatagram at h
  rw [frame.holds_append, frame.holds_append, frame.holds_append, frame.holds_append] at h
  obtain ⟨hsport, hdport, hlength, -, hpayload⟩ := h
  simp only [length_be16] at hdport hlength hpayload
  refine ⟨hpayload, ?_⟩
  unfold Net.processUdp
  rw [if_neg (by omega), netField_of_holds hsport sport.toNat_lt, ok_bind,
    netField_of_holds hdport dport.toNat_lt, ok_bind, netField_of_holds hlength hfit, ok_bind,
    if_neg (by omega), Nat.add_sub_cancel_left]

end Microkernel

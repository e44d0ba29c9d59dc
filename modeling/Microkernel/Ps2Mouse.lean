/-
# The PS/2 mouse

The interrupt handler of `src/mouse.c` and the functions that read the position.  An interrupt comes with
the status and the data byte of the controller.
-/
import Microkernel.FrameDecoder

namespace Microkernel

/-- The static variables of `mouse.c`. -/
structure Ps2Mouse where
  mx : ℤ
  my : ℤ
  mxMax : ℤ
  myMax : ℤ
  mouseButtons : UInt8
  prevButtons : UInt8
  packet : ℕ → UInt8
  pktIdx : ℕ
  ps2Received : Bool
  useVirtioInput : Bool

namespace Ps2Mouse

/-- The values at the start. -/
def start : Ps2Mouse := ⟨160, 100, 319, 199, 0, 0, fun _ => 0, 0, false, false⟩

/-- A coordinate is kept from 0 to `max`. -/
def clamp (max v : ℤ) : ℤ :=
  let v := if v < 0 then 0 else v
  if max < v then max else v

/-- The movement of nine bits whose sign is in the first byte of the packet. -/
def delta (sign : Bool) (low : UInt8) : ℤ := (low.toNat : ℤ) - if sign then 256 else 0

/-- What `mouse_callback` does with a complete packet. -/
def takePacket (p0 p1 p2 : UInt8) (m : Ps2Mouse) : Ps2Mouse :=
  { m with
    ps2Received := true
    prevButtons := m.mouseButtons
    mouseButtons := p0 &&& 0x07
    mx := clamp m.mxMax (m.mx + delta (p0 &&& 0x10 != 0) p1)
    my := clamp m.myMax (m.my - delta (p0 &&& 0x20 != 0) p2) }

/-- `mouse_callback`. -/
def callback (status data : UInt8) (m : Ps2Mouse) : Ps2Mouse :=
  if status &&& 0x20 = 0 then m
  else
    let m := { m with packet := Function.update m.packet m.pktIdx data, pktIdx := m.pktIdx + 1 }
    if m.pktIdx = 1 ∧ data &&& 0x08 = 0 then { m with pktIdx := 0 }
    else if 3 ≤ m.pktIdx then
      takePacket (m.packet 0) (m.packet 1) (m.packet 2) { m with pktIdx := 0 }
    else m

/-- `mouse_set_bounds`. -/
def setBounds (maxX maxY : ℤ) (m : Ps2Mouse) : Ps2Mouse :=
  { m with
    mxMax := maxX
    myMax := maxY
    mx := if maxX < m.mx then maxX else m.mx
    my := if maxY < m.my then maxY else m.my }

/-- `mouse_get_x` and `mouse_get_y`, with what the virtio device would say. -/
def getX (virtioX : ℤ) (m : Ps2Mouse) : ℤ :=
  if m.useVirtioInput ∧ m.ps2Received = false then virtioX else m.mx

def getY (virtioY : ℤ) (m : Ps2Mouse) : ℤ :=
  if m.useVirtioInput ∧ m.ps2Received = false then virtioY else m.my

/-- `mouse_left_click`, when the PS/2 mouse is used. -/
def leftClick (m : Ps2Mouse) : Bool := m.mouseButtons &&& 0x01 != 0 && m.prevButtons &&& 0x01 == 0

/-! ## The stream of bytes -/

/-- The data bytes of the interrupts that come from the mouse. -/
def mouseBytes (interrupts : List (UInt8 × UInt8)) : List UInt8 :=
  (interrupts.filter fun i => i.1 &&& 0x20 != 0).map Prod.snd

/-- The handler for a list of interrupts. -/
def run (m : Ps2Mouse) (interrupts : List (UInt8 × UInt8)) : Ps2Mouse :=
  interrupts.foldl (fun m i => callback i.1 i.2 m) m

/-- A byte that may begin a packet. -/
def mayBegin (data : UInt8) : Bool := data &&& 0x08 != 0

/-- The packets of a stream of bytes. -/
def packets (bytes : List UInt8) : List (List UInt8) := (FrameDecoder.frames 3 mayBegin bytes).1

/-- A packet as a list. -/
def takeFrame (m : Ps2Mouse) (f : List UInt8) : Ps2Mouse :=
  takePacket (f.getD 0 0) (f.getD 1 0) (f.getD 2 0) m

/-- Two states that differ in the bytes of the packet that is being received only. -/
structure Agrees (m m' : Ps2Mouse) : Prop where
  mx : m.mx = m'.mx
  my : m.my = m'.my
  mxMax : m.mxMax = m'.mxMax
  myMax : m.myMax = m'.myMax
  mouseButtons : m.mouseButtons = m'.mouseButtons
  prevButtons : m.prevButtons = m'.prevButtons
  ps2Received : m.ps2Received = m'.ps2Received
  useVirtioInput : m.useVirtioInput = m'.useVirtioInput

/-- The handler has collected the items of the decoder. -/
structure Collects (m : Ps2Mouse) (p : List UInt8 × Ps2Mouse) : Prop where
  idx : m.pktIdx = p.1.length
  short : p.1.length < 3
  bytes : ∀ i < p.1.length, m.packet i = p.1.getD i 0
  agrees : m.Agrees p.2

variable {m m' : Ps2Mouse} {p : List UInt8 × Ps2Mouse}

theorem Agrees.takePacket (h : m.Agrees m') (p0 p1 p2 : UInt8) :
    (takePacket p0 p1 p2 m).Agrees (takePacket p0 p1 p2 m') := by
  refine ⟨?_, ?_, h.mxMax, h.myMax, rfl, h.mouseButtons, rfl, h.useVirtioInput⟩
  · show clamp m.mxMax _ = clamp m'.mxMax _
    rw [h.mx, h.mxMax]
  · show clamp m.myMax _ = clamp m'.myMax _
    rw [h.my, h.myMax]

/-- **One byte** is one step of the decoder. -/
theorem Collects.callback (h : m.Collects p) {status : UInt8} (hstatus : status &&& 0x20 ≠ 0)
    (data : UInt8) :
    (callback status data m).Collects (FrameDecoder.step 3 mayBegin takeFrame p data) := by
  obtain ⟨q, s⟩ := p
  have hidx := h.idx
  have hshort := h.short
  have hbytes := h.bytes
  dsimp only at hidx hshort hbytes
  -- The packet with the new byte.
  have hnew : ∀ i < q.length + 1, Function.update m.packet m.pktIdx data i = (q ++ [data]).getD i 0 := by
    intro i hi
    rw [hidx]
    by_cases hlast : i = q.length
    · rw [hlast, Function.update_self, List.getD_eq_getElem?_getD,
        List.getElem?_append_right le_rfl, Nat.sub_self]
      rfl
    · have hlt : i < q.length := by omega
      rw [Function.update_of_ne hlast, hbytes i hlt, List.getD_append _ _ _ _ hlt]
  have hbegin : mayBegin data = false ↔ data &&& 0x08 = 0 := by
    unfold mayBegin
    rw [bne_eq_false_iff_eq]
  unfold Ps2Mouse.callback FrameDecoder.step
  rw [if_neg hstatus]
  dsimp only
  by_cases hskip : q = [] ∧ mayBegin data = false
  · obtain ⟨rfl, hdata⟩ := hskip
    rw [List.length_nil] at hidx
    have hfirst : m.pktIdx + 1 = 1 ∧ data &&& 0x08 = 0 := ⟨by rw [hidx], hbegin.mp hdata⟩
    have hdecoder : ([] : List UInt8) = [] ∧ mayBegin data = false := ⟨rfl, hdata⟩
    rw [if_pos hfirst, if_pos hdecoder]
    exact ⟨rfl, Nat.zero_lt_succ 2, fun i hi => absurd hi (Nat.not_lt_zero i),
      ⟨h.agrees.mx, h.agrees.my, h.agrees.mxMax, h.agrees.myMax, h.agrees.mouseButtons,
        h.agrees.prevButtons, h.agrees.ps2Received, h.agrees.useVirtioInput⟩⟩
  · have hskip' : ¬ (m.pktIdx + 1 = 1 ∧ data &&& 0x08 = 0) := by
      rintro ⟨hone, hdata⟩
      refine hskip ⟨List.eq_nil_of_length_eq_zero ?_, hbegin.mpr hdata⟩
      omega
    rw [if_neg hskip, if_neg hskip']
    have hsame : ∀ idx, ({ m with
        packet := Function.update m.packet m.pktIdx data, pktIdx := idx } : Ps2Mouse).Agrees s :=
      fun idx => ⟨h.agrees.mx, h.agrees.my, h.agrees.mxMax, h.agrees.myMax, h.agrees.mouseButtons,
        h.agrees.prevButtons, h.agrees.ps2Received, h.agrees.useVirtioInput⟩
    by_cases hfull : q.length + 1 = 3
    · rw [if_pos hfull, if_pos (by omega)]
      refine ⟨rfl, Nat.zero_lt_succ 2, fun i hi => absurd hi (Nat.not_lt_zero i), ?_⟩
      rw [hnew 0 (by omega), hnew 1 (by omega), hnew 2 (by omega)]
      exact (hsame 0).takePacket _ _ _
    · rw [if_neg hfull, if_neg (by omega)]
      refine ⟨?_, ?_, ?_, hsame (m.pktIdx + 1)⟩
      · rw [hidx, List.length_append, List.length_singleton]
      · rw [List.length_append, List.length_singleton]
        omega
      · rw [List.length_append, List.length_singleton]
        exact hnew

/-- **The step gives the run**: bytes of the keyboard are ignored, and the others go to the decoder. -/
theorem Collects.run {p : List UInt8 × Ps2Mouse} (hp : m.Collects p)
    (interrupts : List (UInt8 × UInt8)) :
    (m.run interrupts).Collects
      ((mouseBytes interrupts).foldl (FrameDecoder.step 3 mayBegin takeFrame) p) := by
  induction interrupts generalizing m p with
  | nil => exact hp
  | cons i interrupts ih =>
    by_cases hstatus : i.1 &&& 0x20 = 0
    · have hkeep : Ps2Mouse.callback i.1 i.2 m = m := if_pos hstatus
      have hfilter : mouseBytes (i :: interrupts) = mouseBytes interrupts := by
        unfold mouseBytes
        rw [List.filter_cons_of_neg (by rw [hstatus]; decide)]
      show (Ps2Mouse.run (Ps2Mouse.callback i.1 i.2 m) interrupts).Collects _
      rw [hkeep, hfilter]
      exact ih hp
    · have hfilter : mouseBytes (i :: interrupts) = i.2 :: mouseBytes interrupts := by
        have hkept : (i.1 &&& 0x20 != 0) = true := bne_iff_ne.mpr hstatus
        have hfirst := List.filter_cons_of_pos (p := fun i : UInt8 × UInt8 => i.1 &&& 0x20 != 0)
          (l := interrupts) hkept
        exact congrArg (List.map Prod.snd) hfirst
      show (Ps2Mouse.run (Ps2Mouse.callback i.1 i.2 m) interrupts).Collects _
      rw [hfilter]
      exact ih (hp.callback hstatus i.2)

/-- When a packet may begin, nothing is collected yet. -/
theorem collects_nil (h : m.pktIdx = 0) : m.Collects ([], m) :=
  ⟨h, Nat.zero_lt_succ 2, fun i hi => absurd hi (Nat.not_lt_zero i),
    ⟨rfl, rfl, rfl, rfl, rfl, rfl, rfl, rfl⟩⟩

/-- **The handler decodes the stream.**  Whatever interrupts come when a packet may begin, the position,
the buttons and what else is known of the mouse are what the packets of its bytes give one after the
other, and what is left of the bytes waits for the rest of a packet. -/
theorem run_eq_packets (interrupts : List (UInt8 × UInt8)) (h : m.pktIdx = 0) :
    (m.run interrupts).Agrees ((packets (mouseBytes interrupts)).foldl takeFrame m) ∧
      (m.run interrupts).pktIdx =
        (FrameDecoder.frames 3 mayBegin (mouseBytes interrupts)).2.length := by
  have hend := (collects_nil h).run interrupts
  rw [FrameDecoder.foldl_step_eq (by decide)] at hend
  exact ⟨hend.agrees, hend.idx⟩

/-- A byte that cannot begin a packet, a packet to the right and a byte of the next one. -/
theorem run_eq_packets_right :
    let interrupts := [(0x20, 0x05), (0x20, 0x08), (0x20, 0x07), (0x20, 0x00), (0x20, 0x08)]
    (start.run interrupts).Agrees ((packets (mouseBytes interrupts)).foldl takeFrame start) ∧
      (start.run interrupts).pktIdx =
        (FrameDecoder.frames 3 mayBegin (mouseBytes interrupts)).2.length :=
  run_eq_packets _ rfl

/-! ## Movements -/

/-- The pointer is on the screen. -/
structure OnScreen (m : Ps2Mouse) : Prop where
  x_nonneg : 0 ≤ m.mx
  x_le : m.mx ≤ m.mxMax
  y_nonneg : 0 ≤ m.my
  y_le : m.my ≤ m.myMax

theorem clamp_mem {max : ℤ} (hmax : 0 ≤ max) (v : ℤ) : 0 ≤ clamp max v ∧ clamp max v ≤ max := by
  unfold clamp
  dsimp only
  split_ifs <;> omega

/-- **No byte leads off the screen**, in whatever order the bytes and the calls of `mouse_set_bounds`
come. -/
theorem callback_onScreen (h : m.OnScreen) (status data : UInt8) :
    (callback status data m).OnScreen := by
  have hx : 0 ≤ m.mxMax := h.x_nonneg.trans h.x_le
  have hy : 0 ≤ m.myMax := h.y_nonneg.trans h.y_le
  unfold callback
  dsimp only
  split_ifs
  · exact h
  · exact ⟨h.x_nonneg, h.x_le, h.y_nonneg, h.y_le⟩
  · exact ⟨(clamp_mem hx _).1, (clamp_mem hx _).2, (clamp_mem hy _).1, (clamp_mem hy _).2⟩
  · exact ⟨h.x_nonneg, h.x_le, h.y_nonneg, h.y_le⟩

theorem setBounds_onScreen (h : m.OnScreen) {maxX maxY : ℤ} (hx : 0 ≤ maxX) (hy : 0 ≤ maxY) :
    (setBounds maxX maxY m).OnScreen := by
  have hxn := h.x_nonneg
  have hyn := h.y_nonneg
  refine ⟨?_, ?_, ?_, ?_⟩ <;> unfold setBounds <;> dsimp only <;> split_ifs <;> omega

/-- A movement as the mouse reports it. -/
structure Movement where
  dx : ℤ
  dy : ℤ
  buttons : Fin 8
  dx_mem : -256 ≤ dx ∧ dx < 256
  dy_mem : -256 ≤ dy ∧ dy < 256

/-- The packet of a movement: the buttons, the bit of the first byte and the signs, and the low bytes. -/
def Movement.packet (v : Movement) : List UInt8 :=
  [UInt8.ofNat (v.buttons + 8 + (if v.dx < 0 then 16 else 0) + if v.dy < 0 then 32 else 0),
    UInt8.ofNat (v.dx % 256).toNat, UInt8.ofNat (v.dy % 256).toNat]

/-- What a movement does to the pointer. -/
def Movement.apply (v : Movement) (m : Ps2Mouse) : Ps2Mouse :=
  { m with
    ps2Received := true
    prevButtons := m.mouseButtons
    mouseButtons := UInt8.ofNat v.buttons
    mx := clamp m.mxMax (m.mx + v.dx)
    my := clamp m.myMax (m.my - v.dy) }

/-- The bits of the first byte. -/
theorem firstByte : ∀ (b : Fin 8) (sx sy : Bool),
    let p0 := UInt8.ofNat (b + 8 + (if sx then 16 else 0) + if sy then 32 else 0)
    p0 &&& 0x07 = UInt8.ofNat b ∧ (p0 &&& 0x10 != 0) = sx ∧ (p0 &&& 0x20 != 0) = sy ∧
      mayBegin p0 = true := by
  decide

theorem delta_low {d : ℤ} (h : -256 ≤ d ∧ d < 256) :
    delta (decide (d < 0)) (UInt8.ofNat (d % 256).toNat) = d := by
  have hlow : (UInt8.ofNat (d % 256).toNat).toNat = (d % 256).toNat := by
    rw [UInt8.toNat_ofNat']
    exact Nat.mod_eq_of_lt (by omega)
  unfold delta
  rw [hlow]
  by_cases hneg : d < 0
  · rw [decide_eq_true hneg, if_pos rfl]
    omega
  · rw [decide_eq_false hneg, if_neg Bool.false_ne_true]
    omega

/-- A packet is read as the movement it reports. -/
theorem takeFrame_packet (v : Movement) (m : Ps2Mouse) : m.takeFrame v.packet = v.apply m := by
  obtain ⟨hbuttons, hx, hy, -⟩ := firstByte v.buttons (decide (v.dx < 0)) (decide (v.dy < 0))
  simp only [decide_eq_true_eq] at hbuttons hx hy
  show takePacket _ _ _ m = _
  unfold takePacket Movement.apply
  simp only [Movement.packet, List.getD_cons_zero, List.getD_cons_succ]
  rw [hbuttons, hx, hy, delta_low v.dx_mem, delta_low v.dy_mem]

/-- **The pointer follows the mouse.**  When a packet may begin, the bytes of any movements move the
pointer by each of them in turn, kept on the screen, and set the buttons. -/
theorem run_follows (vs : List Movement) (h : m.pktIdx = 0) {interrupts : List (UInt8 × UInt8)}
    (hbytes : mouseBytes interrupts = (vs.map Movement.packet).flatten) :
    (m.run interrupts).Agrees (vs.foldl (fun m v => v.apply m) m) ∧
      (m.run interrupts).pktIdx = 0 := by
  have hframes : FrameDecoder.frames 3 mayBegin (mouseBytes interrupts) =
      (vs.map Movement.packet, []) := by
    rw [hbytes]
    refine FrameDecoder.frames_flatten (by decide) fun f hf => ?_
    obtain ⟨v, -, rfl⟩ := List.mem_map.mp hf
    refine ⟨rfl, fun a ha => ?_⟩
    obtain rfl := Option.some.inj ha
    have hbegin := (firstByte v.buttons (decide (v.dx < 0)) (decide (v.dy < 0))).2.2.2
    simp only [decide_eq_true_eq] at hbegin
    exact hbegin
  have hend := (collects_nil h).run interrupts
  rw [FrameDecoder.foldl_step_eq (by decide), hframes] at hend
  obtain ⟨hidx, -, -, hagrees⟩ := hend
  rw [List.foldl_map] at hagrees
  simp only [takeFrame_packet] at hagrees
  exact ⟨hagrees, hidx⟩

theorem leftDrag_dx : -256 ≤ (-3 : ℤ) ∧ (-3 : ℤ) < 256 := by decide

theorem leftDrag_dy : -256 ≤ (2 : ℤ) ∧ (2 : ℤ) < 256 := by decide

theorem leftDrag_buttons : 1 < 8 := by decide

/-- A movement to the left with the left button. -/
def leftDrag : Movement := ⟨-3, 2, ⟨1, leftDrag_buttons⟩, leftDrag_dx, leftDrag_dy⟩

theorem run_follows_leftDrag :
    (start.run [(0x20, 0x19), (0x20, 0xFD), (0x20, 0x02)]).Agrees (leftDrag.apply start) ∧
      (start.run [(0x20, 0x19), (0x20, 0xFD), (0x20, 0x02)]).pktIdx = 0 :=
  run_follows [leftDrag] rfl (by decide)

end Ps2Mouse

end Microkernel

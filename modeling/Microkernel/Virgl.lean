/-
# The command batch of the 3D driver

The functions of `virgl.c` that build a batch of commands for the host's renderer and
submit it: `emit`, the builders and `virgl_cmd_submit`.  Floats are their bit patterns.

The record has two history variables: `dropped` says that `emit` dropped a word since the
batch was begun, and `sent` lists what was put on the control queue, the latest first.
-/
import Microkernel.FramedStream

namespace Microkernel

/-- `virtio_gpu_cmd_submit_3d_t` with the commands that follow it; `dropped` is history. -/
structure SubmitPacket where
  type : UInt32
  ctxId : UInt32
  size : UInt32
  words : List UInt32
  dropped : Bool

/-- `virgl_ctx_t`, the part the batch needs. -/
structure Vctx where
  initialized : Bool
  ctxId : UInt32
  cmdBufAddr : UInt32
  cmdBuf : ℕ → UInt32
  cmdBufSize : ℕ
  cmdPos : ℕ
  vboResId : UInt32
  dropped : Bool
  sent : List SubmitPacket

/-- `VIRGL_CMD_HDR`. -/
def virglCmdHdr (cmd obj len : UInt32) : UInt32 := (len <<< 16) ||| (obj <<< 8) ||| cmd

/-- Bits 16 to 31 of a header: the number of words of the payload. -/
def hdrLen (hdr : UInt32) : ℕ := hdr.toNat >>> 16

def ccmdSetViewportState : UInt32 := 4
def ccmdSetVertexBuffers : UInt32 := 6
def ccmdClear : UInt32 := 7
def ccmdDrawVbo : UInt32 := 8
def ccmdResourceInlineWrite : UInt32 := 9
def ccmdSetConstantBuffer : UInt32 := 12

/-- The size in bytes of `cmd_buf`, which `virgl_init` allocates. -/
def cmdBufBytes : ℕ := 131072

/-- `sizeof(v3d_cmd_buf)`, the staging buffer. -/
def v3dCmdBufBytes : ℕ := 131072

/-- `sizeof(virtio_gpu_cmd_submit_3d_t)`. -/
def submit3dBytes : ℕ := 32

/-- What the device and the queue answer to a submission. -/
structure SubmitAnswer where
  /-- `virtio_send` found descriptors. -/
  queued : Bool
  /-- The type of the response. -/
  respType : UInt32

/-- The bits of the floats `virgl_cmd_set_viewport` computes from a width or height. -/
structure FloatBits where
  half : UInt32 → UInt32
  negHalf : UInt32 → UInt32

namespace Vctx

/-- `emit`. -/
def emit (c : Vctx) (word : UInt32) : Vctx :=
  if c.cmdPos < c.cmdBufSize / 4 then
    { c with cmdBuf := Function.update c.cmdBuf c.cmdPos word, cmdPos := c.cmdPos + 1 }
  else { c with dropped := true }

/-- A sequence of calls of `emit`. -/
def emitAll (c : Vctx) (words : List UInt32) : Vctx := words.foldl emit c

/-- `virgl_cmd_begin`. -/
def virglCmdBegin (c : Vctx) : Vctx := { c with cmdPos := 0, dropped := false }

/-- `virgl_cmd_set_viewport`; `0x3F000000` is `0.5f`. -/
def virglCmdSetViewport (c : Vctx) (f : FloatBits) (w h : UInt32) : Vctx :=
  c.emitAll [virglCmdHdr ccmdSetViewportState 0 7, 0, f.half w, f.negHalf h, 0x3F000000,
    f.half w, f.half h, 0x3F000000]

/-- `virgl_cmd_clear`; the depth is a double, emitted as two words. -/
def virglCmdClear (c : Vctx) (buffers r g b a : UInt32) (depth : UInt64) (stencil : UInt32) :
    Vctx :=
  c.emitAll [virglCmdHdr ccmdClear 0 8, buffers, r, g, b, a, depth.toUInt32,
    (depth >>> 32).toUInt32, stencil]

/-- The words the data loops emit. -/
def floatWords (data : ℕ → UInt32) (numFloats : UInt32) : List UInt32 :=
  (List.range numFloats.toNat).map data

/-- `virgl_upload_vertices`. -/
def virglUploadVertices (c : Vctx) (data : ℕ → UInt32) (numFloats : UInt32) : Vctx :=
  let sizeBytes := numFloats * 4
  let payloadWords := 11 + (sizeBytes + 3) / 4
  c.emitAll (virglCmdHdr ccmdResourceInlineWrite 0 payloadWords ::
    ([c.vboResId, 0, 0, 0, 0, 0, 0, 0, sizeBytes, 1, 1] ++ floatWords data numFloats))

/-- `virgl_cmd_set_vertex_buffer`. -/
def virglCmdSetVertexBuffer (c : Vctx) (stride offset : UInt32) : Vctx :=
  c.emitAll [virglCmdHdr ccmdSetVertexBuffers 0 3, stride, offset, c.vboResId]

/-- `virgl_cmd_draw`. -/
def virglCmdDraw (c : Vctx) (primMode start count : UInt32) : Vctx :=
  c.emitAll [virglCmdHdr ccmdDrawVbo 0 12, start, count, primMode, 0, 1, 0, 0, 0, 0, 0,
    0xFFFFFFFF, 0]

/-- `virgl_cmd_set_constant_buffer`. -/
def virglCmdSetConstantBuffer (c : Vctx) (shaderType : UInt32) (data : ℕ → UInt32)
    (numFloats : UInt32) : Vctx :=
  c.emitAll (virglCmdHdr ccmdSetConstantBuffer 0 (2 + numFloats) ::
    ([shaderType, 0] ++ floatWords data numFloats))

/-- The first `n` words of the command buffer. -/
def wordsUpTo (c : Vctx) (n : ℕ) : List UInt32 := (List.range n).map c.cmdBuf

/-- `virgl_submit_cmd_buf` on the command buffer. -/
def virglSubmitCmdBuf (c : Vctx) (ans : SubmitAnswer) (sizeBytes : ℕ) : Vctx × Bool :=
  if c.cmdBufAddr = 0 then (c, false)
  else if sizeBytes = 0 then (c, true)
  else if sizeBytes &&& 3 ≠ 0 then (c, false)
  else if v3dCmdBufBytes < (submit3dBytes + sizeBytes) % 2 ^ 32 then (c, false)
  else if !ans.queued then (c, false)
  else
    let packet : SubmitPacket :=
      { type := 0x0207, ctxId := c.ctxId, size := UInt32.ofNat sizeBytes,
        words := c.wordsUpTo (sizeBytes / 4), dropped := c.dropped }
    ({ c with sent := packet :: c.sent }, decide (ans.respType < 0x1200))

/-- `virgl_cmd_submit`.  Only a successful submission starts a new batch. -/
def virglCmdSubmit (c : Vctx) (ans : SubmitAnswer) : Vctx × Bool :=
  if !c.initialized then (c, false)
  else if c.cmdPos = 0 then (c, true)
  else
    let sizeBytes := c.cmdPos * 4 % 2 ^ 32
    if c.cmdBufSize < sizeBytes then (c, false)
    else
      let (c, ok) := c.virglSubmitCmdBuf ans sizeBytes
      if ok then ({ c with cmdPos := 0, dropped := false }, true) else (c, false)

/-- The static `vctx` before `virgl_init` succeeds. -/
def zero : Vctx where
  initialized := false
  ctxId := 0
  cmdBufAddr := 0
  cmdBuf := fun _ => 0
  cmdBufSize := 0
  cmdPos := 0
  vboResId := 0
  dropped := false
  sent := []

/-- What the set-up of the driver gets: the context, the buffer `kmalloc` returned with
its contents, and the resource of the vertex buffer. -/
structure VirglSetup where
  ctxId : UInt32
  cmdBufAddr : UInt32
  contents : ℕ → UInt32
  vboResId : UInt32

/-- `virgl_init` and the choice of the vertex buffer after it; `none` when one of its stages
fails. -/
def virglInit (c : Vctx) (setup : Option VirglSetup) : Vctx × Bool :=
  if c.initialized then (c, true)
  else
    match setup with
    | none => ({ zero with sent := c.sent }, false)
    | some s =>
      ({ zero with
          initialized := true
          ctxId := s.ctxId
          cmdBufAddr := s.cmdBufAddr
          cmdBuf := s.contents
          cmdBufSize := cmdBufBytes
          vboResId := s.vboResId
          sent := c.sent }, true)

end Vctx

/-- The calls of the batch interface. -/
inductive VirglCall where
  | init (setup : Option Vctx.VirglSetup)
  | begin
  | clear (buffers r g b a : UInt32) (depth : UInt64) (stencil : UInt32)
  | setViewport (f : FloatBits) (w h : UInt32)
  | uploadVertices (data : ℕ → UInt32) (numFloats : UInt32)
  | setVertexBuffer (stride offset : UInt32)
  | setConstantBuffer (shaderType : UInt32) (data : ℕ → UInt32) (numFloats : UInt32)
  | draw (primMode start count : UInt32)
  | submit (ans : SubmitAnswer)

/-- The state after a call. -/
def VirglCall.exec (c : Vctx) : VirglCall → Vctx
  | .init setup => (c.virglInit setup).1
  | .begin => c.virglCmdBegin
  | .clear buffers r g b a depth stencil => c.virglCmdClear buffers r g b a depth stencil
  | .setViewport f w h => c.virglCmdSetViewport f w h
  | .uploadVertices data n => c.virglUploadVertices data n
  | .setVertexBuffer stride offset => c.virglCmdSetVertexBuffer stride offset
  | .setConstantBuffer shaderType data n => c.virglCmdSetConstantBuffer shaderType data n
  | .draw primMode start count => c.virglCmdDraw primMode start count
  | .submit ans => (c.virglCmdSubmit ans).1

namespace Vctx

/-- The number of words of the command buffer. -/
def capacity : ℕ := 32768

/-! ## Emitting -/

variable {c : Vctx}

/-- The words of the batch. -/
def batch (c : Vctx) : List UInt32 := c.wordsUpTo c.cmdPos

theorem wordsUpTo_succ_update (c : Vctx) (word : UInt32) :
    (List.range (c.cmdPos + 1)).map (Function.update c.cmdBuf c.cmdPos word) =
      c.batch ++ [word] := by
  rw [List.range_succ, List.map_append]
  congr 1
  · apply List.map_congr_left
    intro i hi
    exact Function.update_of_ne (List.mem_range.mp hi).ne _ _
  · simp

/-- The buffer has its full size, and a batch that leaves room is complete. -/
structure WellFramed (c : Vctx) : Prop where
  size : c.cmdBufSize = cmdBufBytes
  pos : c.cmdPos ≤ capacity
  whole : c.cmdPos < capacity → c.dropped = false ∧ Framed hdrLen c.batch

/-- What a sequence of `emit` leaves alone. -/
theorem emitAll_frame (words : List UInt32) : (c.emitAll words).cmdBufSize = c.cmdBufSize ∧
    (c.emitAll words).sent = c.sent ∧ (c.emitAll words).initialized = c.initialized ∧
    (c.emitAll words).cmdBufAddr = c.cmdBufAddr := by
  induction words generalizing c with
  | nil => exact ⟨rfl, rfl, rfl, rfl⟩
  | cons w ws ih =>
    obtain ⟨h₁, h₂, h₃, h₄⟩ := ih (c := c.emit w)
    have hemit : (c.emit w).cmdBufSize = c.cmdBufSize ∧ (c.emit w).sent = c.sent ∧
        (c.emit w).initialized = c.initialized ∧ (c.emit w).cmdBufAddr = c.cmdBufAddr := by
      unfold emit
      split_ifs <;> exact ⟨rfl, rfl, rfl, rfl⟩
    exact ⟨h₁.trans hemit.1, h₂.trans hemit.2.1, h₃.trans hemit.2.2.1, h₄.trans hemit.2.2.2⟩

/-- **Words that fit are appended.** -/
theorem emitAll_of_fits (hsize : c.cmdBufSize = cmdBufBytes) {words : List UInt32}
    (hfit : c.cmdPos + words.length ≤ capacity) :
    (c.emitAll words).batch = c.batch ++ words ∧
      (c.emitAll words).cmdPos = c.cmdPos + words.length ∧
      (c.emitAll words).dropped = c.dropped := by
  induction words generalizing c with
  | nil => exact ⟨(List.append_nil _).symm, rfl, rfl⟩
  | cons w ws ih =>
    rw [List.length_cons] at hfit
    have hroom : c.cmdPos < c.cmdBufSize / 4 := by
      rw [hsize]
      unfold cmdBufBytes
      unfold capacity at hfit
      omega
    have hemit : c.emit w =
        { c with cmdBuf := Function.update c.cmdBuf c.cmdPos w, cmdPos := c.cmdPos + 1 } :=
      if_pos hroom
    have hpos : (c.emit w).cmdPos = c.cmdPos + 1 := by rw [hemit]
    have hbatch : (c.emit w).batch = c.batch ++ [w] := by
      rw [hemit]
      exact wordsUpTo_succ_update c w
    obtain ⟨h₁, h₂, h₃⟩ := ih (c := c.emit w) (by rw [hemit]; exact hsize) (by rw [hpos]; omega)
    refine ⟨?_, ?_, ?_⟩
    · show ((c.emit w).emitAll ws).batch = _
      rw [h₁, hbatch, List.append_assoc]
      rfl
    · show ((c.emit w).emitAll ws).cmdPos = _
      rw [h₂, hpos, List.length_cons]
      omega
    · show ((c.emit w).emitAll ws).dropped = _
      rw [h₃, hemit]

/-- **Words that do not fit fill the buffer.** -/
theorem emitAll_of_not_fits (hsize : c.cmdBufSize = cmdBufBytes) (hpos : c.cmdPos ≤ capacity)
    {words : List UInt32} (hfull : capacity ≤ c.cmdPos + words.length) :
    (c.emitAll words).cmdPos = capacity := by
  induction words generalizing c with
  | nil =>
    rw [List.length_nil] at hfull
    exact le_antisymm hpos hfull
  | cons w ws ih =>
    rw [List.length_cons] at hfull
    have hcap : c.cmdBufSize / 4 = capacity := by rw [hsize]; rfl
    show ((c.emit w).emitAll ws).cmdPos = capacity
    by_cases hroom : c.cmdPos < c.cmdBufSize / 4
    · have hemit : c.emit w =
          { c with cmdBuf := Function.update c.cmdBuf c.cmdPos w, cmdPos := c.cmdPos + 1 } :=
        if_pos hroom
      rw [hcap] at hroom
      refine ih (by rw [hemit]; exact hsize) ?_ ?_
      · rw [hemit]
        exact hroom
      · rw [hemit]
        show capacity ≤ c.cmdPos + 1 + ws.length
        omega
    · have hemit : c.emit w = { c with dropped := true } := if_neg hroom
      rw [hcap] at hroom
      refine ih (by rw [hemit]; exact hsize) ?_ ?_
      · rw [hemit]
        exact hpos
      · rw [hemit]
        show capacity ≤ c.cmdPos + ws.length
        omega

/-- What a builder emits: a complete command, or more words than the buffer holds. -/
def IsCommand : List UInt32 → Prop
  | [] => False
  | hdr :: payload => payload.length = hdrLen hdr ∨ capacity ≤ payload.length

/-- **A builder keeps the framing.** -/
theorem WellFramed.emitAll (h : WellFramed c) {words : List UInt32} (hw : IsCommand words) :
    WellFramed (c.emitAll words) := by
  have hsize : (c.emitAll words).cmdBufSize = cmdBufBytes := emitAll_frame words |>.1.trans h.size
  by_cases hfit : c.cmdPos + words.length < capacity
  · obtain ⟨hbatch, hpos, hdrop⟩ := emitAll_of_fits h.size hfit.le
    refine ⟨hsize, by rw [hpos]; exact hfit.le, fun _ => ?_⟩
    obtain ⟨hnone, hframed⟩ := h.whole (by omega)
    rw [hdrop, hbatch]
    refine ⟨hnone, hframed.append ?_⟩
    cases words with
    | nil => exact absurd hw id
    | cons hdr payload =>
      rcases hw with hlen | hlong
      · exact .single hlen
      · rw [List.length_cons] at hfit
        omega
  · have hpos := emitAll_of_not_fits h.size h.pos (not_lt.mp hfit)
    exact ⟨hsize, hpos.le, fun hlt => absurd hpos hlt.ne⟩

/-! ## The builders -/

/-- The length field of a header, when the length has 16 bits. -/
theorem hdrLen_virglCmdHdr {cmd len : UInt32} (hcmd : cmd.toNat < 65536)
    (hlen : len.toNat < 65536) : hdrLen (virglCmdHdr cmd 0 len) = len.toNat := by
  have hobj : (0 : UInt32) <<< 8 = 0 := rfl
  have hshift : (16 : UInt32).toNat = 16 := rfl
  have hlow : cmd.toNat >>> 16 = 0 := by
    rw [Nat.shiftRight_eq_div_pow]
    omega
  have hhigh : (len <<< 16).toNat >>> 16 = len.toNat := by
    rw [UInt32.toNat_shiftLeft, hshift, Nat.shiftLeft_eq, Nat.shiftRight_eq_div_pow]
    norm_num
    omega
  unfold hdrLen virglCmdHdr
  rw [hobj, UInt32.or_zero, UInt32.toNat_or, Nat.shiftRight_or_distrib, hhigh, hlow, Nat.or_zero]

theorem isCommand_upload (vbo : UInt32) (data : ℕ → UInt32) (n : UInt32) :
    IsCommand (virglCmdHdr ccmdResourceInlineWrite 0 (11 + (n * 4 + 3) / 4) ::
      ([vbo, 0, 0, 0, 0, 0, 0, 0, n * 4, 1, 1] ++ floatWords data n)) := by
  have hlen : ([vbo, 0, 0, 0, 0, 0, 0, 0, n * 4, 1, 1] ++ floatWords data n).length
      = 11 + n.toNat := by
    simp [floatWords]
    omega
  by_cases hn : n.toNat < capacity
  · left
    unfold capacity at hn
    have hwords : (11 + (n * 4 + 3) / 4 : UInt32).toNat = 11 + n.toNat := by
      have h₁ : (11 : UInt32).toNat = 11 := rfl
      have h₃ : (3 : UInt32).toNat = 3 := rfl
      have h₄ : (4 : UInt32).toNat = 4 := rfl
      rw [UInt32.toNat_add, UInt32.toNat_div, UInt32.toNat_add, UInt32.toNat_mul, h₁, h₃, h₄]
      omega
    rw [hlen, hdrLen_virglCmdHdr (by decide) (by rw [hwords]; omega), hwords]
  · right
    rw [hlen]
    omega

theorem isCommand_constantBuffer (shaderType : UInt32) (data : ℕ → UInt32) (n : UInt32) :
    IsCommand (virglCmdHdr ccmdSetConstantBuffer 0 (2 + n) ::
      ([shaderType, 0] ++ floatWords data n)) := by
  have hlen : ([shaderType, 0] ++ floatWords data n).length = 2 + n.toNat := by
    simp [floatWords]
    omega
  by_cases hn : n.toNat < capacity
  · left
    unfold capacity at hn
    have hwords : (2 + n : UInt32).toNat = 2 + n.toNat := by
      have h₂ : (2 : UInt32).toNat = 2 := rfl
      rw [UInt32.toNat_add, h₂]
      omega
    rw [hlen, hdrLen_virglCmdHdr (by decide) (by rw [hwords]; omega), hwords]
  · right
    rw [hlen]
    omega

/-- The fixed-length builders. -/
theorem isCommand_of_length {cmd len : UInt32} {payload : List UInt32}
    (hcmd : cmd.toNat < 65536) (hlt : len.toNat < 65536) (hlen : payload.length = len.toNat) :
    IsCommand (virglCmdHdr cmd 0 len :: payload) := by
  left
  rw [hdrLen_virglCmdHdr hcmd hlt, hlen]

/-! ## Submitting -/

/-- What every call keeps: a driver that is set up has a well-framed batch, and what was sent
splits into commands. -/
structure BatchInv (c : Vctx) : Prop where
  framed : c.initialized = true → WellFramed c
  sent : ∀ p ∈ c.sent, Framed hdrLen p.words ∧ p.dropped = false

theorem BatchInv.emitAll (h : BatchInv c) {words : List UInt32} (hw : IsCommand words) :
    BatchInv (c.emitAll words) := by
  obtain ⟨_, hsent, hinit, _⟩ := emitAll_frame (c := c) words
  refine ⟨fun hi => ?_, ?_⟩
  · rw [hinit] at hi
    exact (h.framed hi).emitAll hw
  · rw [hsent]
    exact h.sent

theorem BatchInv.begin (h : BatchInv c) : BatchInv c.virglCmdBegin :=
  ⟨fun hi => ⟨(h.framed hi).size, Nat.zero_le _, fun _ => ⟨rfl, .nil⟩⟩, h.sent⟩

/-- A submission fails when the batch and its header are larger than the staging buffer, and
a batch that lost a word is. -/
theorem fits_of_sent (h : WellFramed c)
    (hfits : ¬ v3dCmdBufBytes < (submit3dBytes + c.cmdPos * 4) % 2 ^ 32) :
    c.cmdPos < capacity := by
  have hpos := h.pos
  unfold v3dCmdBufBytes submit3dBytes at hfits
  unfold capacity at hpos ⊢
  omega

/-- What `virgl_submit_cmd_buf` puts on the queue: nothing, or the words asked for, when they
fit into the staging buffer behind the header. -/
theorem virglSubmitCmdBuf_cases (c : Vctx) (ans : SubmitAnswer) (sizeBytes : ℕ) :
    (c.virglSubmitCmdBuf ans sizeBytes).1 = c ∨
      ¬ v3dCmdBufBytes < (submit3dBytes + sizeBytes) % 2 ^ 32 ∧
      ∃ p : SubmitPacket, p.words = c.wordsUpTo (sizeBytes / 4) ∧ p.dropped = c.dropped ∧
        (c.virglSubmitCmdBuf ans sizeBytes).1 = { c with sent := p :: c.sent } := by
  unfold virglSubmitCmdBuf
  split_ifs with haddr hsize halign hover hqueued
  · exact Or.inl rfl
  · exact Or.inl rfl
  · exact Or.inl rfl
  · exact Or.inl rfl
  · exact Or.inl rfl
  · exact Or.inr ⟨hover, _, rfl, rfl, rfl⟩

theorem BatchInv.submitCmdBuf (h : BatchInv c) (ans : SubmitAnswer) (hinit : c.initialized = true) :
    BatchInv (c.virglSubmitCmdBuf ans (c.cmdPos * 4)).1 ∧
      (c.virglSubmitCmdBuf ans (c.cmdPos * 4)).1.cmdBufSize = cmdBufBytes := by
  have hframed := h.framed hinit
  rcases virglSubmitCmdBuf_cases c ans (c.cmdPos * 4) with heq | ⟨hfits, p, hwords, hdrop, heq⟩
  · rw [heq]
    exact ⟨h, hframed.size⟩
  · rw [heq]
    -- the batch reached the queue, so it left room and lost no word
    obtain ⟨hnone, hbatch⟩ := hframed.whole (fits_of_sent hframed hfits)
    rw [Nat.mul_div_cancel _ (by norm_num)] at hwords
    refine ⟨⟨fun _ => ⟨hframed.size, hframed.pos, hframed.whole⟩, fun p' hp' => ?_⟩, hframed.size⟩
    rcases List.mem_cons.mp hp' with rfl | hp'
    · rw [hwords, hdrop]
      exact ⟨hbatch, hnone⟩
    · exact h.sent p' hp'

theorem BatchInv.submit (h : BatchInv c) (ans : SubmitAnswer) :
    BatchInv (c.virglCmdSubmit ans).1 := by
  cases hinit : c.initialized with
  | false =>
    have heq : c.virglCmdSubmit ans = (c, false) := by
      unfold virglCmdSubmit
      rw [hinit]
      rfl
    rw [heq]
    exact h
  | true =>
    have hsize : c.cmdPos * 4 % 2 ^ 32 = c.cmdPos * 4 := by
      have hpos := (h.framed hinit).pos
      unfold capacity at hpos
      omega
    obtain ⟨hinv, hbuf⟩ := h.submitCmdBuf ans hinit
    unfold virglCmdSubmit
    rw [hinit, hsize]
    rw [if_neg (show ¬ (!true) = true from Bool.false_ne_true)]
    dsimp only
    split_ifs
    · exact h
    · exact h
    · exact ⟨fun _ => ⟨hbuf, Nat.zero_le _, fun _ => ⟨rfl, .nil⟩⟩, hinv.sent⟩
    · exact hinv

theorem BatchInv.init (h : BatchInv c) (setup : Option VirglSetup) :
    BatchInv (c.virglInit setup).1 := by
  unfold virglInit
  split_ifs
  · exact h
  · cases setup with
    | none => exact ⟨fun hi => absurd hi Bool.false_ne_true, h.sent⟩
    | some s => exact ⟨fun _ => ⟨rfl, Nat.zero_le _, fun _ => ⟨rfl, .nil⟩⟩, h.sent⟩

/-- **Every call keeps the framing.** -/
theorem BatchInv.exec (h : BatchInv c) (call : VirglCall) : BatchInv (call.exec c) := by
  cases call with
  | init setup => exact h.init setup
  | begin => exact h.begin
  | clear buffers r g b a depth stencil =>
    exact h.emitAll (isCommand_of_length (by decide) (by decide) rfl)
  | setViewport f w h' => exact h.emitAll (isCommand_of_length (by decide) (by decide) rfl)
  | uploadVertices data n => exact h.emitAll (isCommand_upload c.vboResId data n)
  | setVertexBuffer stride offset =>
    exact h.emitAll (isCommand_of_length (by decide) (by decide) rfl)
  | setConstantBuffer shaderType data n =>
    exact h.emitAll (isCommand_constantBuffer shaderType data n)
  | draw primMode start count =>
    exact h.emitAll (isCommand_of_length (by decide) (by decide) rfl)
  | submit ans => exact h.submit ans

theorem batchInv_zero : BatchInv zero :=
  ⟨fun hi => absurd hi Bool.false_ne_true, fun _ hp => by cases hp⟩

/-- **Batch framing.**  Whatever the sequence of calls, each stream of words that is sent to
the device splits exactly into complete commands, and no word of it was dropped. -/
theorem batch_framing (calls : List VirglCall) :
    ∀ p ∈ (calls.foldl VirglCall.exec zero).sent,
      Framed hdrLen p.words ∧ p.dropped = false := by
  have hinv : ∀ c : Vctx, BatchInv c → BatchInv (calls.foldl VirglCall.exec c) := by
    induction calls with
    | nil => exact fun _ h => h
    | cons call calls ih => exact fun c h => ih _ (h.exec call)
  exact (hinv _ batchInv_zero).sent

/-- A driver that is set up, and one batch with one draw. -/
def oneDraw : List VirglCall :=
  [.init (some ⟨1, 0x1000, fun _ => 0, 5⟩), .begin, .draw 4 0 3, .submit ⟨true, 0x1100⟩]

theorem batch_framing_oneDraw :
    ∃ p ∈ (oneDraw.foldl VirglCall.exec zero).sent,
      p.words.length = 13 ∧ Framed hdrLen p.words ∧ p.dropped = false := by
  have hlengths : (oneDraw.foldl VirglCall.exec zero).sent.map (fun p => p.words.length) = [13] := by
    decide
  have hmem : 13 ∈ (oneDraw.foldl VirglCall.exec zero).sent.map (fun p => p.words.length) := by
    rw [hlengths]
    exact List.mem_singleton_self 13
  obtain ⟨p, hp, hlength⟩ := List.mem_map.mp hmem
  exact ⟨p, hp, hlength, batch_framing oneDraw p hp⟩

end Vctx

end Microkernel

/-
# The keyboard ring

The ring of `keyboard.c` between the interrupt handler, which puts characters in, and the one task
that reads them.  The functions are given as the source has them, and as steps of a machine in
which either side may stop between any two accesses to what the other side writes: `buf_put` reads
`key_tail`, then writes the slot, then `key_head`; the reader reads `key_head`, then the slot, then
writes `key_tail`.  Whatever the interleaving, the ring is a queue with room for all slots but one.
-/
import Microkernel.RingQueue

namespace Microkernel

open RingQueue QueueEvent

/-- `KEY_BUF_SIZE`. -/
def keyBufSize : ℕ := 256

/-- `key_buffer`, `key_head` and `key_tail`. -/
structure KeyRing where
  keyBuffer : ℕ → UInt8
  keyHead : ℕ
  keyTail : ℕ

/-- The static variables at the start. -/
def KeyRing.init : KeyRing := ⟨fun _ => 0, 0, 0⟩

namespace KeyRing

variable (k : KeyRing)

/-! ## The functions -/

/-- `next` of `buf_put`. -/
def next : ℕ := (k.keyHead + 1) % keyBufSize

/-- `key_buffer[key_head] = c`. -/
def store (c : UInt8) : KeyRing := { k with keyBuffer := Function.update k.keyBuffer k.keyHead c }

/-- `key_tail = (key_tail + 1) % KEY_BUF_SIZE`. -/
def advance : KeyRing := { k with keyTail := (k.keyTail + 1) % keyBufSize }

/-- `buf_put`. -/
def bufPut (c : UInt8) : KeyRing :=
  if k.next ≠ k.keyTail then { k.store c with keyHead := k.next } else k

/-- `keyboard_haskey`. -/
def keyboardHaskey : Bool := k.keyHead != k.keyTail

/-- `keyboard_trychar`. -/
def keyboardTrychar : UInt8 × KeyRing :=
  if !k.keyboardHaskey then (0, k) else (k.keyBuffer k.keyTail, k.advance)

/-- `keyboard_getchar`; `none` says that it waits for an interrupt. -/
def keyboardGetchar : Option (UInt8 × KeyRing) :=
  if !k.keyboardHaskey then none else some (k.keyBuffer k.keyTail, k.advance)

end KeyRing

/-! ## The two sides -/

/-- The functions that take a character. -/
inductive ReadCall where
  | getchar
  | trychar

/-- Where `buf_put` is: not called, or before one of its writes. -/
inductive PutPhase where
  | idle
  | store (c : UInt8) (next : ℕ)
  | publish (c : UInt8) (next : ℕ)

/-- Where the reader is: outside of the functions, before the test of `keyboard_haskey`, before
reading the slot, or before moving `key_tail` with the character `c` read. -/
inductive ReadPhase where
  | idle
  | check (call : ReadCall)
  | load
  | advance (c : UInt8)

/-- The ring with the two sides. -/
structure KeyMachine where
  ring : KeyRing
  put : PutPhase
  read : ReadPhase

def KeyMachine.start : KeyMachine := ⟨.init, .idle, .idle⟩

/-- What the two sides do. -/
inductive KeyEvent where
  /-- `buf_put` is called with `c` and finds the buffer full. -/
  | full (c : UInt8)
  /-- `buf_put` is called with `c` and finds room. -/
  | room (c : UInt8)
  | store
  /-- `buf_put` moves `key_head` behind `c`. -/
  | publish (c : UInt8)
  | call (call : ReadCall)
  | hasKey
  /-- `keyboard_getchar` halts until the next interrupt. -/
  | wait
  /-- `keyboard_trychar` returns zero. -/
  | noKey
  | load
  /-- The reader moves `key_tail` and returns `c`. -/
  | take (c : UInt8)

open KeyEvent

/-- The steps of the two sides. -/
inductive KeyStep : KeyMachine → KeyEvent → KeyMachine → Prop where
  | full {s : KeyMachine} (c : UInt8) : s.put = .idle → s.ring.next = s.ring.keyTail →
      KeyStep s (.full c) s
  | room {s : KeyMachine} (c : UInt8) : s.put = .idle → s.ring.next ≠ s.ring.keyTail →
      KeyStep s (.room c) { s with put := .store c s.ring.next }
  | store {s : KeyMachine} {c : UInt8} {next : ℕ} : s.put = .store c next →
      KeyStep s .store { s with ring := s.ring.store c, put := .publish c next }
  | publish {s : KeyMachine} {c : UInt8} {next : ℕ} : s.put = .publish c next →
      KeyStep s (.publish c) { s with ring := { s.ring with keyHead := next }, put := .idle }
  | call {s : KeyMachine} (call : ReadCall) : s.read = .idle →
      KeyStep s (.call call) { s with read := .check call }
  | hasKey {s : KeyMachine} {call : ReadCall} : s.read = .check call →
      s.ring.keyboardHaskey = true → KeyStep s .hasKey { s with read := .load }
  | wait {s : KeyMachine} : s.read = .check .getchar → s.ring.keyboardHaskey = false →
      KeyStep s .wait s
  | noKey {s : KeyMachine} : s.read = .check .trychar → s.ring.keyboardHaskey = false →
      KeyStep s .noKey { s with read := .idle }
  | load {s : KeyMachine} : s.read = .load →
      KeyStep s .load { s with read := .advance (s.ring.keyBuffer s.ring.keyTail) }
  | take {s : KeyMachine} {c : UInt8} : s.read = .advance c →
      KeyStep s (.take c) { s with ring := s.ring.advance, read := .idle }

/-- What an event is for the queue of the characters. -/
def KeyEvent.queueEvent : KeyEvent → Option (QueueEvent UInt8)
  | .full c => some (.refused c)
  | .publish c => some (.accepted c)
  | .take c => some (.taken c)
  | _ => none

/-- The events of the queue. -/
def queueEvents (es : List KeyEvent) : List (QueueEvent UInt8) := es.filterMap KeyEvent.queueEvent

/-- The characters that were put in, in their order. -/
def acceptedChars (es : List KeyEvent) : List UInt8 := acceptedOf (queueEvents es)

/-- The characters that the reader took, in their order. -/
def readChars (es : List KeyEvent) : List UInt8 := takenOf (queueEvents es)

/-- The characters that `buf_put` found room for, in their order. -/
def admitted (es : List KeyEvent) : List UInt8 :=
  es.filterMap fun
    | .room c => some c
    | _ => none

/-- The character that `buf_put` found room for and has not put in yet. -/
def PutPhase.inHand : PutPhase → List UInt8
  | .idle => []
  | .store c _ => [c]
  | .publish c _ => [c]

/-! ## The invariant -/

/-- What `buf_put` relies on between its steps. -/
def PutPhase.Ok (k : KeyRing) : PutPhase → Prop
  | .idle => True
  | .store _ next => next = k.next ∧ next ≠ k.keyTail
  | .publish c next => next = k.next ∧ next ≠ k.keyTail ∧ k.keyBuffer k.keyHead = c

/-- What the reader relies on between its steps. -/
def ReadPhase.Ok (k : KeyRing) : ReadPhase → Prop
  | .load => k.keyHead ≠ k.keyTail
  | .advance c => k.keyHead ≠ k.keyTail ∧ k.keyBuffer k.keyTail = c
  | _ => True

/-- The indices are inside the buffer, and neither side is misled by the other. -/
structure KeyMachine.Ok (s : KeyMachine) : Prop where
  head_lt : s.ring.keyHead < keyBufSize
  tail_lt : s.ring.keyTail < keyBufSize
  put : s.put.Ok s.ring
  read : s.read.Ok s.ring

/-- The characters in the ring, in the order in which they are read. -/
def KeyRing.pending (k : KeyRing) : List UInt8 :=
  contents keyBufSize k.keyBuffer k.keyHead k.keyTail

variable {k : KeyRing} {s t : KeyMachine} {e : KeyEvent} {es : List KeyEvent} {c : UInt8}

theorem KeyRing.next_lt (k : KeyRing) : k.next < keyBufSize := Nat.mod_lt _ (by decide)

theorem KeyRing.advance_lt (k : KeyRing) : k.advance.keyTail < keyBufSize := Nat.mod_lt _ (by decide)

theorem KeyRing.keyboardHaskey_iff : k.keyboardHaskey = true ↔ k.keyHead ≠ k.keyTail := bne_iff_ne

namespace ReadPhase.Ok

variable {r : ReadPhase}

/-- A write behind the last character does not touch the one that is being read. -/
theorem store (h : r.Ok k) (c : UInt8) : r.Ok (k.store c) := by
  cases r with
  | load => exact h
  | advance c' => exact ⟨h.1, (Function.update_of_ne h.1.symm _ _).trans h.2⟩
  | idle => trivial
  | check => trivial

/-- A new character leaves the ring with one. -/
theorem publish (h : r.Ok k) {next : ℕ} (hroom : next ≠ k.keyTail) :
    r.Ok { k with keyHead := next } := by
  cases r with
  | load => exact hroom
  | advance c => exact ⟨hroom, h.2⟩
  | idle => trivial
  | check => trivial

end ReadPhase.Ok

/-- A character that is taken leaves the room that was found. -/
theorem PutPhase.Ok.advance {p : PutPhase} (h : p.Ok k) (hhead : k.keyHead < keyBufSize)
    (htail : k.keyTail < keyBufSize) (hne : k.keyHead ≠ k.keyTail) : p.Ok k.advance := by
  have hroom : k.next ≠ (k.keyTail + 1) % keyBufSize := by
    simp only [KeyRing.next, keyBufSize] at *
    omega
  cases p with
  | idle => trivial
  | store c next => exact ⟨h.1, h.1.trans_ne hroom⟩
  | publish c next => exact ⟨h.1, h.1.trans_ne hroom, h.2.2⟩

theorem KeyMachine.start_ok : KeyMachine.start.Ok := ⟨by decide, by decide, trivial, trivial⟩

/-- **Every step keeps the invariant.** -/
theorem KeyStep.ok (h : KeyStep s e t) (hs : s.Ok) : t.Ok := by
  cases h with
  | full => exact hs
  | room c _ hroom => exact ⟨hs.head_lt, hs.tail_lt, ⟨rfl, hroom⟩, hs.read⟩
  | @store c next hput =>
    -- The slot that is written is not the one that may be read at the same time.
    have hp := hs.put
    rw [hput] at hp
    exact ⟨hs.head_lt, hs.tail_lt, ⟨hp.1, hp.2, Function.update_self _ _ _⟩, hs.read.store c⟩
  | @publish c next hput =>
    have hp := hs.put
    rw [hput] at hp
    have hnext : next < keyBufSize := hp.1.trans_lt s.ring.next_lt
    exact ⟨hnext, hs.tail_lt, trivial, hs.read.publish hp.2.1⟩
  | call => exact ⟨hs.head_lt, hs.tail_lt, hs.put, trivial⟩
  | hasKey _ hkey =>
    exact ⟨hs.head_lt, hs.tail_lt, hs.put, KeyRing.keyboardHaskey_iff.mp hkey⟩
  | wait => exact hs
  | noKey => exact ⟨hs.head_lt, hs.tail_lt, hs.put, trivial⟩
  | load hread =>
    have hr := hs.read
    rw [hread] at hr
    exact ⟨hs.head_lt, hs.tail_lt, hs.put, ⟨hr, rfl⟩⟩
  | take hread =>
    -- `buf_put` may hold an old `key_tail`: the new one leaves it the room it has found.
    have hr := hs.read
    rw [hread] at hr
    exact ⟨hs.head_lt, s.ring.advance_lt, hs.put.advance hs.head_lt hs.tail_lt hr.1, trivial⟩

/-- `buf_put` finds the buffer full when it has all characters it has room for. -/
theorem KeyMachine.Ok.next_eq_iff (hs : s.Ok) :
    s.ring.next = s.ring.keyTail ↔ s.ring.pending.length = keyBufSize - 1 :=
  full_iff hs.head_lt hs.tail_lt

theorem KeyMachine.Ok.length_pending_le (hs : s.Ok) : s.ring.pending.length ≤ keyBufSize - 1 :=
  Nat.le_pred_of_lt (length_contents_lt hs.tail_lt)

theorem KeyMachine.Ok.next_ne_iff (hs : s.Ok) :
    s.ring.next ≠ s.ring.keyTail ↔ s.ring.pending.length < keyBufSize - 1 := by
  rw [Ne, hs.next_eq_iff]
  exact hs.length_pending_le.lt_iff_ne.symm

theorem KeyMachine.Ok.pending_eq_nil_iff (hs : s.Ok) :
    s.ring.pending = [] ↔ s.ring.keyHead = s.ring.keyTail :=
  contents_eq_nil_iff hs.head_lt hs.tail_lt

/-- The character that is read next is the first one pending. -/
theorem KeyMachine.Ok.pending_of_ne (hs : s.Ok) (hne : s.ring.keyHead ≠ s.ring.keyTail) :
    s.ring.pending = s.ring.keyBuffer s.ring.keyTail :: s.ring.advance.pending :=
  contents_next_tail hs.head_lt hs.tail_lt hne

/-- **Every step is a step of the queue**, or is not seen there. -/
theorem KeyStep.queueStep (h : KeyStep s e t) (hs : s.Ok) :
    (e.queueEvent = none ∧ t.ring.pending = s.ring.pending) ∨
      ∃ b, e.queueEvent = some b ∧
        QueueStep (keyBufSize - 1) s.ring.pending b t.ring.pending := by
  cases h with
  | full c _ hfull =>
    exact Or.inr ⟨_, rfl, .refused c (hs.next_eq_iff.mp hfull)⟩
  | room => exact Or.inl ⟨rfl, rfl⟩
  | store => exact Or.inl ⟨rfl, contents_update hs.head_lt hs.tail_lt⟩
  -- The character is in the queue from here on.
  | @publish c next hput =>
    have hp := hs.put
    rw [hput] at hp
    obtain ⟨rfl, hroom, hslot⟩ := hp
    have hnew : ({ s.ring with keyHead := s.ring.next } : KeyRing).pending =
        s.ring.pending ++ [s.ring.keyBuffer s.ring.keyHead] :=
      contents_next_head hs.head_lt hs.tail_lt hroom
    refine Or.inr ⟨_, rfl, ?_⟩
    rw [hnew, hslot]
    exact .accepted c (hs.next_ne_iff.mp hroom)
  | call => exact Or.inl ⟨rfl, rfl⟩
  | hasKey => exact Or.inl ⟨rfl, rfl⟩
  | wait => exact Or.inl ⟨rfl, rfl⟩
  | noKey => exact Or.inl ⟨rfl, rfl⟩
  | load => exact Or.inl ⟨rfl, rfl⟩
  | @take c hread =>
    have hr := hs.read
    rw [hread] at hr
    obtain ⟨hne, rfl⟩ := hr
    refine Or.inr ⟨_, rfl, ?_⟩
    rw [hs.pending_of_ne hne]
    exact .taken _

theorem KeyMachine.pending_start : KeyMachine.start.ring.pending = [] := by decide

/-- The characters of a run make a run of the queue. -/
theorem queueRun (h : Run KeyStep .start es s) :
    Run (QueueStep (keyBufSize - 1)) [] (queueEvents es) s.ring.pending := by
  rw [← KeyMachine.pending_start]
  exact h.simulates (fun s => s.ring.pending) KeyEvent.queueEvent
    (fun _ _ _ hstep hs => hstep.ok hs) (fun _ _ _ hstep hs => hstep.queueStep hs)
    KeyMachine.start_ok

theorem ok_of_run (h : Run KeyStep .start es s) : s.Ok :=
  h.invariant (fun _ _ _ hstep hs => hstep.ok hs) KeyMachine.start_ok

/-- One step moves a character into the hands of `buf_put`, or from there into the ring. -/
theorem KeyStep.inHand (h : KeyStep s e t) :
    s.put.inHand ++ admitted [e] = acceptedChars [e] ++ t.put.inHand := by
  cases h with
  | full => exact List.append_nil _
  | room c hput => rw [hput]; rfl
  | store hput => rw [hput]; rfl
  | publish hput => rw [hput]; rfl
  | call => exact List.append_nil _
  | hasKey => exact List.append_nil _
  | wait => exact List.append_nil _
  | noKey => exact List.append_nil _
  | load => exact List.append_nil _
  | take => exact List.append_nil _

/-- **What `buf_put` finds room for it puts in**, in the same order. -/
theorem run_inHand (h : Run KeyStep s es t) :
    s.put.inHand ++ admitted es = acceptedChars es ++ t.put.inHand := by
  induction h with
  | nil s => exact List.append_nil _
  | @cons s t u e es hstep _ ih =>
    have hadmitted : admitted (e :: es) = admitted [e] ++ admitted es :=
      List.filterMap_append (l := [e])
    have haccepted : acceptedChars (e :: es) = acceptedChars [e] ++ acceptedChars es := by
      unfold acceptedChars acceptedOf queueEvents
      rw [← List.filterMap_append, ← List.filterMap_append]
      rfl
    rw [hadmitted, haccepted, ← List.append_assoc, hstep.inHand, List.append_assoc, ih,
      List.append_assoc]

/-! ## The calls without interruption -/

/-- `buf_put` in one go. -/
theorem run_bufPut (hput : s.put = .idle) (c : UInt8) :
    Run KeyStep s
      (if s.ring.next = s.ring.keyTail then [.full c] else [.room c, .store, .publish c])
      { s with ring := s.ring.bufPut c } := by
  obtain ⟨k, put, read⟩ := s
  subst hput
  by_cases hfull : k.next = k.keyTail
  · have hsame : k.bufPut c = k := if_neg (not_not.mpr hfull)
    rw [if_pos hfull]
    dsimp only
    rw [hsame]
    exact .cons (.full c rfl hfull) (.nil _)
  · have hnew : k.bufPut c = { k.store c with keyHead := k.next } := if_pos hfull
    rw [if_neg hfull]
    dsimp only
    rw [hnew]
    exact .cons (.room c rfl hfull) (.cons (.store rfl) (.cons (.publish rfl) (.nil _)))

/-- The reader takes a character in one go. -/
theorem run_take (call : ReadCall) (hread : s.read = .idle) (hkey : s.ring.keyboardHaskey = true) :
    Run KeyStep s [.call call, .hasKey, .load, .take (s.ring.keyBuffer s.ring.keyTail)]
      { s with ring := s.ring.advance } := by
  obtain ⟨k, put, read⟩ := s
  subst hread
  exact .cons (.call call rfl) (.cons (.hasKey rfl hkey) (.cons (.load rfl) (.cons (.take rfl)
    (.nil _))))

/-- `keyboard_trychar` in one go. -/
theorem run_keyboardTrychar (hread : s.read = .idle) :
    Run KeyStep s
      (if s.ring.keyboardHaskey then
        [.call .trychar, .hasKey, .load, .take s.ring.keyboardTrychar.1]
      else [.call .trychar, .noKey])
      { s with ring := s.ring.keyboardTrychar.2 } := by
  by_cases hkey : s.ring.keyboardHaskey = true
  · have htaken : s.ring.keyboardTrychar = (s.ring.keyBuffer s.ring.keyTail, s.ring.advance) := by
      rw [KeyRing.keyboardTrychar, hkey]
      rfl
    rw [if_pos hkey, htaken]
    exact run_take .trychar hread hkey
  · have hkey : s.ring.keyboardHaskey = false := Bool.eq_false_of_not_eq_true hkey
    have hsame : s.ring.keyboardTrychar = (0, s.ring) := by
      rw [KeyRing.keyboardTrychar, hkey]
      rfl
    rw [hkey, hsame]
    obtain ⟨k, put, read⟩ := s
    subst hread
    exact .cons (.call .trychar rfl) (.cons (.noKey rfl hkey) (.nil _))

/-- `keyboard_getchar` in one go, when it does not wait. -/
theorem run_keyboardGetchar {k' : KeyRing} (hread : s.read = .idle)
    (h : s.ring.keyboardGetchar = some (c, k')) :
    Run KeyStep s [.call .getchar, .hasKey, .load, .take c] { s with ring := k' } := by
  unfold KeyRing.keyboardGetchar at h
  split_ifs at h with hkey
  cases h
  rw [Bool.not_eq_true', Bool.not_eq_false] at hkey
  exact run_take .getchar hread hkey

/-! ## The queue -/

/-- **The keyboard ring is a bounded queue.**  However the steps of `buf_put` and of the reader are
interleaved, the characters are read in the order in which they were put in, at most
`KEY_BUF_SIZE - 1` of them are pending, what `buf_put` finds room for it puts in, and it drops a
character exactly if `KEY_BUF_SIZE - 1` are pending. -/
theorem keyboard_ring_fifo (h : Run KeyStep .start es s) :
    readChars es <+: acceptedChars es ∧
      (acceptedChars es).length ≤ (readChars es).length + (keyBufSize - 1) ∧
      admitted es = acceptedChars es ++ s.put.inHand ∧
      (s.put = .idle → ∀ c,
        ((∃ t, KeyStep s (.full c) t) ↔
          (acceptedChars es).length = (readChars es).length + (keyBufSize - 1)) ∧
        ((∃ t, KeyStep s (.room c) t) ↔
          (acceptedChars es).length < (readChars es).length + (keyBufSize - 1))) := by
  have hs := ok_of_run h
  have hfifo : acceptedChars es = readChars es ++ s.ring.pending := QueueStep.run_fifo (queueRun h)
  have hlen : (acceptedChars es).length = (readChars es).length + s.ring.pending.length := by
    rw [hfifo, List.length_append]
  have hle := hs.length_pending_le
  refine ⟨⟨_, hfifo.symm⟩, by omega, run_inHand h, fun hput c => ⟨?_, ?_⟩⟩
  · rw [hlen, Nat.add_left_cancel_iff, ← hs.next_eq_iff]
    constructor
    · rintro ⟨t, ht⟩
      cases ht with
      | full _ _ hfull => exact hfull
    · exact fun hfull => ⟨s, .full c hput hfull⟩
  · rw [hlen, Nat.add_lt_add_iff_left, ← hs.next_ne_iff]
    constructor
    · rintro ⟨t, ht⟩
      cases ht with
      | room _ _ hroom => exact hroom
    · exact fun hroom => ⟨_, .room c hput hroom⟩

/-- The reader looks for a character while the first one is being put in, and takes it later. -/
theorem keyboard_ring_fifo_overlapping :
    readChars [.room 97, .call .trychar, .noKey, .store, .publish 97, .call .getchar, .hasKey,
        .load, .take 97] <+:
      acceptedChars [.room 97, .call .trychar, .noKey, .store, .publish 97, .call .getchar, .hasKey,
        .load, .take 97] ∧
      ∃ t, KeyStep ⟨⟨Function.update (fun _ => 0) 0 97, 1, 1⟩, .idle, .idle⟩ (.room 98) t := by
  have h := keyboard_ring_fifo (.cons (.room 97 rfl (by decide)) (.cons (.call .trychar rfl)
    (.cons (.noKey rfl rfl) (.cons (.store rfl) (.cons (.publish rfl) (.cons (.call .getchar rfl)
      (.cons (.hasKey rfl rfl) (.cons (.load rfl) (.cons (.take rfl) (.nil _))))))))))
  exact ⟨h.1, (h.2.2.2 rfl 98).2.mpr (by decide)⟩

end Microkernel

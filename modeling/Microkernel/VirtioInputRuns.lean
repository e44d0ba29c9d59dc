/-
# Conservation of the event buffers

Over whole runs of the driver and the device, every event buffer is in exactly one descriptor that
is with the device or returned by it, or in the hands of `virtio_input_poll` between the freeing of
a descriptor and the next post; no descriptor is lost; and `process_event` gets the events that the
device wrote, each once and in the order in which they were returned.  `Conserved` says most of it
of the descriptors; `EventsConserved` adds the buffers and their contents.
-/
import Microkernel.VirtioInput

namespace Microkernel

/-! ## One descriptor -/

namespace Virtq

variable {q : Virtq} {free heads : List ℕ}

/-- The first free descriptor becomes a request of its own, whatever is written into it. -/
theorem Pool.take_single {a : ℕ} {q' : Virtq} (h : Pool q (a :: free) heads [])
    (hdesc : ∀ i, i ≠ a → q'.desc i = q.desc i) (hlast : (q'.desc a).hasNext = false)
    (hfree : q'.freeHead = (q.desc a).next) (hcount : q'.numFree = free.length)
    (hsize : q'.size = q.size) : Pool q' free (a :: heads) [] := by
  have hnodup := h.nodup
  rw [List.nil_append, List.cons_append, List.nodup_cons, List.mem_append, not_or] at hnodup
  obtain ⟨⟨hafree, haheads⟩, -⟩ := hnodup
  have hne : ∀ y ∈ heads.flatMap q.chain, y ≠ a := by
    rintro y hy rfl
    exact haheads hy
  have hchain : q'.chain a = [a] := by
    unfold Virtq.chain
    rw [hlast]
    rfl
  have hsame : heads.flatMap q'.chain = heads.flatMap q.chain := by
    apply Pool.flatMap_chain_congr
    · intro y hy
      rw [hdesc y (hne y (mem_flatMap_chain hy))]
    · intro y hy
      rw [hdesc y (hne y (mem_flatMap_chain hy))]
  refine ⟨?_, hcount, ?_, ?_⟩
  · rw [hfree]
    obtain ⟨-, hrest⟩ := h.chain.uncons
    refine hrest.congr ?_
    intro x hx
    rw [hdesc x]
    rintro rfl
    exact hafree hx
  · rw [List.flatMap_cons, hchain, hsame, hsize, List.nil_append]
    refine List.Perm.trans ?_ h.whole
    rw [List.nil_append, List.singleton_append, List.cons_append]
    exact List.perm_middle
  · intro y hy hnext
    rcases List.mem_cons.mp hy with rfl | hy
    · rw [hlast] at hnext
      cases hnext
    · have hy' := hne y (mem_flatMap_chain hy)
      rw [hdesc y hy'] at hnext ⊢
      rw [hdesc _ (hne _ (next_mem_flatMap_chain hy hnext))]
      exact h.ends y hy hnext

/-- **`post_event_buf` takes one descriptor.** -/
theorem Pool.postEventBuf (h : Pool q free heads []) (hsmall : q.size < 65536) (addr : UInt32)
    (hroom : ¬ q.numFree < 1) :
    ∃ free', Pool (q.postEventBuf addr) free' (q.freeHead :: heads) [] := by
  have hlen := h.length
  have hpos : 0 < free.length := by
    rw [← h.count]
    omega
  obtain ⟨a, free, rfl⟩ := List.exists_cons_of_length_pos hpos
  obtain ⟨ha, -⟩ := h.chain.uncons
  rw [List.length_cons] at hlen
  have hcount := h.count
  rw [List.length_cons] at hcount
  refine ⟨free, ?_⟩
  unfold Virtq.postEventBuf
  rw [if_neg hroom, ha]
  refine h.take_single ?_ ?_ rfl ?_ rfl
  · intro i hi
    exact Function.update_of_ne hi _ _
  · show (Function.update q.desc a _ a).hasNext = false
    rw [Function.update_self]
    exact Pool.hasNext_flags.2.1
  · show sub16 q.numFree 1 = free.length
    rw [Pool.sub16_of_le (by omega) (by omega), hcount, Nat.add_sub_cancel]

end Virtq

namespace VirtioSystem.Conserved

open Virtq

variable {s : VirtioSystem}

/-- The queue after a post. -/
theorem post (h : Conserved s) (addr : UInt32) (hroom : ¬ s.q.numFree < 1) :
    Conserved { s with
      q := s.q.postEventBuf addr
      submitted := s.submitted ++ [s.q.freeHead] } := by
  obtain ⟨free, hpool⟩ := h.pool
  have hsmall := h.small
  obtain ⟨free', hnew⟩ := hpool.postEventBuf (by omega) addr hroom
  have hoffers : Offers s.q (s.q.postEventBuf addr) s.q.freeHead := by
    unfold Virtq.postEventBuf
    rw [if_neg hroom]
    exact ⟨rfl, rfl, rfl, rfl, rfl, rfl⟩
  exact h.submit hoffers hnew

/-- The queue after the first returned descriptor is freed. -/
theorem freeEventDesc (h : Conserved s) (hne : s.q.lastUsedIdx ≠ s.q.usedIdx)
    (hlast : (s.q.desc s.q.usedHead).hasNext = false) :
    Conserved { s with
      q := s.q.freeEventDesc s.q.usedHead
      polled := s.polled ++ [s.q.usedHead] } := by
  obtain ⟨-, -, hmod⟩ := h.pool_usedHead hne
  refine @pollRound s h 1 _ hne ?_
  unfold Virtq.pollRound
  rw [hmod]
  unfold Virtq.freeChain Virtq.freeEventDesc
  rw [hlast, hmod]
  rfl

/-- What is outstanding, when the descriptors that were submitted and polled are known. -/
theorem outstanding_perm {t : VirtioSystem} {more gone : List ℕ} (h : Conserved s) (ht : Conserved t)
    (hsubmitted : t.submitted = s.submitted ++ more) (hpolled : t.polled = s.polled ++ gone) :
    (gone ++ t.outstanding).Perm (s.outstanding ++ more) := by
  have hs := h.submitted_perm
  have hperm := ht.submitted_perm
  rw [hsubmitted, hpolled, List.append_assoc] at hperm
  rw [← List.perm_append_left_iff s.polled]
  refine hperm.symm.trans ?_
  rw [← List.append_assoc]
  exact hs.append_right more

end VirtioSystem.Conserved

/-! ## Addresses -/

/-- The index of a buffer is found from its address. -/
theorem bufIdx_eventAddr (base : UInt32) {i : ℕ} (hi : i < 64) : bufIdx base (eventAddr base i) = i := by
  have hsub : eventAddr base i - base = eventSize * UInt32.ofNat i := by
    unfold eventAddr
    rw [UInt32.add_comm, UInt32.add_sub_cancel]
  have hindex : (UInt32.ofNat i).toNat = i := by
    rw [UInt32.toNat_ofNat']
    exact Nat.mod_eq_of_lt (by omega)
  unfold bufIdx
  rw [hsub, UInt32.toNat_div, UInt32.toNat_mul, hindex]
  show 8 * i % 2 ^ 32 / 8 = i
  omega

/-- The buffers have different addresses. -/
theorem nodup_eventAddr (base : UInt32) {count : ℕ} (hcount : count ≤ 64) :
    ((List.range count).map (eventAddr base)).Nodup := by
  refine List.Nodup.map_on ?_ List.nodup_range
  intro i hi j hj heq
  rw [List.mem_range] at hi hj
  rw [← bufIdx_eventAddr base (show i < 64 by omega), heq, bufIdx_eventAddr base (by omega)]

namespace InputSystem

open Virtq VirtioSystem

/-! ## The invariant -/

/-- The buffer that `virtio_input_poll` has between the freeing and the next post. -/
def inHand (s : InputSystem) : List UInt32 :=
  match s.phase with
  | .freed ev => [ev]
  | _ => []

/-- The returned descriptor whose event was just processed is still to be freed. -/
def inRound (s : InputSystem) : ℕ :=
  match s.phase with
  | .processed _ _ => 1
  | _ => 0

/-- Between the rounds of `virtio_input_poll` no buffer is in hand. -/
theorem hand_between {s : InputSystem} (h : s.phase = .idle ∨ s.phase = .polling) :
    s.inHand = [] ∧ s.inRound = 0 := by
  unfold inHand inRound
  rcases h with hphase | hphase <;> rw [hphase] <;> exact ⟨rfl, rfl⟩

theorem hand_processed {s : InputSystem} {di : ℕ} {ev : UInt32}
    (h : s.phase = .processed di ev) : s.inHand = [] ∧ s.inRound = 1 := by
  unfold inHand inRound
  rw [h]
  exact ⟨rfl, rfl⟩

theorem hand_freed {s : InputSystem} {ev : UInt32} (h : s.phase = .freed ev) :
    s.inHand = [ev] ∧ s.inRound = 0 := by
  unfold inHand inRound
  rw [h]
  exact ⟨rfl, rfl⟩

/-- What `virtio_input_poll` has in its variables. -/
def PhaseOk (s : InputSystem) : Prop :=
  match s.phase with
  | .processed di ev => s.completed[s.polled.length]? = some di ∧ ev = s.addrOf di
  | _ => True

/-- The buffers, the descriptors and the events are conserved; `count` buffers were posted. -/
structure EventsConserved (count : ℕ) (s : InputSystem) : Prop where
  conserved : Conserved s.toVirtioSystem
  count_le : count ≤ 64 ∧ count ≤ s.q.size
  single : ∀ h ∈ s.outstanding, (s.q.desc h).hasNext = false
  buffers : (s.inHand ++ s.outstanding.map s.addrOf).Perm ((List.range count).map (eventAddr s.base))
  phaseOk : s.PhaseOk
  length_written : s.written.length = s.completed.length
  length_processed : s.processed.length = s.polled.length + s.inRound
  inOrder : s.processed <+: s.written
  contents : ∀ (i h : ℕ) (e : InputEvent), s.processed.length ≤ i → s.completed[i]? = some h →
    s.written[i]? = some e → s.mem (s.addrOf h) = e

variable {s : InputSystem} {count : ℕ}

/-- A descriptor that is not polled yet is outstanding. -/
theorem mem_outstanding_of_returned {vs : VirtioSystem} {i h : ℕ} (hi : vs.polled.length ≤ i)
    (hh : vs.completed[i]? = some h) : h ∈ vs.outstanding := by
  refine List.mem_append_right _ (List.mem_append_right _ ?_)
  have hdrop : vs.returned[i - vs.polled.length]? = some h := by
    unfold VirtioSystem.returned
    rw [List.getElem?_drop]
    rwa [Nat.add_sub_cancel' hi]
  exact List.mem_of_getElem? hdrop

theorem mem_outstanding_of_held {vs : VirtioSystem} {h : ℕ} (hh : h ∈ vs.held) :
    h ∈ vs.outstanding := List.mem_append_right _ (List.mem_append_left _ hh)

namespace EventsConserved

/-- Outstanding descriptors have different buffers, none of them in hand. -/
theorem addr_ne (h : EventsConserved count s) :
    (∀ x ∈ s.outstanding, ∀ y ∈ s.outstanding, s.addrOf x = s.addrOf y → x = y) ∧
      ∀ ev ∈ s.inHand, ∀ x ∈ s.outstanding, s.addrOf x ≠ ev := by
  have hnodup := h.buffers.nodup_iff.mpr (nodup_eventAddr s.base h.count_le.1)
  rw [List.nodup_append] at hnodup
  obtain ⟨-, hmap, hdisjoint⟩ := hnodup
  refine ⟨?_, ?_⟩
  · intro x hx y hy heq
    exact List.inj_on_of_nodup_map hmap hx hy heq
  · intro ev hev x hx heq
    exact hdisjoint ev hev _ (List.mem_map_of_mem hx) heq.symm

/-- An outstanding request is one descriptor. -/
theorem flatMap_chain (h : EventsConserved count s) :
    s.outstanding.flatMap s.q.chain = s.outstanding := by
  have hone : ∀ x ∈ s.outstanding, s.q.chain x = [x] := by
    intro x hx
    unfold Virtq.chain
    rw [h.single x hx]
    rfl
  rw [List.flatMap_congr hone, List.flatMap_singleton']

/-- The outstanding descriptors and the free ones are all of the queue. -/
theorem numFree_add (h : EventsConserved count s) :
    s.q.numFree + s.outstanding.length = s.q.size := by
  obtain ⟨free, hpool⟩ := h.conserved.pool
  have hlen := hpool.length
  rw [h.flatMap_chain, List.length_nil, Nat.zero_add, ← hpool.count] at hlen
  exact hlen

theorem length_buffers (h : EventsConserved count s) :
    s.inHand.length + s.outstanding.length = count := by
  have hlen := h.buffers.length_eq
  rwa [List.length_append, List.length_map, List.length_map, List.length_range] at hlen

/-- When the counters differ, there is an event to process. -/
theorem usedHead (h : EventsConserved count s) (hne : s.q.lastUsedIdx ≠ s.q.usedIdx) :
    s.completed[s.polled.length]? = some s.q.usedHead := by
  obtain ⟨hret, -⟩ := h.conserved.usedHead hne
  have hfirst : s.returned[0]? = some s.q.usedHead := by
    rw [hret]
    rfl
  unfold VirtioSystem.returned at hfirst
  rwa [List.getElem?_drop, Nat.add_zero] at hfirst

/-- An event that was returned but not processed yet was written to its buffer. -/
theorem mem_returned (h : EventsConserved count s) {i x : ℕ} (hi : s.processed.length ≤ i)
    (hx : s.completed[i]? = some x) : ∃ e, s.written[i]? = some e ∧ s.mem (s.addrOf x) = e := by
  obtain ⟨hlt, -⟩ := List.getElem?_eq_some_iff.mp hx
  have hwritten : i < s.written.length := by
    rw [h.length_written]
    exact hlt
  have he := List.getElem?_eq_getElem hwritten
  exact ⟨_, he, h.contents i x _ hi hx he⟩

/-- A returned descriptor that is not processed yet is outstanding. -/
theorem mem_outstanding (h : EventsConserved count s) {i x : ℕ} (hi : s.processed.length ≤ i)
    (hx : s.completed[i]? = some x) : x ∈ s.outstanding := by
  have hlen := h.length_processed
  exact mem_outstanding_of_returned (by omega) hx

/-! ## The steps of the driver -/

/-- Another phase outside of a round. -/
theorem setPhase (h : EventsConserved count s) {phase : InputPhase} {mouse : Mouse}
    (hold : s.phase = .idle ∨ s.phase = .polling) (hnew : phase = .idle ∨ phase = .polling) :
    EventsConserved count { s with phase := phase, mouse := mouse } := by
  obtain ⟨hhand, hround⟩ := hand_between hold
  have hbuffers := h.buffers
  have hprocessed := h.length_processed
  rw [hhand] at hbuffers
  rw [hround] at hprocessed
  refine ⟨h.conserved, h.count_le, h.single, ?_, ?_, h.length_written, ?_, h.inOrder, h.contents⟩
  · rcases hnew with rfl | rfl <;> exact hbuffers
  · rcases hnew with rfl | rfl <;> exact trivial
  · rcases hnew with rfl | rfl <;> exact hprocessed

/-- **A round begins.** -/
theorem process (h : EventsConserved count s) {mouse : Mouse} (hphase : s.phase = .polling)
    (hne : s.q.lastUsedIdx ≠ s.q.usedIdx) :
    EventsConserved count { s with
      phase := .processed s.q.usedHead (s.addrOf s.q.usedHead)
      mouse := mouse
      processed := s.processed ++ [s.mem (s.addrOf s.q.usedHead)] } := by
  obtain ⟨hhand, hround⟩ := hand_between (Or.inr hphase)
  have hbuffers := h.buffers
  have hprocessed := h.length_processed
  rw [hhand] at hbuffers
  rw [hround, Nat.add_zero] at hprocessed
  have hhead := h.usedHead hne
  obtain ⟨e, he, hmem⟩ := h.mem_returned (Nat.le_of_eq hprocessed) hhead
  refine ⟨h.conserved, h.count_le, h.single, hbuffers, ⟨hhead, rfl⟩, h.length_written, ?_, ?_, ?_⟩
  · show (s.processed ++ [s.mem (s.addrOf s.q.usedHead)]).length = s.polled.length + 1
    rw [List.length_append, List.length_singleton, hprocessed]
  · -- the event is the next one that the device wrote
    rw [hmem]
    obtain ⟨rest, hrest⟩ := h.inOrder
    have hnext : rest[0]? = some e := by
      rw [← hrest, List.getElem?_append_right (Nat.le_of_eq hprocessed), hprocessed,
        Nat.sub_self] at he
      exact he
    cases rest with
    | nil => cases hnext
    | cons e' rest =>
      cases hnext
      refine ⟨rest, ?_⟩
      rw [← hrest, List.append_assoc, List.singleton_append]
  · intro i x e' hi hx he'
    refine h.contents i x e' ?_ hx he'
    refine le_trans ?_ hi
    show s.processed.length ≤ (s.processed ++ [s.mem (s.addrOf s.q.usedHead)]).length
    rw [List.length_append]
    exact Nat.le_add_right _ _

/-- The descriptor of a processed event is the next one to free. -/
theorem processed_usedHead (h : EventsConserved count s) {di : ℕ} {ev : UInt32}
    (hphase : s.phase = .processed di ev) :
    s.q.lastUsedIdx ≠ s.q.usedIdx ∧ di = s.q.usedHead ∧ ev = s.addrOf di := by
  have hok := h.phaseOk
  unfold PhaseOk at hok
  rw [hphase] at hok
  obtain ⟨hlt, -⟩ := List.getElem?_eq_some_iff.mp hok.1
  have hle := h.conserved.outstanding_le
  have hlen := length_outstanding s.toVirtioSystem
  rw [length_returned] at hlen
  have hsmall := h.conserved.small
  have hne : s.q.lastUsedIdx ≠ s.q.usedIdx := by
    rw [h.conserved.lastUsedIdx, h.conserved.usedIdx]
    exact (counter_ne_iff h.conserved.seen.length_le (by omega)).mpr hlt
  have hhead := h.usedHead hne
  rw [hok.1] at hhead
  exact ⟨hne, Option.some.inj hhead, hok.2⟩

theorem freeEventDesc_desc (q : Virtq) (di i : ℕ) :
    ((q.freeEventDesc di).desc i).addr = (q.desc i).addr ∧
      ((q.freeEventDesc di).desc i).hasNext = (q.desc i).hasNext := by
  unfold Virtq.freeEventDesc Virtq.setDesc
  dsimp only
  by_cases hi : i = di
  · subst hi
    rw [Function.update_self]
    exact ⟨rfl, rfl⟩
  · rw [Function.update_of_ne hi]
    exact ⟨rfl, rfl⟩

/-- **The descriptor is freed**, and the loop has the buffer in hand. -/
theorem free (h : EventsConserved count s) {di : ℕ} {ev : UInt32}
    (hphase : s.phase = .processed di ev) :
    EventsConserved count { s with
      q := s.q.freeEventDesc di
      polled := s.polled ++ [di]
      phase := .freed ev } := by
  obtain ⟨hne, hdi, hev⟩ := h.processed_usedHead hphase
  obtain ⟨hhand, hround⟩ := hand_processed hphase
  have hmem : s.q.usedHead ∈ s.outstanding := mem_outstanding_of_returned le_rfl (h.usedHead hne)
  have hconserved := h.conserved.freeEventDesc hne (h.single _ hmem)
  rw [← hdi] at hconserved
  have hperm := h.conserved.outstanding_perm hconserved (List.append_nil _).symm rfl
  rw [List.append_nil] at hperm
  have haddr : (fun i => ((s.q.freeEventDesc di).desc i).addr.toUInt32) = s.addrOf := by
    funext i
    exact congrArg UInt64.toUInt32 (freeEventDesc_desc s.q di i).1
  have hprocessed := h.length_processed
  have hbuffers := h.buffers
  rw [hhand, List.nil_append] at hbuffers
  refine ⟨hconserved, h.count_le, ?_, ?_, trivial, h.length_written, ?_, h.inOrder, ?_⟩
  · intro x hx
    exact (freeEventDesc_desc s.q di x).2.trans
      (h.single x (hperm.subset (List.mem_append_right _ hx)))
  · show ([ev] ++ List.map (fun i => ((s.q.freeEventDesc di).desc i).addr.toUInt32) _).Perm _
    rw [haddr, hev]
    exact (hperm.map s.addrOf).trans hbuffers
  · show s.processed.length = (s.polled ++ [di]).length + 0
    rw [hprocessed, hround, List.length_append, List.length_singleton]
  · intro i x e hi hx he
    show s.mem ((fun i => ((s.q.freeEventDesc di).desc i).addr.toUInt32) x) = e
    rw [haddr]
    exact h.contents i x e hi hx he

/-- The descriptors after a post. -/
theorem postEventBuf_desc (q : Virtq) (addr : UInt32) (hroom : ¬ q.numFree < 1) :
    ((q.postEventBuf addr).desc q.freeHead = ⟨addr.toUInt64, eventSize, vringDescFWrite, 0⟩) ∧
      ∀ i, i ≠ q.freeHead → (q.postEventBuf addr).desc i = q.desc i := by
  unfold Virtq.postEventBuf
  rw [if_neg hroom]
  refine ⟨Function.update_self _ _ _, ?_⟩
  intro i hi
  exact Function.update_of_ne hi _ _

/-- The first free descriptor is not outstanding. -/
theorem freeHead_not_mem {vs : VirtioSystem} (h : Conserved vs) (hroom : ¬ vs.q.numFree < 1) :
    vs.q.freeHead ∉ vs.outstanding := by
  obtain ⟨free, hpool⟩ := h.pool
  have hpos : 0 < free.length := by
    rw [← hpool.count]
    omega
  obtain ⟨a, free, rfl⟩ := List.exists_cons_of_length_pos hpos
  obtain ⟨ha, -⟩ := hpool.chain.uncons
  have hnodup := hpool.nodup
  rw [List.nil_append, List.cons_append, List.nodup_cons, List.mem_append, not_or] at hnodup
  rw [ha]
  intro hmem
  exact hnodup.1.2 (mem_flatMap_chain hmem)

/-- **A buffer is posted** that no descriptor has. -/
theorem post (h : EventsConserved count s) {count' : ℕ} {ev : UInt32} {mem : UInt32 → InputEvent}
    {phase : InputPhase} (hroom : ¬ s.q.numFree < 1) (hround : s.inRound = 0)
    (hcount' : count' ≤ 64 ∧ count' ≤ s.q.size)
    (hmem : ∀ x ∈ s.outstanding, mem (s.addrOf x) = s.mem (s.addrOf x))
    (hphase : phase = .idle ∨ phase = .polling)
    (hbuffers : (ev :: s.outstanding.map s.addrOf).Perm
      ((List.range count').map (eventAddr s.base))) :
    EventsConserved count' { s with
      q := s.q.postEventBuf ev
      submitted := s.submitted ++ [s.q.freeHead]
      mem := mem
      phase := phase } := by
  have hprocessed := h.length_processed
  rw [hround] at hprocessed
  have hconserved := h.conserved.post ev hroom
  have hperm := h.conserved.outstanding_perm hconserved rfl (List.append_nil _).symm
  rw [List.nil_append] at hperm
  have hfresh := freeHead_not_mem h.conserved hroom
  obtain ⟨hnew, hold⟩ := postEventBuf_desc s.q ev hroom
  have hne : ∀ x ∈ s.outstanding, x ≠ s.q.freeHead := by
    rintro x hx rfl
    exact hfresh hx
  have haddr : ∀ x ∈ s.outstanding, ((s.q.postEventBuf ev).desc x).addr.toUInt32 = s.addrOf x := by
    intro x hx
    rw [hold x (hne x hx)]
    rfl
  have hposted : ((s.submitted ++ [s.q.freeHead]).drop s.fetched.length ++
      (s.held ++ s.returned)).map (fun x => ((s.q.postEventBuf ev).desc x).addr.toUInt32) |>.Perm
      ((List.range count').map (eventAddr s.base)) := by
    refine (hperm.map fun x => ((s.q.postEventBuf ev).desc x).addr.toUInt32).trans ?_
    rw [List.map_append, List.map_singleton, List.map_congr_left haddr, hnew]
    show (s.outstanding.map s.addrOf ++ [ev.toUInt64.toUInt32]).Perm _
    rw [UInt32.toUInt32_toUInt64]
    exact (List.perm_append_singleton _ _).trans hbuffers
  refine ⟨hconserved, ?_, ?_, ?_, ?_, h.length_written, ?_, h.inOrder, ?_⟩
  · refine ⟨hcount'.1, ?_⟩
    show count' ≤ (s.q.postEventBuf ev).size
    unfold Virtq.postEventBuf
    rw [if_neg hroom]
    exact hcount'.2
  · intro x hx
    show ((s.q.postEventBuf ev).desc x).hasNext = false
    rcases List.mem_append.mp (hperm.subset hx) with hx | hx
    · rw [hold x (hne x hx)]
      exact h.single x hx
    · rw [List.mem_singleton.mp hx, hnew]
      exact Pool.hasNext_flags.2.1
  · rcases hphase with rfl | rfl <;> exact hposted
  · rcases hphase with rfl | rfl <;> exact trivial
  · rcases hphase with rfl | rfl <;> exact hprocessed
  · intro i x e hi hx he
    have hx' := h.mem_outstanding hi hx
    show mem ((s.q.postEventBuf ev).desc x).addr.toUInt32 = e
    rw [haddr x hx', hmem x hx']
    exact h.contents i x e hi hx he

/-- **The buffer in hand is posted again.** -/
theorem repost (h : EventsConserved count s) {ev : UInt32} (hphase : s.phase = .freed ev) :
    EventsConserved count (s.repost ev) := by
  obtain ⟨hhand, hround⟩ := hand_freed hphase
  have hbuffers := h.buffers
  rw [hhand] at hbuffers
  -- one of the buffers is in hand, so not all descriptors are outstanding
  have hroom : ¬ s.q.numFree < 1 := by
    have hfree := h.numFree_add
    have hcount := h.length_buffers
    have hle := h.count_le
    rw [hhand, List.length_singleton] at hcount
    omega
  have hpost := @post s count h count ev (Function.update s.mem ev ⟨0, 0, 0⟩) .polling hroom hround
    h.count_le (fun x hx => Function.update_of_ne
      (h.addr_ne.2 ev (by rw [hhand]; exact List.mem_cons_self) x hx) _ _) (Or.inr rfl) hbuffers
  -- the address in hand is that of a buffer
  obtain ⟨i, hi, rfl⟩ : ∃ i, i < 64 ∧ eventAddr s.base i = ev := by
    have hmem := hbuffers.subset (List.mem_append_left _ List.mem_cons_self)
    obtain ⟨i, hi, heq⟩ := List.mem_map.mp hmem
    have hlt := List.mem_range.mp hi
    have hcount := h.count_le.1
    exact ⟨i, by omega, heq⟩
  unfold InputSystem.repost
  rw [bufIdx_eventAddr s.base hi, if_pos (show i < numEventBufs from hi)]
  unfold InputSystem.post
  dsimp only
  rw [if_neg hroom]
  exact hpost

/-! ## The steps of the device -/

theorem fetch (h : EventsConserved count s) (hne : s.lastAvail ≠ s.q.availIdx) :
    EventsConserved count { s with
      lastAvail := (s.lastAvail + 1) % 65536
      held := s.availHead :: s.held
      fetched := s.fetched ++ [s.availHead] } := by
  have hconserved := h.conserved.fetch hne
  have hperm := h.conserved.outstanding_perm hconserved (List.append_nil _).symm
    (List.append_nil _).symm
  rw [List.nil_append, List.append_nil] at hperm
  refine ⟨hconserved, h.count_le, ?_, ?_, h.phaseOk, h.length_written, h.length_processed, h.inOrder,
    h.contents⟩
  · intro x hx
    exact h.single x (hperm.subset hx)
  · exact ((hperm.map s.addrOf).append_left s.inHand).trans h.buffers

/-- **An event is written and returned.** -/
theorem complete (h : EventsConserved count s) {head : ℕ} (ev : InputEvent) (hheld : head ∈ s.held) :
    EventsConserved count { s with
      q := { s.q with
        usedRing := Function.update s.q.usedRing (s.q.usedIdx % s.q.size) (head, eventSize)
        usedIdx := (s.q.usedIdx + 1) % 65536 }
      mem := Function.update s.mem (s.addrOf head) ev
      held := s.held.erase head
      completed := s.completed ++ [head]
      written := s.written ++ [ev] } := by
  have hconserved := h.conserved.complete eventSize hheld
  have hperm := h.conserved.outstanding_perm hconserved (List.append_nil _).symm
    (List.append_nil _).symm
  rw [List.nil_append, List.append_nil] at hperm
  have hnodup : s.outstanding.Nodup := by
    have hmap := h.buffers.nodup_iff.mpr (nodup_eventAddr s.base h.count_le.1)
    exact ((List.nodup_append.mp hmap).2.1).of_map _
  have hlen := h.length_processed
  refine ⟨hconserved, h.count_le, ?_, ?_, ?_, ?_, h.length_processed,
    h.inOrder.trans (List.prefix_append _ _), ?_⟩
  · intro x hx
    exact h.single x (hperm.subset hx)
  · exact ((hperm.map s.addrOf).append_left s.inHand).trans h.buffers
  · have hok := h.phaseOk
    unfold PhaseOk at hok ⊢
    cases hphase : s.phase with
    | processed di ev' =>
      rw [hphase] at hok
      obtain ⟨hlt, -⟩ := List.getElem?_eq_some_iff.mp hok.1
      exact ⟨by rw [List.getElem?_append_left hlt]; exact hok.1, hok.2⟩
    | idle => trivial
    | polling => trivial
    | freed ev' => trivial
  · show (s.written ++ [ev]).length = (s.completed ++ [head]).length
    rw [List.length_append, List.length_append, h.length_written]
    rfl
  · intro i x e hi hx he
    have hi : s.processed.length ≤ i := hi
    have hx : (s.completed ++ [head])[i]? = some x := hx
    have he : (s.written ++ [ev])[i]? = some e := he
    show Function.update s.mem (s.addrOf head) ev (s.addrOf x) = e
    rcases Nat.lt_or_ge i s.completed.length with hlt | hge
    · -- an event that was there before is in another buffer
      rw [List.getElem?_append_left hlt] at hx
      rw [List.getElem?_append_left (by rw [h.length_written]; exact hlt)] at he
      have hreturned : x ∈ s.returned := by
        have hdrop : s.returned[i - s.polled.length]? = some x := by
          unfold VirtioSystem.returned
          rw [List.getElem?_drop, Nat.add_sub_cancel' (by omega)]
          exact hx
        exact List.mem_of_getElem? hdrop
      have hne : x ≠ head := by
        rintro rfl
        have hdisjoint := (List.nodup_append.mp (List.nodup_append.mp hnodup).2.1).2.2
        exact hdisjoint x hheld x hreturned rfl
      rw [Function.update_of_ne]
      · exact h.contents i x e hi hx he
      · intro heq
        exact hne (h.addr_ne.1 x (h.mem_outstanding hi hx) head (mem_outstanding_of_held hheld) heq)
    · rw [List.getElem?_append_right hge] at hx
      rw [List.getElem?_append_right (by rw [h.length_written]; exact hge)] at he
      have hx' := List.mem_singleton.mp (List.mem_of_getElem? hx)
      have he' := List.mem_singleton.mp (List.mem_of_getElem? he)
      rw [hx', he', Function.update_self]

/-- **Every step conserves the buffers and the events.** -/
theorem step {e : Event} {t : InputSystem} (h : EventsConserved count s) (hst : Step s e t) :
    EventsConserved count t := by
  cases hst with
  | enter hphase => exact h.setPhase (Or.inl hphase) (Or.inr rfl)
  | process hphase hne => exact h.process hphase hne
  | free hphase => exact h.free hphase
  | repost hphase => exact h.repost hphase
  | leave hphase _ => exact h.setPhase (Or.inr hphase) (Or.inl rfl)
  | fetch hne => exact h.fetch hne
  | complete ev hheld => exact h.complete ev hheld

/-! ## The start -/

/-- One more buffer of `prefill_eventq`. -/
theorem prefill (h : EventsConserved count s) (hphase : s.phase = .idle) (hcount : count < 64)
    (hsize : count < s.q.size) : EventsConserved (count + 1) (InputSystem.post s count) := by
  obtain ⟨hhand, hround⟩ := hand_between (Or.inl hphase)
  have hbuffers := h.buffers
  have hlen := h.length_buffers
  rw [hhand, List.nil_append] at hbuffers
  rw [hhand, List.length_nil, Nat.zero_add] at hlen
  have hroom : ¬ s.q.numFree < 1 := by
    have hfree := h.numFree_add
    omega
  have hpost := @post s count h (count + 1) (eventAddr s.base count) s.mem s.phase hroom hround
    ⟨hcount, hsize⟩ (fun _ _ => rfl) (Or.inl hphase) (by
      rw [List.range_succ, List.map_append, List.map_singleton]
      exact (hbuffers.cons _).trans (List.perm_append_singleton _ _).symm)
  unfold InputSystem.post
  rw [if_neg hroom]
  exact hpost

/-- The fields that a post leaves alone. -/
theorem post_frame (s : InputSystem) (i : ℕ) :
    (s.post i).phase = s.phase ∧ (s.post i).q.size = s.q.size ∧ (s.post i).base = s.base ∧
      (s.post i).mouse = s.mouse ∧ (s.post i).processed = s.processed := by
  unfold InputSystem.post Virtq.postEventBuf
  split_ifs <;> exact ⟨rfl, rfl, rfl, rfl, rfl⟩

/-- The posts of `prefill_eventq`, by induction on their number. -/
theorem prefills (h : EventsConserved 0 s) (hphase : s.phase = .idle) (n : ℕ) (hn : n ≤ 64)
    (hsize : n ≤ s.q.size) :
    let t := (List.range n).foldl InputSystem.post s
    EventsConserved n t ∧ t.phase = .idle ∧ t.q.size = s.q.size ∧ t.base = s.base ∧
      t.mouse = s.mouse ∧ t.processed = s.processed := by
  induction n with
  | zero => exact ⟨h, hphase, rfl, rfl, rfl, rfl⟩
  | succ n ih =>
    obtain ⟨hconserved, hidle, hq, hbase, hmouse, hprocessed⟩ := ih (by omega) (by omega)
    rw [List.range_succ, List.foldl_append]
    obtain ⟨f1, f2, f3, f4, f5⟩ := post_frame ((List.range n).foldl InputSystem.post s) n
    exact ⟨hconserved.prefill hidle (by omega) (by omega), f1.trans hidle, f2.trans hq,
      f3.trans hbase, f4.trans hmouse, f5.trans hprocessed⟩

/-- **After `prefill_eventq` the buffers are posted.** -/
theorem start {qsize : ℕ} (hdvd : qsize ∣ 65536) (hsmall : qsize ≤ 32768) (base : UInt32)
    (mem : UInt32 → InputEvent) (mouse : Mouse) :
    let t := InputSystem.start qsize base mem mouse
    EventsConserved (prefillCount qsize) t ∧ t.phase = .idle ∧ t.q.size = qsize ∧ t.base = base ∧
      t.mouse = mouse ∧ t.processed = [] := by
  have hempty : ∀ mem' : UInt32 → InputEvent, EventsConserved 0
      { VirtioSystem.start qsize with
        base := base, mem := mem', mouse := mouse, phase := .idle, written := [],
        processed := [] } := by
    intro mem'
    refine ⟨conserved_start hdvd hsmall, ⟨Nat.zero_le _, Nat.zero_le _⟩, ?_, .refl _, trivial, rfl,
      rfl, List.prefix_rfl, ?_⟩
    · intro x hx
      cases hx
    · intro i x e _ hx
      cases hx
  exact prefills (hempty _) rfl (prefillCount qsize) (Nat.min_le_left _ _)
    ((Nat.min_le_right _ _).trans (Nat.sub_le _ _))

end EventsConserved

/-! ## The mouse -/

/-- The fields that the end of a round leaves alone. -/
theorem repost_frame (s : InputSystem) (ev : UInt32) :
    (s.repost ev).q.size = s.q.size ∧ (s.repost ev).base = s.base ∧
      (s.repost ev).mouse = s.mouse ∧ (s.repost ev).processed = s.processed := by
  unfold InputSystem.repost
  split_ifs
  · obtain ⟨-, hsize, hbase, hmouse, hprocessed⟩ := EventsConserved.post_frame
      { s with mem := Function.update s.mem ev ⟨0, 0, 0⟩ } (bufIdx s.base ev)
    exact ⟨hsize, hbase, hmouse, hprocessed⟩
  · exact ⟨rfl, rfl, rfl, rfl⟩

/-- The queue and the buffers stay where they are. -/
theorem Step.frame {s t : InputSystem} {e : Event} (hst : Step s e t) :
    t.q.size = s.q.size ∧ t.base = s.base := by
  cases hst with
  | repost _ => exact ⟨(repost_frame s _).1, (repost_frame s _).2.1⟩
  | _ => exact ⟨rfl, rfl⟩

/-- The mouse after some events, but for the button state that a poll saves. -/
def MouseAfter (mouse : Mouse) (s : InputSystem) : Prop :=
  ∃ prev, s.mouse = { s.processed.foldl Mouse.processEvent mouse with prevButtons := prev }

/-- `process_event` does not look at the saved button state. -/
theorem processEvent_prevButtons (m : Mouse) (prev : UInt8) (ev : InputEvent) :
    Mouse.processEvent { m with prevButtons := prev } ev =
      { m.processEvent ev with prevButtons := prev } := by
  unfold Mouse.processEvent
  split_ifs <;> rfl

/-- **Every event reaches `process_event` once.** -/
theorem MouseAfter.step {mouse : Mouse} {s t : InputSystem} {e : Event} (h : MouseAfter mouse s)
    (hst : Step s e t) : MouseAfter mouse t := by
  obtain ⟨prev, hmouse⟩ := h
  cases hst with
  | enter _ => exact ⟨s.mouse.buttons, by rw [hmouse]⟩
  | process _ _ =>
    refine ⟨prev, ?_⟩
    rw [List.foldl_append, hmouse, processEvent_prevButtons]
    rfl
  | free _ => exact ⟨prev, hmouse⟩
  | repost _ =>
    obtain ⟨-, -, hm, hp⟩ := repost_frame s _
    refine ⟨prev, ?_⟩
    rw [hm, hp]
    exact hmouse
  | leave _ _ => exact ⟨prev, hmouse⟩
  | fetch _ => exact ⟨prev, hmouse⟩
  | complete _ _ => exact ⟨prev, hmouse⟩

/-! ## The result -/

/-- What holds of the event queue after `prefill_eventq`. -/
structure EventsAccounted (qsize : ℕ) (base : UInt32) (mouse : Mouse) (s : InputSystem) : Prop where
  /-- Every posted buffer is in exactly one descriptor that is with the device, or returned and not
  freed, or it is in the hands of `virtio_input_poll`. -/
  buffers : (s.inHand ++ s.outstanding.map s.addrOf).Perm
    ((List.range (prefillCount qsize)).map (eventAddr base))
  distinct : ((List.range (prefillCount qsize)).map (eventAddr base)).Nodup
  /-- Every descriptor is free or outstanding. -/
  descriptors : ∃ free, ChainTo (fun i => (s.q.desc i).next) noDesc s.q.freeHead free ∧
    free.length = s.q.numFree ∧ (free ++ s.outstanding).Perm (List.range qsize)
  /-- The events are processed in the order in which they were returned, with their contents. -/
  inOrder : s.processed <+: s.written
  /-- The descriptor of every processed event is freed, but for that of the current round. -/
  once : s.processed.length = s.polled.length + s.inRound ∧ s.polled <+: s.completed ∧
    s.written.length = s.completed.length
  /-- The loop ends when all events are processed. -/
  finished : s.phase = .polling → (s.q.lastUsedIdx = s.q.usedIdx ↔ s.processed = s.written)
  mouseAfter : MouseAfter mouse s

variable {s : InputSystem} {count : ℕ}

/-- The counters agree exactly when every event is processed. -/
theorem EventsConserved.finished_iff (h : EventsConserved count s) (hphase : s.phase = .polling) :
    s.q.lastUsedIdx = s.q.usedIdx ↔ s.processed = s.written := by
  have hround := (hand_between (Or.inr hphase)).2
  have hprocessed := h.length_processed
  rw [hround, Nat.add_zero] at hprocessed
  have hle := h.conserved.outstanding_le
  have hlen := length_outstanding s.toVirtioSystem
  rw [length_returned] at hlen
  have hsmall := h.conserved.small
  have hseen := h.conserved.seen.length_le
  have hcounters := @counter_ne_iff s.polled.length s.completed.length hseen (by omega)
  rw [← h.conserved.lastUsedIdx, ← h.conserved.usedIdx] at hcounters
  constructor
  · intro heq
    refine h.inOrder.eq_of_length ?_
    rw [hprocessed, h.length_written]
    by_contra hne
    exact hcounters.mpr (by omega) heq
  · intro heq
    by_contra hne
    have hlt := hcounters.mp hne
    rw [← hprocessed, ← h.length_written, heq] at hlt
    exact lt_irrefl _ hlt

/-- The outstanding descriptors are single, so they and the free ones are the queue. -/
theorem EventsConserved.descriptors (h : EventsConserved count s) :
    ∃ free, ChainTo (fun i => (s.q.desc i).next) noDesc s.q.freeHead free ∧
      free.length = s.q.numFree ∧ (free ++ s.outstanding).Perm (List.range s.q.size) := by
  obtain ⟨free, hpool⟩ := h.conserved.pool
  have hwhole := hpool.whole
  rw [List.nil_append, h.flatMap_chain] at hwhole
  exact ⟨free, hpool.chain, hpool.count.symm, hwhole⟩

/-- **Conservation of the event buffers.**  For every size of the queue that is a power of two up to
32768, in every run of the driver and the device after `prefill_eventq`. -/
theorem event_buffers_conserved {qsize k : ℕ} (hsize : qsize = 2 ^ k) (hk : k ≤ 15) {base : UInt32}
    {mem : UInt32 → InputEvent} {mouse : Mouse} {es : List Event}
    (hrun : Run Step (start qsize base mem mouse) es s) : EventsAccounted qsize base mouse s := by
  have hdvd : qsize ∣ 65536 := by
    rw [hsize, show 65536 = 2 ^ 16 by norm_num]
    exact pow_dvd_pow 2 (by omega)
  have hsmall : qsize ≤ 32768 := by
    rw [hsize, show 32768 = 2 ^ 15 by norm_num]
    exact Nat.pow_le_pow_right (by norm_num) hk
  obtain ⟨hstart, -, hq, hbase, hmouse, hprocessed⟩ :=
    EventsConserved.start hdvd hsmall base mem mouse
  have hmouseAfter : MouseAfter mouse (start qsize base mem mouse) := by
    refine ⟨mouse.prevButtons, ?_⟩
    rw [hprocessed, hmouse]
    rfl
  obtain ⟨h, ⟨hsq, hsb⟩, hsm⟩ : EventsConserved (prefillCount qsize) s ∧
      (s.q.size = qsize ∧ s.base = base) ∧ MouseAfter mouse s := by
    refine @Run.invariant _ _ _ _ _ _ (fun t => EventsConserved (prefillCount qsize) t ∧
      (t.q.size = qsize ∧ t.base = base) ∧ MouseAfter mouse t) ?_ hrun
      ⟨hstart, ⟨hq, hbase⟩, hmouseAfter⟩
    rintro u e t hst ⟨hu, ⟨huq, hub⟩, hum⟩
    obtain ⟨htq, htb⟩ := hst.frame
    exact ⟨hu.step hst, ⟨htq.trans huq, htb.trans hub⟩, hum.step hst⟩
  have hbuffers := h.buffers
  have hdescriptors := h.descriptors
  rw [hsb] at hbuffers
  rw [hsq] at hdescriptors
  exact ⟨hbuffers, nodup_eventAddr base h.count_le.1, hdescriptors, h.inOrder,
    ⟨h.length_processed, h.conserved.seen, h.length_written⟩, h.finished_iff, hsm⟩

/-- A mouse on a small screen. -/
def restingMouse : Mouse := ⟨0, 0, 99, 99, 0, 0, 32767, 32767, 0, 0, false, false⟩

/-- A queue of four descriptors and a press of the left button. -/
theorem event_buffers_conserved_four : ∃ s, Run Step (start 4 0x1000 (fun _ => ⟨0, 0, 0⟩) restingMouse)
    [.fetch, .fetch, .complete 1 ⟨evKey, btnLeft, 1⟩, .enter, .process, .free, .repost, .leave] s ∧
    EventsAccounted 4 0x1000 restingMouse s := by
  obtain ⟨s, hrun⟩ : ∃ s, Run Step (start 4 0x1000 (fun _ => ⟨0, 0, 0⟩) restingMouse)
      [.fetch, .fetch, .complete 1 ⟨evKey, btnLeft, 1⟩, .enter, .process, .free, .repost, .leave] s :=
    ⟨_, .cons (.fetch (by decide)) (.cons (.fetch (by decide)) (.cons (.complete _ (by decide))
      (.cons (.enter rfl) (.cons (.process rfl (by decide)) (.cons (.free rfl)
        (.cons (.repost rfl) (.cons (.leave rfl (by decide)) (.nil _))))))))⟩
  exact ⟨s, hrun, @event_buffers_conserved _ 4 2 rfl (by norm_num) _ _ _ _ hrun⟩

/-- While `virtio_input_poll` works on an event, its buffer is in no descriptor. -/
theorem event_buffer_in_hand : ∃ s es, Run Step (start 4 0x1000 (fun _ => ⟨0, 0, 0⟩) restingMouse) es s ∧
    ∃ i < prefillCount 4, eventAddr 0x1000 i ∉ s.outstanding.map s.addrOf := by
  refine ⟨_, [.fetch, .complete 0 ⟨evKey, btnLeft, 1⟩, .enter, .process, .free],
    .cons (.fetch (by decide)) (.cons (.complete _ (by decide)) (.cons (.enter rfl)
      (.cons (.process rfl (by decide)) (.cons (.free rfl) (.nil _))))), 0, by decide, ?_⟩
  decide

end InputSystem

end Microkernel

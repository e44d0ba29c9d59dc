/-
# Conservation of the descriptors of a virtqueue

Every descriptor of a queue is on the free list or in exactly one request in flight, over
whole runs of the driver and the device: `Pool` says it of the queue, the step lemmas keep
it, and the two rings hold the heads that the other side has not taken yet.
-/
import Microkernel.Virtqueue

namespace Microkernel

namespace Virtq

variable {q q' : Virtq} {free heads heads' loose rest l : List ℕ} {x : ℕ}

/-- The free list, the requests with the given heads and some loose descriptors are all the
descriptors of the queue, each once. -/
structure Pool (q : Virtq) (free heads loose : List ℕ) : Prop where
  chain : ChainTo (fun i => (q.desc i).next) noDesc q.freeHead free
  count : q.numFree = free.length
  whole : (free ++ (loose ++ heads.flatMap q.chain)).Perm (List.range q.size)
  ends : ∀ h ∈ heads, (q.desc h).hasNext = true → (q.desc (q.desc h).next).hasNext = false

theorem head_mem_chain (q : Virtq) (h : ℕ) : h ∈ q.chain h := by
  unfold Virtq.chain
  split_ifs <;> exact List.mem_cons_self

theorem mem_flatMap_chain (hx : x ∈ heads) : x ∈ heads.flatMap q.chain :=
  List.mem_flatMap.mpr ⟨x, hx, head_mem_chain q x⟩

/-- The second descriptor of a request belongs to it. -/
theorem next_mem_flatMap_chain (hx : x ∈ heads) (hnext : (q.desc x).hasNext = true) :
    (q.desc x).next ∈ heads.flatMap q.chain := by
  refine List.mem_flatMap.mpr ⟨x, hx, ?_⟩
  unfold Virtq.chain
  rw [if_pos hnext]
  exact List.mem_cons_of_mem _ List.mem_cons_self

namespace Pool

theorem nodup (h : Pool q free heads loose) :
    (free ++ (loose ++ heads.flatMap q.chain)).Nodup :=
  h.whole.nodup_iff.mpr List.nodup_range

theorem lt_size (h : Pool q free heads loose) (hx : x ∈ heads) : x < q.size := by
  apply List.mem_range.mp
  apply h.whole.mem_iff.mp
  exact List.mem_append_right _ (List.mem_append_right _ (mem_flatMap_chain hx))

theorem length (h : Pool q free heads loose) :
    free.length + (loose.length + (heads.flatMap q.chain).length) = q.size := by
  have hlen := h.whole.length_eq
  rwa [List.length_append, List.length_append, List.length_range] at hlen

/-- The order of the requests does not matter. -/
theorem perm (h : Pool q free heads loose) (hp : heads.Perm heads') :
    Pool q free heads' loose where
  chain := h.chain
  count := h.count
  whole := (((hp.symm.flatMap_right q.chain).append_left loose).append_left free).trans h.whole
  ends := fun x hx => h.ends x (hp.mem_iff.mpr hx)

theorem length_le_flatMap (heads : List ℕ) : heads.length ≤ (heads.flatMap q.chain).length := by
  induction heads with
  | nil => exact le_rfl
  | cons x heads ih =>
    rw [List.flatMap_cons, List.length_append, List.length_cons]
    have hpos := List.length_pos_of_mem (head_mem_chain q x)
    omega

/-- There are at most as many requests as descriptors that are not free. -/
theorem heads_le (h : Pool q free heads loose) : free.length + heads.length ≤ q.size := by
  have hlen := h.length
  have hle := length_le_flatMap (q := q) heads
  omega

/-! ## Freeing -/

@[simp] theorem release_hasNext (q : Virtq) (x i : ℕ) :
    ((q.release x).desc i).hasNext = (q.desc i).hasNext := by
  unfold release setDesc
  dsimp only
  by_cases hi : i = x
  · subst hi
    rw [Function.update_self]
    rfl
  · rw [Function.update_of_ne hi]

theorem release_next_of_ne (q : Virtq) {i : ℕ} (hi : i ≠ x) :
    ((q.release x).desc i).next = (q.desc i).next := by
  unfold release setDesc
  dsimp only
  rw [Function.update_of_ne hi]

theorem release_next (q : Virtq) (x : ℕ) : (fun i => ((q.release x).desc i).next) =
    Function.update (fun i => (q.desc i).next) x q.freeHead := by
  funext i
  by_cases hi : i = x
  · subst hi
    rw [Function.update_self]
    unfold release setDesc
    simp
  · rw [Function.update_of_ne hi, release_next_of_ne q hi]

/-- The requests look the same after a descriptor of none of them was overwritten. -/
theorem flatMap_chain_congr (hnext : ∀ h ∈ heads, (q'.desc h).next = (q.desc h).next)
    (hflags : ∀ h ∈ heads, (q'.desc h).hasNext = (q.desc h).hasNext) :
    heads.flatMap q'.chain = heads.flatMap q.chain := by
  apply List.flatMap_congr
  intro h hh
  unfold Virtq.chain
  rw [hnext h hh, hflags h hh]

/-- **A loose descriptor goes back on the free list.** -/
theorem release (h : Pool q free heads (x :: loose)) (hsmall : q.size < 65536) :
    Pool (q.release x) (x :: free) heads loose := by
  have hnodup := h.nodup
  have hlen := h.length
  have hperm : (x :: free ++ (loose ++ heads.flatMap q.chain)).Perm
      (free ++ (x :: loose ++ heads.flatMap q.chain)) := by
    rw [List.cons_append, List.cons_append]
    exact List.perm_middle.symm
  have hx := (List.nodup_cons.mp (hperm.nodup_iff.mpr hnodup)).1
  have hxfree : x ∉ free := fun hmem => hx (List.mem_append_left _ hmem)
  have hxheads : ∀ y ∈ heads.flatMap q.chain, y ≠ x := by
    rintro y hy rfl
    exact hx (List.mem_append_right _ (List.mem_append_right _ hy))
  have hnext : ∀ y ∈ heads, ((q.release x).desc y).next = (q.desc y).next := fun y hy =>
    release_next_of_ne q (hxheads y (mem_flatMap_chain hy))
  refine ⟨?_, ?_, ?_, fun y hy => ?_⟩
  · rw [release_next]
    exact h.chain.push hxfree
  · show (q.numFree + 1) % 65536 = _
    rw [h.count, List.length_cons]
    rw [List.length_cons] at hlen
    omega
  · rw [flatMap_chain_congr hnext fun y _ => release_hasNext q x y]
    exact hperm.trans h.whole
  · rw [release_hasNext, release_hasNext, hnext y hy]
    exact h.ends y hy

/-- The inner loop of `virtio_poll` changes only the descriptors and the free list. -/
theorem freeChain_frame {fuel : ℕ} (hq : Virtq.freeChain fuel q x = some q') :
    q'.size = q.size ∧ q'.availIdx = q.availIdx ∧ q'.availRing = q.availRing ∧
      q'.usedIdx = q.usedIdx ∧ q'.usedRing = q.usedRing ∧ q'.lastUsedIdx = q.lastUsedIdx := by
  induction fuel generalizing q x with
  | zero => cases hq
  | succ fuel ih =>
    unfold Virtq.freeChain at hq
    split_ifs at hq
    · exact ih (q := q.release x) hq
    · cases hq
      exact ⟨rfl, rfl, rfl, rfl, rfl, rfl⟩

/-- **The inner loop of `virtio_poll` frees the request.** -/
theorem freeChain (h : Pool q free (x :: heads) []) (hsmall : q.size < 65536) :
    (∀ fuel, (Virtq.freeChain (fuel + 2) q x).isSome) ∧
      ∀ {fuel q'}, Virtq.freeChain fuel q x = some q' → ∃ free', Pool q' free' heads [] := by
  have hloose : Pool q free heads (q.chain x) := by
    refine ⟨h.chain, h.count, ?_, fun y hy => h.ends y (List.mem_cons_of_mem _ hy)⟩
    have hwhole := h.whole
    rwa [List.flatMap_cons, List.nil_append] at hwhole
  cases hnext : (q.desc x).hasNext with
  | false =>
    have hchain : q.chain x = [x] := by
      unfold Virtq.chain
      rw [hnext]
      rfl
    rw [hchain] at hloose
    refine ⟨fun fuel => ?_, fun {fuel q'} hq => ?_⟩
    · unfold Virtq.freeChain
      rw [hnext]
      rfl
    · cases fuel with
      | zero => cases hq
      | succ fuel =>
        unfold Virtq.freeChain at hq
        rw [hnext] at hq
        cases hq
        exact ⟨_, hloose.release hsmall⟩
  | true =>
    -- the second descriptor has no flag, so the loop ends there
    have hend : ((q.release x).desc (q.desc x).next).hasNext = false := by
      rw [release_hasNext]
      exact h.ends x List.mem_cons_self hnext
    have hchain : q.chain x = [x, (q.desc x).next] := by
      unfold Virtq.chain
      rw [if_pos hnext]
    rw [hchain] at hloose
    have hfirst := hloose.release hsmall
    refine ⟨fun fuel => ?_, fun {fuel q'} hq => ?_⟩
    · unfold Virtq.freeChain
      rw [if_pos hnext]
      unfold Virtq.freeChain
      rw [hend]
      rfl
    · cases fuel with
      | zero => cases hq
      | succ fuel =>
        unfold Virtq.freeChain at hq
        rw [if_pos hnext] at hq
        cases fuel with
        | zero => cases hq
        | succ fuel =>
          unfold Virtq.freeChain at hq
          rw [hend] at hq
          cases hq
          exact ⟨_, hfirst.release hsmall⟩

/-! ## Taking -/

/-- Descriptors from the front of the free list become a request. -/
theorem take (h : Pool q (l ++ rest) heads [])
    (hnext : ∀ i, (q'.desc i).next = (q.desc i).next)
    (hflags : ∀ i, i ∉ l → (q'.desc i).hasNext = (q.desc i).hasNext)
    (hchain : q'.chain x = l)
    (hend : (q'.desc x).hasNext = true → (q'.desc (q'.desc x).next).hasNext = false)
    (hfree : ChainTo (fun i => (q.desc i).next) noDesc q'.freeHead rest)
    (hcount : q'.numFree = rest.length) (hsize : q'.size = q.size) :
    Pool q' rest (x :: heads) [] := by
  have hnodup := h.nodup
  rw [List.nil_append, List.append_assoc] at hnodup
  have hout : ∀ y ∈ heads.flatMap q.chain, y ∉ l := by
    intro y hy hl
    exact (List.nodup_append.mp hnodup).2.2 y hl y (List.mem_append_right _ hy) rfl
  have hsame : heads.flatMap q'.chain = heads.flatMap q.chain :=
    flatMap_chain_congr (fun y _ => hnext y) fun y hy => hflags y (hout y (mem_flatMap_chain hy))
  refine ⟨?_, hcount, ?_, fun y hy => ?_⟩
  · rw [show (fun i => (q'.desc i).next) = fun i => (q.desc i).next from funext hnext]
    exact hfree
  · rw [List.flatMap_cons, hchain, hsame, hsize, List.nil_append]
    refine List.Perm.trans ?_ h.whole
    rw [List.nil_append, List.append_assoc]
    exact List.perm_append_comm_assoc rest l _
  · rcases List.mem_cons.mp hy with rfl | hy
    · exact hend
    · intro hyn
      have hyl := hout y (mem_flatMap_chain hy)
      rw [hflags y hyl] at hyn
      rw [hnext, hflags _ (hout _ (next_mem_flatMap_chain hy hyn))]
      exact h.ends y hy hyn

/-- The flags of a descriptor of `virtio_send` decide whether the request goes on. -/
theorem hasNext_flags : (vringDescFNext &&& vringDescFNext != 0) = true ∧
    (vringDescFWrite &&& vringDescFNext != 0) = false ∧
    ((0 : UInt16) &&& vringDescFNext != 0) = false := by
  decide

/-- Overwriting a descriptor without its successor. -/
theorem update_next (f : ℕ → VirtqDesc) (a : ℕ) {d : VirtqDesc} (hd : d.next = (f a).next)
    (i : ℕ) : (Function.update f a d i).next = (f i).next := by
  by_cases hi : i = a
  · subst hi
    rw [Function.update_self, hd]
  · rw [Function.update_of_ne hi]

theorem sub16_of_le {a b : ℕ} (hle : b ≤ a) (hlt : a < 65536) : sub16 a b = a - b := by
  unfold sub16
  omega

/-- A request without a response buffer takes one descriptor. -/
theorem take_one (h : Pool q free heads []) (hsmall : q.size < 65536)
    (outAddr outLen inAddr inLen : UInt32) (hin : ¬ 0 < inLen) (hroom : 1 ≤ free.length) :
    ∃ free', Pool (q.takeDescs outAddr outLen inAddr inLen) free' (q.freeHead :: heads) [] := by
  have hlen := h.length
  obtain ⟨a, rest, rfl⟩ := List.exists_cons_of_length_pos hroom
  obtain ⟨ha, hrest⟩ := h.chain.uncons
  rw [List.length_cons] at hlen
  have hcount : sub16 q.numFree 1 = rest.length := by
    rw [sub16_of_le (by rw [h.count, List.length_cons]; omega) (by
      rw [h.count, List.length_cons]
      omega), h.count, List.length_cons, Nat.add_sub_cancel]
  have htake : q.takeDescs outAddr outLen inAddr inLen = { q with
      desc := Function.update q.desc a ⟨outAddr.toUInt64, outLen, 0, (q.desc a).next⟩
      freeHead := (q.desc a).next
      numFree := sub16 q.numFree 1 } := by
    unfold Virtq.takeDescs
    rw [if_neg hin, ha]
    simp only [if_neg hin, setDesc, Function.update_self]
  have hlast : (Function.update q.desc a
      ⟨outAddr.toUInt64, outLen, 0, (q.desc a).next⟩ a).hasNext = false := by
    rw [Function.update_self]
    exact hasNext_flags.2.2
  rw [htake, ha]
  refine ⟨rest, take (l := [a]) h (fun i => update_next q.desc a ?_ i) (fun i hi => ?_) ?_
    (fun hh => ?_) hrest hcount rfl⟩
  · rfl
  · rw [List.mem_singleton] at hi
    dsimp only
    rw [Function.update_of_ne hi]
  · unfold Virtq.chain
    exact if_neg (by rw [hlast]; exact Bool.false_ne_true)
  · rw [hlast] at hh
    cases hh

/-- A request with a response buffer takes two. -/
theorem take_two (h : Pool q free heads []) (hsmall : q.size < 65536)
    (outAddr outLen inAddr inLen : UInt32) (hin : 0 < inLen) (hroom : 2 ≤ free.length) :
    ∃ free', Pool (q.takeDescs outAddr outLen inAddr inLen) free' (q.freeHead :: heads) [] := by
  have hlen := h.length
  obtain ⟨a, tail, rfl⟩ := List.exists_cons_of_length_pos (by omega : 0 < free.length)
  rw [List.length_cons] at hroom
  obtain ⟨b, rest, rfl⟩ := List.exists_cons_of_length_pos (by omega : 0 < tail.length)
  obtain ⟨ha, hb⟩ := h.chain.uncons
  obtain ⟨hb, hrest⟩ := hb.uncons
  have hba : b ≠ a := by
    have hnodup := h.nodup
    rw [List.cons_append] at hnodup
    rintro rfl
    exact (List.nodup_cons.mp hnodup).1 (List.mem_append_left _ List.mem_cons_self)
  have hcount : sub16 q.numFree 2 = rest.length := by
    simp only [List.length_cons] at hlen
    have hnum : q.numFree = rest.length + 2 := by rw [h.count]; rfl
    rw [sub16_of_le (by omega) (by omega), hnum, Nat.add_sub_cancel]
  have htake : q.takeDescs outAddr outLen inAddr inLen = { q with
      desc := Function.update
        (Function.update q.desc a ⟨outAddr.toUInt64, outLen, vringDescFNext, (q.desc a).next⟩) b
        ⟨inAddr.toUInt64, inLen, vringDescFWrite, (q.desc b).next⟩
      freeHead := (q.desc b).next
      numFree := sub16 q.numFree 2 } := by
    unfold Virtq.takeDescs
    rw [if_pos hin, ha]
    simp only [if_pos hin, setDesc, Function.update_self, hb, Function.update_of_ne hba]
  have hnext : ∀ i, (Function.update (Function.update q.desc a
      ⟨outAddr.toUInt64, outLen, vringDescFNext, (q.desc a).next⟩) b
      ⟨inAddr.toUInt64, inLen, vringDescFWrite, (q.desc b).next⟩ i).next = (q.desc i).next := by
    intro i
    rw [update_next, update_next]
    · rfl
    · rw [Function.update_of_ne hba]
  rw [htake, ha]
  refine ⟨rest, take (l := [a, b]) h hnext (fun i hi => ?_) ?_ (fun _ => ?_) hrest hcount rfl⟩
  · rw [List.mem_cons, List.mem_singleton, not_or] at hi
    dsimp only
    rw [Function.update_of_ne hi.2, Function.update_of_ne hi.1]
  · unfold Virtq.chain
    have hflag : (Function.update (Function.update q.desc a
        ⟨outAddr.toUInt64, outLen, vringDescFNext, (q.desc a).next⟩) b
        ⟨inAddr.toUInt64, inLen, vringDescFWrite, (q.desc b).next⟩ a).hasNext = true := by
      rw [Function.update_of_ne hba.symm, Function.update_self]
      exact hasNext_flags.1
    rw [if_pos hflag, hnext a, hb]
  · rw [hnext a, hb]
    dsimp only
    rw [Function.update_self]
    exact hasNext_flags.2.1

/-- **`virtio_send` takes its descriptors off the free list.** -/
theorem takeDescs (h : Pool q free heads []) (hsmall : q.size < 65536)
    (outAddr outLen inAddr inLen : UInt32) (hroom : ¬ q.numFree < needed inLen) :
    ∃ free', Pool (q.takeDescs outAddr outLen inAddr inLen) free' (q.freeHead :: heads) [] := by
  rw [h.count] at hroom
  unfold needed at hroom
  by_cases hin : 0 < inLen
  · rw [if_pos hin] at hroom
    exact h.take_two hsmall outAddr outLen inAddr inLen hin (not_lt.mp hroom)
  · rw [if_neg hin] at hroom
    exact h.take_one hsmall outAddr outLen inAddr inLen hin (not_lt.mp hroom)

end Pool

end Virtq

namespace VirtioSystem

open Virtq

variable {s t : VirtioSystem}

/-- What holds of the queue and the device: the descriptors are conserved, the counters count
what happened, and each ring holds what the other side has not taken. -/
structure Conserved (s : VirtioSystem) : Prop where
  dvd : s.q.size ∣ 65536
  small : s.q.size ≤ 32768
  pool : ∃ free, Pool s.q free s.outstanding []
  taken : s.fetched <+: s.submitted
  seen : s.polled <+: s.completed
  working : s.fetched.Perm (s.held ++ s.completed)
  availIdx : s.q.availIdx = s.submitted.length % 65536
  lastAvail : s.lastAvail = s.fetched.length % 65536
  usedIdx : s.q.usedIdx = s.completed.length % 65536
  lastUsedIdx : s.q.lastUsedIdx = s.polled.length % 65536
  avail : RingHolds s.q.availRing s.q.size s.submitted s.fetched.length
  used : RingHolds (fun j => (s.q.usedRing j).1) s.q.size s.completed s.polled.length

/-! ## The start -/

/-- The free list of a new queue from descriptor `i` on. -/
theorem chainTo_init (qsize n i : ℕ) (hi : i + (n + 1) = qsize) :
    ChainTo (fun j => ((Virtq.init qsize).desc j).next) noDesc i (List.range' i (n + 1)) := by
  induction n generalizing i with
  | zero =>
    refine .cons ?_
    have hlast : ((Virtq.init qsize).desc i).next = noDesc := by
      unfold Virtq.init
      dsimp only
      rw [if_neg (by omega), if_pos (by omega)]
    rw [hlast]
    exact .nil
  | succ n ih =>
    rw [List.range'_succ]
    refine .cons ?_
    have hnext : ((Virtq.init qsize).desc i).next = i + 1 := by
      unfold Virtq.init
      dsimp only
      rw [if_pos (by omega)]
    rw [hnext]
    exact ih (i + 1) (by omega)

theorem conserved_start {qsize : ℕ} (hdvd : qsize ∣ 65536) (hsmall : qsize ≤ 32768) :
    Conserved (start qsize) := by
  have hpos : 0 < qsize := Nat.pos_of_dvd_of_pos hdvd (by norm_num)
  obtain ⟨n, rfl⟩ : ∃ n, qsize = n + 1 := ⟨qsize - 1, by omega⟩
  have hpool : Pool (Virtq.init (n + 1)) (List.range' 0 (n + 1)) [] [] := by
    refine ⟨chainTo_init (n + 1) n 0 (by omega), ?_, ?_, fun h hh => by cases hh⟩
    · rw [List.length_range']
      rfl
    · rw [List.flatMap_nil, List.append_nil, List.append_nil, ← List.range_eq_range']
      rfl
  exact ⟨hdvd, hsmall, ⟨_, hpool⟩, List.prefix_rfl, List.prefix_rfl, .refl _, rfl, rfl, rfl, rfl,
    fun i hi => absurd hi (Nat.not_lt_zero i), fun i hi => absurd hi (Nat.not_lt_zero i)⟩

/-! ## Counting -/

theorem length_waiting (s : VirtioSystem) :
    s.waiting.length = s.submitted.length - s.fetched.length := List.length_drop

theorem length_returned (s : VirtioSystem) :
    s.returned.length = s.completed.length - s.polled.length := List.length_drop

theorem length_outstanding (s : VirtioSystem) :
    s.outstanding.length = s.waiting.length + (s.held.length + s.returned.length) := by
  unfold outstanding
  rw [List.length_append, List.length_append]

namespace Conserved

theorem outstanding_le (h : Conserved s) : s.outstanding.length ≤ s.q.size := by
  obtain ⟨free, hpool⟩ := h.pool
  have hle := hpool.heads_le
  omega

/-! ## The steps -/

/-- A queue that offers one head more to the device, with everything else of its rings as before. -/
structure Offers (q q' : Virtq) (head : ℕ) : Prop where
  size_eq : q'.size = q.size
  availIdx_eq : q'.availIdx = (q.availIdx + 1) % 65536
  availRing_eq : q'.availRing = Function.update q.availRing (q.availIdx % q.size) head
  usedIdx_eq : q'.usedIdx = q.usedIdx
  usedRing_eq : q'.usedRing = q.usedRing
  lastUsedIdx_eq : q'.lastUsedIdx = q.lastUsedIdx

/-- **A head is submitted.** -/
theorem submit (h : Conserved s) {q' : Virtq} {head : ℕ} {free : List ℕ}
    (hq : Offers s.q q' head) (hpool : Pool q' free (head :: s.outstanding) []) :
    Conserved { s with q := q', submitted := s.submitted ++ [head] } := by
  obtain ⟨hsize, hai, har, hui, hur, hlu⟩ := hq
  have hsmall := h.small
  have hle := hpool.heads_le
  rw [List.length_cons, hsize] at hle
  have hlen := length_outstanding s
  rw [length_waiting] at hlen
  have htaken := h.taken.length_le
  refine ⟨hsize ▸ h.dvd, hsize ▸ h.small, ⟨free, ?_⟩, h.taken.trans (List.prefix_append _ _),
    h.seen, h.working, ?_, h.lastAvail, hui.trans h.usedIdx, hlu.trans h.lastUsedIdx, ?_, ?_⟩
  · apply hpool.perm
    show (head :: s.outstanding).Perm
      ((s.submitted ++ [head]).drop s.fetched.length ++ (s.held ++ s.returned))
    rw [List.drop_append_of_le_length htaken, List.append_assoc, List.singleton_append]
    exact List.perm_middle.symm
  · show q'.availIdx = _
    rw [hai, h.availIdx, List.length_append, List.length_singleton]
    omega
  · show RingHolds q'.availRing q'.size _ _
    rw [har, hsize, h.availIdx, slot_of_counter h.dvd]
    exact h.avail.push (by omega)
  · show RingHolds (fun j => (q'.usedRing j).1) q'.size _ _
    rw [hur, hsize]
    exact h.used

theorem afterSend (h : Conserved s) (outAddr outLen inAddr inLen : UInt32) :
    Conserved (s.afterSend outAddr outLen inAddr inLen) := by
  obtain ⟨free, hpool⟩ := h.pool
  by_cases hroom : s.q.numFree < needed inLen
  · have hsame : s.afterSend outAddr outLen inAddr inLen = s := by
      unfold VirtioSystem.afterSend virtioSend
      rw [if_pos hroom]
      rfl
    rw [hsame]
    exact h
  · have hsame : s.afterSend outAddr outLen inAddr inLen = { s with
        q := (s.q.takeDescs outAddr outLen inAddr inLen).offer s.q.freeHead
        submitted := s.submitted ++ [s.q.freeHead] } := by
      unfold VirtioSystem.afterSend virtioSend
      rw [if_neg hroom]
      dsimp only
      rw [if_neg (by omega), Int.toNat_natCast]
    -- Taking descriptors leaves the rings alone, and offering a head the descriptors.
    have hoffers : Offers s.q ((s.q.takeDescs outAddr outLen inAddr inLen).offer s.q.freeHead)
        s.q.freeHead := by
      unfold Virtq.offer Virtq.takeDescs
      dsimp only
      split_ifs <;> exact ⟨rfl, rfl, rfl, rfl, rfl, rfl⟩
    have hsmall := h.small
    obtain ⟨free', hnew⟩ := hpool.takeDescs (by omega) outAddr outLen inAddr inLen hroom
    rw [hsame]
    exact h.submit hoffers ⟨hnew.chain, hnew.count, hnew.whole, hnew.ends⟩

/-- The device reads the next head submitted. -/
theorem availHead (h : Conserved s) (hne : s.lastAvail ≠ s.q.availIdx) :
    ∃ rest, s.waiting = s.availHead :: rest ∧
      rest = s.submitted.drop (s.fetched.length + 1) ∧
      s.fetched ++ [s.availHead] <+: s.submitted := by
  have hle := h.outstanding_le
  have hlen := length_outstanding s
  rw [length_waiting] at hlen
  have htaken := h.taken.length_le
  have hsmall := h.small
  rw [h.lastAvail, h.availIdx] at hne
  have hlt := (counter_ne_iff htaken (by omega)).mp hne
  have hhead : s.availHead = s.submitted[s.fetched.length] := by
    unfold VirtioSystem.availHead
    rw [h.lastAvail, slot_of_counter h.dvd]
    exact h.avail _ hlt le_rfl
  refine ⟨s.submitted.drop (s.fetched.length + 1), ?_, rfl, ?_⟩
  · rw [hhead]
    exact List.drop_eq_getElem_cons hlt
  · rw [hhead]
    have htake := List.take_append_getElem hlt
    rw [← List.prefix_iff_eq_take.mp h.taken] at htake
    rw [htake]
    exact List.take_prefix _ _

theorem fetch (h : Conserved s) (hne : s.lastAvail ≠ s.q.availIdx) :
    Conserved { s with
      lastAvail := (s.lastAvail + 1) % 65536
      held := s.availHead :: s.held
      fetched := s.fetched ++ [s.availHead] } := by
  obtain ⟨rest, hwait, hrest, hprefix⟩ := h.availHead hne
  obtain ⟨free, hpool⟩ := h.pool
  refine ⟨h.dvd, h.small, ⟨free, hpool.perm ?_⟩, hprefix, h.seen, ?_, h.availIdx, ?_, h.usedIdx,
    h.lastUsedIdx, ?_, h.used⟩
  · show (s.waiting ++ (s.held ++ s.returned)).Perm
      (s.submitted.drop (s.fetched ++ [s.availHead]).length ++ (s.availHead :: s.held ++ s.returned))
    rw [hwait, List.length_append, List.length_singleton, ← hrest, List.cons_append,
      List.cons_append]
    exact List.perm_middle.symm
  · show (s.fetched ++ [s.availHead]).Perm (s.availHead :: s.held ++ s.completed)
    rw [List.cons_append]
    exact (List.perm_append_singleton _ _).trans (h.working.cons _)
  · show (s.lastAvail + 1) % 65536 = _
    rw [h.lastAvail, List.length_append, List.length_singleton]
    omega
  · rw [List.length_append, List.length_singleton]
    exact h.avail.advance (Nat.le_succ _)

theorem complete (h : Conserved s) {head : ℕ} (len : UInt32) (hheld : head ∈ s.held) :
    Conserved { s with
      q := { s.q with
        usedRing := Function.update s.q.usedRing (s.q.usedIdx % s.q.size) (head, len)
        usedIdx := (s.q.usedIdx + 1) % 65536 }
      held := s.held.erase head
      completed := s.completed ++ [head] } := by
  obtain ⟨free, hpool⟩ := h.pool
  have hle := h.outstanding_le
  have hlen := length_outstanding s
  rw [length_returned] at hlen
  have hseen := h.seen.length_le
  have hpos := List.length_pos_of_mem hheld
  have hperm : s.outstanding.Perm
      (s.waiting ++ (s.held.erase head ++ (s.completed ++ [head]).drop s.polled.length)) := by
    rw [List.drop_append_of_le_length hseen]
    refine List.Perm.append_left _ ?_
    refine (List.Perm.append_right s.returned (List.perm_cons_erase hheld)).trans ?_
    rw [List.cons_append, ← List.append_assoc]
    exact (List.perm_append_singleton _ _).symm
  refine ⟨h.dvd, h.small, ⟨free, ?_⟩, h.taken, h.seen.trans (List.prefix_append _ _), ?_,
    h.availIdx, h.lastAvail, ?_, h.lastUsedIdx, h.avail, ?_⟩
  · have hq := hpool.perm hperm
    exact ⟨hq.chain, hq.count, hq.whole, hq.ends⟩
  · show s.fetched.Perm (s.held.erase head ++ (s.completed ++ [head]))
    refine h.working.trans ?_
    refine (List.Perm.append_right s.completed (List.perm_cons_erase hheld)).trans ?_
    rw [List.cons_append, ← List.append_assoc]
    exact (List.perm_append_singleton _ _).symm
  · show (s.q.usedIdx + 1) % 65536 = _
    rw [h.usedIdx, List.length_append, List.length_singleton]
    omega
  · have hring : (fun j => (Function.update s.q.usedRing (s.q.usedIdx % s.q.size) (head, len) j).1) =
        Function.update (fun j => (s.q.usedRing j).1) (s.completed.length % s.q.size) head := by
      rw [h.usedIdx, slot_of_counter h.dvd]
      funext j
      by_cases hj : j = s.completed.length % s.q.size
      · subst hj
        rw [Function.update_self, Function.update_self]
      · rw [Function.update_of_ne hj, Function.update_of_ne hj]
    show RingHolds (fun j => (Function.update s.q.usedRing (s.q.usedIdx % s.q.size)
      (head, len) j).1) _ _ _
    rw [hring]
    exact h.used.push (by omega)

/-- When the counters agree, everything returned was seen. -/
theorem polled_eq (h : Conserved s) (heq : s.q.lastUsedIdx = s.q.usedIdx) :
    ({ s with polled := s.completed } : VirtioSystem) = s := by
  have hle := h.outstanding_le
  have hlen := length_outstanding s
  rw [length_returned] at hlen
  have hseen := h.seen.length_le
  have hsmall := h.small
  rw [h.lastUsedIdx, h.usedIdx] at heq
  have hnlt := mt (counter_ne_iff hseen (by omega)).mpr (not_not.mpr heq)
  have hall := h.seen.eq_of_length (by omega)
  have hsame : ∀ l, s.polled = l → ({ s with polled := l } : VirtioSystem) = s := by
    rintro l rfl
    rfl
  exact hsame _ hall

/-- The driver reads the next head returned. -/
theorem usedHead (h : Conserved s) (hne : s.q.lastUsedIdx ≠ s.q.usedIdx) :
    s.returned = s.q.usedHead :: s.completed.drop (s.polled.length + 1) ∧
      s.polled ++ [s.q.usedHead] <+: s.completed := by
  have hle := h.outstanding_le
  have hlen := length_outstanding s
  rw [length_returned] at hlen
  have hseen := h.seen.length_le
  have hsmall := h.small
  rw [h.lastUsedIdx, h.usedIdx] at hne
  have hlt := (counter_ne_iff hseen (by omega)).mp hne
  have hhead : s.q.usedHead = s.completed[s.polled.length] := by
    unfold Virtq.usedHead
    rw [h.lastUsedIdx, slot_of_counter h.dvd]
    exact h.used _ hlt le_rfl
  refine ⟨?_, ?_⟩
  · rw [hhead]
    exact List.drop_eq_getElem_cons hlt
  · rw [hhead]
    have htake := List.take_append_getElem hlt
    rw [← List.prefix_iff_eq_take.mp h.seen] at htake
    rw [htake]
    exact List.take_prefix _ _

/-- The request the next round of `virtio_poll` frees is in flight. -/
theorem pool_usedHead (h : Conserved s) (hne : s.q.lastUsedIdx ≠ s.q.usedIdx) :
    ∃ free, Pool s.q free (s.q.usedHead :: (s.waiting ++ (s.held ++
      s.completed.drop (s.polled.length + 1)))) [] ∧ s.q.usedHead % 65536 = s.q.usedHead := by
  obtain ⟨free, hpool⟩ := h.pool
  obtain ⟨hret, _⟩ := h.usedHead hne
  have hperm : s.outstanding.Perm (s.q.usedHead :: (s.waiting ++ (s.held ++
      s.completed.drop (s.polled.length + 1)))) := by
    unfold outstanding
    rw [hret, ← List.append_assoc, ← List.append_assoc]
    exact List.perm_middle
  have hnew := hpool.perm hperm
  have hlt := hnew.lt_size List.mem_cons_self
  have hsmall := h.small
  exact ⟨free, hnew, Nat.mod_eq_of_lt (by omega)⟩

theorem pollRound (h : Conserved s) {fuel : ℕ} {q : Virtq}
    (hne : s.q.lastUsedIdx ≠ s.q.usedIdx) (hq : s.q.pollRound fuel = some q) :
    Conserved { s with q := q, polled := s.polled ++ [s.q.usedHead] } := by
  obtain ⟨free, hpool, hmod⟩ := h.pool_usedHead hne
  obtain ⟨_, hprefix⟩ := h.usedHead hne
  have hsmall := h.small
  unfold Virtq.pollRound at hq
  rw [hmod, Option.map_eq_some_iff] at hq
  obtain ⟨q', hq', rfl⟩ := hq
  obtain ⟨free', hpool'⟩ := (hpool.freeChain (by omega)).2 hq'
  obtain ⟨hsize, hai, har, hui, hur, hlu⟩ := Pool.freeChain_frame hq'
  have hlen : (s.polled ++ [s.q.usedHead]).length = s.polled.length + 1 := by
    rw [List.length_append, List.length_singleton]
  refine ⟨?_, ?_, ⟨free', ?_⟩, h.taken, hprefix, h.working, hai.trans h.availIdx, h.lastAvail,
    hui.trans h.usedIdx, ?_, ?_, ?_⟩
  · show q'.size ∣ 65536
    rw [hsize]
    exact h.dvd
  · show q'.size ≤ 32768
    rw [hsize]
    exact h.small
  · have hout : ({ s with
        q := { q' with lastUsedIdx := (q'.lastUsedIdx + 1) % 65536 }
        polled := s.polled ++ [s.q.usedHead] } : VirtioSystem).outstanding =
        s.waiting ++ (s.held ++ s.completed.drop (s.polled.length + 1)) := by
      show s.waiting ++ (s.held ++ s.completed.drop (s.polled ++ [s.q.usedHead]).length) = _
      rw [hlen]
    rw [hout]
    exact ⟨hpool'.chain, hpool'.count, hpool'.whole, hpool'.ends⟩
  · show (q'.lastUsedIdx + 1) % 65536 = _
    rw [hlu, h.lastUsedIdx, hlen]
    omega
  · show RingHolds q'.availRing q'.size _ _
    rw [har, hsize]
    exact h.avail
  · show RingHolds (fun j => (q'.usedRing j).1) q'.size _ _
    rw [hur, hsize, hlen]
    exact h.used.advance (Nat.le_succ _)

/-- **A call of `virtio_poll`** sees everything the device returned. -/
theorem pollLoop {fuel : ℕ} {q : Virtq} (h : Conserved s) (hq : Virtq.pollLoop fuel s.q = some q) :
    Conserved { s with q := q, polled := s.completed } := by
  induction fuel generalizing s with
  | zero => cases hq
  | succ fuel ih =>
    unfold Virtq.pollLoop at hq
    by_cases heq : s.q.lastUsedIdx = s.q.usedIdx
    · rw [if_pos heq] at hq
      cases hq
      exact (h.polled_eq heq).symm ▸ h
    · rw [if_neg heq, Option.bind_eq_some_iff] at hq
      obtain ⟨q', hround, hq⟩ := hq
      have hrest := ih (h.pollRound heq hround) hq
      exact hrest

theorem poll {fuel : ℕ} {r : Virtq × Bool} (h : Conserved s) (hr : s.q.virtioPoll fuel = some r) :
    Conserved { s with q := r.1, polled := s.completed } := by
  unfold virtioPoll at hr
  by_cases heq : s.q.lastUsedIdx = s.q.usedIdx
  · rw [if_pos heq] at hr
    cases hr
    exact (h.polled_eq heq).symm ▸ h
  · rw [if_neg heq, Option.map_eq_some_iff] at hr
    obtain ⟨q, hq, rfl⟩ := hr
    exact h.pollLoop hq

/-- `virtio_poll` returns. -/
theorem pollLoop_isSome {n : ℕ} (h : Conserved s) (hn : s.completed.length - s.polled.length = n) :
    (Virtq.pollLoop (n + 3) s.q).isSome := by
  induction n generalizing s with
  | zero =>
    have hseen := h.seen.length_le
    have heq : s.q.lastUsedIdx = s.q.usedIdx := by
      rw [h.lastUsedIdx, h.usedIdx]
      congr 1
      omega
    unfold Virtq.pollLoop
    rw [if_pos heq]
    rfl
  | succ n ih =>
    have hle := h.outstanding_le
    have hlen := length_outstanding s
    rw [length_returned] at hlen
    have hseen := h.seen.length_le
    have hsmall := h.small
    have hne : s.q.lastUsedIdx ≠ s.q.usedIdx := by
      rw [h.lastUsedIdx, h.usedIdx]
      exact (counter_ne_iff hseen (by omega)).mpr (by omega)
    obtain ⟨free, hpool, hmod⟩ := h.pool_usedHead hne
    have hsome := (hpool.freeChain (by omega)).1 (n + 1)
    rw [← hmod] at hsome
    obtain ⟨q', hq'⟩ := Option.isSome_iff_exists.mp hsome
    have hround : s.q.pollRound (n + 3) = some { q' with
        lastUsedIdx := (q'.lastUsedIdx + 1) % 65536 } := by
      unfold Virtq.pollRound
      rw [hq']
      rfl
    unfold Virtq.pollLoop
    rw [if_neg hne, hround, Option.bind_some]
    refine ih (h.pollRound hne hround) ?_
    show s.completed.length - (s.polled ++ [s.q.usedHead]).length = n
    rw [List.length_append, List.length_singleton]
    omega

theorem poll_returns (h : Conserved s) : ∃ fuel r, s.q.virtioPoll fuel = some r := by
  obtain ⟨q, hq⟩ := Option.isSome_iff_exists.mp (h.pollLoop_isSome rfl)
  unfold virtioPoll
  by_cases heq : s.q.lastUsedIdx = s.q.usedIdx
  · exact ⟨0, (s.q, false), if_pos heq⟩
  · refine ⟨s.completed.length - s.polled.length + 3, (q, true), ?_⟩
    rw [if_neg heq, hq]
    rfl

/-- **Every step conserves.** -/
theorem step {e : VirtioEvent} (h : Conserved s) (hst : Step s e t) : Conserved t := by
  cases hst with
  | send outAddr outLen inAddr inLen => exact h.afterSend outAddr outLen inAddr inLen
  | fetch hne => exact h.fetch hne
  | complete len hheld => exact h.complete len hheld
  | pollRound hne hq => exact h.pollRound hne hq
  | poll hr => exact h.poll hr

/-- What was submitted is what was polled and what is in flight. -/
theorem submitted_perm (h : Conserved s) : s.submitted.Perm (s.polled ++ s.outstanding) := by
  have hsub : s.submitted = s.fetched ++ s.waiting := (List.prefix_iff_eq_append.mp h.taken).symm
  have hcomp : s.completed = s.polled ++ s.returned := (List.prefix_iff_eq_append.mp h.seen).symm
  have hworking := h.working
  rw [hcomp] at hworking
  rw [hsub]
  refine (hworking.append_right s.waiting).trans ?_
  unfold outstanding
  refine (List.Perm.append_right s.waiting
    (List.perm_append_comm_assoc s.held s.polled s.returned)).trans ?_
  rw [List.append_assoc]
  exact List.Perm.append_left _ List.perm_append_comm

end Conserved

/-! ## Conservation -/

/-- The state of a queue as its users see it. -/
structure Accounted (s : VirtioSystem) : Prop where
  /-- The free list ends after `num_free` descriptors; these and the descriptors of the
  requests in flight are different, and together all descriptors of the queue. -/
  free : ∃ free, ChainTo (fun i => (s.q.desc i).next) noDesc s.q.freeHead free ∧
    free.length = s.q.numFree ∧ (free ++ s.outstanding.flatMap s.q.chain).Nodup ∧
    (∀ i, i ∈ free ++ s.outstanding.flatMap s.q.chain ↔ i < s.q.size) ∧
    s.q.numFree + (s.outstanding.flatMap s.q.chain).length = s.q.size
  /-- Each request submitted was polled or is in flight, once. -/
  requests : s.submitted.Perm (s.polled ++ s.outstanding)
  /-- The device took the heads in the order of submission. -/
  inOrder : s.fetched <+: s.submitted
  /-- A head that the device has not taken is in its slot of the available ring. -/
  available : ∀ i (h : i < s.submitted.length), s.fetched.length ≤ i →
    s.q.availRing (i % s.q.size) = s.submitted[i]
  /-- `virtio_send` fails exactly when too few descriptors are free, and changes nothing. -/
  fails : ∀ outAddr outLen inAddr inLen,
    ((s.q.virtioSend outAddr outLen inAddr inLen).2 = -1 ↔ s.q.numFree < needed inLen) ∧
    ((s.q.virtioSend outAddr outLen inAddr inLen).2 = -1 →
      (s.q.virtioSend outAddr outLen inAddr inLen).1 = s.q)
  /-- `virtio_poll` returns. -/
  polls : ∃ fuel r, s.q.virtioPoll fuel = some r

theorem virtioSend_fails_iff (q : Virtq) (outAddr outLen inAddr inLen : UInt32) :
    ((q.virtioSend outAddr outLen inAddr inLen).2 = -1 ↔ q.numFree < needed inLen) ∧
    ((q.virtioSend outAddr outLen inAddr inLen).2 = -1 →
      (q.virtioSend outAddr outLen inAddr inLen).1 = q) := by
  unfold virtioSend
  by_cases hroom : q.numFree < needed inLen
  · rw [if_pos hroom]
    exact ⟨⟨fun _ => hroom, fun _ => rfl⟩, fun _ => rfl⟩
  · rw [if_neg hroom]
    have hne : ((q.freeHead : ℕ) : ℤ) ≠ -1 := by omega
    exact ⟨⟨fun h => absurd h hne, fun h => absurd h hroom⟩, fun h => absurd h hne⟩

/-- **Virtqueue conservation.**  For every queue size that is a power of two up to 32768, in
every run of the driver and the device the queue is accounted for. -/
theorem virtqueue_conserved {qsize k : ℕ} (hsize : qsize = 2 ^ k) (hk : k ≤ 15)
    {es : List VirtioEvent} (hrun : Run Step (start qsize) es s) : Accounted s := by
  have hdvd : qsize ∣ 65536 := by
    rw [hsize, show 65536 = 2 ^ 16 by norm_num]
    exact pow_dvd_pow 2 (by omega)
  have hsmall : qsize ≤ 32768 := by
    rw [hsize, show 32768 = 2 ^ 15 by norm_num]
    exact Nat.pow_le_pow_right (by norm_num) hk
  have h : Conserved s := hrun.invariant (fun _ _ _ hst hc => hc.step hst)
    (conserved_start hdvd hsmall)
  obtain ⟨free, hpool⟩ := h.pool
  have hnodup := hpool.nodup
  have hwhole := hpool.whole
  have hlen := hpool.length
  rw [List.nil_append] at hnodup hwhole
  rw [List.length_nil, Nat.zero_add, ← hpool.count] at hlen
  exact ⟨⟨free, hpool.chain, hpool.count.symm, hnodup,
    fun i => hwhole.mem_iff.trans List.mem_range, hlen⟩, h.submitted_perm, h.taken, h.avail,
    fun a b c d => virtioSend_fails_iff s.q a b c d, h.poll_returns⟩

/-- A queue of four descriptors: two requests, of which the second is returned first. -/
theorem virtqueue_conserved_four : ∃ s, Run Step (start 4)
    [.send 0x1000 24 0x2000 24, .send 0x3000 64 0 0, .fetch, .fetch, .complete 2 0, .pollRound] s ∧
    Accounted s := by
  obtain ⟨s, hrun⟩ : ∃ s, Run Step (start 4) [.send 0x1000 24 0x2000 24, .send 0x3000 64 0 0,
      .fetch, .fetch, .complete 2 0, .pollRound] s :=
    ⟨_, .cons (.send _ _ _ _) (.cons (.send _ _ _ _) (.cons (.fetch (by decide))
      (.cons (.fetch (by decide)) (.cons (.complete 0 (by decide)) (.cons
        (@Step.pollRound _ 2 _ (by decide) (Option.some_get (by decide)).symm) (.nil _))))))⟩
  exact ⟨s, hrun, @virtqueue_conserved _ _ 2 rfl (by norm_num) _ hrun⟩

end VirtioSystem

end Microkernel

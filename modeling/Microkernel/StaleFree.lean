/-
# Stale pointers and `kfree`

`kfree` takes any address whose word 20 bytes below is the magic number for a block.  When
blocks are merged their headers stay in memory, magic number and links included, and the next
allocations lie on top of them.  A pointer that was freed before therefore passes the check, and
`kfree` follows the links of a header that is none any more.

Here: when this does no harm.  The stores that `kfree` makes must stay in bytes that neither a
header of the list nor a live area needs.
-/
import Microkernel.HeapSizes

namespace Microkernel

open BlockList

/-! ## What the heap and its users need -/

/-- The block after the one that `block` absorbs, as the loop of `merge_free` reads it. -/
def secondNext (m : Memory) (block : ℕ) : ℕ :=
  Header.next (Header.setSize m block
    ((Header.size m block + (headerSize + Header.size m (Header.next m block))) % 2 ^ 32))
    (Header.next m block)

namespace HeapClient

variable (c : HeapClient)

/-- A byte of a header of the list, or of a live area. -/
def Needed (x : ℕ) : Prop :=
  (∃ bs, c.heap.blocks = some bs ∧ ∃ a ∈ bs, a ≤ x ∧ x < a + headerSize) ∨
  ∃ p ∈ c.live, p ≤ x ∧ x < p + Header.size c.heap.mem (p - headerSize)

/-- No byte of the word at `a` is needed. -/
def SpareWord (a : ℕ) : Prop := ∀ x, a ≤ x → x < a + 4 → ¬ c.Needed x

/-- `merge_free`, from `block` on, ends within `n` rounds, follows no pointer to the last bytes
of the address space, and stores in spare words only: the size and the link of `block`, and the
link back of the block after the one that it absorbs. -/
def MergesSpare : ℕ → Memory → ℕ → Prop
  | 0, _, _ => False
  | n + 1, m, block =>
    Header.next m block + headerSize ≤ 2 ^ 32 ∧
      (Header.next m block ≠ 0 ∧ Header.free m (Header.next m block) →
        c.SpareWord (block + 4) ∧ c.SpareWord (block + 12) ∧
        (secondNext m block ≠ 0 → secondNext m block + headerSize ≤ 2 ^ 32 ∧
          c.SpareWord (secondNext m block + 16)) ∧
        MergesSpare n (mergeNext m block) block)

/-- The header that `kfree(ptr)` merges from: the one before if it is free, else its own. -/
def mergedFrom (ptr : ℕ) : ℕ :=
  let block := sub32 ptr headerSize
  let m := Header.setFree c.heap.mem block true
  if Header.prev m block ≠ 0 ∧ Header.free m (Header.prev m block) then Header.prev m block
  else block

/-- `kfree(ptr)` does no harm.  The magic number is gone; or the flag says free already or is
spare, the link back does not lead to the last bytes of the address space, and the merging
stays in spare words. -/
def Harmless (ptr : ℕ) : Prop :=
  let block := sub32 ptr headerSize
  let m := Header.setFree c.heap.mem block true
  Header.magic c.heap.mem block = heapMagic →
    (c.heap.mem.load32 (block + 8) = 1 ∨ c.SpareWord (block + 8)) ∧
    Header.prev m block + headerSize ≤ 2 ^ 32 ∧
    c.MergesSpare loopBound m (c.mergedFrom ptr)

/-- A call of `kfree(ptr)` is contained: it returns, and it was rejected, or the heap is well
formed, with the same live blocks and their sizes and bytes. -/
def Contained (ptr : ℕ) : Prop :=
  ∃ h o, c.heap.kfree ptr = some (h, o) ∧
    ((o = .corrupt ptr ∧ h = c.heap) ∨
      ((∃ bs, WellFormed ⟨h, c.live⟩ bs) ∧ ∀ q ∈ c.live,
        Header.size h.mem (q - headerSize) = Header.size c.heap.mem (q - headerSize) ∧
        ∀ x, q ≤ x → x < q + Header.size c.heap.mem (q - headerSize) → h.mem x = c.heap.mem x))

end HeapClient

/-! ## Histories -/

/-- The heap with the pointers it ever returned. -/
structure HeapHistory where
  client : HeapClient
  returned : List ℕ

namespace HeapHistory

variable (s : HeapHistory)

/-- A pointer that was returned, and is live no more. -/
def Stale (ptr : ℕ) : Prop := ptr ∈ s.returned ∧ ptr ∉ s.client.live

instance (ptr : ℕ) : Decidable (s.Stale ptr) := inferInstanceAs (Decidable (_ ∧ _))

/-- The effect of an operation; what is live after it was returned by now. -/
def exec (op : HeapOp) : Option HeapHistory :=
  (s.client.exec op).map fun c => ⟨c, c.live ++ s.returned⟩

/-- After `heap_init`. -/
def init (m : Memory) (r : Region) : HeapHistory := ⟨HeapClient.init m r, []⟩

/-- A step of the users, who may also free stale pointers when that does no harm. -/
def Step (s : HeapHistory) (op : HeapOp) (s' : HeapHistory) : Prop :=
  (s.client.Allowed op ∨ ∃ ptr, op = .kfree ptr ∧ s.Stale ptr ∧ s.client.Harmless ptr) ∧
    s.exec op = some s'

end HeapHistory

/-! ## Stores in spare words -/

theorem HeapClient.SpareWord.store32 {c : HeapClient} {m : Memory} {a v x : ℕ}
    (h : c.SpareWord a) (hx : c.Needed x) : m.store32 a v x = m x := by
  refine m.store32_of_outside v ?_
  by_contra hin
  exact h x (by omega) (by omega) hx

/-- The next block after a merge is the second next one before it. -/
theorem mergeNext_eq (m : Memory) (block : ℕ) :
    mergeNext m block =
      let m₂ := Header.setNext (Header.setSize m block
        ((Header.size m block + (headerSize + Header.size m (Header.next m block))) % 2 ^ 32))
        block (secondNext m block)
      if secondNext m block ≠ 0 then Header.setPrev m₂ (secondNext m block) block else m₂ := by
  have hnext : ∀ v, Header.next (Header.setSize m block v) block = Header.next m block :=
    fun v => m.load32_store32_of_disjoint v (by omega)
  have hsecond : ∀ m' : Memory, Header.next (Header.setNext m' block (secondNext m block)) block =
      secondNext m block := by
    intro m'
    unfold Header.next Header.setNext
    rw [Memory.load32_store32_same]
    exact Nat.mod_eq_of_lt (Memory.load32_lt _ _)
  unfold mergeNext
  dsimp only
  rw [hnext]
  rw [show Header.next (Header.setSize m block
      ((Header.size m block + (headerSize + Header.size m (Header.next m block))) % 2 ^ 32))
      (Header.next m block) = secondNext m block from rfl, hsecond]

/-- **Merging in spare words changes nothing that is needed.** -/
theorem mergeFree_spare {c : HeapClient} {n : ℕ} {m : Memory} {block : ℕ}
    (h : c.MergesSpare n m block) :
    ∃ m', mergeFree n m block = some m' ∧ ∀ x, c.Needed x → m' x = m x := by
  induction n generalizing m with
  | zero => cases h
  | succ n ih =>
    unfold mergeFree
    by_cases hnext : Header.next m block ≠ 0 ∧ Header.free m (Header.next m block)
    · obtain ⟨hsize, hlink, hback, hrest⟩ := h.2 hnext
      obtain ⟨m', hm', hsame⟩ := ih hrest
      refine ⟨m', by rw [if_pos hnext, hm'], fun x hx => (hsame x hx).trans ?_⟩
      rw [mergeNext_eq]
      dsimp only
      split_ifs with hsecond
      · exact ((hback hsecond).2.store32 hx).trans ((hlink.store32 hx).trans (hsize.store32 hx))
      · exact (hlink.store32 hx).trans (hsize.store32 hx)
    · exact ⟨m, if_neg hnext, fun _ _ => rfl⟩

/-- A flag that says free is stored again as it was. -/
theorem setFree_eq_self {m : Memory} {block : ℕ} (h : m.load32 (block + 8) = 1) :
    Header.setFree m block true = m := by
  have h₀ := (m (block + 8)).toNat_lt
  have h₁ := (m (block + 8 + 1)).toNat_lt
  have h₂ := (m (block + 8 + 2)).toNat_lt
  have h₃ := (m (block + 8 + 3)).toNat_lt
  unfold Memory.load32 at h
  have hbyte : ∀ (b : UInt8) (n : ℕ), n < 2 ^ 8 → b.toNat = n → UInt8.ofNat n = b := by
    intro b n _ hb
    rw [← hb, UInt8.ofNat_toNat]
  funext x
  unfold Header.setFree Memory.store32 Memory.store8
  rw [Bool.toNat_true]
  split_ifs with hx₃ hx₂ hx₁ hx₀
  · subst hx₃
    exact hbyte _ _ (by norm_num) (by omega)
  · subst hx₂
    exact hbyte _ _ (by norm_num) (by omega)
  · subst hx₁
    exact hbyte _ _ (by norm_num) (by omega)
  · subst hx₀
    exact hbyte _ _ (by norm_num) (by omega)
  · rfl

/-- A header whose flag says free, between two neighbours that are not free, does no harm. -/
theorem HeapClient.harmless_of_apart {c : HeapClient} {ptr block : ℕ}
    (hblock : sub32 ptr headerSize = block) (hflag : c.heap.mem.load32 (block + 8) = 1)
    (hprev : Header.prev c.heap.mem block + headerSize ≤ 2 ^ 32 ∧
      ¬ (Header.prev c.heap.mem block ≠ 0 ∧
        Header.free c.heap.mem (Header.prev c.heap.mem block)))
    (hnext : Header.next c.heap.mem block + headerSize ≤ 2 ^ 32 ∧
      ¬ (Header.next c.heap.mem block ≠ 0 ∧
        Header.free c.heap.mem (Header.next c.heap.mem block))) :
    c.Harmless ptr := by
  obtain ⟨n, hn⟩ : ∃ n, loopBound = n + 1 := ⟨2 ^ 32 - 1, rfl⟩
  intro _
  unfold HeapClient.mergedFrom
  dsimp only
  rw [hblock, setFree_eq_self hflag, if_neg hprev.2, hn]
  exact ⟨Or.inl hflag, hprev.1, hnext.1, fun hfree => absurd hfree hnext.2⟩

/-! ## One call -/

namespace HeapInv

variable {r : Region} {c : HeapClient} {bs : List Block}

/-- The headers of the list are needed. -/
theorem needed_of_headerByte (h : HeapInv r c bs) {x : ℕ} (hx : HeaderByte x r.start bs) :
    c.Needed x := by
  refine Or.inl ⟨_, h.wellFormed.walk, ?_⟩
  have hgen : ∀ (a : ℕ) (cs : List Block), HeaderByte x a cs →
      ∃ b ∈ addrs a cs, b ≤ x ∧ x < b + headerSize := by
    intro a cs hx
    induction cs generalizing a with
    | nil => cases hx
    | cons b cs ih =>
      rcases hx with hx | hx
      · exact ⟨a, List.mem_cons_self, hx⟩
      · obtain ⟨b', hb', hb⟩ := ih _ hx
        exact ⟨b', List.mem_cons_of_mem _ hb', hb⟩
  exact hgen _ _ hx

/-- What a call of `kfree` without harm does: it is rejected, or returns with every needed byte
as it was. -/
theorem kfree_harmless (ptr : ℕ) (hne : ptr ≠ 0) (hharm : c.Harmless ptr) :
    c.heap.kfree ptr = some (c.heap, .corrupt ptr) ∨
    ∃ m, c.heap.kfree ptr = some ({ c.heap with mem := m }, .freed) ∧
      ∀ x, c.Needed x → m x = c.heap.mem x := by
  unfold Heap.kfree
  rw [if_neg hne]
  dsimp only
  by_cases hmagic : Header.magic c.heap.mem (sub32 ptr headerSize) = heapMagic
  · obtain ⟨hflag, _, hmerge⟩ := hharm hmagic
    obtain ⟨m', hm', hsame⟩ := mergeFree_spare hmerge
    have hfree : ∀ x, c.Needed x →
        Header.setFree c.heap.mem (sub32 ptr headerSize) true x = c.heap.mem x := by
      intro x hx
      rcases hflag with hflag | hflag
      · rw [setFree_eq_self hflag]
      · exact hflag.store32 hx
    right
    refine ⟨m', ?_, fun x hx => (hsame x hx).trans (hfree x hx)⟩
    rw [if_neg (not_not.mpr hmagic)]
    unfold HeapClient.mergedFrom at hm'
    dsimp only at hm'
    rw [hm']
    rfl
  · left
    rw [if_pos hmagic]

/-- **A call without harm is contained**, and keeps the invariant. -/
theorem contained (h : HeapInv r c bs) {ptr : ℕ} (hne : ptr ≠ 0) (hharm : c.Harmless ptr) :
    c.Contained ptr ∧ ∀ h' o, c.heap.kfree ptr = some (h', o) → HeapInv r ⟨h', c.live⟩ bs := by
  rcases kfree_harmless ptr hne hharm with hrej | ⟨m, hm, hsame⟩
  · refine ⟨⟨_, _, hrej, Or.inl ⟨rfl, rfl⟩⟩, fun h' o he => ?_⟩
    rw [hrej] at he
    cases he
    exact h
  · have hinv : HeapInv r ⟨{ c.heap with mem := m }, c.live⟩ bs :=
      h.congr fun x hx => hsame x (h.needed_of_headerByte hx)
    refine ⟨⟨_, _, hm, Or.inr ⟨⟨_, hinv.wellFormed⟩, fun q hq => ⟨?_, fun x hx hx' => ?_⟩⟩⟩,
      fun h' o he => ?_⟩
    · obtain ⟨pre, b, post, rfl, _, rfl⟩ := h.exists_of_live hq
      rw [Nat.add_sub_cancel]
      exact ((represents_middle.mp hinv.rep).2.1.size).trans
        (represents_middle.mp h.rep).2.1.size.symm
    · exact hsame x (Or.inr ⟨q, hq, hx, hx'⟩)
    · rw [hm] at he
      cases he
      exact hinv

/-- Freeing again a block that is still a free block of the list does no harm: its neighbours
are not free. -/
theorem harmless_of_block {pre post : List Block} {b : Block}
    (h : HeapInv r c (pre ++ b :: post)) (hb : b.free = true) :
    c.Harmless (r.start + span headerSize pre + headerSize) := by
  have hsz : headerSize = 20 := rfl
  have hend := h.end_le
  rw [span_append, span_cons] at hend
  obtain ⟨_, hat, _⟩ := represents_middle.mp h.rep
  have hsub : sub32 (r.start + span headerSize pre + headerSize) headerSize =
      r.start + span headerSize pre := by
    unfold sub32
    omega
  have hflag : c.heap.mem.load32 (r.start + span headerSize pre + 8) = 1 := by
    rw [hat.free, hb]
    rfl
  have hprev : Header.prev c.heap.mem (r.start + span headerSize pre) = lastAt 0 r.start pre :=
    hat.prev
  have hnext : Header.next c.heap.mem (r.start + span headerSize pre) =
      linkTo 0 (r.start + span headerSize pre + (headerSize + b.size)) post := hat.next
  -- the block before is not free
  have hbefore : lastAt 0 r.start pre + headerSize ≤ 2 ^ 32 ∧
      ¬ (lastAt 0 r.start pre ≠ 0 ∧ Header.free c.heap.mem (lastAt 0 r.start pre)) := by
    rcases List.eq_nil_or_concat' pre with rfl | ⟨pre, d, rfl⟩
    · exact ⟨by norm_num [lastAt, headerSize], fun hnot => hnot.1 rfl⟩
    · have hrep := h.rep
      have hcoal := h.coalesced
      rw [← List.append_cons] at hrep hcoal
      rw [span_append, span_cons, span_nil] at hend
      rw [lastAt_concat, (represents_middle.mp hrep).2.1.isFree]
      refine ⟨by omega, fun hfree => ?_⟩
      exact (List.isChain_cons_cons.mp hcoal.of_append_right).1 ⟨hfree.2, hb⟩
  -- and neither is the block after
  have hafter : linkTo 0 (r.start + span headerSize pre + (headerSize + b.size)) post +
        headerSize ≤ 2 ^ 32 ∧
      ¬ (linkTo 0 (r.start + span headerSize pre + (headerSize + b.size)) post ≠ 0 ∧
        Header.free c.heap.mem
          (linkTo 0 (r.start + span headerSize pre + (headerSize + b.size)) post)) := by
    cases post with
    | nil => exact ⟨by norm_num [linkTo, headerSize], fun hnot => hnot.1 rfl⟩
    | cons d post =>
      have hrep := h.rep
      have hcoal := h.coalesced
      rw [List.append_cons] at hrep
      have hd := (represents_middle.mp hrep).2.1
      rw [span_append, span_cons, span_nil, Nat.add_zero, ← Nat.add_assoc] at hd
      rw [span_cons] at hend
      show r.start + span headerSize pre + (headerSize + b.size) + headerSize ≤ 2 ^ 32 ∧
        ¬ (_ ∧ Header.free c.heap.mem (r.start + span headerSize pre + (headerSize + b.size)))
      rw [hd.isFree]
      refine ⟨by omega, fun hfree => ?_⟩
      exact (List.isChain_cons_cons.mp hcoal.of_append_right).1 ⟨hb, hfree.2⟩
  refine HeapClient.harmless_of_apart hsub hflag ?_ ?_
  · rwa [hprev]
  · rwa [hnext]

end HeapInv

/-! ## Whole runs -/

/-- What holds along the runs: the heap invariant, and `NULL` was never returned. -/
def HistoryInv (r : Region) (s : HeapHistory) : Prop :=
  (∃ bs, HeapInv r s.client bs) ∧ ∀ ptr ∈ s.returned, ptr ≠ 0

theorem HeapInv.ne_zero_of_live {r : Region} {c : HeapClient} {bs : List Block}
    (h : HeapInv r c bs) {p : ℕ} (hp : p ∈ c.live) : p ≠ 0 := by
  obtain ⟨pre, b, post, _, _, rfl⟩ := h.exists_of_live hp
  unfold headerSize
  omega

/-- A step keeps the invariant. -/
theorem HistoryInv.step {r : Region} {s s' : HeapHistory} {op : HeapOp} (h : HistoryInv r s)
    (hstep : HeapHistory.Step s op s') : HistoryInv r s' := by
  obtain ⟨⟨bs, hinv⟩, hreturned⟩ := h
  obtain ⟨hop, hexec⟩ := hstep
  obtain ⟨c', hc', rfl⟩ := Option.map_eq_some_iff.mp hexec
  have hinv' : ∃ cs, HeapInv r c' cs := by
    rcases hop with hop | ⟨ptr, rfl, hstale, hharm⟩
    · obtain ⟨c'', cs, hc'', hinv'⟩ := hinv.exec hop
      rw [hc'] at hc''
      cases hc''
      exact ⟨cs, hinv'⟩
    · obtain ⟨⟨h', o⟩, hfree, rfl⟩ := Option.map_eq_some_iff.mp hc'
      have hkept := (hinv.contained (hreturned ptr hstale.1) hharm).2 h' o hfree
      rw [List.erase_of_not_mem hstale.2]
      exact ⟨bs, hkept⟩
  obtain ⟨cs, hinv'⟩ := hinv'
  refine ⟨⟨cs, hinv'⟩, fun ptr hptr => ?_⟩
  rcases List.mem_append.mp hptr with hlive | hold
  · exact hinv'.ne_zero_of_live hlive
  · exact hreturned ptr hold

/-- Steps that every user may take. -/
theorem HeapHistory.exists_run {m : Memory} {r : Region} {ops : List HeapOp}
    {Q : HeapHistory → Prop} [DecidablePred Q]
    (h : (Run.follow (fun s op => if s.client.Allowed op then s.exec op else none)
      (HeapHistory.init m r) ops).any (fun s => decide (Q s)) = true) :
    ∃ s, Run HeapHistory.Step (HeapHistory.init m r) ops s ∧ Q s := by
  obtain ⟨s, hrun, hs⟩ := Run.exists_of_follow h
  exact ⟨s, hrun.mono fun _ _ _ hstep => ⟨Or.inl hstep.1, hstep.2⟩, hs⟩

end Microkernel

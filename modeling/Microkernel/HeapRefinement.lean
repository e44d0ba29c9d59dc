/-
# The heap in memory refines the list of blocks

The headers in memory represent a list of blocks (`BlockList`): each block lies where
the one before it ends, its header holds its size and state, and its links are the
addresses of its neighbours.  On a memory that represents a list, `split_block`,
`merge_free`, the loop of `kmalloc` and `kfree` do what `carve`, `absorb`, `firstFit` and
`release` do on the list.
-/
import Microkernel.Heap
import Microkernel.BlockList

namespace Microkernel

open BlockList

/-! ## Representation -/

/-- The header at `a` holds these values. -/
structure HeaderAt (m : Memory) (a : ℕ) (b : Block) (next prev : ℕ) : Prop where
  magic : m.load32 a = heapMagic
  size : m.load32 (a + 4) = b.size
  free : m.load32 (a + 8) = b.free.toNat
  next : m.load32 (a + 12) = next
  prev : m.load32 (a + 16) = prev

/-- The link to a list of blocks that lies at `a`; `stop` stands for the empty list. -/
def linkTo (stop a : ℕ) : List Block → ℕ
  | [] => stop
  | _ :: _ => a

/-- The address of the last block of a list that lies at `a`; `prev` stands for the empty
list. -/
def lastAt (prev a : ℕ) : List Block → ℕ
  | [] => prev
  | b :: bs => lastAt a (a + (headerSize + b.size)) bs

/-- The memory holds the blocks from `a` on: `prev` is the block before the first one and
`stop` the one after the last. -/
def Seg (m : Memory) (stop : ℕ) : ℕ → ℕ → List Block → Prop
  | _, _, [] => True
  | prev, a, b :: bs =>
    HeaderAt m a b (linkTo stop (a + (headerSize + b.size)) bs) prev ∧
      Seg m stop a (a + (headerSize + b.size)) bs

/-- The bytes of the headers. -/
def HeaderByte (x : ℕ) : ℕ → List Block → Prop
  | _, [] => False
  | a, b :: bs => (a ≤ x ∧ x < a + headerSize) ∨ HeaderByte x (a + (headerSize + b.size)) bs

section

variable {m m' : Memory} {stop stop' prev prev' a x next : ℕ} {b c : Block}
  {bs cs pre post : List Block}

theorem HeaderAt.congr (h : HeaderAt m a b next prev)
    (hm : ∀ x, a ≤ x → x < a + 20 → m' x = m x) : HeaderAt m' a b next prev where
  magic := (Memory.load32_congr fun x h₁ h₂ => hm x (by omega) (by omega)).trans h.magic
  size := (Memory.load32_congr fun x h₁ h₂ => hm x (by omega) (by omega)).trans h.size
  free := (Memory.load32_congr fun x h₁ h₂ => hm x (by omega) (by omega)).trans h.free
  next := (Memory.load32_congr fun x h₁ h₂ => hm x (by omega) (by omega)).trans h.next
  prev := (Memory.load32_congr fun x h₁ h₂ => hm x (by omega) (by omega)).trans h.prev

/-- The flag is read as the block's. -/
theorem HeaderAt.isFree (h : HeaderAt m a b next prev) : Header.free m a = b.free := by
  unfold Header.free
  rw [h.free]
  cases b.free
  · rfl
  · rfl

/-- The representation depends on the bytes of the headers only. -/
theorem Seg.congr (h : Seg m stop prev a bs)
    (hm : ∀ x, HeaderByte x a bs → m' x = m x) : Seg m' stop prev a bs := by
  induction bs generalizing prev a with
  | nil => trivial
  | cons b bs ih =>
    refine ⟨h.1.congr fun x h₁ h₂ => hm x (Or.inl ⟨h₁, h₂⟩), ih h.2 fun x hx => hm x (Or.inr hx)⟩

theorem HeaderByte.bounds (h : HeaderByte x a bs) : a ≤ x ∧ x < a + span headerSize bs := by
  induction bs generalizing a with
  | nil => cases h
  | cons b bs ih =>
    rw [span_cons]
    rcases h with h | h
    · omega
    · have := ih h
      omega

theorem headerByte_append : HeaderByte x a (bs ++ cs) ↔
    HeaderByte x a bs ∨ HeaderByte x (a + span headerSize bs) cs := by
  induction bs generalizing a with
  | nil => simp [HeaderByte]
  | cons b bs ih =>
    simp only [List.cons_append, HeaderByte, ih, span_cons, or_assoc, Nat.add_assoc]

/-- The data area of a block holds no byte of a header. -/
theorem not_headerByte_of_data (h₁ : a + span headerSize pre + headerSize ≤ x)
    (h₂ : x < a + span headerSize pre + (headerSize + b.size)) :
    ¬ HeaderByte x a (pre ++ b :: post) := by
  rw [headerByte_append]
  rintro (h | h | h)
  · have := h.bounds
    omega
  · omega
  · have := h.bounds
    omega

/-- A list is in memory if and only if its two parts are, linked to each other. -/
theorem seg_append : Seg m stop prev a (bs ++ cs) ↔
    Seg m (linkTo stop (a + span headerSize bs) cs) prev a bs ∧
      Seg m stop (lastAt prev a bs) (a + span headerSize bs) cs := by
  induction bs generalizing prev a with
  | nil => simp [Seg, lastAt]
  | cons b bs ih =>
    have hlink : linkTo stop (a + (headerSize + b.size)) (bs ++ cs) =
        linkTo (linkTo stop (a + (headerSize + b.size) + span headerSize bs) cs)
          (a + (headerSize + b.size)) bs := by
      cases bs with
      | nil => cases cs <;> simp [linkTo]
      | cons _ _ => rfl
    simp only [List.cons_append, Seg, ih, hlink, span_cons, lastAt, Nat.add_assoc, and_assoc]

/-- The blocks from `a` on get a new predecessor when the `prev` field of the first one is
rewritten and nothing else of them. -/
theorem Seg.relink (h : Seg m stop prev a bs)
    (hm : ∀ x, a ≤ x → x < a + 16 ∨ a + 20 ≤ x → m' x = m x)
    (hprev : bs ≠ [] → m'.load32 (a + 16) = prev') : Seg m' stop prev' a bs := by
  cases bs with
  | nil => trivial
  | cons b bs =>
    obtain ⟨hb, hbs⟩ := h
    refine ⟨⟨?_, ?_, ?_, ?_, hprev (List.cons_ne_nil _ _)⟩, hbs.congr fun x hx => ?_⟩
    · exact (Memory.load32_congr fun x h₁ h₂ => hm x (by omega) (by omega)).trans hb.magic
    · exact (Memory.load32_congr fun x h₁ h₂ => hm x (by omega) (by omega)).trans hb.size
    · exact (Memory.load32_congr fun x h₁ h₂ => hm x (by omega) (by omega)).trans hb.free
    · exact (Memory.load32_congr fun x h₁ h₂ => hm x (by omega) (by omega)).trans hb.next
    · have := hx.bounds
      unfold headerSize at this
      exact hm x (by omega) (by omega)

theorem lastAt_concat : lastAt prev a (pre ++ [c]) = a + span headerSize pre := by
  induction pre generalizing prev a with
  | nil => rfl
  | cons b pre ih =>
    show lastAt a (a + (headerSize + b.size)) (pre ++ [c]) = _
    rw [ih, span_cons]
    omega

end

/-! ## The operations -/

section

variable {m : Memory} {stop s n : ℕ} {b c : Block} {bs cs pre post : List Block}

/-- The blocks of a heap whose region starts at `s`. -/
def Represents (m : Memory) (s : ℕ) (bs : List Block) : Prop := Seg m 0 0 s bs

/-- What `Represents` says around one block. -/
theorem represents_middle : Represents m s (pre ++ b :: post) ↔
    Seg m (s + span headerSize pre) 0 s pre ∧
      HeaderAt m (s + span headerSize pre) b
        (linkTo 0 (s + span headerSize pre + (headerSize + b.size)) post) (lastAt 0 s pre) ∧
      Seg m 0 (s + span headerSize pre) (s + span headerSize pre + (headerSize + b.size)) post :=
  seg_append

/-- The statement `if (link) link->prev = A;`. -/
def setPrevOf (m : Memory) (link A : ℕ) : Memory :=
  if link ≠ 0 then Header.setPrev m link A else m

/-- It touches the `prev` field of the block at `C` at most. -/
theorem setPrevOf_of_outside {C A x : ℕ} (hx : x < C + 16 ∨ C + 20 ≤ x) :
    setPrevOf m (linkTo 0 C cs) A x = m x := by
  unfold setPrevOf
  cases cs with
  | nil => rfl
  | cons c cs =>
    split_ifs
    · exact m.store32_of_outside A hx
    · rfl

/-- It makes `A` the predecessor of the blocks at `C`. -/
theorem seg_setPrevOf {C A p : ℕ} (h : Seg m 0 p C cs) (hC : C ≠ 0) (hA : A < 2 ^ 32) :
    Seg (setPrevOf m (linkTo 0 C cs) A) 0 A C cs := by
  refine h.relink (fun x _ hx => setPrevOf_of_outside hx) fun hne => ?_
  cases cs with
  | nil => exact absurd rfl hne
  | cons c cs =>
    unfold setPrevOf
    rw [if_pos (show linkTo 0 C (c :: cs) ≠ 0 from hC)]
    exact (m.load32_store32_same _ _).trans (Nat.mod_eq_of_lt hA)

theorem linkTo_lt {C : ℕ} (h : C + span headerSize cs ≤ 2 ^ 32) : linkTo 0 C cs < 2 ^ 32 := by
  cases cs with
  | nil => exact Nat.two_pow_pos 32
  | cons c cs =>
    rw [span_cons] at h
    unfold headerSize at h
    show C < 2 ^ 32
    omega

/-- **One round of `merge_free`**: a block absorbs the one after it. -/
theorem represents_mergeNext (h : Represents m s (pre ++ b :: c :: cs))
    (hend : s + span headerSize (pre ++ b :: c :: cs) ≤ 2 ^ 32) :
    Represents (mergeNext m (s + span headerSize pre)) s
      (pre ++ ⟨b.size + (headerSize + c.size), b.free⟩ :: cs) := by
  obtain ⟨hpre, hb, hc, hcs⟩ := represents_middle.mp h
  rw [span_append, span_cons, span_cons] at hend
  have hsz : headerSize = 20 := rfl
  set A := s + span headerSize pre with hA
  set C := A + (headerSize + b.size) + (headerSize + c.size) with hC
  set N := linkTo 0 C cs with hN
  have hlt : N < 2 ^ 32 := linkTo_lt (by omega)
  have hnext : m.load32 (A + 12) = A + (headerSize + b.size) := hb.next
  have hnext' : m.load32 (A + (headerSize + b.size) + 12) = N := hc.next
  set m₂ := (m.store32 (A + 4) (b.size + (headerSize + c.size))).store32 (A + 12) N with hm₂
  -- the memory afterwards, with every value read from the memory before
  have hm : mergeNext m A = setPrevOf m₂ N A := by
    simp only [mergeNext, setPrevOf, Header.setSize, Header.setNext, Header.setPrev, Header.next,
      Header.size]
    simp (disch := omega) only [Memory.load32_store32_of_disjoint, Memory.load32_store32_same,
      hnext, hb.size, hc.size, hnext', Nat.mod_eq_of_lt, hm₂]
  have hsame : ∀ x, x < A + 4 ∨ A + 20 ≤ x → m₂ x = m x := by
    intro x hx
    rw [hm₂, Memory.store32_of_outside _ _ (by omega), Memory.store32_of_outside _ _ (by omega)]
  have hhead : HeaderAt m₂ A ⟨b.size + (headerSize + c.size), b.free⟩ N (lastAt 0 s pre) := by
    refine ⟨?_, ?_, ?_, ?_, ?_⟩
    · exact (Memory.load32_congr fun x h₁ h₂ => hsame x (by omega)).trans hb.magic
    · rw [hm₂, Memory.load32_store32_of_disjoint _ _ (by omega), Memory.load32_store32_same]
      exact Nat.mod_eq_of_lt (by omega)
    · rw [hm₂, Memory.load32_store32_of_disjoint _ _ (by omega),
        Memory.load32_store32_of_disjoint _ _ (by omega)]
      exact hb.free
    · rw [hm₂, Memory.load32_store32_same, Nat.mod_eq_of_lt hlt]
    · rw [hm₂, Memory.load32_store32_of_disjoint _ _ (by omega),
        Memory.load32_store32_of_disjoint _ _ (by omega)]
      exact hb.prev
  have hplace : A + (headerSize + (b.size + (headerSize + c.size))) = C := by omega
  rw [hm]
  refine represents_middle.mpr ⟨?_, ?_, ?_⟩
  · refine hpre.congr fun x hx => ?_
    have := hx.bounds
    rw [setPrevOf_of_outside (by omega), hsame x (by omega)]
  · show HeaderAt _ A _ (linkTo 0 (A + (headerSize + (b.size + (headerSize + c.size)))) cs) _
    rw [hplace]
    exact hhead.congr fun x _ _ => setPrevOf_of_outside (by omega)
  · show Seg _ 0 A (A + (headerSize + (b.size + (headerSize + c.size)))) cs
    rw [hplace]
    refine seg_setPrevOf (hcs.congr fun x hx => ?_) (by omega) (by omega)
    have := hx.bounds
    exact hsame x (by omega)

/-- **`merge_free` absorbs.** -/
theorem represents_mergeFree (fuel : ℕ) (h : Represents m s (pre ++ b :: post))
    (hend : s + span headerSize (pre ++ b :: post) ≤ 2 ^ 32) (hfuel : post.length < fuel) :
    ∃ m', mergeFree fuel m (s + span headerSize pre) = some m' ∧
      Represents m' s (pre ++ absorb headerSize b post) := by
  induction post generalizing m b fuel with
  | nil =>
    obtain ⟨_, hb, _⟩ := represents_middle.mp h
    obtain ⟨fuel, rfl⟩ := Nat.exists_eq_succ_of_ne_zero (Nat.ne_of_gt hfuel)
    refine ⟨m, ?_, h⟩
    unfold mergeFree
    exact if_neg fun hn => hn.1 hb.next
  | cons c cs ih =>
    obtain ⟨_, hb, hc, _⟩ := represents_middle.mp h
    obtain ⟨fuel, rfl⟩ := Nat.exists_eq_succ_of_ne_zero (Nat.ne_of_gt (Nat.zero_lt_of_lt hfuel))
    have hnext : Header.next m (s + span headerSize pre) =
        s + span headerSize pre + (headerSize + b.size) := hb.next
    unfold mergeFree absorb
    rw [hnext, hc.isFree]
    cases hfree : c.free with
    | false =>
      refine ⟨m, ?_, h⟩
      simp
    | true =>
      rw [if_pos ⟨by unfold headerSize; omega, rfl⟩, if_pos rfl]
      refine ih _ (represents_mergeNext h hend) ?_ (Nat.lt_of_succ_lt_succ hfuel)
      refine le_trans (le_of_eq ?_) hend
      simp only [span_append, span_cons]
      omega

/-- Rewriting the flag of a block. -/
theorem represents_setFree {v : Bool} (h : Represents m s (pre ++ b :: post)) :
    Represents (Header.setFree m (s + span headerSize pre) v) s (pre ++ ⟨b.size, v⟩ :: post) := by
  obtain ⟨hpre, hb, hpost⟩ := represents_middle.mp h
  have hsz : headerSize = 20 := rfl
  set A := s + span headerSize pre with hA
  have hsame : ∀ x, x < A + 8 ∨ A + 12 ≤ x → Header.setFree m A v x = m x := by
    intro x hx
    exact m.store32_of_outside _ (by omega)
  refine represents_middle.mpr ⟨?_, ⟨?_, ?_, ?_, ?_, ?_⟩, ?_⟩
  · refine hpre.congr fun x hx => ?_
    have := hx.bounds
    exact hsame x (by omega)
  · exact (Memory.load32_congr fun x h₁ h₂ => hsame x (by omega)).trans hb.magic
  · exact (Memory.load32_congr fun x h₁ h₂ => hsame x (by omega)).trans hb.size
  · refine (m.load32_store32_same _ _).trans ?_
    cases v
    · rfl
    · rfl
  · exact (Memory.load32_congr fun x h₁ h₂ => hsame x (by omega)).trans hb.next
  · exact (Memory.load32_congr fun x h₁ h₂ => hsame x (by omega)).trans hb.prev
  · refine hpost.congr fun x hx => ?_
    have := hx.bounds
    exact hsame x (by omega)

/-- **`split_block` cuts off the rest of a block**: two blocks lie where one was. -/
theorem represents_splitBlock (h : Represents m s (pre ++ b :: post))
    (hend : s + span headerSize (pre ++ b :: post) ≤ 2 ^ 32)
    (hn : n + headerSize + 16 ≤ b.size) :
    Represents (splitBlock m (s + span headerSize pre) n) s
      (pre ++ ⟨n, b.free⟩ :: ⟨b.size - n - headerSize, true⟩ :: post) := by
  obtain ⟨hpre, hb, hpost⟩ := represents_middle.mp h
  rw [span_append, span_cons] at hend
  have hsz : headerSize = 20 := rfl
  set A := s + span headerSize pre with hA
  set C := A + (headerSize + b.size) with hC
  set N := linkTo 0 C post with hN
  set B := A + headerSize + n with hB
  have hlt : N < 2 ^ 32 := linkTo_lt (by omega)
  have hnext : m.load32 (A + 12) = N := hb.next
  set m₁ := ((((m.store32 B heapMagic).store32 (B + 4) (b.size - n - headerSize)).store32 (B + 8)
    1).store32 (B + 12) N).store32 (B + 16) A with hm₁
  -- the memory afterwards, with every value read from the memory before
  have hm : splitBlock m A n = ((setPrevOf m₁ N B).store32 (A + 12) B).store32 (A + 4) n := by
    have hB' : (A + headerSize + n) % 2 ^ 32 = B := Nat.mod_eq_of_lt (by omega)
    have hguard : ¬ Header.size m A < (n + headerSize + 16) % 2 ^ 32 := by
      have : Header.size m A = b.size := hb.size
      omega
    have hrest : sub32 (sub32 b.size n) headerSize = b.size - n - headerSize := by
      unfold sub32
      omega
    unfold splitBlock
    rw [if_neg hguard]
    simp only [hB', setPrevOf, Header.setSize, Header.setNext, Header.setPrev, Header.setMagic,
      Header.setFree, Header.next, Header.size]
    simp (disch := omega) only [Memory.load32_store32_of_disjoint, hnext, hb.size, hrest, hm₁,
      Bool.toNat_true]
  have hsame₁ : ∀ x, x < B ∨ B + 20 ≤ x → m₁ x = m x := by
    intro x hx
    rw [hm₁]
    simp (disch := omega) only [Memory.store32_of_outside]
  have hsame : ∀ x, x < A + 4 ∨ A + 20 ≤ x →
      splitBlock m A n x = setPrevOf m₁ N B x := by
    intro x hx
    rw [hm, Memory.store32_of_outside _ _ (by omega), Memory.store32_of_outside _ _ (by omega)]
  have hnew : HeaderAt m₁ B ⟨b.size - n - headerSize, true⟩ N A := by
    rw [hm₁]
    refine ⟨?_, ?_, ?_, ?_, ?_⟩
    · simp (disch := omega) only [Memory.load32_store32_of_disjoint, Memory.load32_store32_same]
      rfl
    · simp (disch := omega) only [Memory.load32_store32_of_disjoint, Memory.load32_store32_same]
      exact Nat.mod_eq_of_lt (by omega)
    · simp (disch := omega) only [Memory.load32_store32_of_disjoint, Memory.load32_store32_same]
      rfl
    · simp (disch := omega) only [Memory.load32_store32_of_disjoint, Memory.load32_store32_same]
      exact Nat.mod_eq_of_lt hlt
    · simp (disch := omega) only [Memory.load32_store32_same]
      exact Nat.mod_eq_of_lt (by omega)
  have hold : ∀ x, x < B → setPrevOf m₁ N B x = m x := by
    intro x hx
    rw [setPrevOf_of_outside (by omega), hsame₁ x (by omega)]
  have hhead : HeaderAt (splitBlock m A n) A ⟨n, b.free⟩ B (lastAt 0 s pre) := by
    have hword : ∀ a, a + 4 ≤ B → (setPrevOf m₁ N B).load32 a = m.load32 a :=
      fun a ha => Memory.load32_congr fun x _ _ => hold x (by omega)
    rw [hm]
    refine ⟨?_, ?_, ?_, ?_, ?_⟩
    · simp (disch := omega) only [Memory.load32_store32_of_disjoint]
      exact (hword A (by omega)).trans hb.magic
    · rw [Memory.load32_store32_same]
      exact Nat.mod_eq_of_lt (by omega)
    · simp (disch := omega) only [Memory.load32_store32_of_disjoint]
      exact (hword (A + 8) (by omega)).trans hb.free
    · simp (disch := omega) only [Memory.load32_store32_of_disjoint, Memory.load32_store32_same]
      exact Nat.mod_eq_of_lt (by omega)
    · simp (disch := omega) only [Memory.load32_store32_of_disjoint]
      exact (hword (A + 16) (by omega)).trans hb.prev
  have hplace : A + (headerSize + n) = B := by omega
  have hplace' : B + (headerSize + (b.size - n - headerSize)) = C := by omega
  refine represents_middle.mpr ⟨?_, ?_, ?_⟩
  · refine hpre.congr fun x hx => ?_
    have := hx.bounds
    rw [hsame x (by omega), hold x (by omega)]
  · show HeaderAt _ A _ (A + (headerSize + n)) _
    rw [hplace]
    exact hhead
  · show Seg _ 0 A (A + (headerSize + n)) _
    rw [hplace]
    refine ⟨?_, ?_⟩
    · rw [hplace']
      refine hnew.congr fun x _ _ => ?_
      rw [hsame x (by omega), setPrevOf_of_outside (by omega)]
    · rw [hplace']
      have hpost₁ : Seg m₁ 0 A C post := hpost.congr fun x hx => by
        have := hx.bounds
        exact hsame₁ x (by omega)
      refine (seg_setPrevOf hpost₁ (by omega) (by omega)).congr fun x hx => ?_
      have := hx.bounds
      exact hsame x (by omega)

/-- **What `kmalloc` does with the block it found.** -/
theorem represents_take (h : Represents m s (pre ++ b :: post))
    (hend : s + span headerSize (pre ++ b :: post) ≤ 2 ^ 32)
    (hsize : b.size < 2 ^ 31) (hn : n ≤ b.size) :
    Represents (Header.setFree (splitBlock m (s + span headerSize pre) n)
      (s + span headerSize pre) false) s (pre ++ carve headerSize 16 n b ++ post) := by
  rw [List.append_assoc]
  unfold carve
  by_cases hs : b.size < n + headerSize + 16
  · rw [if_pos hs]
    have hguard : Header.size m (s + span headerSize pre) < (n + headerSize + 16) % 2 ^ 32 := by
      have : Header.size m (s + span headerSize pre) = b.size :=
        (represents_middle.mp h).2.1.size
      have hsz : headerSize = 20 := rfl
      omega
    unfold splitBlock
    rw [if_pos hguard]
    exact represents_setFree h
  · rw [if_neg hs]
    exact represents_setFree (represents_splitBlock h hend (by omega))

/-- **The loop of `kmalloc` is first fit.** -/
theorem represents_kmallocLoop {fuel : ℕ} (h : Represents m s (pre ++ bs)) (hs : s ≠ 0)
    (hend : s + span headerSize (pre ++ bs) ≤ 2 ^ 32)
    (hsize : ∀ b ∈ bs, b.size < 2 ^ 31) (hlast : LastNonempty (pre ++ bs))
    (hfuel : bs.length < fuel) :
    match firstFit headerSize 16 n bs with
    | none => kmallocLoop n fuel m (linkTo 0 (s + span headerSize pre) bs) = some (m, 0)
    | some (o, cs) => ∃ m', kmallocLoop n fuel m (linkTo 0 (s + span headerSize pre) bs) =
        some (m', s + span headerSize pre + o + headerSize) ∧ Represents m' s (pre ++ cs) := by
  induction bs generalizing pre fuel with
  | nil =>
    obtain ⟨fuel, rfl⟩ := Nat.exists_eq_succ_of_ne_zero (Nat.ne_of_gt hfuel)
    rfl
  | cons b bs ih =>
    obtain ⟨fuel, rfl⟩ := Nat.exists_eq_succ_of_ne_zero (Nat.ne_of_gt (Nat.zero_lt_of_lt hfuel))
    obtain ⟨_, hb, _⟩ := represents_middle.mp h
    have hsz : headerSize = 20 := rfl
    have hA : s + span headerSize pre ≠ 0 := by omega
    have hbsize : Header.size m (s + span headerSize pre) = b.size := hb.size
    have hbnext : Header.next m (s + span headerSize pre) =
        linkTo 0 (s + span headerSize (pre ++ [b])) bs := by
      rw [span_append, span_cons, span_nil, Nat.add_zero, ← Nat.add_assoc]
      exact hb.next
    unfold firstFit kmallocLoop
    rw [show linkTo 0 (s + span headerSize pre) (b :: bs) = s + span headerSize pre from rfl,
      if_neg hA, hb.isFree, hbsize, hbnext]
    by_cases hfit : b.free = true ∧ n ≤ b.size
    · rw [if_pos hfit, if_pos hfit]
      have htake := represents_take h hend (hsize b List.mem_cons_self) hfit.2
      rw [List.append_assoc] at htake
      refine ⟨_, ?_, htake⟩
      rw [span_append, span_cons] at hend
      have hdata : 0 < b.size + span headerSize bs := by
        cases bs with
        | nil => exact (LastNonempty.append_iff (List.cons_ne_nil _ _)).mp hlast b rfl
        | cons c cs =>
          rw [span_cons]
          omega
      rw [Nat.mod_eq_of_lt (by omega)]
      rfl
    · rw [if_neg hfit, if_neg hfit]
      have ih' := @ih (pre ++ [b]) fuel (by rwa [← List.append_cons])
        (by rwa [← List.append_cons]) (fun c hc => hsize c (List.mem_cons_of_mem _ hc))
        (by rwa [← List.append_cons]) (Nat.lt_of_succ_lt_succ hfuel)
      cases hff : firstFit headerSize 16 n bs with
      | none =>
        rw [hff] at ih'
        exact ih'
      | some r =>
        rw [hff] at ih'
        obtain ⟨m', hm', hrep⟩ := ih'
        refine ⟨m', ?_, ?_⟩
        · rw [hm', span_append, span_cons, span_nil]
          congr 2
          omega
        · rw [← List.append_cons] at hrep
          exact hrep

/-- **`kfree` releases.**  Given the data address of a block of the list, it frees that
block. -/
theorem represents_kfree {h : Heap} (hrep : Represents h.mem s (pre ++ b :: post)) (hs : s ≠ 0)
    (hend : s + span headerSize (pre ++ b :: post) ≤ 2 ^ 32)
    (hlen : (pre ++ b :: post).length < loopBound) :
    ∃ m', h.kfree (s + span headerSize pre + headerSize) = some ({ h with mem := m' }, .freed) ∧
      Represents m' s (release headerSize pre b post) := by
  have hsz : headerSize = 20 := rfl
  obtain ⟨_, hb, _⟩ := represents_middle.mp hrep
  have hfreed := represents_setFree (v := true) hrep
  obtain ⟨hpre, hb', _⟩ := represents_middle.mp hfreed
  have hend' : s + span headerSize (pre ++ ⟨b.size, true⟩ :: post) ≤ 2 ^ 32 := by
    rw [span_append, span_cons] at hend ⊢
    exact hend
  rw [span_append, span_cons] at hend
  have hsub : sub32 (s + span headerSize pre + headerSize) headerSize = s + span headerSize pre := by
    unfold sub32
    omega
  have hmagic : Header.magic h.mem (s + span headerSize pre) = heapMagic := hb.magic
  have hprev : Header.prev (Header.setFree h.mem (s + span headerSize pre) true)
      (s + span headerSize pre) = lastAt 0 s pre := hb'.prev
  unfold Heap.kfree
  rw [if_neg (by omega)]
  simp only [hsub, hmagic, hprev, ne_eq, not_true, if_false]
  rw [List.length_append, List.length_cons] at hlen
  rcases List.eq_nil_or_concat' pre with rfl | ⟨pre, c, rfl⟩
  · -- the first block has no predecessor
    obtain ⟨m', hm', hrep'⟩ := represents_mergeFree loopBound hfreed hend' (by omega)
    refine ⟨m', ?_, hrep'⟩
    rw [if_neg fun hn => hn.1 rfl, hm']
    rfl
  · have hplace : lastAt 0 s (pre ++ [c]) = s + span headerSize pre := lastAt_concat
    have hcfree : Header.free (Header.setFree h.mem (s + span headerSize (pre ++ [c])) true)
        (s + span headerSize pre) = c.free := by
      rw [← List.append_cons] at hfreed
      exact (represents_middle.mp hfreed).2.1.isFree
    rw [hplace, hcfree]
    cases hc : c.free with
    | true =>
      rw [release_concat_free hc, if_pos ⟨by omega, rfl⟩]
      rw [← List.append_cons] at hfreed hend'
      obtain ⟨m', hm', hrep'⟩ := represents_mergeFree loopBound hfreed hend' (by
        rw [List.length_cons]
        omega)
      refine ⟨m', ?_, hrep'⟩
      rw [hm']
      rfl
    | false =>
      rw [release_concat_used hc, if_neg fun hn => Bool.false_ne_true hn.2]
      obtain ⟨m', hm', hrep'⟩ := represents_mergeFree loopBound hfreed hend' (by omega)
      refine ⟨m', ?_, hrep'⟩
      rw [hm']
      rfl

end

end Microkernel

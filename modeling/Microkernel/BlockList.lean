/-
# Lists of blocks that tile a region

A region of memory cut into blocks, each with a header of `hdr` bytes in front of its
data, as the list of the sizes and states of its blocks in address order.  Allocation
takes the first free block that fits and cuts off what is left if that is worth a block;
release marks a block free and absorbs its free neighbours.  Both keep the extent of the
region and keep free blocks apart, and they change the set of used addresses by the one
block they are about.  Nothing here is about the kernel or about memory.
-/
import Mathlib

namespace BlockList

/-- A block: the size of its data area, and whether it is free. -/
structure Block where
  size : ℕ
  free : Bool
  deriving DecidableEq

/-- The block after it was released. -/
def Block.released (b : Block) : Block := ⟨b.size, true⟩

@[simp] theorem Block.released_size (b : Block) : b.released.size = b.size := rfl

@[simp] theorem Block.released_free (b : Block) : b.released.free = true := rfl

/-- No two adjacent blocks are free. -/
def Coalesced (bs : List Block) : Prop := bs.IsChain fun b c => ¬ (b.free = true ∧ c.free = true)

section

variable (hdr : ℕ)

/-- The bytes the blocks take, with their headers. -/
def span : List Block → ℕ
  | [] => 0
  | b :: bs => hdr + b.size + span bs

/-- The addresses of the used blocks, when the first block lies at the given address. -/
def used : ℕ → List Block → List ℕ
  | _, [] => []
  | a, b :: bs =>
    if b.free then used (a + (hdr + b.size)) bs else a :: used (a + (hdr + b.size)) bs

/-- What becomes of a block from which `n` bytes are taken: the rest is a block of its
own if it has room for a header and `slack` bytes. -/
def carve (slack n : ℕ) (b : Block) : List Block :=
  if b.size < n + hdr + slack then [⟨b.size, false⟩]
  else [⟨n, false⟩, ⟨b.size - n - hdr, true⟩]

/-- First fit: take `n` bytes from the first free block that has them.  The result is the
distance of that block from the first one, and the blocks afterwards. -/
def firstFit (slack n : ℕ) : List Block → Option (ℕ × List Block)
  | [] => none
  | b :: bs =>
    if b.free ∧ n ≤ b.size then some (0, carve hdr slack n b ++ bs)
    else (firstFit slack n bs).map fun r => (hdr + b.size + r.1, b :: r.2)

/-- `b` absorbs the free blocks that follow it. -/
def absorb : Block → List Block → List Block
  | b, [] => [b]
  | b, c :: cs => if c.free then absorb ⟨b.size + (hdr + c.size), b.free⟩ cs else b :: c :: cs

/-- Release the block `b` between `pre` and `post`. -/
def release (pre : List Block) (b : Block) (post : List Block) : List Block :=
  match pre.getLast? with
  | none => absorb hdr b.released post
  | some c =>
    if c.free then pre.dropLast ++ absorb hdr c (b.released :: post)
    else pre ++ absorb hdr b.released post

end

variable {hdr slack n a : ℕ} {b c : Block} {bs cs pre post : List Block}

/-! ## Extent -/

@[simp] theorem span_nil : span hdr [] = 0 := rfl

@[simp] theorem span_cons : span hdr (b :: bs) = hdr + b.size + span hdr bs := rfl

@[simp] theorem span_append : span hdr (bs ++ cs) = span hdr bs + span hdr cs := by
  induction bs with
  | nil => simp
  | cons b bs ih =>
    rw [List.cons_append, span_cons, span_cons, ih]
    omega

/-- Every block takes at least its header. -/
theorem length_mul_le_span : hdr * bs.length ≤ span hdr bs := by
  induction bs with
  | nil => simp
  | cons b bs ih =>
    rw [List.length_cons, span_cons, Nat.mul_succ]
    omega

@[simp] theorem span_carve : span hdr (carve hdr slack n b) = hdr + b.size := by
  unfold carve
  split_ifs with hs
  · simp
  · simp only [span_cons, span_nil]
    omega

@[simp] theorem span_absorb : span hdr (absorb hdr b bs) = hdr + b.size + span hdr bs := by
  induction bs generalizing b with
  | nil => rfl
  | cons c cs ih =>
    unfold absorb
    split_ifs with hc
    · rw [ih, span_cons]
      show hdr + (b.size + (hdr + c.size)) + span hdr cs = _
      omega
    · simp

@[simp] theorem release_nil : release hdr [] b post = absorb hdr b.released post := rfl

theorem release_concat_free (hc : c.free = true) :
    release hdr (pre ++ [c]) b post = pre ++ absorb hdr c (b.released :: post) := by
  unfold release
  rw [List.getLast?_concat, List.dropLast_concat]
  exact if_pos hc

theorem release_concat_used (hc : c.free = false) :
    release hdr (pre ++ [c]) b post = pre ++ [c] ++ absorb hdr b.released post := by
  unfold release
  rw [List.getLast?_concat]
  exact if_neg (by rw [hc]; exact Bool.false_ne_true)

/-- The three ways to release a block: it is the first one, or the block before it is
free and absorbs it, or the block before it is used. -/
theorem release_cases {P : List Block → List Block → Prop}
    (first : P [] (absorb hdr b.released post))
    (merged : ∀ pre c, c.free = true → P (pre ++ [c]) (pre ++ absorb hdr c (b.released :: post)))
    (apart : ∀ pre c, c.free = false →
      P (pre ++ [c]) (pre ++ [c] ++ absorb hdr b.released post)) :
    P pre (release hdr pre b post) := by
  rcases List.eq_nil_or_concat' pre with rfl | ⟨pre, c, rfl⟩
  · exact first
  · cases hc : c.free with
    | true =>
      rw [release_concat_free hc]
      exact merged pre c hc
    | false =>
      rw [release_concat_used hc]
      exact apart pre c hc

theorem span_release : span hdr (release hdr pre b post) = span hdr (pre ++ b :: post) := by
  refine release_cases (P := fun p r => span hdr r = span hdr (p ++ b :: post)) ?_ ?_ ?_
  · simp
  · intro pre c _
    simp
  · intro pre c _
    simp

/-! ## First fit -/

/-- First fit fails if and only if every free block is too small. -/
theorem firstFit_eq_none_iff :
    firstFit hdr slack n bs = none ↔ ∀ b ∈ bs, b.free = true → b.size < n := by
  induction bs with
  | nil => simp [firstFit]
  | cons b bs ih =>
    unfold firstFit
    split_ifs with hb
    · constructor
      · intro h
        cases h
      · intro h
        have := h b List.mem_cons_self hb.1
        omega
    · rw [Option.map_eq_none_iff, ih, List.forall_mem_cons]
      constructor
      · intro h
        exact ⟨fun hf => Nat.lt_of_not_le fun hn => hb ⟨hf, hn⟩, h⟩
      · exact fun h => h.2

/-- First fit takes the bytes from one free block that has them and leaves the others
as they are. -/
theorem firstFit_eq_some {o : ℕ} (h : firstFit hdr slack n bs = some (o, cs)) :
    ∃ pre b post, bs = pre ++ b :: post ∧ b.free = true ∧ n ≤ b.size ∧ o = span hdr pre ∧
      cs = pre ++ carve hdr slack n b ++ post := by
  induction bs generalizing o cs with
  | nil => cases h
  | cons b bs ih =>
    unfold firstFit at h
    split_ifs at h with hb
    · cases h
      exact ⟨[], b, bs, rfl, hb.1, hb.2, rfl, rfl⟩
    · obtain ⟨⟨o', cs'⟩, h', he⟩ := Option.map_eq_some_iff.mp h
      cases he
      obtain ⟨pre, c, post, rfl, hf, hn, rfl, rfl⟩ := ih h'
      exact ⟨b :: pre, c, post, rfl, hf, hn, rfl, rfl⟩

/-! ## Free blocks stay apart -/

namespace Coalesced

theorem of_append_left (h : Coalesced (bs ++ cs)) : Coalesced bs := List.IsChain.left_of_append h

theorem of_append_right (h : Coalesced (bs ++ cs)) : Coalesced cs :=
  List.IsChain.right_of_append h

/-- What follows a block may be replaced if the new first block is not free where the
old one was not. -/
theorem append_of_head (h : Coalesced (pre ++ [c])) (hbs : Coalesced bs)
    (hhead : ∀ b ∈ bs.head?, b.free = true → c.free = true) : Coalesced (pre ++ bs) := by
  obtain ⟨hpre, _, hc⟩ := List.isChain_append.mp h
  refine List.isChain_append.mpr ⟨hpre, hbs, fun x hx y hy hxy => ?_⟩
  exact hc x hx c rfl ⟨hxy.1, hhead y hy hxy.2⟩

/-- Absorbing the free successors leaves no free successor. -/
theorem absorb (h : Coalesced bs) : Coalesced (absorb hdr b bs) := by
  induction bs generalizing b with
  | nil => exact List.isChain_singleton b
  | cons c cs ih =>
    unfold BlockList.absorb
    split_ifs with hc
    · exact ih (List.IsChain.tail h)
    · exact List.isChain_cons_cons.mpr ⟨fun hbc => hc hbc.2, h⟩

theorem carve (h : Coalesced (b :: post)) (hb : b.free = true) :
    Coalesced (carve hdr slack n b ++ post) := by
  unfold BlockList.carve
  have hpost : ∀ x ∈ post.head?, x.free = false := by
    intro x hx
    have := (List.isChain_cons.mp h).1 x hx
    rw [hb] at this
    simpa using this
  split_ifs with hs
  · exact List.isChain_cons.mpr ⟨fun x hx hxx => Bool.false_ne_true hxx.1, List.IsChain.tail h⟩
  · refine List.isChain_cons_cons.mpr ⟨fun hxx => Bool.false_ne_true hxx.1, ?_⟩
    refine List.isChain_cons.mpr ⟨fun x hx hxx => ?_, List.IsChain.tail h⟩
    rw [hpost x hx] at hxx
    exact Bool.false_ne_true hxx.2

end Coalesced

theorem carve_head_used : ∀ c ∈ (carve hdr slack n b ++ post).head?, c.free = false := by
  unfold carve
  intro c hc
  split_ifs at hc
  · cases hc
    rfl
  · cases hc
    rfl

/-- **First fit keeps free blocks apart.** -/
theorem Coalesced.firstFit {o : ℕ} (h : Coalesced bs)
    (hfit : firstFit hdr slack n bs = some (o, cs)) : Coalesced cs := by
  obtain ⟨pre, b, post, rfl, hb, _, _, rfl⟩ := firstFit_eq_some hfit
  rw [List.append_assoc]
  have hpre : Coalesced (pre ++ [b]) := by
    rw [List.append_cons] at h
    exact h.of_append_left
  refine hpre.append_of_head (h.of_append_right.carve hb) fun c hc hfree => ?_
  rw [carve_head_used c hc] at hfree
  cases hfree

/-- **Release keeps free blocks apart.** -/
theorem Coalesced.release (h : Coalesced (pre ++ b :: post)) :
    Coalesced (release hdr pre b post) := by
  refine release_cases (P := fun p r => Coalesced (p ++ b :: post) → Coalesced r) ?_ ?_ ?_ h
  · intro h
    exact Coalesced.absorb (List.IsChain.tail h)
  · intro pre c hc h
    have hpost : Coalesced post := List.IsChain.tail h.of_append_right
    rw [List.append_assoc] at h
    have hpre : Coalesced (pre ++ [c]) := by
      rw [← List.append_assoc] at h
      exact h.of_append_left
    refine hpre.append_of_head ?_ fun d hd _ => hc
    unfold BlockList.absorb
    rw [if_pos b.released_free]
    exact hpost.absorb
  · intro pre c hc h
    have hpost : Coalesced post := List.IsChain.tail h.of_append_right
    refine List.isChain_append.mpr ⟨h.of_append_left, hpost.absorb, fun x hx y _ hxy => ?_⟩
    rw [List.getLast?_concat] at hx
    cases hx
    rw [hc] at hxy
    exact Bool.false_ne_true hxy.1

/-- Coalesced blocks that are all free are one block. -/
theorem Coalesced.eq_singleton (h : Coalesced bs) (hne : bs ≠ [])
    (hfree : ∀ b ∈ bs, b.free = true) : ∃ b, bs = [b] := by
  match bs, hne with
  | [b], _ => exact ⟨b, rfl⟩
  | b :: c :: bs, _ =>
    have := (List.isChain_cons_cons.mp h).1
    exact absurd ⟨hfree b (by simp), hfree c (by simp)⟩ this

/-! ## The last block is not empty -/

/-- The last block has data, so that every block has an address after its header. -/
def LastNonempty (bs : List Block) : Prop := ∀ b ∈ bs.getLast?, 0 < b.size

namespace LastNonempty

theorem append_iff (hne : cs ≠ []) : LastNonempty (bs ++ cs) ↔ LastNonempty cs := by
  unfold LastNonempty
  rw [List.getLast?_append_of_ne_nil _ hne]

theorem absorb (hhdr : 0 < hdr) (h : LastNonempty (b :: bs)) :
    LastNonempty (absorb hdr b bs) := by
  induction bs generalizing b with
  | nil => exact h
  | cons c cs ih =>
    unfold BlockList.absorb
    split_ifs with hc
    · refine ih ?_
      cases cs with
      | nil =>
        intro d hd
        cases hd
        show 0 < b.size + (hdr + c.size)
        omega
      | cons d ds => exact h
    · exact h

theorem firstFit {o : ℕ} (h : LastNonempty bs) (hslack : 0 < slack)
    (hfit : firstFit hdr slack n bs = some (o, cs)) : LastNonempty cs := by
  obtain ⟨pre, b, post, rfl, _, _, _, rfl⟩ := firstFit_eq_some hfit
  rw [append_iff (List.cons_ne_nil _ _)] at h
  rw [List.append_assoc, append_iff (by unfold carve; split_ifs <;> simp)]
  cases post with
  | cons c cs =>
    rw [append_iff (List.cons_ne_nil _ _)]
    exact h
  | nil =>
    rw [List.append_nil]
    unfold carve
    split_ifs with hs
    · intro c hc
      cases hc
      exact h b rfl
    · intro c hc
      cases hc
      show 0 < b.size - n - hdr
      omega

theorem release (hhdr : 0 < hdr) (h : LastNonempty (pre ++ b :: post)) :
    LastNonempty (release hdr pre b post) := by
  have habsorb : ∀ (c : Block) ds, BlockList.absorb hdr c ds ≠ [] := by
    intro c ds
    induction ds generalizing c with
    | nil => exact List.cons_ne_nil _ _
    | cons d ds ih =>
      unfold BlockList.absorb
      split_ifs
      · exact ih _
      · exact List.cons_ne_nil _ _
  have hrel : LastNonempty (b.released :: post) := by
    rw [append_iff (List.cons_ne_nil _ _)] at h
    cases post with
    | nil =>
      intro c hc
      cases hc
      exact h b rfl
    | cons _ _ => exact h
  refine release_cases (P := fun _ r => LastNonempty r) ?_ ?_ ?_
  · exact hrel.absorb hhdr
  · intro pre c _
    rw [append_iff (habsorb _ _)]
    refine LastNonempty.absorb hhdr ?_
    exact hrel
  · intro pre c _
    rw [append_iff (habsorb _ _)]
    exact hrel.absorb hhdr

end LastNonempty

/-! ## The used addresses -/

theorem used_append :
    used hdr a (bs ++ cs) = used hdr a bs ++ used hdr (a + span hdr bs) cs := by
  induction bs generalizing a with
  | nil => rfl
  | cons b bs ih =>
    have ih' := @ih (a + (hdr + b.size))
    rw [Nat.add_assoc a] at ih'
    rw [List.cons_append, span_cons]
    simp only [used, ih']
    split_ifs
    · rfl
    · rfl

theorem used_cons_free (hb : b.free = true) :
    used hdr a (b :: bs) = used hdr (a + (hdr + b.size)) bs := if_pos hb

theorem used_cons_used (hb : b.free = false) :
    used hdr a (b :: bs) = a :: used hdr (a + (hdr + b.size)) bs :=
  if_neg (by rw [hb]; exact Bool.false_ne_true)

theorem used_absorb (hb : b.free = true) : used hdr a (absorb hdr b bs) = used hdr a (b :: bs) := by
  induction bs generalizing b with
  | nil => rfl
  | cons c cs ih =>
    unfold absorb
    split_ifs with hc
    · have hb' : (Block.mk (b.size + (hdr + c.size)) b.free).free = true := hb
      rw [ih hb', used_cons_free hb', used_cons_free hb, used_cons_free hc]
      congr 1
      show a + (hdr + (b.size + (hdr + c.size))) = _
      omega
    · rfl

/-- A used address is the place of a used block. -/
theorem exists_of_mem_used {x : ℕ} (h : x ∈ used hdr a bs) :
    ∃ pre b post, bs = pre ++ b :: post ∧ b.free = false ∧ x = a + span hdr pre := by
  induction bs generalizing a with
  | nil => cases h
  | cons b bs ih =>
    cases hb : b.free with
    | true =>
      rw [used_cons_free hb] at h
      obtain ⟨pre, c, post, rfl, hc, rfl⟩ := ih h
      exact ⟨b :: pre, c, post, rfl, hc, by rw [span_cons, Nat.add_assoc]⟩
    | false =>
      rw [used_cons_used hb] at h
      rcases List.mem_cons.mp h with rfl | h
      · exact ⟨[], b, bs, rfl, hb, rfl⟩
      · obtain ⟨pre, c, post, rfl, hc, rfl⟩ := ih h
        exact ⟨b :: pre, c, post, rfl, hc, by rw [span_cons, Nat.add_assoc]⟩

theorem used_carve : used hdr a (carve hdr slack n b ++ post) =
    a :: used hdr (a + (hdr + b.size)) post := by
  unfold carve
  split_ifs with hs
  · rfl
  · rw [List.cons_append, used_cons_used rfl, List.cons_append, used_cons_free rfl]
    congr 2
    show a + (hdr + n) + (hdr + (b.size - n - hdr)) = _
    omega

/-- **First fit adds the address it takes** to the used ones. -/
theorem used_firstFit {o : ℕ} (h : firstFit hdr slack n bs = some (o, cs)) :
    (used hdr a cs).Perm ((a + o) :: used hdr a bs) := by
  obtain ⟨pre, b, post, rfl, hb, hn, rfl, rfl⟩ := firstFit_eq_some h
  rw [List.append_assoc, used_append, used_carve, used_append, used_cons_free hb]
  exact List.perm_middle

/-- **Release takes the address of its block** from the used ones. -/
theorem used_release (hb : b.free = false) :
    (used hdr a (pre ++ b :: post)).Perm
      ((a + span hdr pre) :: used hdr a (release hdr pre b post)) := by
  have hrel : used hdr a (release hdr pre b post) =
      used hdr a pre ++ used hdr (a + span hdr pre + (hdr + b.size)) post := by
    refine release_cases (P := fun p r => used hdr a r =
      used hdr a p ++ used hdr (a + span hdr p + (hdr + b.size)) post) ?_ ?_ ?_
    · rw [used_absorb rfl, used_cons_free rfl]
      rfl
    · intro pre c hc
      rw [used_append, used_absorb hc, used_cons_free hc, used_cons_free rfl, used_append,
        used_cons_free hc, span_append, span_cons, span_nil]
      simp [used, Nat.add_assoc]
    · intro pre c hc
      rw [used_append, used_absorb rfl, used_cons_free rfl]
      rfl
  rw [hrel, used_append, used_cons_used hb]
  exact List.perm_middle

/-- The address after a used block does not exceed the next used address. -/
theorem le_of_mem_used {x : ℕ} (h : x ∈ used hdr a bs) : a ≤ x := by
  obtain ⟨pre, b, post, _, _, rfl⟩ := exists_of_mem_used h
  exact Nat.le_add_right _ _

end BlockList

/-
# Huffman trees hold their codes

Each node of a tree stands at an address, the word of bits that leads to it from the root.  The
tree built from code lengths that meet the Kraft inequality has a leaf at the code of each symbol
and no other leaf, so decoding a stream that goes on with a code gives its symbol.
-/
import Microkernel.PrefixCode
import Microkernel.InflateReader

open BitStream PrefixCode

namespace Microkernel

/-- The nodes of `t` have the addresses `addr`, its leaves are `codes`, and every node but the
root is on the way to one of the words `ways`. -/
structure HTree.Holds (t : HTree) (addr : ℕ → List Bool) (codes : Set (List Bool × ℕ))
    (ways : Set (List Bool)) : Prop where
  n_pos : 0 < t.n
  root : addr 0 = []
  inj : ∀ j < t.n, ∀ k < t.n, addr j = addr k → j = k
  child : ∀ k < t.n, ∀ b, t.ch k b = htEmpty ∨
    (∃ s, t.ch k b = htLeaf s ∧ (addr k ++ [b], s) ∈ codes) ∨
    ∃ j < t.n, t.ch k b = j ∧ addr j = addr k ++ [b]
  parent : ∀ j < t.n, j ≠ 0 → ∃ k < t.n, ∃ b, t.ch k b = j
  leaf : ∀ c ∈ codes, ∃ k < t.n, ∃ b, c.1 = addr k ++ [b] ∧ t.ch k b = htLeaf c.2
  inner : ∀ j < t.n, j ≠ 0 → ∃ w ∈ ways, addr j <+: w ∧ addr j ≠ w

variable {t : HTree} {addr : ℕ → List Bool} {codes : Set (List Bool × ℕ)}
  {ways : Set (List Bool)} {k j s p : ℕ} {b : Bool} {w : List Bool} {src : List UInt8}

theorem htLeaf_lt (s : ℕ) : htLeaf s < htEmpty := by
  simp only [htLeaf, htEmpty]
  omega

theorem htSym_htLeaf (s : ℕ) : htSym (htLeaf s) = s := by
  simp only [htSym, htLeaf]
  omega

theorem htEmpty_lt_zero : htEmpty < 0 := by decide

theorem htEmpty_lt_natCast (j : ℕ) : htEmpty < j := by
  simp only [htEmpty]
  omega

theorem HTree.set_ch (t : HTree) (k : ℕ) (b : Bool) (v : ℤ) (k' : ℕ) (b' : Bool) :
    (t.set k b v).ch k' b' = if k' = k ∧ b' = b then v else t.ch k' b' := rfl

theorem HTree.grow_ch (t : HTree) (k : ℕ) (b : Bool) :
    t.grow.ch k b = if k = t.n then htEmpty else t.ch k b := rfl

theorem htInit_holds (ways : Set (List Bool)) : htInit.Holds (fun _ => []) ∅ ways where
  n_pos := by decide
  root := rfl
  inj := by
    intro j hj k hk _
    simp only [htInit] at hj hk
    omega
  child := fun _ _ _ => Or.inl rfl
  parent := by
    intro j hj hne
    simp only [htInit] at hj
    omega
  leaf := by
    rintro c ⟨⟩
  inner := by
    intro j hj hne
    simp only [htInit] at hj
    omega

namespace HTree.Holds

/-! ## Nodes and addresses -/

/-- A child that is a node stands one bit below its parent. -/
theorem addr_of_child (h : t.Holds addr codes ways) (hk : k < t.n) (hch : t.ch k b = j) :
    j < t.n ∧ addr j = addr k ++ [b] := by
  rcases h.child k hk b with he | ⟨s, hs, -⟩ | ⟨j', hj', hch', haddr⟩
  · rw [hch] at he
    simp only [htEmpty] at he
    omega
  · rw [hch] at hs
    simp only [htLeaf] at hs
    omega
  · obtain rfl : j' = j := by
      rw [hch] at hch'
      exact_mod_cast hch'.symm
    exact ⟨hj', haddr⟩

/-- The child of a node in a direction is the node with that address. -/
theorem child_of_addr (h : t.Holds addr codes ways) (hk : k < t.n) (hj : j < t.n)
    (haddr : addr j = addr k ++ [b]) : t.ch k b = j := by
  have hne : j ≠ 0 := by
    rintro rfl
    rw [h.root] at haddr
    simp at haddr
  obtain ⟨k', hk', b', hch⟩ := h.parent j hj hne
  have hstep := (h.addr_of_child hk' hch).2
  rw [haddr] at hstep
  obtain ⟨haddrs, hbits⟩ := List.append_inj' hstep rfl
  obtain rfl : k = k' := h.inj k hk k' hk' haddrs
  obtain rfl : b = b' := by simpa using hbits
  exact hch

/-- Every word that begins the address of a node is an address. -/
theorem exists_of_begins (h : t.Holds addr codes ways) (hj : j < t.n) (hw : w <+: addr j) :
    ∃ i < t.n, addr i = w := by
  -- up from `j` through the parents, by the length of its address
  induction hlen : (addr j).length generalizing j with
  | zero =>
    have hnil : addr j = [] := List.length_eq_zero_iff.mp hlen
    rw [hnil] at hw
    exact ⟨j, hj, by rw [hnil, List.prefix_nil.mp hw]⟩
  | succ m ih =>
    have hne : j ≠ 0 := by
      rintro rfl
      rw [h.root] at hlen
      simp at hlen
    obtain ⟨k, hk, b, hch⟩ := h.parent j hj hne
    have hstep := (h.addr_of_child hk hch).2
    rw [hstep] at hw hlen
    rcases List.prefix_concat_iff.mp hw with heq | hpre
    · exact ⟨j, hj, by rw [heq, hstep]⟩
    · exact ih hk hpre (by simpa using hlen)

/-- The leaf of a code that ends one bit below a node. -/
theorem leaf_of_mem (h : t.Holds addr codes ways) (hk : k < t.n)
    (hc : (addr k ++ [b], s) ∈ codes) : t.ch k b = htLeaf s := by
  obtain ⟨k', hk', b', haddr, hch⟩ := h.leaf _ hc
  obtain ⟨haddrs, hbits⟩ := List.append_inj' haddr rfl
  obtain rfl : k = k' := h.inj k hk k' hk' haddrs
  obtain rfl : b = b' := by simpa using hbits
  exact hch

/-- The node on the way to a code that goes on below it. -/
theorem child_of_mem (h : t.Holds addr codes ways) (hk : k < t.n) {b' : Bool}
    (hc : (addr k ++ b :: b' :: w, s) ∈ codes) :
    ∃ j < t.n, t.ch k b = j ∧ addr j = addr k ++ [b] := by
  obtain ⟨k', hk', c, haddr, -⟩ := h.leaf _ hc
  have hpre : addr k ++ [b] <+: addr k' := by
    have hsplit : addr k ++ [b] ++ (b' :: w) = addr k' ++ [c] := by
      rw [List.append_assoc]
      exact haddr
    refine List.prefix_of_prefix_length_le (List.prefix_append _ (b' :: w)) ?_ ?_
    · rw [hsplit]
      exact List.prefix_append _ _
    · have hlen := congrArg List.length hsplit
      simp only [List.length_append, List.length_cons, List.length_nil] at hlen ⊢
      omega
  obtain ⟨j, hj, haddr'⟩ := h.exists_of_begins hk' hpre
  exact ⟨j, hj, h.child_of_addr hk hj haddr', haddr'⟩

/-- Decoding below a node: the rest of a code leads to its symbol. -/
theorem htDecodeFrom_eq (h : t.Holds addr codes ways) (hk : k < t.n) {depth : ℕ}
    (hw : w ≠ []) (hc : (addr k ++ w, s) ∈ codes) (hdepth : w.length ≤ depth)
    (hspells : Spells (bitOf src) p w) :
    htDecodeFrom t depth k (readerAt src p) = ((s : ℤ), readerAt src (p + w.length)) := by
  induction w generalizing k depth p with
  | nil => exact absurd rfl hw
  | cons b w ih =>
    obtain ⟨depth, rfl⟩ : ∃ d, depth = d + 1 := ⟨depth - 1, by simp at hdepth; omega⟩
    obtain ⟨hb, hrest⟩ := hspells
    have hbit : ((bitOf src p).toNat == 1) = b := by
      rw [hb]
      cases b <;> rfl
    simp only [htDecodeFrom, bitsRead_readerAt, field_one, hbit]
    cases w with
    | nil =>
      have hleaf := h.leaf_of_mem hk hc
      rw [hleaf, if_neg (htLeaf_lt s).ne, if_pos (htLeaf_lt s), htSym_htLeaf]
      rfl
    | cons b' w =>
      obtain ⟨j, hj, hch, haddr⟩ := h.child_of_mem hk hc
      have hlt := htEmpty_lt_natCast j
      rw [hch, if_neg hlt.ne', if_neg hlt.le.not_gt, Int.toNat_natCast]
      have hc' : (addr j ++ b' :: w, s) ∈ codes := by
        rw [haddr, List.append_assoc]
        exact hc
      rw [ih hj (by simp) hc' (by simpa using hdepth) hrest]
      simp only [List.length_cons]
      congr 2
      omega

/-- Decoding below a node where the stream goes on with the rest of no code. -/
theorem htDecodeFrom_none (h : t.Holds addr codes ways) (hk : k < t.n) (depth : ℕ)
    (hnone : ∀ c ∈ codes, ∀ w, c.1 = addr k ++ w → ¬ Spells (bitOf src) p w) :
    (htDecodeFrom t depth k (readerAt src p)).1 = -1 := by
  induction depth generalizing k p with
  | zero => rfl
  | succ depth ih =>
    have hbit : ((bitOf src p).toNat == 1) = bitOf src p := by cases bitOf src p <;> rfl
    simp only [htDecodeFrom, bitsRead_readerAt, field_one, hbit]
    rcases h.child k hk (bitOf src p) with he | ⟨s, -, hc⟩ | ⟨j, hj, hch, haddr⟩
    · rw [he, if_pos rfl]
    · -- a leaf there would be a code that the stream goes on with
      exact absurd ⟨rfl, trivial⟩ (hnone _ hc [bitOf src p] rfl)
    · have hlt := htEmpty_lt_natCast j
      rw [hch, if_neg hlt.ne', if_neg hlt.le.not_gt, Int.toNat_natCast]
      refine ih hj fun c hc w hw hspells => ?_
      refine hnone c hc (bitOf src p :: w) ?_ ⟨rfl, hspells⟩
      rw [hw, haddr, List.append_assoc]
      rfl

/-! ## Insertion -/

/-- A leaf for a word that no code begins and that begins no code and no way. -/
theorem set_leaf (h : t.Holds addr codes ways) (hk : k < t.n)
    (hnew : ∀ c ∈ codes, c.1 ≠ addr k ++ [b])
    (hways : ∀ v ∈ ways, addr k ++ [b] <+: v → addr k ++ [b] = v) :
    (t.set k b (htLeaf s)).Holds addr (insert (addr k ++ [b], s) codes) ways where
  n_pos := h.n_pos
  root := h.root
  inj := h.inj
  child := by
    intro k' hk' b'
    by_cases heq : k' = k ∧ b' = b
    · obtain ⟨rfl, rfl⟩ := heq
      exact Or.inr (Or.inl ⟨s, by simp [HTree.set_ch], Set.mem_insert _ _⟩)
    · rw [HTree.set_ch, if_neg heq]
      rcases h.child k' hk' b' with he | ⟨s', hs, hc⟩ | hj
      · exact Or.inl he
      · exact Or.inr (Or.inl ⟨s', hs, Set.mem_insert_of_mem _ hc⟩)
      · exact Or.inr (Or.inr hj)
  parent := by
    intro j hj hne
    obtain ⟨k', hk', b', hch⟩ := h.parent j hj hne
    refine ⟨k', hk', b', ?_⟩
    rw [HTree.set_ch, if_neg]
    · exact hch
    · rintro ⟨rfl, rfl⟩
      -- a node there would be on the way to a word that goes on after the new code
      have haddr := (h.addr_of_child hk' hch).2
      obtain ⟨v, hv, hpre, hne'⟩ := h.inner j hj hne
      rw [haddr] at hpre hne'
      exact hne' (hways v hv hpre)
  leaf := by
    intro c hc
    rcases Set.mem_insert_iff.mp hc with rfl | hold
    · exact ⟨k, hk, b, rfl, by simp [HTree.set_ch]⟩
    · obtain ⟨k', hk', b', haddr, hch⟩ := h.leaf c hold
      refine ⟨k', hk', b', haddr, ?_⟩
      rw [HTree.set_ch, if_neg]
      · exact hch
      · rintro ⟨rfl, rfl⟩
        exact hnew c hold haddr
  inner := h.inner

/-- A new node below one that has no child there. -/
theorem set_node (h : t.Holds addr codes ways) (hk : k < t.n) (hch : t.ch k b = htEmpty)
    (hway : ∃ v ∈ ways, addr k ++ [b] <+: v ∧ addr k ++ [b] ≠ v) :
    (t.grow.set k b t.n).Holds (fun j => if j = t.n then addr k ++ [b] else addr j) codes ways := by
  have hold : ∀ j, j < t.n → (if j = t.n then addr k ++ [b] else addr j) = addr j := by
    intro j hj
    rw [if_neg (Nat.ne_of_lt hj)]
  have hfree : ∀ j < t.n, addr j ≠ addr k ++ [b] := by
    intro j hj haddr
    rw [h.child_of_addr hk hj haddr] at hch
    simp only [htEmpty] at hch
    omega
  have hchild : ∀ k' < t.n, ∀ b', ¬ (k' = k ∧ b' = b) → (t.grow.set k b t.n).ch k' b' = t.ch k' b' := by
    intro k' hk' b' hne
    rw [HTree.set_ch, if_neg hne, HTree.grow_ch, if_neg (Nat.ne_of_lt hk')]
  have hnew : (t.grow.set k b t.n).ch k b = (t.n : ℤ) := by simp [HTree.set_ch]
  have hn : (t.grow.set k b t.n).n = t.n + 1 := rfl
  refine ⟨?_, ?_, ?_, ?_, ?_, ?_, ?_⟩
  · rw [hn]
    omega
  · have hpos := h.n_pos
    rw [hold 0 hpos, h.root]
  · intro i hi j hj haddr
    rw [hn] at hi hj
    rcases Nat.lt_succ_iff_lt_or_eq.mp hi with hi | rfl <;>
      rcases Nat.lt_succ_iff_lt_or_eq.mp hj with hj | rfl
    · rw [hold i hi, hold j hj] at haddr
      exact h.inj i hi j hj haddr
    · rw [hold i hi, if_pos rfl] at haddr
      exact absurd haddr (hfree i hi)
    · rw [hold j hj, if_pos rfl] at haddr
      exact absurd haddr.symm (hfree j hj)
    · rfl
  · intro k' hk' b'
    rw [hn] at hk'
    rcases Nat.lt_succ_iff_lt_or_eq.mp hk' with hk' | rfl
    · rw [hold k' hk']
      by_cases heq : k' = k ∧ b' = b
      · obtain ⟨rfl, rfl⟩ := heq
        refine Or.inr (Or.inr ⟨t.n, by rw [hn]; omega, hnew, ?_⟩)
        rw [if_pos rfl]
      · rw [hchild k' hk' b' heq]
        rcases h.child k' hk' b' with he | hs | ⟨j, hj, hch', haddr⟩
        · exact Or.inl he
        · exact Or.inr (Or.inl hs)
        · refine Or.inr (Or.inr ⟨j, by rw [hn]; omega, hch', ?_⟩)
          rw [hold j hj]
          exact haddr
    · left
      have hne : ¬ (t.n = k ∧ b' = b) := by
        rintro ⟨rfl, -⟩
        omega
      rw [HTree.set_ch, if_neg hne, HTree.grow_ch, if_pos rfl]
  · intro j hj hne
    rw [hn] at hj
    rcases Nat.lt_succ_iff_lt_or_eq.mp hj with hj | rfl
    · obtain ⟨k', hk', b', hch'⟩ := h.parent j hj hne
      refine ⟨k', by rw [hn]; omega, b', ?_⟩
      rw [hchild k' hk' b', hch']
      rintro ⟨rfl, rfl⟩
      rw [hch'] at hch
      simp only [htEmpty] at hch
      omega
    · exact ⟨k, by rw [hn]; omega, b, hnew⟩
  · intro c hc
    obtain ⟨k', hk', b', haddr, hch'⟩ := h.leaf c hc
    refine ⟨k', by rw [hn]; omega, b', ?_, ?_⟩
    · rw [hold k' hk']
      exact haddr
    · rw [hchild k' hk' b', hch']
      rintro ⟨rfl, rfl⟩
      rw [hch'] at hch
      exact absurd hch (htLeaf_lt _).ne
  · intro j hj hne
    rw [hn] at hj
    rcases Nat.lt_succ_iff_lt_or_eq.mp hj with hj | rfl
    · rw [hold j hj]
      exact h.inner j hj hne
    · rw [if_pos rfl]
      exact hway

/-- Inserting below a node: `w` is the whole code, of which the last `i + 1` bits are left. -/
theorem htInsertFrom (h : t.Holds addr codes ways) (hk : k < t.n) {code i : ℕ}
    (hw : w = addr k ++ highFirst (i + 1) code) (hway : w ∈ ways)
    (hfree : ∀ c ∈ codes, ¬ c.1 <+: w) (hways : ∀ v ∈ ways, w <+: v → w = v)
    (hn : t.n + i ≤ htMax) :
    ∃ addr', (htInsertFrom code s i t k).Holds addr' (insert (w, s) codes) ways ∧
      (Microkernel.htInsertFrom code s i t k).n ≤ t.n + i := by
  induction i generalizing t addr k with
  | zero =>
    have hlast : w = addr k ++ [code.testBit 0] := hw
    refine ⟨addr, ?_, le_rfl⟩
    rw [hlast] at hfree hways ⊢
    refine h.set_leaf hk (fun c hc heq => hfree c hc ?_) hways
    rw [heq]
  | succ i ih =>
    have hstep : w = addr k ++ [code.testBit (i + 1)] ++ highFirst (i + 1) code := by
      rw [hw, List.append_assoc]
      rfl
    have hpre : addr k ++ [code.testBit (i + 1)] <+: w := ⟨_, hstep.symm⟩
    have hproper : addr k ++ [code.testBit (i + 1)] ≠ w := by
      intro heq
      have hlen := congrArg List.length (heq.trans hstep)
      simp at hlen
    simp only [Microkernel.htInsertFrom]
    rcases h.child k hk (code.testBit (i + 1)) with he | ⟨s', -, hc⟩ | ⟨j, hj, hch, haddr⟩
    · -- no child yet: a new node
      rw [he, if_pos htEmpty_lt_zero, if_neg (by omega)]
      have hnode := h.set_node hk he ⟨w, hway, hpre, hproper⟩
      have hnew : (if t.n = t.n then addr k ++ [code.testBit (i + 1)] else addr t.n) =
          addr k ++ [code.testBit (i + 1)] := if_pos rfl
      obtain ⟨addr', hholds, hsize⟩ := ih hnode (Nat.lt_succ_self t.n)
        (by rw [hnew]; exact hstep) (show t.n + 1 + i ≤ htMax by omega)
      refine ⟨addr', hholds, hsize.trans ?_⟩
      show t.n + 1 + i ≤ t.n + (i + 1)
      omega
    · -- a leaf there would be a code that begins the new one
      exact absurd hpre (hfree _ hc)
    · rw [hch, if_neg (by omega), Int.toNat_natCast]
      obtain ⟨addr', hholds, hsize⟩ := ih h hj (by rw [haddr]; exact hstep) (by omega)
      exact ⟨addr', hholds, by omega⟩

end HTree.Holds

/-! ## Trees from code lengths -/

section Build

variable {lens : List ℕ}

/-- The codes of the symbols below `i`. -/
def codesBelow (lens : List ℕ) (i : ℕ) : Set (List Bool × ℕ) :=
  {c | c.2 < i ∧ Used lens c.2 ∧ c.1 = codeword lens c.2}

/-- All code words. -/
def codewords (lens : List ℕ) : Set (List Bool) := {w | ∃ s, Used lens s ∧ w = codeword lens s}

theorem blCount_eq {bits : ℕ} (hb : bits ≠ 0) (hle : bits ≤ 15) : blCount lens bits = lens.count bits := by
  rw [blCount, List.count]
  refine List.countP_congr fun l _ => ?_
  simp only [decide_eq_true_eq, beq_iff_eq]
  constructor
  · exact fun h => h.1
  · rintro rfl
    exact ⟨rfl, by omega, hle⟩

theorem blCount_zero : blCount lens 0 = 0 := by
  rw [blCount, List.countP_eq_zero]
  intro l _
  simp only [decide_eq_true_eq]
  rintro ⟨rfl, h, -⟩
  omega

/-- The loop over the lengths computes the first code of each length. -/
theorem nextCode_eq {bits : ℕ} (hle : bits ≤ 16) : nextCode lens bits = first lens bits := by
  induction bits with
  | zero => rw [nextCode, first_zero]
  | succ b ih =>
    rw [nextCode, ih (by omega)]
    rcases Nat.eq_zero_or_pos b with rfl | hb
    · rw [blCount_zero, first_zero, first_one]
    · rw [blCount_eq hb.ne' (by omega), first_succ hb.ne']

theorem highFirst_len_pred {s : ℕ} (hs : Used lens s) :
    codeword lens s = highFirst (len lens s - 1 + 1) (value lens s) := by
  have hpos : len lens s - 1 + 1 = len lens s := Nat.sub_add_cancel (Nat.pos_of_ne_zero hs)
  rw [hpos, codeword]

/-- Inserting the code of the next symbol. -/
theorem HTree.Holds.htInsert (hfits : Fits lens 15) {i : ℕ} (hi : Used lens i)
    (h : t.Holds addr (codesBelow lens i) (codewords lens)) (hn : t.n + 14 ≤ htMax) :
    ∃ addr', (htInsert t (value lens i) (len lens i) i).Holds addr' (codesBelow lens (i + 1))
        (codewords lens) ∧ (Microkernel.htInsert t (value lens i) (len lens i) i).n ≤ t.n + 14 := by
  have hlen := hfits.len_le hi
  have hfree : ∀ c ∈ codesBelow lens i, ¬ c.1 <+: codeword lens i := by
    rintro ⟨w, s⟩ ⟨hlt, hs, hword⟩ hpre
    simp only at hlt hs hword hpre
    rw [hword] at hpre
    have heq := hfits.eq_of_begins hs hi hpre
    omega
  have hways : ∀ v ∈ codewords lens, codeword lens i <+: v → codeword lens i = v := by
    rintro v ⟨s, hs, rfl⟩ hpre
    rw [hfits.eq_of_begins hi hs hpre]
  have hnext : codesBelow lens (i + 1) = insert (codeword lens i, i) (codesBelow lens i) := by
    ext ⟨w, s⟩
    simp only [codesBelow, Set.mem_ofPred_eq, Set.mem_insert_iff, Prod.mk.injEq]
    constructor
    · rintro ⟨hlt, hs, rfl⟩
      rcases Nat.lt_succ_iff_lt_or_eq.mp hlt with hlt | rfl
      · exact Or.inr ⟨hlt, hs, rfl⟩
      · exact Or.inl ⟨rfl, rfl⟩
    · rintro (⟨rfl, rfl⟩ | ⟨hlt, hs, rfl⟩)
      · exact ⟨Nat.lt_succ_self _, hi, rfl⟩
      · exact ⟨by omega, hs, rfl⟩
  rw [hnext]
  obtain ⟨addr', hholds, hsize⟩ := h.htInsertFrom (s := i) h.n_pos
    (by rw [h.root, List.nil_append]; exact highFirst_len_pred hi) ⟨i, hi, rfl⟩ hfree hways
    (show t.n + (len lens i - 1) ≤ htMax by omega)
  refine ⟨addr', hholds, hsize.trans ?_⟩
  omega

/-- The insertion loop from symbol `pre.length` on. -/
theorem HTree.Holds.htBuildFrom (hfits : Fits lens 15) {pre rest : List ℕ}
    (hsplit : lens = pre ++ rest) {next : ℕ → ℕ}
    (hnext : ∀ b, b ≠ 0 → b ≤ 15 → next b = first lens b + rank lens b pre.length)
    (h : t.Holds addr (codesBelow lens pre.length) (codewords lens))
    (hn : t.n + 14 * rest.length ≤ htMax) :
    ∃ addr', (htBuildFrom rest pre.length next t).Holds addr' (codesBelow lens lens.length)
        (codewords lens) ∧
      (Microkernel.htBuildFrom rest pre.length next t).n ≤ t.n + 14 * rest.length := by
  induction rest generalizing pre next t addr with
  | nil =>
    rw [List.append_nil] at hsplit
    rw [hsplit] at h ⊢
    exact ⟨addr, h, Nat.le_add_right _ _⟩
  | cons l rest ih =>
    have hget : len lens pre.length = l := by
      rw [len, hsplit, List.getD_append_right _ _ _ _ le_rfl, Nat.sub_self]
      rfl
    have hsplit' : lens = (pre ++ [l]) ++ rest := by rw [hsplit, List.append_assoc]; rfl
    have hlen : (pre ++ [l]).length = pre.length + 1 := by simp
    have hrank : ∀ b, rank lens b (pre.length + 1) = rank lens b pre.length + if b = l then 1 else 0 := by
      intro b
      have hone : lens.take (pre.length + 1) = pre ++ [l] := by
        rw [hsplit', ← hlen]
        exact List.take_left' rfl
      have hzero : lens.take pre.length = pre := by
        rw [hsplit]
        exact List.take_left' rfl
      rw [rank, rank, hone, hzero, List.count_append, List.count_singleton]
      simp only [beq_iff_eq, @eq_comm _ l b]
    rw [List.length_cons] at hn ⊢
    rw [Microkernel.htBuildFrom]
    split_ifs with hl
    · have hused : Used lens pre.length := by
        rw [Used, hget]
        omega
      have hle : l ≤ 15 := by
        rw [← hget]
        exact hfits.len_le hused
      have hcode : next l = value lens pre.length := by
        rw [value_eq hused, hget]
        exact hnext l (by omega) hle
      obtain ⟨addr', hholds, hsize⟩ := h.htInsert hfits hused (by omega)
      rw [hget] at hholds hsize
      rw [hcode, ← hlen]
      rw [← hlen] at hholds
      have hnext' : ∀ b, b ≠ 0 → b ≤ 15 → (if b = l then next b + 1 else next b) =
          first lens b + rank lens b (pre ++ [l]).length := by
        intro b hb hb15
        rw [hlen, hrank]
        split_ifs with heq
        · rw [hnext b hb hb15]
          omega
        · rw [hnext b hb hb15]
          omega
      obtain ⟨addr'', hbuilt, hnodes⟩ := ih hsplit' hnext' hholds (by omega)
      exact ⟨addr'', hbuilt, by omega⟩
    · have hunused : ¬ Used lens pre.length := by
        rw [Used, hget]
        omega
      have hsame : codesBelow lens (pre.length + 1) = codesBelow lens pre.length := by
        ext ⟨w, s⟩
        simp only [codesBelow, Set.mem_ofPred_eq]
        constructor
        · rintro ⟨hlt, hs, rfl⟩
          rcases Nat.lt_succ_iff_lt_or_eq.mp hlt with hlt | rfl
          · exact ⟨hlt, hs, rfl⟩
          · exact absurd hs hunused
        · rintro ⟨hlt, hs, rfl⟩
          exact ⟨by omega, hs, rfl⟩
      rw [← hlen]
      rw [← hsame, ← hlen] at h
      have hnext' : ∀ b, b ≠ 0 → b ≤ 15 → next b = first lens b + rank lens b (pre ++ [l]).length := by
        intro b hb hb15
        rw [hlen, hrank, if_neg (by omega), hnext b hb hb15, Nat.add_zero]
      obtain ⟨addr'', hbuilt, hnodes⟩ := ih hsplit' hnext' h (by omega)
      exact ⟨addr'', hbuilt, by omega⟩

/-- **The tree of fitting code lengths holds exactly their codes**, with at most 14 nodes for
each. -/
theorem htBuild_holds (hfits : Fits lens 15) (hcount : 1 + 14 * lens.length ≤ htMax) :
    ∃ addr, (htBuild lens).Holds addr (codesBelow lens lens.length) (codewords lens) ∧
      (htBuild lens).n ≤ 1 + 14 * lens.length := by
  have hnone : codesBelow lens ([] : List ℕ).length = ∅ := by
    ext ⟨w, s⟩
    simp [codesBelow]
  have hinit := htInit_holds (codewords lens)
  rw [← hnone] at hinit
  refine hinit.htBuildFrom hfits (List.nil_append lens).symm (fun b _ hb => ?_) hcount
  rw [nextCode_eq (by omega)]
  simp [rank]

/-- **Decoding a code** gives its symbol and reads nothing more. -/
theorem htDecode_codeword (hfits : Fits lens 15) (hcount : 1 + 14 * lens.length ≤ htMax)
    (hs : Used lens s) (hspells : Spells (bitOf src) p (codeword lens s)) :
    htDecode (htBuild lens) (readerAt src p) = ((s : ℤ), readerAt src (p + len lens s)) := by
  obtain ⟨addr, h, -⟩ := htBuild_holds hfits hcount
  have hlen : (codeword lens s).length = len lens s := length_highFirst
  have hne : codeword lens s ≠ [] := by
    intro hnil
    rw [hnil] at hlen
    exact hs hlen.symm
  have hmem : (addr 0 ++ codeword lens s, s) ∈ codesBelow lens lens.length := by
    rw [h.root]
    exact ⟨hs.lt, hs, rfl⟩
  have hle := hfits.len_le hs
  rw [htDecode, h.htDecodeFrom_eq h.n_pos hne hmem (by omega) hspells, hlen]

/-- **Where no code follows** there is no symbol. -/
theorem htDecode_none (hfits : Fits lens 15) (hcount : 1 + 14 * lens.length ≤ htMax)
    (hnone : ∀ s, Used lens s → ¬ Spells (bitOf src) p (codeword lens s)) :
    (htDecode (htBuild lens) (readerAt src p)).1 = -1 := by
  obtain ⟨addr, h, -⟩ := htBuild_holds hfits hcount
  refine h.htDecodeFrom_none h.n_pos 16 ?_
  rintro ⟨v, s⟩ ⟨-, hs, hword⟩ w hw hspells
  rw [h.root, List.nil_append] at hw
  refine hnone s hs ?_
  rw [← hword, hw]
  exact hspells

/-! ## The nodes of the tree -/

/-- An insertion takes no node back; one that finds no node moves the counter past `htMax`. -/
theorem le_htInsertFrom_n (code s i : ℕ) (t : HTree) (k : ℕ) : t.n ≤ (htInsertFrom code s i t k).n := by
  induction i generalizing t k with
  | zero => exact le_rfl
  | succ i ih =>
    simp only [htInsertFrom]
    split_ifs
    · exact Nat.le_succ _
    · exact (Nat.le_succ _).trans (ih (t.grow.set k _ t.n) t.n)
    · exact ih t _

theorem le_htBuildFrom_n (ls : List ℕ) (i : ℕ) (next : ℕ → ℕ) (t : HTree) :
    t.n ≤ (htBuildFrom ls i next t).n := by
  induction ls generalizing i next t with
  | nil => exact le_rfl
  | cons l ls ih =>
    rw [htBuildFrom]
    split_ifs
    · exact (le_htInsertFrom_n _ _ _ _ _).trans (ih _ _ _)
    · exact ih _ _ _

/-- The first rounds of the insertion loop take no more nodes than all of them. -/
theorem htBuildFrom_take_n_le (ls : List ℕ) (i : ℕ) (next : ℕ → ℕ) (t : HTree) (m : ℕ) :
    (htBuildFrom (ls.take m) i next t).n ≤ (htBuildFrom ls i next t).n := by
  induction ls generalizing i next t m with
  | nil => rw [List.take_nil]
  | cons l ls ih =>
    cases m with
    | zero => exact le_htBuildFrom_n _ _ _ _
    | succ m =>
      rw [List.take_succ_cons, htBuildFrom, htBuildFrom]
      split_ifs
      · exact ih _ _ _ _
      · exact ih _ _ _ _

/-- The children of the nodes are numbers of type `int16_t`. -/
theorem htBuild_ch_fits (hfits : Fits lens 15) (hcount : lens.length ≤ 288)
    (hk : k < (htBuild lens).n) :
    -2 ^ 15 ≤ (htBuild lens).ch k b ∧ (htBuild lens).ch k b < 2 ^ 15 := by
  obtain ⟨addr, h, hnodes⟩ := htBuild_holds hfits (show 1 + 14 * lens.length ≤ 8192 by omega)
  rcases h.child k hk b with he | ⟨s, hs, hlt, -⟩ | ⟨j, hj, hch, -⟩
  · rw [he]
    decide
  · have hsym : s < lens.length := hlt
    rw [hs, htLeaf]
    omega
  · rw [hch]
    omega

/-- **The tables of canonical codes.**  For up to 288 code lengths that meet the Kraft inequality,
`ht_build` finds a node whenever it needs one, and `ht_decode` gives the symbol of the code that
follows, after reading exactly that code, and -1 if none does. -/
theorem htBuild_decodes (hcount : lens.length ≤ 288) (hfits : Fits lens 15) :
    (∀ i, (htBuildFrom (lens.take i) 0 (nextCode lens) htInit).n ≤ htMax) ∧
      ∀ (src : List UInt8) (p : ℕ),
        (∀ s, Used lens s → Spells (bitOf src) p (codeword lens s) →
          htDecode (htBuild lens) (readerAt src p) = ((s : ℤ), readerAt src (p + len lens s))) ∧
        ((∀ s, Used lens s → ¬ Spells (bitOf src) p (codeword lens s)) →
          (htDecode (htBuild lens) (readerAt src p)).1 = -1) := by
  have hroom : 1 + 14 * lens.length ≤ htMax := show 1 + 14 * lens.length ≤ 8192 by omega
  refine ⟨fun i => ?_, fun src p => ⟨fun s hs hspells => ?_, fun hnone => ?_⟩⟩
  · obtain ⟨addr, -, hnodes⟩ := htBuild_holds hfits hroom
    exact (htBuildFrom_take_n_le lens 0 (nextCode lens) htInit i).trans (hnodes.trans hroom)
  · exact htDecode_codeword hfits hroom hs hspells
  · exact htDecode_none hfits hroom hnone

end Build

/-- Codes of two, one and three bits: a stream that goes on with 110, and one that goes on with no
code. -/
theorem htBuild_decodes_threeCodes :
    htDecode (htBuild [2, 1, 3]) (readerAt [0b011] 0) = (2, readerAt [0b011] 3) ∧
      (htDecode (htBuild [2, 1, 3]) (readerAt [0b111] 0)).1 = -1 := by
  have h := (@htBuild_decodes [2, 1, 3] (by decide) (by decide)).2
  refine ⟨(h [0b011] 0).1 2 (by decide) ?_, (h [0b111] 0).2 ?_⟩
  · rw [show codeword [2, 1, 3] 2 = [true, true, false] by decide]
    exact ⟨rfl, rfl, rfl, trivial⟩
  · intro s hs hspells
    have hlt : s < 3 := hs.lt
    interval_cases s
    · rw [show codeword [2, 1, 3] 0 = [true, false] by decide] at hspells
      exact absurd hspells.2.1 (by decide)
    · rw [show codeword [2, 1, 3] 1 = [false] by decide] at hspells
      exact absurd hspells.1 (by decide)
    · rw [show codeword [2, 1, 3] 2 = [true, true, false] by decide] at hspells
      exact absurd hspells.2.2.1 (by decide)

end Microkernel

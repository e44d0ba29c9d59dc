/-
# Pieces of buffers

The bytes of a buffer as pieces one after another: loading a piece, storing a number over one, putting
one in and taking one out.  The loops that move bytes inside a buffer are those of C.  Nothing here is
about a data format.
-/
import Microkernel.Buffers
import Microkernel.ByteNumbers

open Access ByteNumbers

/-- The buffer `b'` is `b` but for the bytes from `lo` to `hi`. -/
structure SameOutside (b b' : Buffer) (lo hi : ℕ) : Prop where
  size_eq : b'.size = b.size
  mem_eq : ∀ x, x < lo ∨ hi ≤ x → b'.mem x = b.mem x

namespace SameOutside

variable {b b' c : Buffer} {lo hi lo' hi' : ℕ}

theorem trans (h : SameOutside b b' lo hi) (h' : SameOutside b' c lo hi) : SameOutside b c lo hi :=
  ⟨h'.size_eq.trans h.size_eq, fun x hx => (h'.mem_eq x hx).trans (h.mem_eq x hx)⟩

theorem widen (h : SameOutside b b' lo hi) (hlo : lo' ≤ lo) (hhi : hi ≤ hi') : SameOutside b b' lo' hi' :=
  ⟨h.size_eq, fun x hx => h.mem_eq x (by omega)⟩

end SameOutside

namespace Buffer

variable {b b' : Buffer} {off : ℕ} {bs l l' f : List UInt8}

/-- What a buffer holds, byte by byte. -/
theorem holds_iff : b.Holds off bs ↔
    off + bs.length ≤ b.size ∧ ∀ i < bs.length, bs[i]? = some (b.mem (off + i)) := by
  unfold Holds
  constructor
  · rintro ⟨hle, heq⟩
    refine ⟨hle, ?_⟩
    intro i hi
    rw [← heq, List.length_map, List.length_range] at hi
    rw [← heq, List.getElem?_map, List.getElem?_range hi]
    rfl
  · rintro ⟨hle, hbytes⟩
    refine ⟨hle, ?_⟩
    apply List.ext_getElem?
    intro i
    rcases Nat.lt_or_ge i bs.length with hi | hi
    · rw [List.getElem?_map, List.getElem?_range hi, hbytes i hi]
      rfl
    · rw [List.getElem?_eq_none hi, List.getElem?_eq_none (by rwa [List.length_map, List.length_range])]

theorem Holds.congr (h : b.Holds off bs) (hsize : off + bs.length ≤ b'.size)
    (hsame : ∀ x, off ≤ x → x < off + bs.length → b'.mem x = b.mem x) : b'.Holds off bs := by
  rw [holds_iff] at h ⊢
  refine ⟨hsize, ?_⟩
  intro i hi
  rw [hsame (off + i) (by omega) (by omega)]
  exact h.2 i hi

theorem Holds.sameOutside {lo hi : ℕ} (h : b.Holds off bs) (hb : SameOutside b b' lo hi)
    (hout : off + bs.length ≤ lo ∨ hi ≤ off) : b'.Holds off bs := by
  apply h.congr
  · rw [hb.size_eq]
    exact h.1
  · intro x hx hx'
    exact hb.mem_eq x (by omega)

/-- A buffer holds the bytes of a number that it has. -/
theorem loadLE_eq_numberOf (m : Memory) (a w : ℕ) :
    m.loadLE a w = numberOf ((List.range w).map fun i => m (a + i)) := by
  induction w generalizing a with
  | zero => rfl
  | succ w ih =>
    rw [Memory.loadLE, ih, List.range_succ_eq_map, List.map_cons, numberOf_cons, List.map_map, Nat.add_zero]
    congr 4
    funext i
    rw [Function.comp_apply, Nat.succ_eq_add_one, Nat.add_assoc, Nat.add_comm 1 i]

theorem Holds.loadLE_eq (h : b.Holds off bs) : b.mem.loadLE off bs.length = numberOf bs := by
  rw [loadLE_eq_numberOf, h.2]

/-- **Loading a piece**. -/
theorem Holds.load_eq (h : b.Holds off bs) : b.load off bs.length = .ok (numberOf bs) := by
  rw [b.load_of_le h.1, h.loadLE_eq]

/-- Loading a number inside a piece. -/
theorem Holds.loadLE_numberAt {i w : ℕ} (h : b.Holds off bs) (hle : i + w ≤ bs.length) :
    b.mem.loadLE (off + i) w = numberAt bs i w := by
  have hsplit : bs = bs.take i ++ ((bs.drop i).take w ++ (bs.drop i).drop w) := by
    rw [List.take_append_drop, List.take_append_drop]
  rw [hsplit, holds_append, holds_append] at h
  have hlen : ((bs.drop i).take w).length = w := by
    rw [List.length_take, List.length_drop]
    omega
  have hload := h.2.1.loadLE_eq
  rw [hlen, List.length_take_of_le (by omega)] at hload
  exact hload

theorem Holds.load_numberAt {i w : ℕ} (h : b.Holds off bs) (hle : i + w ≤ bs.length) :
    b.load (off + i) w = .ok (numberAt bs i w) := by
  have hin := h.1
  rw [b.load_of_le (by omega), h.loadLE_numberAt hle]

/-- The bytes stored for a number are its bytes. -/
theorem storeLE_inside (m : Memory) (v w : ℕ) : ∀ {a i : ℕ}, i < w →
    (bytesOf v w)[i]? = some (m.storeLE a v w (a + i)) := by
  induction w generalizing m v with
  | zero =>
    intro a i hi
    cases hi
  | succ w ih =>
    intro a i hi
    rw [bytesOf, Memory.storeLE]
    cases i with
    | zero =>
      rw [Memory.storeLE_of_outside _ _ (by omega), Nat.add_zero, Memory.store8_same]
      rfl
    | succ i =>
      rw [List.getElem?_cons_succ, ih (m.store8 a (UInt8.ofNat v)) (v / 2 ^ 8) (a := a + 1) (i := i) (by omega)]
      congr 2
      omega

/-- **Storing a number over a piece**. -/
theorem Holds.store_eq (h : b.Holds off (l ++ (f ++ l'))) (v : ℕ) :
    ∃ b', b.store (off + l.length) v f.length = .ok b' ∧
      b'.Holds off (l ++ (bytesOf v f.length ++ l')) ∧
      SameOutside b b' (off + l.length) (off + l.length + f.length) := by
  have hle := h.1
  simp only [List.length_append] at hle
  have hsame : SameOutside b ⟨b.size, b.mem.storeLE (off + l.length) v f.length⟩ (off + l.length)
      (off + l.length + f.length) :=
    ⟨rfl, fun x hx => Memory.storeLE_of_outside _ _ hx⟩
  refine ⟨_, if_pos (by omega), ?_, hsame⟩
  rw [holds_append, holds_append] at h ⊢
  obtain ⟨hl, -, hl'⟩ := h
  refine ⟨hl.sameOutside hsame (by omega), ?_, ?_⟩
  · rw [holds_iff, length_bytesOf]
    refine ⟨by dsimp only; omega, ?_⟩
    intro i hi
    exact storeLE_inside _ _ _ hi
  · rw [length_bytesOf]
    exact hl'.sameOutside hsame (by omega)

/-! ## Moving bytes -/

/-- The loop that moves the `k` bytes from `src` on up by `n`, from the last one down. -/
def moveUpLoop (src n : ℕ) : ℕ → Buffer → Access Buffer
  | 0, b => .ok b
  | k + 1, b =>
    (b.load (u32 (src + k)) 1).bind fun v =>
      (b.store (u32 (src + n + k)) v 1).bind fun b => moveUpLoop src n k b

/-- The loop of `memcpy` inside a buffer, from the `i`-th byte on. -/
def memcpyLoop (dst src : ℕ) : ℕ → ℕ → Buffer → Access Buffer
  | 0, _, b => .ok b
  | k + 1, i, b =>
    (b.load (src + i) 1).bind fun v => (b.store (dst + i) v 1).bind fun b => memcpyLoop dst src k (i + 1) b

/-- A byte that is loaded and stored again. -/
theorem storeLE_byte (m m' : Memory) (a a' x : ℕ) :
    m'.storeLE a' (m.loadLE a 1) 1 x = if x = a' then m a else m' x := by
  have hbyte : UInt8.ofNat (m.loadLE a 1) = m a := by
    rw [Memory.loadLE, Memory.loadLE, Nat.mul_zero, Nat.add_zero, UInt8.ofNat_toNat]
  show m'.store8 a' _ x = _
  rw [hbyte]
  rfl

/-- **Bytes are moved up**, also over the place where they were. -/
theorem moveUpLoop_eq {src n : ℕ} (k : ℕ) : ∀ {b : Buffer}, src + n + k ≤ b.size → b.size ≤ 2 ^ 32 →
    moveUpLoop src n k b = .ok
      ⟨b.size, fun x => if src + n ≤ x ∧ x < src + n + k then b.mem (x - n) else b.mem x⟩ := by
  induction k with
  | zero =>
    intro b _ _
    rw [moveUpLoop]
    congr 1
    obtain ⟨size, m⟩ := b
    congr 1
    funext x
    rw [if_neg (by omega)]
  | succ k ih =>
    intro b hle hsize
    have hindex : ∀ i < b.size, u32 i = i := by
      intro i hi
      exact Nat.mod_eq_of_lt (by omega)
    rw [moveUpLoop, hindex _ (by omega), hindex _ (by omega), b.load_of_le (by omega), ok_bind]
    unfold store
    rw [if_pos (by omega), ok_bind]
    have hlater : src + n + k ≤ b.size := by omega
    refine Eq.trans (ih ?_ ?_) ?_
    · exact hlater
    · exact hsize
    congr 2
    funext x
    -- The byte stored now is above all that are loaded later.
    dsimp only
    rw [storeLE_byte, storeLE_byte]
    split_ifs <;> first | rfl | omega | (congr 1; omega)

/-- **`memcpy`** also copies down over the place where the bytes were. -/
theorem memcpyLoop_eq {dst src : ℕ} (hdown : dst ≤ src) (k : ℕ) : ∀ {i : ℕ} {b : Buffer}, src + i + k ≤ b.size →
    memcpyLoop dst src k i b = .ok
      ⟨b.size, fun x => if dst + i ≤ x ∧ x < dst + i + k then b.mem (x + (src - dst)) else b.mem x⟩ := by
  induction k with
  | zero =>
    intro i b _
    rw [memcpyLoop]
    congr 1
    obtain ⟨size, m⟩ := b
    congr 1
    funext x
    rw [if_neg (by omega)]
  | succ k ih =>
    intro i b hle
    rw [memcpyLoop, b.load_of_le (by omega), ok_bind]
    unfold store
    rw [if_pos (by omega), ok_bind]
    refine (ih ?_).trans ?_
    · dsimp only
      omega
    congr 2
    funext x
    -- The byte stored now is below all that are loaded later.
    dsimp only
    rw [storeLE_byte, storeLE_byte]
    split_ifs <;> first | rfl | omega | (congr 1; omega)

/-- **Putting a piece in**: what is behind it is moved up first. -/
theorem Holds.insert_piece (h : b.Holds off (l ++ l')) (bs : List UInt8)
    (hroom : off + (l ++ (bs ++ l')).length ≤ b.size) (hsize : b.size ≤ 2 ^ 32) :
    ∃ b₁ b₂, moveUpLoop (off + l.length) bs.length l'.length b = .ok b₁ ∧
      b₁.storeBytes (off + l.length) bs = .ok b₂ ∧ b₂.Holds off (l ++ (bs ++ l')) ∧
      SameOutside b b₂ (off + l.length) (off + (l ++ (bs ++ l')).length) := by
  simp only [List.length_append] at hroom ⊢
  refine ⟨_, _, moveUpLoop_eq l'.length (by omega) hsize, if_pos (Or.inr (by dsimp only; omega)), ?_, ?_⟩
  · rw [holds_append] at h
    obtain ⟨hl, hl'⟩ := h
    rw [holds_append, holds_append]
    refine ⟨?_, ?_, ?_⟩
    · apply hl.congr
      · exact hl.1
      · intro x _ hx
        dsimp only
        rw [Memory.storeBytes_of_outside _ (by omega), if_neg (by omega)]
    · rw [holds_iff]
      refine ⟨by dsimp only; omega, ?_⟩
      intro i hi
      dsimp only
      rw [Memory.storeBytes_of_inside _ hi, List.getElem?_eq_getElem hi]
    · rw [holds_iff] at hl' ⊢
      refine ⟨by dsimp only; omega, ?_⟩
      intro i hi
      dsimp only
      rw [Memory.storeBytes_of_outside _ (by omega), if_pos (by omega), hl'.2 i hi]
      congr 2
      omega
  · refine ⟨rfl, ?_⟩
    intro x hx
    dsimp only
    rw [Memory.storeBytes_of_outside _ (by omega), if_neg (by omega)]

/-- **Taking a piece out**: what is behind it is copied down. -/
theorem Holds.remove_piece (h : b.Holds off (l ++ (bs ++ l'))) :
    ∃ b', memcpyLoop (off + l.length) (off + l.length + bs.length) l'.length 0 b = .ok b' ∧
      b'.Holds off (l ++ l') ∧ SameOutside b b' (off + l.length) (off + (l ++ l').length) := by
  have hle := h.1
  simp only [List.length_append] at hle ⊢
  refine ⟨_, memcpyLoop_eq (by omega) l'.length (by omega), ?_, ?_⟩
  · rw [holds_append, holds_append] at h
    obtain ⟨hl, -, hl'⟩ := h
    rw [holds_append]
    constructor
    · apply hl.congr
      · exact hl.1
      · intro x _ hx
        exact if_neg (by omega)
    · rw [holds_iff] at hl' ⊢
      refine ⟨by dsimp only; omega, ?_⟩
      intro i hi
      dsimp only
      rw [if_pos (by omega), hl'.2 i hi]
      congr 2
      omega
  · refine ⟨rfl, ?_⟩
    intro x hx
    exact if_neg (by omega)

end Buffer

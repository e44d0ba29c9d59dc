/-
# Parts of a buffer and arrays without contents

Arrays and slices out of a buffer, and arrays that have contents only where something was
stored.  `Always` states what a computation that makes accesses gives if it gives something.
Nothing here is about a data format.
-/
import Microkernel.Buffers

namespace Access

variable {α β : Type} {P : α → Prop} {Q : β → Prop}

/-- Whatever the computation gives has the property. -/
def Always (x : Access α) (P : α → Prop) : Prop := ∀ a, x = .ok a → P a

theorem always_ok {a : α} (h : P a) : Always (.ok a : Access α) P := by
  rintro b ⟨⟩
  exact h

theorem always_bind {x : Access α} {f : α → Access β} (h : ∀ a, Always (f a) Q) :
    Always (x.bind f) Q := by
  intro b hb
  obtain ⟨a, -, hf⟩ := bind_eq_ok.mp hb
  exact h a b hf

theorem always_map {x : Access α} {f : α → β} (h : ∀ a, Q (f a)) : Always (x.map f) Q := by
  intro b hb
  obtain ⟨a, -, rfl⟩ := map_eq_ok.mp hb
  exact h a

end Access

namespace Buffer

variable (b : Buffer)

/-- The `n` bytes from `off` on, as an array. -/
def vec (off n : ℕ) : Access (Vector UInt8 n) :=
  if off + n ≤ b.size then .ok (Vector.ofFn fun i => b.mem (off + i)) else .error .read

/-- The part of `n` bytes from `off` on; no bytes are a part wherever they are. -/
def slice (off n : ℕ) : Access Buffer :=
  if n = 0 ∨ off + n ≤ b.size then .ok ⟨n, fun i => b.mem (off + i)⟩ else .error .read

/-- All bytes. -/
def toList : List UInt8 := (List.range b.size).map b.mem

/-- A computation that begins with an array. -/
theorem inside_vec_bind {α : Type} {off n : ℕ} {f : Vector UInt8 n → Access α} :
    Access.Inside ((b.vec off n).bind f) ↔
      off + n ≤ b.size ∧ Access.Inside (f (Vector.ofFn fun i => b.mem (off + i))) := by
  unfold vec
  split_ifs with h
  · exact ⟨fun hf => ⟨h, hf⟩, fun hf => hf.2⟩
  · exact ⟨fun hf => absurd hf (Access.not_inside_error _), fun hf => absurd hf.1 h⟩

/-- A computation that begins with a slice. -/
theorem inside_slice_bind {α : Type} {off n : ℕ} {f : Buffer → Access α} :
    Access.Inside ((b.slice off n).bind f) ↔
      (n = 0 ∨ off + n ≤ b.size) ∧ Access.Inside (f ⟨n, fun i => b.mem (off + i)⟩) := by
  unfold slice
  split_ifs with h
  · exact ⟨fun hf => ⟨h, hf⟩, fun hf => hf.2⟩
  · exact ⟨fun hf => absurd hf (Access.not_inside_error _), fun hf => absurd hf.1 h⟩

theorem inside_slice {off n : ℕ} :
    Access.Inside (b.slice off n) ↔ n = 0 ∨ off + n ≤ b.size := by
  unfold slice
  split_ifs with h
  · exact ⟨fun _ => h, fun _ => Access.inside_ok _⟩
  · exact ⟨fun hf => absurd hf (Access.not_inside_error _), fun hf => absurd hf h⟩

/-- A computation that begins with a copy. -/
theorem inside_bytes_bind {α : Type} {off n : ℕ} {f : List UInt8 → Access α} :
    Access.Inside ((b.bytes off n).bind f) ↔ (n = 0 ∨ off + n ≤ b.size) ∧
      Access.Inside (f ((List.range n).map fun i => b.mem (off + i))) := by
  unfold bytes
  split_ifs with h
  · exact ⟨fun hf => ⟨h, hf⟩, fun hf => hf.2⟩
  · exact ⟨fun hf => absurd hf (Access.not_inside_error _), fun hf => absurd hf.1 h⟩

end Buffer

/-- An array on the stack: a byte has a value only after it was set. -/
structure Draft where
  size : ℕ
  byte : ℕ → Option UInt8

namespace Draft

/-- A new array. -/
def blank (size : ℕ) : Draft := ⟨size, fun _ => none⟩

/-- An array with these bytes. -/
def ofList (bs : List UInt8) : Draft := ⟨bs.length, fun i => bs[i]?⟩

variable (d : Draft)

/-- Set the bytes from `off` on. -/
def store (off : ℕ) (bs : List UInt8) : Access Draft :=
  if off + bs.length ≤ d.size then
    .ok { d with byte := fun x => if off ≤ x ∧ x < off + bs.length then bs[x - off]? else d.byte x }
  else .error .write

/-- Read `n` bytes from `off` on; reading a byte that was not set is a fault. -/
def read (off n : ℕ) : Access (List UInt8) :=
  if ∀ i < n, off + i < d.size ∧ (d.byte (off + i)).isSome then
    .ok ((List.range n).map fun i => (d.byte (off + i)).getD 0)
  else .error .read

variable {d}

/-- An array of this size whose first `k` bytes are set. -/
structure SetUpTo (d : Draft) (size k : ℕ) : Prop where
  size : d.size = size
  set : ∀ x < k, (d.byte x).isSome

theorem blank_setUpTo (size : ℕ) : (blank size).SetUpTo size 0 :=
  ⟨rfl, fun _ hx => absurd hx (Nat.not_lt_zero _)⟩

theorem ofList_setUpTo (bs : List UInt8) : (ofList bs).SetUpTo bs.length bs.length := by
  refine ⟨rfl, fun x hx => ?_⟩
  show (bs[x]?).isSome
  rw [List.getElem?_eq_getElem hx]
  rfl

/-- A byte is set after a store if it was before, or if it was stored. -/
theorem isSome_byte_store {off x : ℕ} {bs : List UInt8} {d' : Draft} (h : d.store off bs = .ok d')
    (hx : (d.byte x).isSome ∨ off ≤ x ∧ x < off + bs.length) :
    d'.size = d.size ∧ (d'.byte x).isSome := by
  unfold store at h
  split_ifs at h
  cases h
  refine ⟨rfl, ?_⟩
  dsimp only
  split_ifs with hin
  · rw [List.getElem?_eq_getElem (by omega)]
    rfl
  · exact hx.resolve_right hin

/-- A computation that begins with a store. -/
theorem SetUpTo.inside_store_bind {α : Type} {size k m off : ℕ} {bs : List UInt8}
    {f : Draft → Access α} (h : d.SetUpTo size k) (hle : off + bs.length ≤ size)
    (hk : ∀ x < m, x < k ∨ off ≤ x ∧ x < off + bs.length)
    (hf : ∀ d', d'.SetUpTo size m → Access.Inside (f d')) :
    Access.Inside ((d.store off bs).bind f) := by
  obtain ⟨d', hd'⟩ : ∃ d', d.store off bs = .ok d' :=
    ⟨_, if_pos (by rw [h.size]; exact hle)⟩
  rw [hd', Access.ok_bind]
  refine hf d' ⟨?_, fun x hx => ?_⟩
  · unfold store at hd'
    split_ifs at hd'
    cases hd'
    exact h.size
  · exact (isSome_byte_store hd' ((hk x hx).imp_left (h.set x))).2

/-- A read of bytes that are set. -/
theorem SetUpTo.read {size k off n : ℕ} (h : d.SetUpTo size k) (hk : k ≤ size)
    (hle : off + n ≤ k) : Access.Inside (d.read off n) := by
  refine ⟨_, if_pos fun i hi => ⟨?_, h.set _ (by omega)⟩⟩
  rw [h.size]
  omega

/-- A read that is inside does not reach behind the array. -/
theorem le_of_inside_read {off n : ℕ} (h : Access.Inside (d.read off n)) :
    n = 0 ∨ off + n ≤ d.size := by
  obtain ⟨bs, hbs⟩ := h
  unfold Draft.read at hbs
  split_ifs at hbs with hall
  by_contra hlt
  rw [not_or] at hlt
  have hlast := (hall (n - 1) (by omega)).1
  omega

end Draft

/-
# Strings in a buffer

`strlen`, `strcpy` and `strcat` inside one buffer.  Each goes on from byte to byte until it finds a
NUL; the number of rounds is bounded, since an access behind the buffer is a fault.  Nothing here is
about a program.
-/
import Microkernel.BufferPieces

open Access

namespace Buffer

/-- The byte at `a`. -/
def byte (b : Buffer) (a : ℕ) : Access UInt8 :=
  if a < b.size then .ok (b.mem a) else .error .read

/-- The loop of `strlen`. -/
def strlenLoop (b : Buffer) : ℕ → ℕ → Access ℕ
  | 0, _ => .error .read
  | n + 1, a =>
    (b.byte a).bind fun c => if c = 0 then .ok 0 else (strlenLoop b n (a + 1)).map (· + 1)

def strlen (b : Buffer) (a : ℕ) : Access ℕ := strlenLoop b b.size a

/-- The loop of `strcpy`. -/
def strcpyLoop : ℕ → ℕ → ℕ → Buffer → Access Buffer
  | 0, _, _, _ => .error .read
  | n + 1, dst, src, b =>
    (b.byte src).bind fun c =>
      (b.storeBytes dst [c]).bind fun b =>
        if c = 0 then .ok b else strcpyLoop n (dst + 1) (src + 1) b

def strcpy (dst src : ℕ) (b : Buffer) : Access Buffer := strcpyLoop b.size dst src b

def strcat (dst src : ℕ) (b : Buffer) : Access Buffer :=
  (b.strlen dst).bind fun n => strcpy (dst + n) src b

/-- The buffer has this string with its terminator from `a` on. -/
structure HoldsString (b : Buffer) (a : ℕ) (s : List UInt8) : Prop where
  holds : b.Holds a (s ++ [0])
  noNul : 0 ∉ s

variable {b b' : Buffer} {a dst src lo hi : ℕ} {c : UInt8} {s p : List UInt8}

theorem HoldsString.le (h : b.HoldsString a s) : a + s.length + 1 ≤ b.size := by
  have hle := h.holds.1
  rwa [List.length_append, List.length_singleton, ← Nat.add_assoc] at hle

theorem holds_singleton : b.Holds a [c] ↔ a < b.size ∧ b.mem a = c := by
  unfold Holds
  rw [List.length_singleton, List.range_one, List.map_singleton, List.cons.injEq, Nat.add_zero,
    and_iff_left rfl]
  rfl

theorem byte_of_lt (h : a < b.size) : b.byte a = .ok (b.mem a) := if_pos h

theorem byte_eq_ok : b.byte a = .ok c ↔ b.Holds a [c] := by
  rw [holds_singleton]
  unfold byte
  split_ifs with h
  · exact ⟨fun heq => ⟨h, Except.ok.inj heq⟩, fun heq => congrArg _ heq.2⟩
  · exact ⟨nofun, fun heq => absurd heq.1 h⟩

/-- The first character of a string, and the string behind it. -/
theorem holdsString_cons :
    b.HoldsString a (c :: s) ↔ c ≠ 0 ∧ b.Holds a [c] ∧ b.HoldsString (a + 1) s := by
  have hsplit : c :: s ++ [0] = [c] ++ (s ++ [0]) := rfl
  constructor
  · rintro ⟨hholds, hnul⟩
    rw [hsplit, holds_append] at hholds
    exact ⟨(List.ne_of_not_mem_cons hnul).symm, hholds.1, hholds.2,
      List.not_mem_of_not_mem_cons hnul⟩
  · rintro ⟨hc, hfirst, hrest⟩
    refine ⟨?_, List.not_mem_cons_of_ne_of_not_mem hc.symm hrest.noNul⟩
    rw [hsplit, holds_append]
    exact ⟨hfirst, hrest.holds⟩

theorem holdsString_nil : b.HoldsString a [] ↔ a < b.size ∧ b.mem a = 0 :=
  ⟨fun h => holds_singleton.mp h.holds, fun h => ⟨holds_singleton.mpr h, List.not_mem_nil⟩⟩

theorem HoldsString.sameOutside (h : b.HoldsString a s) (hb : SameOutside b b' lo hi)
    (hout : a + s.length + 1 ≤ lo ∨ hi ≤ a) : b'.HoldsString a s := by
  refine ⟨h.holds.sameOutside hb ?_, h.noNul⟩
  rwa [List.length_append, List.length_singleton, ← Nat.add_assoc]

/-- A buffer has one string at a place. -/
theorem HoldsString.unique (h : b.HoldsString a s) (h' : b.HoldsString a p) : s = p := by
  induction s generalizing a p with
  | nil =>
    cases p with
    | nil => rfl
    | cons c p =>
      obtain ⟨hc, hfirst, -⟩ := holdsString_cons.mp h'
      have hzero := (holdsString_nil.mp h).2
      rw [(holds_singleton.mp hfirst).2] at hzero
      exact absurd hzero hc
  | cons c s ih =>
    obtain ⟨hc, hfirst, hrest⟩ := holdsString_cons.mp h
    cases p with
    | nil =>
      have hzero := (holdsString_nil.mp h').2
      rw [(holds_singleton.mp hfirst).2] at hzero
      exact absurd hzero hc
    | cons d p =>
      obtain ⟨-, hfirst', hrest'⟩ := holdsString_cons.mp h'
      have hcd := (holds_singleton.mp hfirst).2.symm.trans (holds_singleton.mp hfirst').2
      rw [hcd, ih hrest hrest']

/-! ## The three functions -/

theorem strlenLoop_eq (h : b.HoldsString a s) {n : ℕ} (hn : s.length < n) :
    strlenLoop b n a = .ok s.length := by
  induction s generalizing a n with
  | nil =>
    obtain ⟨n, rfl⟩ := Nat.exists_eq_add_of_lt hn
    obtain ⟨hlt, hzero⟩ := holdsString_nil.mp h
    rw [List.length_nil, Nat.zero_add, strlenLoop, byte_of_lt hlt, ok_bind, if_pos hzero]
  | cons c s ih =>
    obtain ⟨n, rfl⟩ : ∃ m, n = m + 1 := ⟨n - 1, by omega⟩
    obtain ⟨hc, hfirst, hrest⟩ := holdsString_cons.mp h
    obtain ⟨hlt, hbyte⟩ := holds_singleton.mp hfirst
    rw [List.length_cons] at hn ⊢
    rw [strlenLoop, byte_of_lt hlt, ok_bind, hbyte, if_neg hc, ih hrest (by omega)]
    rfl

theorem strlen_eq (h : b.HoldsString a s) : b.strlen a = .ok s.length :=
  strlenLoop_eq h (by have := h.le; omega)

/-- A result of `strlen` is the length of a string. -/
theorem exists_of_strlenLoop {n l : ℕ} (h : strlenLoop b n a = .ok l) :
    ∃ s, b.HoldsString a s ∧ s.length = l := by
  induction n generalizing a l with
  | zero => cases h
  | succ n ih =>
    obtain ⟨c, hbyte, hrest⟩ := bind_eq_ok.mp h
    unfold byte at hbyte
    split_ifs at hbyte with hlt
    have hc := Except.ok.inj hbyte
    split_ifs at hrest with hzero
    · cases hrest
      exact ⟨[], holdsString_nil.mpr ⟨hlt, hc.trans hzero⟩, rfl⟩
    · obtain ⟨l', hl', rfl⟩ := map_eq_ok.mp hrest
      obtain ⟨s, hs, rfl⟩ := ih hl'
      exact ⟨c :: s, holdsString_cons.mpr ⟨hzero, holds_singleton.mpr ⟨hlt, hc⟩, hs⟩, rfl⟩

theorem exists_of_strlen {l : ℕ} (h : b.strlen a = .ok l) :
    ∃ s, b.HoldsString a s ∧ s.length = l := exists_of_strlenLoop h

/-- A byte that is stored. -/
theorem storeBytes_byte (h : a < b.size) (c : UInt8) :
    ∃ b', b.storeBytes a [c] = .ok b' ∧ b'.Holds a [c] ∧ SameOutside b b' a (a + 1) := by
  refine ⟨_, if_pos (Or.inr h), holds_singleton.mpr ⟨h, ?_⟩, rfl, ?_⟩
  · dsimp only
    have hinside : b.mem.storeBytes a [c] (a + 0) = c := b.mem.storeBytes_of_inside Nat.one_pos
    exact hinside
  · intro x hx
    exact Memory.storeBytes_of_outside _ (by rwa [List.length_singleton])

/-- A byte that is stored where it stands already changes nothing. -/
theorem storeBytes_same (h : b.Holds a [c]) : b.storeBytes a [c] = .ok b := by
  obtain ⟨hlt, hbyte⟩ := holds_singleton.mp h
  have hmem : b.mem.storeBytes a [c] = b.mem := by
    funext x
    by_cases hx : x = a
    · have hinside : b.mem.storeBytes a [c] (a + 0) = c := b.mem.storeBytes_of_inside Nat.one_pos
      rw [hx, hbyte]
      exact hinside
    · refine Memory.storeBytes_of_outside _ ?_
      rw [List.length_singleton]
      omega
  have hfits : a + [c].length ≤ b.size := hlt
  unfold storeBytes
  rw [if_pos (Or.inr hfits), hmem]

/-- **A store changes nothing** exactly if the byte stands there already. -/
theorem storeBytes_keeps_iff :
    (∃ b', b.storeBytes a [c] = .ok b' ∧ b'.mem = b.mem) ↔ b.Holds a [c] := by
  constructor
  · rintro ⟨b', hstore, hmem⟩
    by_cases hlt : a < b.size
    · obtain ⟨b₁, hstore', hholds, -⟩ := storeBytes_byte hlt c
      obtain rfl := Except.ok.inj (hstore.symm.trans hstore')
      rw [holds_singleton, hmem] at hholds
      exact holds_singleton.mpr ⟨hlt, hholds.2⟩
    · have hout : ¬ ([c] = [] ∨ a + [c].length ≤ b.size) :=
        fun hin => hlt (hin.resolve_left (List.cons_ne_nil _ _))
      unfold storeBytes at hstore
      rw [if_neg hout] at hstore
      cases hstore
  · exact fun h => ⟨b, storeBytes_same h, rfl⟩

/-- Changes in two places side by side. -/
theorem SameOutside.join {b c d : Buffer} {m : ℕ} (h : SameOutside b c lo m)
    (h' : SameOutside c d m hi) (hlo : lo ≤ m) (hhi : m ≤ hi) : SameOutside b d lo hi :=
  (h.widen (le_refl _) hhi).trans (h'.widen hlo (le_refl _))

/-- **`strcpy` copies a string** to a place that is not inside it. -/
theorem strcpyLoop_eq {n : ℕ} (h : b.HoldsString src s) (hn : s.length < n)
    (hroom : dst + s.length + 1 ≤ b.size) (hapart : dst ≤ src ∨ src + s.length < dst) :
    ∃ b', strcpyLoop n dst src b = .ok b' ∧ b'.HoldsString dst s ∧
      SameOutside b b' dst (dst + s.length + 1) := by
  induction s generalizing b dst src n with
  | nil =>
    obtain ⟨n, rfl⟩ := Nat.exists_eq_add_of_lt hn
    obtain ⟨hlt, hzero⟩ := holdsString_nil.mp h
    have hdst : dst < b.size := hroom
    obtain ⟨b', hstore, hholds, hsame⟩ := storeBytes_byte hdst 0
    refine ⟨b', ?_, holdsString_nil.mpr (holds_singleton.mp hholds), hsame⟩
    rw [List.length_nil, Nat.zero_add, strcpyLoop, byte_of_lt hlt, ok_bind, hzero, hstore, ok_bind,
      if_pos rfl]
  | cons c s ih =>
    obtain ⟨n, rfl⟩ : ∃ m, n = m + 1 := ⟨n - 1, by omega⟩
    rw [List.length_cons] at hn hroom hapart ⊢
    obtain ⟨hc, hfirst, hrest⟩ := holdsString_cons.mp h
    obtain ⟨hlt, hbyte⟩ := holds_singleton.mp hfirst
    obtain ⟨b₁, hstore, hholds, hsame⟩ := storeBytes_byte (by omega : dst < b.size) c
    have hout : src + 1 + s.length + 1 ≤ dst ∨ dst + 1 ≤ src + 1 := by omega
    have hrest₁ := hrest.sameOutside hsame hout
    have hroom₁ : dst + 1 + s.length + 1 ≤ b₁.size := by
      rw [hsame.size_eq]
      omega
    obtain ⟨b', hcopy, hstring, hsame'⟩ := ih (n := n) hrest₁ (by omega) hroom₁ (by omega)
    refine ⟨b', ?_, ?_, ?_⟩
    · rw [strcpyLoop, byte_of_lt hlt, ok_bind, hbyte, hstore, ok_bind, if_neg hc, hcopy]
    · refine holdsString_cons.mpr ⟨hc, hholds.sameOutside hsame' (Or.inl ?_), hstring⟩
      exact le_refl _
    · refine SameOutside.join hsame (hsame'.widen (le_refl _) ?_) (by omega) (by omega)
      omega

theorem strcpy_eq (dst : ℕ) (h : b.HoldsString src s) (hroom : dst + s.length + 1 ≤ b.size)
    (hapart : dst ≤ src ∨ src + s.length < dst) :
    ∃ b', strcpy dst src b = .ok b' ∧ b'.HoldsString dst s ∧
      SameOutside b b' dst (dst + s.length + 1) :=
  strcpyLoop_eq h (by have := h.le; omega) hroom hapart

/-- **`strcat` puts one string behind the other**, which stands behind it in the buffer. -/
theorem strcat_eq (hp : b.HoldsString dst p) (h : b.HoldsString src s)
    (hapart : dst + p.length ≤ src) :
    ∃ b', strcat dst src b = .ok b' ∧ b'.HoldsString dst (p ++ s) ∧
      SameOutside b b' dst (dst + p.length + s.length + 1) := by
  have hle := h.le
  obtain ⟨b', hcopy, hstring, hsame⟩ := strcpy_eq (dst + p.length) h (by omega) (Or.inl hapart)
  refine ⟨b', ?_, ?_, hsame.widen (Nat.le_add_right _ _) (le_refl _)⟩
  · rw [strcat, strlen_eq hp, ok_bind, hcopy]
  · have hfirst := ((b.holds_append.mp hp.holds).1).sameOutside hsame (Or.inl (le_refl _))
    refine ⟨?_, fun hmem => (List.mem_append.mp hmem).elim hp.noNul h.noNul⟩
    rw [List.append_assoc, holds_append]
    exact ⟨hfirst, hstring.holds⟩

/-! ## A character more -/

/-- A string with one more character in it is another one. -/
theorem take_append_cons_drop_ne (s : List UInt8) (c : UInt8) (k : ℕ) :
    s.take k ++ c :: s.drop k ≠ s := by
  intro heq
  have hlen := congrArg List.length heq
  rw [List.length_append, List.length_cons, List.length_take, List.length_drop] at hlen
  omega

/-- **A character is put into a string**: what is behind it moves up with the terminator. -/
theorem HoldsString.insertChar {k : ℕ} (h : b.HoldsString a s) (hk : k ≤ s.length)
    (hroom : a + s.length + 2 ≤ b.size) (hsize : b.size ≤ 2 ^ 32) (hc : c ≠ 0) :
    ∃ b₁ b₂, moveUpLoop (a + k) 1 (s.length + 1 - k) b = .ok b₁ ∧
      b₁.storeBytes (a + k) [c] = .ok b₂ ∧ b₂.HoldsString a (s.take k ++ c :: s.drop k) ∧
      SameOutside b b₂ (a + k) (a + s.length + 2) := by
  have hline := h.holds
  have hsplit : s ++ [0] = s.take k ++ (s.drop k ++ [0]) := by
    rw [← List.append_assoc, List.take_append_drop]
  have hlen : (s.take k ++ ([c] ++ (s.drop k ++ [0]))).length = s.length + 2 := by
    simp only [List.length_append, List.length_take, List.length_drop, List.length_singleton]
    omega
  have hcount : (s.drop k ++ [0]).length = s.length + 1 - k := by
    rw [List.length_append, List.length_drop, List.length_singleton]
    omega
  rw [hsplit] at hline
  obtain ⟨b₁, b₂, hmove, hstore, hholds, hsame⟩ := hline.insert_piece [c]
    (by rw [hlen]; omega) hsize
  rw [hcount, List.length_take_of_le hk, List.length_singleton] at hmove
  rw [List.length_take_of_le hk] at hstore hsame
  rw [hlen, ← Nat.add_assoc] at hsame
  have htext : s.take k ++ ([c] ++ (s.drop k ++ [0])) = (s.take k ++ c :: s.drop k) ++ [0] := by
    rw [List.append_assoc]
    rfl
  refine ⟨b₁, b₂, hmove, hstore, ⟨htext ▸ hholds, ?_⟩, hsame⟩
  rw [List.mem_append, List.mem_cons, not_or, not_or]
  exact ⟨fun hmem => h.noNul (List.mem_of_mem_take hmem), hc.symm,
    fun hmem => h.noNul (List.mem_of_mem_drop hmem)⟩

/-- **A character is taken out of a string**: what is behind it moves down with the terminator. -/
theorem HoldsString.deleteChar {k : ℕ} (h : b.HoldsString a s) (hk : k < s.length) :
    ∃ b', memcpyLoop (a + k) (a + k + 1) (s.length - k) 0 b = .ok b' ∧
      b'.HoldsString a (s.take k ++ s.drop (k + 1)) ∧
      SameOutside b b' (a + k) (a + s.length) := by
  have hline := h.holds
  have hsplit : s ++ [0] = s.take k ++ ([s[k]] ++ (s.drop (k + 1) ++ [0])) := by
    rw [← List.append_assoc [_], List.singleton_append, List.getElem_cons_drop,
      ← List.append_assoc, List.take_append_drop]
  have hcount : (s.drop (k + 1) ++ [0]).length = s.length - k := by
    rw [List.length_append, List.length_drop, List.length_singleton]
    omega
  rw [hsplit] at hline
  obtain ⟨b', hmove, hholds, hsame⟩ := hline.remove_piece
  rw [hcount, List.length_take_of_le hk.le, List.length_singleton] at hmove
  rw [List.length_take_of_le hk.le, List.length_append, hcount, List.length_take_of_le hk.le,
    Nat.add_sub_cancel' hk.le] at hsame
  refine ⟨b', hmove, ⟨?_, ?_⟩, hsame⟩
  · rw [List.append_assoc]
    exact hholds
  · rw [List.mem_append, not_or]
    exact ⟨fun hmem => h.noNul (List.mem_of_mem_take hmem),
      fun hmem => h.noNul (List.mem_of_mem_drop hmem)⟩

end Buffer

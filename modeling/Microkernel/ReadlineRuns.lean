/-
# Runs of the command line

What holds of the buffer of `shell_readline` after every key.
-/
import Microkernel.Readline

open Access Buffer

namespace Microkernel

/-- The buffer has this text, and the cursor is in it or at its end. -/
structure Typed (s : Readline) (text : List UInt8) : Prop where
  holds : s.buf.Holds 0 text
  noNul : 0 ∉ text
  short : text.length < cmdMax
  len_eq : s.len = text.length
  pos_le : s.pos ≤ text.length

/-- The text has its terminator, as it has at the start of every round. -/
structure Reads (s : Readline) (text : List UInt8) : Prop where
  typed : Typed s text
  terminated : s.buf.HoldsString 0 text

variable {s s' : Readline} {text : List UInt8} {c : UInt8} {b : Buffer} {h : History}

/-- A buffer of this size is the buffer of the command line. -/
theorem lineBuffer_mem (hsize : b.size = cmdMax) : lineBuffer b.mem = b := by
  obtain ⟨size, mem⟩ := b
  unfold lineBuffer
  dsimp only at hsize ⊢
  rw [hsize]

/-! ## The ends of a text -/

/-- A terminator stored behind a text makes it a string. -/
theorem Holds.terminate (hb : b.Holds 0 text) (hnul : 0 ∉ text) (hroom : text.length < b.size) :
    ∃ b', b.storeBytes text.length [0] = .ok b' ∧ b'.HoldsString 0 text ∧ b'.size = b.size := by
  obtain ⟨b', hstore, hholds, hsame⟩ := storeBytes_byte hroom 0
  refine ⟨b', hstore, ⟨?_, hnul⟩, hsame.size_eq⟩
  rw [holds_append, Nat.zero_add]
  exact ⟨hb.sameOutside hsame (Or.inl (le_of_eq (Nat.zero_add _))), hholds⟩

theorem Reads.mk' {n i : ℕ} (hb : b.HoldsString 0 text) (hsize : b.size = cmdMax)
    (hn : n ≤ text.length) : Reads ⟨b.mem, n, text.length, i⟩ text := by
  have hle := hb.le
  have hbuf : (Readline.mk b.mem n text.length i).buf = b := lineBuffer_mem hsize
  rw [Nat.zero_add, hsize] at hle
  refine ⟨⟨?_, hb.noNul, hle, rfl, hn⟩, ?_⟩
  · rw [hbuf]
    exact (b.holds_append.mp hb.holds).1
  · rw [hbuf]
    exact hb

/-- **The end of a round** gives the text its terminator. -/
theorem Typed.next (ht : Typed s text) :
    ∃ s', s.next = .ok (.more s') ∧ Reads s' text ∧ s'.histIdx = s.histIdx := by
  obtain ⟨b', hstore, hstring, hsize⟩ := Holds.terminate ht.holds ht.noNul ht.short
  refine ⟨{ s with mem := b'.mem }, ?_, ?_, rfl⟩
  · rw [Readline.next, Readline.cut, ht.len_eq, hstore]
    rfl
  · have hreads := Reads.mk' (n := s.pos) (i := s.histIdx) hstring hsize ht.pos_le
    rwa [← ht.len_eq] at hreads

/-- A terminator at the start leaves an empty string. -/
theorem cut_zero (s : Readline) :
    ∃ s', s.cut 0 = .ok s' ∧ s'.buf.HoldsString 0 [] ∧ s'.pos = s.pos ∧ s'.len = s.len := by
  have hnil : s.buf.Holds 0 [] := ⟨Nat.zero_le _, rfl⟩
  obtain ⟨b', hstore, hstring, hsize⟩ := Holds.terminate hnil List.not_mem_nil
    (by decide : 0 < cmdMax)
  refine ⟨{ s with mem := b'.mem }, ?_, ?_, rfl, rfl⟩
  · have hzero : s.buf.storeBytes 0 [0] = .ok b' := hstore
    unfold Readline.cut
    rw [hzero]
    rfl
  · have hbuf : ({ s with mem := b'.mem } : Readline).buf = b' := lineBuffer_mem hsize
    rwa [hbuf]

theorem reads_start (h : History) (mem : Memory) :
    ∃ s, Readline.start h mem = .ok s ∧ Reads s [] := by
  obtain ⟨s, hcut, hstring, hpos, hlen⟩ := cut_zero ⟨mem, 0, 0, h.historyCount⟩
  refine ⟨s, hcut, ⟨⟨⟨Nat.zero_le _, rfl⟩, List.not_mem_nil, by decide, hlen, ?_⟩, hstring⟩⟩
  rw [hpos]
  exact Nat.zero_le _

/-! ## Editing -/

/-- **A character is inserted** into a text that has room for it. -/
theorem Typed.insert (ht : Typed s text) (hroom : text.length < cmdMax - 1) (hc : c ≠ 0) :
    ∃ s', s.insert c = .ok s' ∧ Typed s' (text.take s.pos ++ c :: text.drop s.pos) ∧
      s'.pos = s.pos + 1 := by
  have hpos := ht.pos_le
  have hline := ht.holds
  rw [← List.take_append_drop s.pos text] at hline
  have htake : (text.take s.pos).length = s.pos := List.length_take_of_le hpos
  have hdrop : (text.drop s.pos).length = s.len - s.pos := by
    rw [List.length_drop, ht.len_eq]
  have hlen : (text.take s.pos ++ ([c] ++ text.drop s.pos)).length = text.length + 1 := by
    simp only [List.length_append, List.length_take, List.length_drop, List.length_singleton]
    omega
  have hsize : s.buf.size = cmdMax := rfl
  obtain ⟨b₁, b₂, hmove, hstore, hholds, hsame⟩ := hline.insert_piece [c]
    (by rw [hlen, hsize]; omega) (by rw [hsize]; decide)
  rw [Nat.zero_add, htake, hdrop, List.length_singleton] at hmove
  rw [Nat.zero_add, htake] at hstore
  refine ⟨_, by rw [Readline.insert, hmove, ok_bind, hstore, ok_bind], ⟨?_, ?_, ?_, ?_, ?_⟩, rfl⟩
  · have hbuf : lineBuffer b₂.mem = b₂ := lineBuffer_mem (hsame.size_eq.trans hsize)
    unfold Readline.buf
    rw [hbuf]
    exact hholds
  · rw [List.mem_append, List.mem_cons, not_or, not_or]
    exact ⟨fun hmem => ht.noNul (List.mem_of_mem_take hmem), hc.symm,
      fun hmem => ht.noNul (List.mem_of_mem_drop hmem)⟩
  · rw [← List.singleton_append, hlen]
    omega
  · rw [← List.singleton_append, hlen, ht.len_eq]
  · rw [← List.singleton_append, hlen]
    dsimp only
    omega

/-- **The character before the cursor is taken out.** -/
theorem Typed.takeOut (ht : Typed s text) (hfirst : 0 < s.pos) :
    ∃ s', s.remove = .ok s' ∧ Typed s' (text.take (s.pos - 1) ++ text.drop s.pos) ∧
      s'.pos = s.pos - 1 := by
  have hpos := ht.pos_le
  obtain ⟨n, hn⟩ : ∃ n, s.pos = n + 1 := ⟨s.pos - 1, by omega⟩
  have hline := ht.holds
  have hsplit : text = text.take n ++ ([text[n]] ++ text.drop (n + 1)) := by
    rw [List.singleton_append, List.getElem_cons_drop, List.take_append_drop]
  have htake : (text.take n).length = n := List.length_take_of_le (by omega)
  have hdrop : (text.drop (n + 1)).length = s.len - s.pos := by
    rw [List.length_drop, ht.len_eq, hn]
  rw [hsplit] at hline
  obtain ⟨b', hmove, hholds, hsame⟩ := hline.remove_piece
  rw [Nat.zero_add, htake, hdrop, List.length_singleton, ← hn] at hmove
  have hlen : (text.take n ++ text.drop (n + 1)).length = s.len - 1 := by
    rw [List.length_append, htake, hdrop]
    have := ht.len_eq
    omega
  have hshort := ht.short
  have heq := ht.len_eq
  rw [hn, Nat.add_sub_cancel]
  refine ⟨{ s with mem := b'.mem, pos := s.pos - 1, len := s.len - 1 }, ?_,
    ⟨?_, ?_, ?_, hlen.symm, ?_⟩, by dsimp only; omega⟩
  · unfold Readline.remove
    rw [if_pos hfirst, hn, Nat.add_sub_cancel, ← hn, hmove, ok_bind]
  · have hbuf : lineBuffer b'.mem = b' := lineBuffer_mem hsame.size_eq
    unfold Readline.buf
    rw [hbuf]
    exact hholds
  · rw [List.mem_append, not_or]
    exact ⟨fun hmem => ht.noNul (List.mem_of_mem_take hmem),
      fun hmem => ht.noNul (List.mem_of_mem_drop hmem)⟩
  · rw [hlen]
    omega
  · rw [hlen]
    dsimp only
    omega

/-- **A character is taken out**, if there is one before the cursor. -/
theorem Typed.remove (ht : Typed s text) : ∃ s' text', s.remove = .ok s' ∧ Typed s' text' := by
  by_cases hfirst : 0 < s.pos
  · obtain ⟨s', hremove, htyped, -⟩ := ht.takeOut hfirst
    exact ⟨s', _, hremove, htyped⟩
  · unfold Readline.remove
    rw [if_neg hfirst]
    exact ⟨s, text, rfl, ht⟩

/-! ## The history -/

theorem CommandLine.line_short (h : History) (i : ℕ) : 0 ∉ h.line i ∧ (h.line i).length < cmdMax :=
  ⟨(h.history (i % historySize)).noNul, (h.history (i % historySize)).short⟩

/-- **A command of the history comes into the buffer.** -/
theorem Typed.recall (h : History) (i : ℕ) (s : Readline) :
    ∃ s', s.recall h i = .ok s' ∧ Typed s' (h.line i) := by
  obtain ⟨hnul, hshort⟩ := CommandLine.line_short h i
  have hlen : (h.line i ++ [0]).length = (h.line i).length + 1 := by
    rw [List.length_append, List.length_singleton]
  have hfits : 0 + (h.line i ++ [0]).length ≤ s.buf.size := by
    rw [hlen, Nat.zero_add]
    exact hshort
  have hstore : s.buf.storeBytes 0 (h.line i ++ [0]) = .ok
      ⟨s.buf.size, s.buf.mem.storeBytes 0 (h.line i ++ [0])⟩ := if_pos (Or.inr hfits)
  have hstring : (⟨s.buf.size, s.buf.mem.storeBytes 0 (h.line i ++ [0])⟩ : Buffer).HoldsString 0
      (h.line i) := by
    refine ⟨holds_iff.mpr ⟨hfits, fun k hk => ?_⟩, hnul⟩
    dsimp only
    rw [Memory.storeBytes_of_inside _ hk, List.getElem?_eq_getElem hk]
  refine ⟨_, ?_, (Reads.mk' (i := i) hstring rfl (le_refl _)).typed⟩
  rw [Readline.recall, hstore, ok_bind, strlen_eq hstring]
  rfl

theorem Typed.up (ht : Typed s text) (h : History) : ∃ s' text', s.up h = .ok s' ∧ Typed s' text' := by
  unfold Readline.up
  split_ifs
  · obtain ⟨s', hrecall, htyped⟩ := Typed.recall h (s.histIdx - 1) s
    exact ⟨s', _, hrecall, htyped⟩
  · exact ⟨s, text, rfl, ht⟩

theorem Typed.down (ht : Typed s text) (h : History) :
    ∃ s' text', s.down h = .ok s' ∧ Typed s' text' := by
  unfold Readline.down
  split_ifs
  · obtain ⟨s', hrecall, htyped⟩ := Typed.recall h (s.histIdx + 1) s
    exact ⟨s', _, hrecall, htyped⟩
  · obtain ⟨s', hcut, hstring, hpos, hlen⟩ := cut_zero ⟨s.mem, 0, 0, h.historyCount⟩
    refine ⟨s', [], hcut, ⟨⟨Nat.zero_le _, rfl⟩, List.not_mem_nil, by decide, hlen, ?_⟩⟩
    rw [hpos]
    exact Nat.zero_le _
  · exact ⟨s, text, rfl, ht⟩

/-! ## Completion -/

theorem cmdNames_printable : ∀ name ∈ cmdNames, ∀ c ∈ name, 32 ≤ c := by
  have hall : (cmdNames.all fun name => name.all fun c => decide (32 ≤ c)) = true := by
    decide +kernel
  intro name hname c hc
  exact of_decide_eq_true (List.all_eq_true.mp (List.all_eq_true.mp hall name hname) c hc)

theorem cmdNames_noNul : ∀ name ∈ cmdNames, 0 ∉ name :=
  fun name hname hzero => absurd (cmdNames_printable name hname 0 hzero) (by decide)

theorem wordStart_le (hb : b.Holds 0 text) {n : ℕ} (hn : n ≤ text.length) :
    ∃ start, wordStart b n = .ok start ∧ start ≤ n := by
  have hle := hb.1
  induction n with
  | zero => exact ⟨0, rfl, le_refl _⟩
  | succ n ih =>
    rw [wordStart, byte_of_lt (by omega), ok_bind]
    split_ifs
    · exact ⟨n + 1, rfl, le_refl _⟩
    · obtain ⟨start, hstart, hlt⟩ := ih (by omega)
      exact ⟨start, hstart, by omega⟩

/-- **The characters of a command** are inserted as long as there is room. -/
theorem Typed.completeLoop (rest : List UInt8) (ht : Typed s text) (hrest : 0 ∉ rest) :
    ∃ s' text', completeLoop rest s = .ok s' ∧ Typed s' text' := by
  induction rest generalizing s text with
  | nil => exact ⟨s, text, rfl, ht⟩
  | cons c rest ih =>
    rw [Microkernel.completeLoop]
    split_ifs with hroom
    · rw [ht.len_eq] at hroom
      obtain ⟨s₁, hinsert, htyped, -⟩ := ht.insert (c := c) (by omega)
        (List.ne_of_not_mem_cons hrest).symm
      rw [hinsert, ok_bind]
      exact ih htyped (List.not_mem_of_not_mem_cons hrest)
    · exact ⟨s, text, rfl, ht⟩

theorem Typed.cut_len (ht : Typed s text) : ∃ s', s.cut s.len = .ok s' ∧ Typed s' text := by
  obtain ⟨s', hnext, hreads, -⟩ := ht.next
  obtain ⟨s₁, hcut, hs₁⟩ := map_eq_ok.mp hnext
  cases hs₁
  exact ⟨s', hcut, hreads.typed⟩

theorem Typed.tabComplete (ht : Typed s text) :
    ∃ s' text', tabComplete s = .ok s' ∧ Typed s' text' := by
  obtain ⟨start, hstart, hle⟩ := wordStart_le ht.holds ht.pos_le
  have hinside := ht.holds.1
  have hpos := ht.pos_le
  rw [Microkernel.tabComplete, hstart, ok_bind]
  dsimp only
  split_ifs with hplen hfirst
  · exact ⟨s, text, rfl, ht⟩
  · obtain ⟨word, hword⟩ : ∃ word, s.buf.bytes start (s.pos - start) = .ok word :=
      ⟨_, if_pos (Or.inr (by omega))⟩
    rw [hword, ok_bind]
    split
    next name hmatch =>
      have hmem : name ∈ commandMatches word := by
        rw [hmatch]
        exact List.mem_singleton_self name
      have hname := List.mem_of_mem_filter (List.mem_of_mem_take hmem)
      obtain ⟨s₁, text₁, hloop, ht₁⟩ := ht.completeLoop (name.drop (s.pos - start))
        fun hzero => cmdNames_noNul name hname (List.mem_of_mem_drop hzero)
      obtain ⟨s₂, hcut, ht₂⟩ := ht₁.cut_len
      rw [hloop, ok_bind]
      exact ⟨s₂, text₁, hcut, ht₂⟩
    next => exact ⟨s, text, rfl, ht⟩
  · obtain ⟨word, hword⟩ : ∃ word, s.buf.bytes start (s.pos - start) = .ok word :=
      ⟨_, if_pos (Or.inr (by omega))⟩
    rw [hword, ok_bind]
    exact ⟨s, text, rfl, ht⟩

/-! ## Keys -/

/-- The result of a key is well formed: a state that has a text, or a string. -/
def Reading.WellFormed : Reading → Prop
  | .more s => ∃ text, Reads s text
  | .line mem => ∃ text, (lineBuffer mem).HoldsString 0 text

theorem Typed.next_wellFormed (ht : Typed s text) : ∃ r, s.next = .ok r ∧ r.WellFormed := by
  obtain ⟨s', hnext, hreads, -⟩ := ht.next
  exact ⟨_, hnext, text, hreads⟩

/-- **A key keeps the command line well formed.** -/
theorem Reads.key (hr : Reads s text) (h : History) (c : UInt8) :
    ∃ r, readlineKey h c s = .ok r ∧ r.WellFormed := by
  have ht := hr.typed
  have hpos := ht.pos_le
  have hcursor : ∀ n ≤ text.length, ∃ r, Readline.next { s with pos := n } = .ok r ∧
      r.WellFormed := fun n hn =>
    Typed.next_wellFormed ⟨ht.holds, ht.noNul, ht.short, ht.len_eq, hn⟩
  by_cases henter : c = newline
  · obtain ⟨s', hnext, hreads, -⟩ := ht.next
    obtain ⟨s₁, hcut, hs₁⟩ := map_eq_ok.mp hnext
    cases hs₁
    rw [readlineKey, if_pos henter, hcut]
    exact ⟨_, rfl, text, hreads.terminated⟩
  by_cases hback : c = backspace
  · obtain ⟨s₁, text₁, hremove, ht₁⟩ := ht.remove
    rw [readlineKey, if_neg henter, if_pos hback, hremove, ok_bind]
    exact ht₁.next_wellFormed
  by_cases htab : c = tab
  · obtain ⟨s₁, text₁, hcomplete, ht₁⟩ := ht.tabComplete
    rw [readlineKey, if_neg henter, if_neg hback, if_pos htab, hcomplete, ok_bind]
    exact ht₁.next_wellFormed
  rw [readlineKey, if_neg henter, if_neg hback, if_neg htab]
  by_cases hup : c = keyUp
  · obtain ⟨s₁, text₁, hrecall, ht₁⟩ := ht.up h
    rw [if_pos hup, hrecall, ok_bind]
    exact ht₁.next_wellFormed
  by_cases hdown : c = keyDown
  · obtain ⟨s₁, text₁, hrecall, ht₁⟩ := ht.down h
    rw [if_neg hup, if_pos hdown, hrecall, ok_bind]
    exact ht₁.next_wellFormed
  rw [if_neg hup, if_neg hdown]
  by_cases hleft : c = keyLeft ∧ 0 < s.pos
  · rw [if_pos hleft]
    exact hcursor _ (by omega)
  by_cases hright : c = keyRight ∧ s.pos < s.len
  · rw [if_neg hleft, if_pos hright]
    refine hcursor _ ?_
    rw [← ht.len_eq]
    exact hright.2
  rw [if_neg hleft, if_neg hright]
  by_cases hhome : c = keyHome
  · rw [if_pos hhome]
    exact hcursor _ (Nat.zero_le _)
  by_cases hend : c = keyEnd
  · rw [if_neg hhome, if_pos hend]
    exact hcursor _ ht.len_eq.le
  rw [if_neg hhome, if_neg hend]
  by_cases hctrl : c = ctrlC ∨ c = ctrlL
  · obtain ⟨s', hcut, hstring, -⟩ := cut_zero s
    rw [if_pos hctrl, hcut]
    exact ⟨_, rfl, [], hstring⟩
  rw [if_neg hctrl]
  by_cases hprint : isPrintable c ∧ s.len < cmdMax - 1
  · have hc : c ≠ 0 := by
      rintro rfl
      exact absurd hprint.1 (by decide)
    obtain ⟨s₁, hinsert, ht₁, -⟩ := ht.insert (by rw [← ht.len_eq]; exact hprint.2) hc
    rw [if_pos hprint, hinsert, ok_bind]
    exact ht₁.next_wellFormed
  · rw [if_neg hprint]
    exact ht.next_wellFormed

/-- **The step gives the run**, by induction on the keys. -/
theorem readlineRun_wellFormed (h : History) (keys : List UInt8) {r : Reading}
    (hr : r.WellFormed) : ∃ r', readlineRun h keys r = .ok r' ∧ r'.WellFormed := by
  induction keys generalizing r with
  | nil => exact ⟨r, by cases r <;> rfl, hr⟩
  | cons c keys ih =>
    cases r with
    | line mem => exact ⟨_, rfl, hr⟩
    | more s =>
      obtain ⟨text, hreads⟩ := hr
      obtain ⟨r₁, hkey, hr₁⟩ := hreads.key h c
      rw [readlineRun, hkey, ok_bind]
      exact ih hr₁

/-- **No sequence of keys leads out of the buffer**, and the line that is read is a string that fits
in it. -/
theorem shellReadline_wellFormed (h : History) (mem : Memory) (keys : List UInt8) :
    ∃ r, shellReadline h mem keys = .ok r ∧ r.WellFormed := by
  obtain ⟨s, hstart, hreads⟩ := reads_start h mem
  rw [shellReadline, hstart, ok_bind]
  exact readlineRun_wellFormed h keys ⟨[], hreads⟩

/-- A line that is read can be added to the history. -/
theorem exists_commandLine {mem mem' : Memory} {keys : List UInt8}
    (hline : shellReadline h mem keys = .ok (.line mem')) :
    ∃ cmd : CommandLine, (lineBuffer mem').HoldsString 0 cmd.text := by
  obtain ⟨r, hr, hwell⟩ := shellReadline_wellFormed h mem keys
  obtain rfl := Except.ok.inj (hr.symm.trans hline)
  obtain ⟨text, hstring⟩ := hwell
  have hle := hstring.le
  rw [Nat.zero_add] at hle
  exact ⟨⟨text, hstring.noNul, hle⟩, hstring⟩

end Microkernel

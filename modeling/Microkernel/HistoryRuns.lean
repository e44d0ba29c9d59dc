/-
# The history of the commands

The table of `add_history` is a ring that has the last commands, without repetitions and empty lines,
and in `shell_readline` the keys Up and Down go back and forth among them, whatever else is typed.
-/
import Microkernel.ReadlineScreen
import Microkernel.RingLog

open Access Buffer

namespace Microkernel

/-! ## The table -/

/-- The history after these commands. -/
def entered (cmds : List CommandLine) : History :=
  cmds.foldl (fun h cmd => addHistory cmd h) History.empty

/-- The commands that count: none that is empty, and none that repeats the one before. -/
def remember (log : List (List UInt8)) (cmd : List UInt8) : List (List UInt8) :=
  if cmd = [] ∨ log.getLast? = some cmd then log else log ++ [cmd]

def remembered (cmds : List CommandLine) : List (List UInt8) :=
  (cmds.map CommandLine.text).foldl remember []

/-- The table has the last commands of the log. -/
structure History.Keeps (h : History) (log : List (List UInt8)) : Prop where
  count : h.historyCount = log.length
  ring : RingHolds (fun i => (h.history i).text) historySize log (log.length - historySize)

variable {h : History} {log : List (List UInt8)} {s s' : Readline} {text : List UInt8} {c : UInt8}

/-- A command that is still there. -/
theorem History.Keeps.line_eq (hk : h.Keeps log) {i : ℕ} (hi : i < log.length)
    (hlast : log.length ≤ i + historySize) : h.line i = log[i] :=
  hk.ring i hi (by omega)

/-- The comparison with the last command. -/
theorem History.Keeps.last_iff (hk : h.Keeps log) (cmd : List UInt8) :
    (0 < h.historyCount ∧ h.line (h.historyCount - 1) = cmd) ↔ log.getLast? = some cmd := by
  rw [hk.count]
  rcases List.eq_nil_or_concat' log with rfl | ⟨init, last, rfl⟩
  · simp
  · have hlen : (init ++ [last]).length = init.length + 1 := by simp
    have hline := hk.line_eq (i := init.length) (by omega) (by rw [hlen, historySize]; omega)
    rw [hlen, Nat.add_sub_cancel, hline, List.getElem_concat_length rfl, List.getLast?_concat,
      Option.some.injEq]
    exact and_iff_right (Nat.succ_pos _)

/-- **A command is added** to the log, unless it is empty or repeats the last one. -/
theorem History.Keeps.add (hk : h.Keeps log) (cmd : CommandLine) :
    (addHistory cmd h).Keeps (remember log cmd.text) := by
  unfold addHistory remember
  by_cases hempty : cmd.text = []
  · rw [if_pos hempty, if_pos (Or.inl hempty)]
    exact hk
  · rw [if_neg hempty]
    have hrepeats := hk.last_iff cmd.text
    by_cases hlast : log.getLast? = some cmd.text
    · rw [if_pos (hrepeats.mpr hlast), if_pos (Or.inr hlast)]
      exact hk
    · rw [if_neg fun h => hlast (hrepeats.mp h), if_neg fun h => h.elim hempty hlast]
      refine ⟨?_, ?_⟩
      · rw [List.length_append, List.length_singleton, ← hk.count]
      · have hroom : log.length < (log ++ [cmd.text]).length - historySize + historySize := by
          rw [List.length_append, List.length_singleton]
          omega
        have hkept := (hk.ring.advance (b := (log ++ [cmd.text]).length - historySize)
          (by rw [List.length_append]; omega)).push (x := cmd.text) hroom
        have hupdate : (fun i => (Function.update h.history (h.historyCount % historySize) cmd i).text) =
            Function.update (fun i => (h.history i).text) (log.length % historySize) cmd.text := by
          funext i
          rw [hk.count, Function.update_apply, Function.update_apply]
          split_ifs <;> rfl
        rw [hupdate]
        exact hkept

/-- **The table has the last commands**, after whatever was entered. -/
theorem keeps_entered (cmds : List CommandLine) : (entered cmds).Keeps (remembered cmds) := by
  have hrun : ∀ (cmds : List CommandLine) (h : History) (log : List (List UInt8)), h.Keeps log →
      (cmds.foldl (fun h cmd => addHistory cmd h) h).Keeps
        ((cmds.map CommandLine.text).foldl remember log) := by
    intro cmds
    induction cmds with
    | nil => exact fun h log hk => hk
    | cons cmd cmds ih => exact fun h log hk => ih _ _ (hk.add cmd)
  refine hrun cmds History.empty [] ⟨rfl, ?_⟩
  intro i hi
  cases hi

/-! ## The place in the history -/

theorem Readline.cut_histIdx {i : ℕ} (h : s.cut i = .ok s') : s'.histIdx = s.histIdx := by
  obtain ⟨b, -, rfl⟩ := map_eq_ok.mp h
  rfl

theorem Readline.insert_histIdx (h : s.insert c = .ok s') : s'.histIdx = s.histIdx := by
  obtain ⟨b₁, -, h⟩ := bind_eq_ok.mp h
  obtain ⟨b₂, -, h⟩ := bind_eq_ok.mp h
  cases h
  rfl

theorem Readline.remove_histIdx (h : s.remove = .ok s') : s'.histIdx = s.histIdx := by
  unfold Readline.remove at h
  split_ifs at h
  · obtain ⟨b, -, h⟩ := bind_eq_ok.mp h
    cases h
    rfl
  · cases h
    rfl

theorem completeLoop_histIdx (rest : List UInt8) (h : completeLoop rest s = .ok s') :
    s'.histIdx = s.histIdx := by
  induction rest generalizing s with
  | nil =>
    cases h
    rfl
  | cons c rest ih =>
    unfold completeLoop at h
    split_ifs at h
    · obtain ⟨s₁, hinsert, h⟩ := bind_eq_ok.mp h
      exact (ih h).trans (Readline.insert_histIdx hinsert)
    · cases h
      rfl

theorem Typed.tabComplete_histIdx (ht : Typed s text) (h : Microkernel.tabComplete s = .ok s') :
    s'.histIdx = s.histIdx := by
  rcases ht.tabComplete_cases with ⟨name, -, htab⟩ | ⟨-, htab⟩
  · rw [htab] at h
    obtain ⟨s₁, hloop, hcut⟩ := bind_eq_ok.mp h
    exact (Readline.cut_histIdx hcut).trans (completeLoop_histIdx _ hloop)
  · rw [htab] at h
    cases h
    rfl

theorem Readline.recall_histIdx {i : ℕ} (hrecall : s.recall h i = .ok s') : s'.histIdx = i := by
  obtain ⟨b, -, hrecall⟩ := bind_eq_ok.mp hrecall
  obtain ⟨n, -, rfl⟩ := map_eq_ok.mp hrecall
  rfl

/-! ## Going back and forth -/

/-- How many commands one has gone back, of `n` that were entered. -/
def browse (n : ℕ) (back : ℕ) (c : UInt8) : ℕ :=
  if c = keyUp then min (back + 1) (min n historySize)
  else if c = keyDown then back - 1
  else back

/-- The command so far back; none is the empty line. -/
def recalled (log : List (List UInt8)) (back : ℕ) : List UInt8 :=
  if back = 0 then [] else log.getD (log.length - back) []

/-- The loop of `shell_readline` goes on after this key. -/
def StaysInLine (c : UInt8) : Prop := c ≠ newline ∧ c ≠ ctrlC ∧ c ≠ ctrlL

/-- The place in the history. -/
structure Browses (s : Readline) (log : List (List UInt8)) (back : ℕ) : Prop where
  place : s.histIdx + back = log.length
  back_le : back ≤ historySize

variable {back : ℕ}

theorem recalled_eq (hlt : 0 < back) (hle : back ≤ log.length) :
    recalled log back = log[log.length - back] := by
  unfold recalled
  rw [if_neg (Nat.ne_of_gt hlt), List.getD_eq_getElem _ _ (by omega)]

/-- **Up** goes one command back, as long as there is one in the table. -/
theorem Typed.up_browses (ht : Typed s text) (hk : h.Keeps log) (hb : Browses s log back) :
    ∃ s' text', s.up h = .ok s' ∧ Typed s' text' ∧ Browses s' log (browse log.length back keyUp) ∧
      (browse log.length back keyUp ≠ back →
        text' = recalled log (browse log.length back keyUp)) := by
  obtain ⟨hplace, hle⟩ := hb
  have hbrowse : browse log.length back keyUp = min (back + 1) (min log.length historySize) :=
    if_pos rfl
  rw [hbrowse]
  unfold Readline.up
  rw [hk.count]
  by_cases hmore : 0 < s.histIdx ∧ log.length < s.histIdx + historySize
  · have hnext : min (back + 1) (min log.length historySize) = back + 1 := by omega
    obtain ⟨s', hrecall, ht'⟩ := Typed.recall h (s.histIdx - 1) s
    have hline := hk.line_eq (i := s.histIdx - 1) (by omega) (by omega)
    have hidx := Readline.recall_histIdx hrecall
    have hsame : s.histIdx - 1 = log.length - (back + 1) := by omega
    rw [if_pos hmore, hnext]
    refine ⟨s', _, hrecall, ht', ⟨by omega, by omega⟩, fun _ => ?_⟩
    rw [hline, recalled_eq (Nat.succ_pos back) (by omega)]
    simp only [hsame]
  · have hnext : min (back + 1) (min log.length historySize) = back := by omega
    rw [if_neg hmore, hnext]
    exact ⟨s, text, rfl, ht, ⟨hplace, hle⟩, fun hne => absurd rfl hne⟩

/-- **Down** goes one command forth, and from the last one to the empty line. -/
theorem Typed.down_browses (ht : Typed s text) (hk : h.Keeps log) (hb : Browses s log back) :
    ∃ s' text', s.down h = .ok s' ∧ Typed s' text' ∧
      Browses s' log (browse log.length back keyDown) ∧
      (browse log.length back keyDown ≠ back →
        text' = recalled log (browse log.length back keyDown)) := by
  obtain ⟨hplace, hle⟩ := hb
  have hbrowse : browse log.length back keyDown = back - 1 := by
    unfold browse
    rw [if_neg (by decide), if_pos rfl]
  rw [hbrowse]
  unfold Readline.down
  rw [hk.count]
  by_cases hmore : s.histIdx + 1 < log.length
  · obtain ⟨s', hrecall, ht'⟩ := Typed.recall h (s.histIdx + 1) s
    have hline := hk.line_eq (i := s.histIdx + 1) hmore (by omega)
    have hidx := Readline.recall_histIdx hrecall
    have hsame : s.histIdx + 1 = log.length - (back - 1) := by omega
    rw [if_pos hmore]
    refine ⟨s', _, hrecall, ht', ⟨by omega, by omega⟩, fun _ => ?_⟩
    rw [hline, recalled_eq (by omega) (by omega)]
    simp only [hsame]
  by_cases hlast : s.histIdx + 1 = log.length
  · obtain ⟨s', hcut, hstring, hpos, hlen⟩ := cut_zero ⟨s.mem, 0, 0, log.length⟩
    have hidx : s'.histIdx = log.length := Readline.cut_histIdx hcut
    have hzero : back - 1 = 0 := by omega
    rw [if_neg hmore, if_pos hlast, hzero]
    refine ⟨s', [], hcut, ⟨⟨Nat.zero_le _, rfl⟩, List.not_mem_nil, by decide, hlen, ?_⟩,
      ⟨by omega, Nat.zero_le _⟩, fun _ => rfl⟩
    rw [hpos]
    exact Nat.zero_le _
  · have hzero : back = 0 := by omega
    rw [if_neg hmore, if_neg hlast, hzero]
    exact ⟨s, text, rfl, ht, ⟨by omega, Nat.zero_le _⟩, fun hne => absurd rfl hne⟩

/-- The end of a round keeps the place. -/
theorem Typed.next_browses (ht : Typed s text) (hb : Browses s log back) :
    ∃ s', s.next = .ok (.more s') ∧ Reads s' text ∧ Browses s' log back := by
  obtain ⟨s', hnext, hreads, hidx⟩ := ht.next
  exact ⟨s', hnext, hreads, by rw [hidx]; exact hb.place, hb.back_le⟩

theorem Browses.congr (hb : Browses s log back) (hidx : s'.histIdx = s.histIdx) :
    Browses s' log back := ⟨by rw [hidx]; exact hb.place, hb.back_le⟩

/-- Other keys do not move in the history. -/
theorem browse_other {n : ℕ} (hup : c ≠ keyUp) (hdown : c ≠ keyDown) : browse n back c = back := by
  unfold browse
  rw [if_neg hup, if_neg hdown]

/-- **A key** moves as far as it should. -/
theorem Reads.key_browses (hr : Reads s text) (hk : h.Keeps log) (hb : Browses s log back)
    (hc : StaysInLine c) :
    ∃ s' text', readlineKey h c s = .ok (.more s') ∧ Reads s' text' ∧
      Browses s' log (browse log.length back c) ∧
      (browse log.length back c ≠ back → text' = recalled log (browse log.length back c)) := by
  have ht := hr.typed
  obtain ⟨henter, hctrlC, hctrlL⟩ := hc
  by_cases hup : c = keyUp
  · subst hup
    obtain ⟨s₁, text₁, hkey, ht₁, hb₁, htext⟩ := ht.up_browses hk hb
    obtain ⟨s₂, hnext, hr₂, hb₂⟩ := ht₁.next_browses hb₁
    refine ⟨s₂, text₁, ?_, hr₂, hb₂, htext⟩
    rw [readlineKey, if_neg henter, if_neg (by decide), if_neg (by decide), if_pos rfl, hkey, ok_bind,
      hnext]
  by_cases hdown : c = keyDown
  · subst hdown
    obtain ⟨s₁, text₁, hkey, ht₁, hb₁, htext⟩ := ht.down_browses hk hb
    obtain ⟨s₂, hnext, hr₂, hb₂⟩ := ht₁.next_browses hb₁
    refine ⟨s₂, text₁, ?_, hr₂, hb₂, htext⟩
    rw [readlineKey, if_neg henter, if_neg (by decide), if_neg (by decide), if_neg hup, if_pos rfl,
      hkey, ok_bind, hnext]
  -- The other keys keep the number in the history.
  rw [browse_other hup hdown]
  have hstay : ∀ {s₁ text₁}, Typed s₁ text₁ → s₁.histIdx = s.histIdx →
      ∃ s' text', s₁.next = .ok (.more s') ∧ Reads s' text' ∧ Browses s' log back ∧
        (back ≠ back → text' = recalled log back) := by
    intro s₁ text₁ ht₁ hidx
    obtain ⟨s₂, hnext, hr₂, hb₂⟩ := ht₁.next_browses (hb.congr hidx)
    exact ⟨s₂, text₁, hnext, hr₂, hb₂, fun hne => absurd rfl hne⟩
  have hcursor : ∀ n ≤ text.length, Typed { s with pos := n } text :=
    fun n hn => ⟨ht.holds, ht.noNul, ht.short, ht.len_eq, hn⟩
  have hpos := ht.pos_le
  rw [readlineKey, if_neg henter]
  by_cases hback : c = backspace
  · obtain ⟨s₁, text₁, hremove, ht₁⟩ := ht.remove
    rw [if_pos hback, hremove, ok_bind]
    exact hstay ht₁ (Readline.remove_histIdx hremove)
  by_cases htab : c = tab
  · obtain ⟨s₁, text₁, hcomplete, ht₁⟩ := ht.tabComplete
    rw [if_neg hback, if_pos htab, hcomplete, ok_bind]
    exact hstay ht₁ (ht.tabComplete_histIdx hcomplete)
  rw [if_neg hback, if_neg htab, if_neg hup, if_neg hdown]
  by_cases hleft : c = keyLeft ∧ 0 < s.pos
  · rw [if_pos hleft]
    exact hstay (hcursor _ (by omega)) rfl
  by_cases hright : c = keyRight ∧ s.pos < s.len
  · rw [if_neg hleft, if_pos hright]
    exact hstay (hcursor (s.pos + 1) (by rw [← ht.len_eq]; exact hright.2)) rfl
  rw [if_neg hleft, if_neg hright]
  by_cases hhome : c = keyHome
  · rw [if_pos hhome]
    exact hstay (hcursor 0 (Nat.zero_le _)) rfl
  by_cases hend : c = keyEnd
  · rw [if_neg hhome, if_pos hend]
    exact hstay (hcursor _ ht.len_eq.le) rfl
  rw [if_neg hhome, if_neg hend, if_neg fun hctrl => hctrl.elim hctrlC hctrlL]
  by_cases hprint : isPrintable c ∧ s.len < cmdMax - 1
  · have hzero : c ≠ 0 := by
      rintro rfl
      exact absurd hprint.1 (by decide)
    obtain ⟨s₁, hinsert, ht₁, -⟩ := ht.insert (by rw [← ht.len_eq]; exact hprint.2) hzero
    rw [if_pos hprint, hinsert, ok_bind]
    exact hstay ht₁ (Readline.insert_histIdx hinsert)
  · rw [if_neg hprint]
    exact hstay ht rfl

/-- **The step gives the run.** -/
theorem readlineRun_browses (hk : h.Keeps log) {keys : List UInt8} (hkeys : ∀ c ∈ keys, StaysInLine c)
    (hr : Reads s text) (hb : Browses s log back) :
    ∃ s' text', readlineRun h keys (.more s) = .ok (.more s') ∧ Reads s' text' ∧
      Browses s' log (keys.foldl (browse log.length) back) := by
  induction keys generalizing s text back with
  | nil => exact ⟨s, text, rfl, hr, hb⟩
  | cons c keys ih =>
    obtain ⟨s₁, text₁, hkey, hr₁, hb₁, -⟩ := hr.key_browses hk hb (hkeys c List.mem_cons_self)
    obtain ⟨s', text', hrun, hend⟩ :=
      ih (fun c hc => hkeys c (List.mem_cons_of_mem _ hc)) hr₁ hb₁
    refine ⟨s', text', ?_, hend⟩
    rw [readlineRun, hkey, ok_bind, hrun]

theorem readlineRun_append (h : History) (keys keys' : List UInt8) (r : Reading) :
    readlineRun h (keys ++ keys') r = (readlineRun h keys r).bind (readlineRun h keys') := by
  induction keys generalizing r with
  | nil => cases r <;> rfl
  | cons c keys ih =>
    cases r with
    | line mem => cases keys' <;> rfl
    | more s =>
      rw [List.cons_append, readlineRun, readlineRun]
      cases readlineKey h c s with
      | error e => rfl
      | ok r => exact ih r

/-- **Up and Down recall what was entered.**  Whatever commands were entered and whatever was typed
since, a key that goes back or forth in the history puts the command so far back among those that were
remembered into the line, or the empty line; one can go back to the last 32. -/
theorem history_recall (cmds : List CommandLine) (mem : Memory) {keys : List UInt8} {c : UInt8}
    (hkeys : ∀ k ∈ keys ++ [c], StaysInLine k) :
    let log := remembered cmds
    let back := keys.foldl (browse log.length) 0
    ∃ s text, shellReadline (entered cmds) mem (keys ++ [c]) = .ok (.more s) ∧ Reads s text ∧
      (browse log.length back c ≠ back → text = recalled log (browse log.length back c)) := by
  have hk := keeps_entered cmds
  obtain ⟨s, hstart, hreads⟩ := reads_start (entered cmds) mem
  have hidx : s.histIdx = (remembered cmds).length :=
    (Readline.cut_histIdx hstart).trans hk.count
  have hfirst : Browses s (remembered cmds) 0 := ⟨hidx, Nat.zero_le _⟩
  obtain ⟨s₁, text₁, hrun, hr₁, hb₁⟩ := readlineRun_browses hk
    (fun k hk => hkeys k (List.mem_append_left _ hk)) hreads hfirst
  obtain ⟨s₂, text₂, hkey, hr₂, -, htext⟩ := hr₁.key_browses hk hb₁
    (hkeys c (List.mem_append_right _ List.mem_cons_self))
  refine ⟨s₂, text₂, ?_, hr₂, htext⟩
  rw [shellReadline, hstart, ok_bind, readlineRun_append, hrun, ok_bind, readlineRun, hkey]
  rfl

theorem commandA_noNul : (0 : UInt8) ∉ [(0x61 : UInt8)] := by decide

theorem commandA_short : [(0x61 : UInt8)].length < cmdMax := by decide

/-- The command `a`. -/
def commandA : CommandLine := ⟨[0x61], commandA_noNul, commandA_short⟩

/-- Behind a letter, Up puts the command back that was entered twice. -/
theorem history_recall_twice :
    let log := remembered [commandA, commandA]
    let back := [(0x62 : UInt8)].foldl (browse log.length) 0
    ∃ s text, shellReadline (entered [commandA, commandA]) (fun _ => 0) ([0x62] ++ [keyUp]) =
        .ok (.more s) ∧ Reads s text ∧
      (browse log.length back keyUp ≠ back → text = recalled log (browse log.length back keyUp)) :=
  history_recall [commandA, commandA] (fun _ => 0) fun k hk => by
    fin_cases hk
    · exact ⟨by decide, by decide, by decide⟩
    · exact ⟨by decide, by decide, by decide⟩

example : remembered [commandA, commandA] = [[0x61]] := by decide

end Microkernel

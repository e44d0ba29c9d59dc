/-
# Which task comes next

The whole of `find_next_task`: the sleepers it wakes, and the slot it returns, the first one in
cyclic order after the current slot among those of the smallest priority value.  The search
begins with the largest priority value as its bound, so that a task with that value is never
found.
-/
import Microkernel.Selection

namespace Microkernel

namespace Kernel

variable {k : Kernel} {r : Slot}

/-- The place of a slot in the cyclic order that begins after the current slot. -/
def place (k : Kernel) (i : Slot) : ℕ := (i.val + maxTasks - (k.currentTask.val + 1)) % maxTasks

theorem place_roundSlot (k : Kernel) {n : ℕ} (hn : n < maxTasks) : k.place (k.roundSlot n) = n := by
  have hc := k.currentTask.isLt
  unfold place roundSlot
  unfold maxTasks at *
  dsimp only
  omega

/-- Slot `r` holds the first runnable task, after the current slot, of the smallest priority
value. -/
structure FirstLeast (k : Kernel) (r : Slot) : Prop where
  other : r ≠ k.currentTask
  runnable : canRun (k.tasks r) = true
  least : ∀ i, i ≠ k.currentTask → canRun (k.tasks i) = true →
    (k.tasks r).priority ≤ (k.tasks i).priority
  first : ∀ i, i ≠ k.currentTask → canRun (k.tasks i) = true →
    (k.tasks i).priority = (k.tasks r).priority → k.place r ≤ k.place i

/-- What `find_next_task` finds is the first of the smallest. -/
theorem bestTask_firstLeast (h : k.bestTask = some r) : FirstLeast k r := by
  obtain ⟨hother, hrun, _⟩ := bestTask_eq_some h
  rw [bestTask_eq] at h
  rcases FirstMin.foldl_round_first h with ⟨hnone, _⟩ | ⟨_, l₁, l₂, hsplit, _, h₁, h₂⟩
  · cases hnone
  · have horder : ((List.range maxTasks).map k.roundSlot).Pairwise fun i j => k.place i < k.place j := by
      rw [List.pairwise_map]
      refine List.Pairwise.imp_of_mem ?_ (List.pairwise_lt_range (n := maxTasks))
      intro m n hm hn hlt
      rw [place_roundSlot k (List.mem_range.mp hm), place_roundSlot k (List.mem_range.mp hn)]
      exact hlt
    rw [hsplit] at horder
    -- every slot is before it, it, or after it
    have hcases : ∀ i, i ∈ l₁ ∨ i = r ∨ i ∈ l₂ := by
      intro i
      obtain ⟨n, hn, rfl⟩ := k.exists_roundSlot i
      have hmem : k.roundSlot n ∈ (List.range maxTasks).map k.roundSlot :=
        List.mem_map.mpr ⟨n, List.mem_range.mpr hn, rfl⟩
      rw [hsplit, List.mem_append, List.mem_cons] at hmem
      exact hmem
    have hp : ∀ i, i ≠ k.currentTask → canRun (k.tasks i) = true →
        (decide (i ≠ k.currentTask) && canRun (k.tasks i)) = true := by
      intro i hi hr
      rw [decide_eq_true hi, hr]
      rfl
    refine ⟨hother, hrun, fun i hi hr => ?_, fun i hi hr heq => ?_⟩
    · rcases hcases i with hmem | rfl | hmem
      · exact UInt32.le_of_lt (h₁ i hmem (hp i hi hr))
      · exact UInt32.le_refl _
      · exact h₂ i hmem (hp i hi hr)
    · rcases hcases i with hmem | rfl | hmem
      · have hlt : (k.tasks r).priority < (k.tasks i).priority := h₁ i hmem (hp i hi hr)
        rw [heq] at hlt
        exact absurd hlt (UInt32.lt_irrefl _)
      · exact le_refl _
      · have hafter := (List.pairwise_append.mp horder).2.1
        exact le_of_lt ((List.pairwise_cons.mp hafter).1 i hmem)

theorem FirstLeast.unique {r' : Slot} (h : FirstLeast k r) (h' : FirstLeast k r') : r = r' := by
  have hprio : (k.tasks r).priority = (k.tasks r').priority :=
    UInt32.le_antisymm (h.least r' h'.other h'.runnable) (h'.least r h.other h.runnable)
  have hplace : k.place r = k.place r' :=
    le_antisymm (h.first r' h'.other h'.runnable hprio.symm) (h'.first r h.other h.runnable hprio)
  have hr := r.isLt
  have hr' := r'.isLt
  have hc := k.currentTask.isLt
  apply Fin.ext
  unfold place maxTasks at *
  omega

/-- **`find_next_task` selects right**: it makes ready exactly the sleeping tasks whose wake tick
is reached; if another task is runnable it returns the first of the smallest priority value, and
otherwise the current slot, if its task is runnable. -/
def SelectsRight (k : Kernel) : Prop :=
  (∀ i, k.findNextTask.1.tasks i =
    if (k.tasks i).active = true ∧ (k.tasks i).state = .sleeping ∧ (k.tasks i).wakeTick ≤ k.tickCount then
      { k.tasks i with state := .ready } else k.tasks i) ∧
  ((∃ i, i ≠ k.currentTask ∧ canRun (k.findNextTask.1.tasks i) = true) →
    FirstLeast k.findNextTask.1 k.findNextTask.2) ∧
  ((¬ ∃ i, i ≠ k.currentTask ∧ canRun (k.findNextTask.1.tasks i) = true) →
    canRun k.findNextTask.1.current = true → k.findNextTask.2 = k.currentTask)

theorem wakeTask_eq (now : UInt32) (t : Task) : wakeTask now t =
    if t.active = true ∧ t.state = .sleeping ∧ t.wakeTick ≤ now then { t with state := .ready } else t := by
  unfold wakeTask isDue
  congr 1
  simp [and_assoc]

/-- **When the selection is right**: another eligible task has a priority value below the largest,
or no other task is eligible, or the current task is not eligible and slot 0, which is returned
then, holds the first eligible task after the current slot. -/
theorem selectsRight_iff (k : Kernel) : k.SelectsRight ↔
    (∃ i, i ≠ k.currentTask ∧ eligible k.tickCount (k.tasks i) = true ∧
      (k.tasks i).priority < 0xFFFFFFFF) ∨
    (∀ i, i ≠ k.currentTask → eligible k.tickCount (k.tasks i) = false) ∨
    (eligible k.tickCount k.current = false ∧ k.currentTask ≠ 0 ∧
      eligible k.tickCount (k.tasks 0) = true ∧
      ∀ i, i ≠ k.currentTask → eligible k.tickCount (k.tasks i) = true → k.place 0 ≤ k.place i) := by
  have hrun : ∀ i, canRun (k.wakeSleeping.tasks i) = eligible k.tickCount (k.tasks i) :=
    fun i => canRun_wakeTask _ _
  have hprio : ∀ i, (k.wakeSleeping.tasks i).priority = (k.tasks i).priority :=
    fun i => wakeTask_priority _ _
  have hwake : ∀ i, k.wakeSleeping.tasks i = if (k.tasks i).active = true ∧
      (k.tasks i).state = .sleeping ∧ (k.tasks i).wakeTick ≤ k.tickCount then
      { k.tasks i with state := .ready } else k.tasks i := fun i => wakeTask_eq _ _
  unfold SelectsRight findNextTask
  dsimp only
  rw [and_iff_right hwake]
  cases hbest : k.wakeSleeping.bestTask with
  | some b =>
    -- something was found, and it is the first of the smallest
    have hpick : k.wakeSleeping.pickNext = b := by
      unfold pickNext
      rw [hbest]
    obtain ⟨hb, hr, hlt⟩ := bestTask_eq_some hbest
    rw [hpick]
    have hleft : ∃ i, i ≠ k.currentTask ∧ eligible k.tickCount (k.tasks i) = true ∧
        (k.tasks i).priority < 0xFFFFFFFF := ⟨b, hb, (hrun b).symm.trans hr, (hprio b) ▸ hlt⟩
    refine iff_of_true ⟨fun _ => bestTask_firstLeast hbest, fun hnone => ?_⟩ (Or.inl hleft)
    exact absurd ⟨b, hb, hr⟩ hnone
  | none =>
    have hmax := bestTask_eq_none.mp hbest
    have hnot : ¬ ∃ i, i ≠ k.currentTask ∧ eligible k.tickCount (k.tasks i) = true ∧
        (k.tasks i).priority < 0xFFFFFFFF := by
      rintro ⟨i, hi, he, hlt⟩
      exact hmax i hi ((hrun i).trans he) ((hprio i).symm ▸ hlt)
    have hpick : k.wakeSleeping.pickNext = if eligible k.tickCount k.current then k.currentTask else 0 := by
      unfold pickNext
      rw [hbest]
      have hcur : canRun k.wakeSleeping.current = eligible k.tickCount k.current := hrun k.currentTask
      rw [hcur]
      rfl
    rw [or_iff_right hnot]
    have hprios : ∀ i, i ≠ k.currentTask → canRun (k.wakeSleeping.tasks i) = true →
        (k.wakeSleeping.tasks i).priority = 0xFFFFFFFF := by
      intro i hi hr
      have hge := hmax i hi hr
      have hlt := (k.wakeSleeping.tasks i).priority.toNat_lt
      rw [UInt32.lt_iff_toNat_lt] at hge
      apply UInt32.toNat_inj.mp
      simp only [UInt32.reduceToNat] at hge ⊢
      omega
    by_cases hsome : ∃ i, i ≠ k.currentTask ∧ canRun (k.wakeSleeping.tasks i) = true
    · have hsome' : ¬ ∀ i, i ≠ k.currentTask → eligible k.tickCount (k.tasks i) = false := by
        obtain ⟨i, hi, hr⟩ := hsome
        intro hall
        rw [hrun, hall i hi] at hr
        cases hr
      rw [or_iff_right hsome', hpick]
      cases hcur : eligible k.tickCount k.current with
      | true =>
        rw [if_pos rfl]
        refine iff_of_false (fun h => (h.1 hsome).other rfl) fun h => ?_
        cases h.1
      | false =>
        rw [if_neg Bool.false_ne_true]
        constructor
        · rintro ⟨hfirst, _⟩
          obtain ⟨hother, hr, _, hplace⟩ := hfirst hsome
          refine ⟨rfl, fun h0 => hother h0.symm, (hrun 0).symm.trans hr, fun i hi he => ?_⟩
          have hri := (hrun i).trans he
          exact hplace i hi hri ((hprios i hi hri).trans (hprios 0 hother hr).symm)
        · rintro ⟨_, h0, he, hplace⟩
          have hr := (hrun 0).trans he
          refine ⟨fun _ => ⟨h0.symm, hr, fun i hi hri => ?_, fun i hi hri _ => ?_⟩, fun hnone => ?_⟩
          · rw [hprios i hi hri, hprios 0 h0.symm hr]
            exact UInt32.le_refl _
          · exact hplace i hi ((hrun i).symm.trans hri)
          · exact absurd hsome hnone
    · refine iff_of_true ⟨fun h => absurd h hsome, fun _ hr => ?_⟩ (Or.inl fun i hi => ?_)
      · have hcur : eligible k.tickCount k.current = true := (hrun k.currentTask).symm.trans hr
        rw [hpick, if_pos hcur]
      · by_contra he
        exact hsome ⟨i, hi, (hrun i).trans (Bool.eq_true_of_not_eq_false he)⟩

/-- The kernel task, and a ready task of the largest priority value. -/
def largestPriority : Kernel := ((boot 0x1000).taskCreate [] 0xFFFFFFFF 0x10000).1

/-- A ready task of the largest priority value is passed over. -/
theorem largest_passed_over : ¬ SelectsRight largestPriority := by
  intro h
  have hfirst := h.2.1 ⟨1, by decide, by decide⟩
  exact hfirst.other (by decide)

end Kernel

end Microkernel

/-
# Computations that take rounds

A loop that may run for ever is a function of the number of rounds it may take, which gives
`none` if they do not suffice.  When more rounds do not change a result, the result is one of the
loop, and a sequence of such computations returns exactly if each of them does.  Nothing here is
about a program.
-/
import Mathlib

namespace Rounds

variable {α β : Type*} {f : ℕ → Option α} {g : ℕ → α → Option β}

/-- Some number of rounds gives this result. -/
def Gives (f : ℕ → Option α) (a : α) : Prop := ∃ n, f n = some a

/-- Some number of rounds suffices. -/
def Returns (f : ℕ → Option α) : Prop := ∃ a, Gives f a

/-- More rounds do not change a result. -/
def Steady (f : ℕ → Option α) : Prop := ∀ n m a, n ≤ m → f n = some a → f m = some a

theorem Steady.unique {a b : α} (h : Steady f) (ha : Gives f a) (hb : Gives f b) : a = b := by
  obtain ⟨n, hn⟩ := ha
  obtain ⟨m, hm⟩ := hb
  have h₁ := h n (max n m) a (Nat.le_max_left n m) hn
  have h₂ := h m (max n m) b (Nat.le_max_right n m) hm
  exact Option.some.inj (h₁.symm.trans h₂)

/-- It is enough that one round more does not change a result. -/
theorem steady_of_succ (h : ∀ n a, f n = some a → f (n + 1) = some a) : Steady f := by
  intro n m a hle ha
  induction m, hle using Nat.le_induction with
  | base => exact ha
  | succ m _ ih => exact h m a ih

theorem steady_const (o : Option α) : Steady fun _ => o := fun _ _ _ _ h => h

theorem steady_ite {p : Prop} [Decidable p] {f f' : ℕ → Option α} (h : Steady f) (h' : Steady f') :
    Steady fun n => if p then f n else f' n := by
  intro n m a hle ha
  split_ifs at ha ⊢
  · exact h n m a hle ha
  · exact h' n m a hle ha

theorem Steady.bind (hf : Steady f) (hg : ∀ a, Steady fun n => g n a) :
    Steady fun n => (f n).bind (g n) := by
  intro n m b hle hb
  obtain ⟨a, ha, hb⟩ := Option.bind_eq_some_iff.mp hb
  exact Option.bind_eq_some_iff.mpr ⟨a, hf n m a hle ha, hg a n m b hle hb⟩

theorem Steady.map (hf : Steady f) (h : α → β) : Steady fun n => (f n).map h := by
  intro n m b hle hb
  obtain ⟨a, ha, rfl⟩ := Option.map_eq_some_iff.mp hb
  exact Option.map_eq_some_iff.mpr ⟨a, hf n m a hle ha, rfl⟩

theorem Steady.gives_bind {a : α} {b : β} (hf : Steady f) (hg : Steady fun n => g n a)
    (ha : Gives f a) (hb : Gives (fun n => g n a) b) : Gives (fun n => (f n).bind (g n)) b := by
  obtain ⟨n, hn⟩ := ha
  obtain ⟨m, hm⟩ := hb
  refine ⟨max n m, Option.bind_eq_some_iff.mpr ⟨a, ?_, ?_⟩⟩
  · exact hf n _ a (Nat.le_max_left n m) hn
  · exact hg m _ b (Nat.le_max_right n m) hm

theorem Gives.map {a : α} (h : Gives f a) (k : α → β) : Gives (fun n => (f n).map k) (k a) := by
  obtain ⟨n, hn⟩ := h
  exact ⟨n, by dsimp only; rw [hn, Option.map_some]⟩

/-- A loop that takes one round more. -/
theorem Gives.of_succ {f' : ℕ → Option α} {a : α} (h : Gives f a) (hsucc : ∀ n, f' (n + 1) = f n) :
    Gives f' a := by
  obtain ⟨n, hn⟩ := h
  exact ⟨n + 1, by rw [hsucc, hn]⟩

theorem gives_some {a b : α} : Gives (fun _ => some a) b ↔ a = b :=
  ⟨fun ⟨_, h⟩ => Option.some.inj h, fun h => ⟨0, congrArg some h⟩⟩

theorem returns_some (a : α) : Returns fun _ => some a := ⟨a, 0, rfl⟩

theorem returns_map {h : α → β} : Returns (fun n => (f n).map h) ↔ Returns f := by
  constructor
  · rintro ⟨b, n, hn⟩
    obtain ⟨a, ha, -⟩ := Option.map_eq_some_iff.mp hn
    exact ⟨a, n, ha⟩
  · rintro ⟨a, n, ha⟩
    exact ⟨h a, n, Option.map_eq_some_iff.mpr ⟨a, ha, rfl⟩⟩

/-- **One computation after the other** returns exactly if the first does and, after its result,
the second. -/
theorem returns_bind (hf : Steady f) (hg : ∀ a, Steady fun n => g n a) :
    Returns (fun n => (f n).bind (g n)) ↔
      Returns f ∧ ∀ a, Gives f a → Returns fun n => g n a := by
  constructor
  · rintro ⟨b, n, hn⟩
    obtain ⟨a, ha, hb⟩ := Option.bind_eq_some_iff.mp hn
    refine ⟨⟨a, n, ha⟩, fun a' ha' => ?_⟩
    rw [hf.unique ha' ⟨n, ha⟩]
    exact ⟨b, n, hb⟩
  · rintro ⟨⟨a, ha⟩, h⟩
    obtain ⟨b, m, hb⟩ := h a ha
    obtain ⟨n, ha⟩ := ha
    refine ⟨b, max n m, Option.bind_eq_some_iff.mpr ⟨a, ?_, ?_⟩⟩
    · exact hf n _ a (Nat.le_max_left n m) ha
    · exact hg a m _ b (Nat.le_max_right n m) hb

end Rounds

import Mathlib.Data.Option.Basic

/-!
# A recursive lock

The task that holds the lock may take it again, and gives it up with the last give. The lock
counts the takes **after** the first, so that a lock which is held by a task no times is not a
value. A take that would have to wait, and a give by a task that does not hold the lock, are
`none`.

What a nested section is worth is one equation: between a take and the give that matches it
the lock is the holder's, and the give restores the lock the take found (`give_of_take`). What
another task can do meanwhile is nothing, which is what the two inversion lemmas say of it.
-/

/-- Free, or held, with the number of takes after the first. -/
inductive RecLock (τ : Type*)
  | free
  | held (t : τ) (nested : Nat)
deriving DecidableEq, Repr

namespace RecLock

variable {τ : Type*} [DecidableEq τ] {l l' : RecLock τ} {t : τ} {n : Nat}

def take (t : τ) : RecLock τ → Option (RecLock τ)
  | .free => some (.held t 0)
  | .held u n => if u = t then some (.held u (n + 1)) else none

def give (t : τ) : RecLock τ → Option (RecLock τ)
  | .free => none
  | .held u 0 => if u = t then some .free else none
  | .held u (n + 1) => if u = t then some (.held u n) else none

@[simp] theorem give_held_zero (t : τ) : (held t 0).give t = some .free := if_pos rfl

@[simp] theorem give_held_succ (t : τ) (n : Nat) : (held t (n + 1)).give t = some (.held t n) :=
  if_pos rfl

/-- A task that takes the lock found it free, or has it. -/
theorem take_cases (h : l.take t = some l') :
    (l = .free ∧ l' = .held t 0) ∨ ∃ n, l = .held t n ∧ l' = .held t (n + 1) := by
  cases l with
  | free =>
    cases h
    exact .inl ⟨rfl, rfl⟩
  | held u n =>
    obtain ⟨hut, hl'⟩ := Option.ite_none_right_eq_some.mp h
    cases hl'
    exact .inr ⟨n, by rw [hut], by rw [hut]⟩

/-- A task that gives the lock has it. -/
theorem give_cases (h : l.give t = some l') :
    (l = .held t 0 ∧ l' = .free) ∨ ∃ n, l = .held t (n + 1) ∧ l' = .held t n := by
  cases l with
  | free => cases h
  | held u n =>
    cases n with
    | zero =>
      obtain ⟨hut, hl'⟩ := Option.ite_none_right_eq_some.mp h
      cases hl'
      exact .inl ⟨by rw [hut], rfl⟩
    | succ n =>
      obtain ⟨hut, hl'⟩ := Option.ite_none_right_eq_some.mp h
      cases hl'
      exact .inr ⟨n, by rw [hut], by rw [hut]⟩

/-- **A nested section** leaves the lock as it was. -/
theorem give_of_take (h : l.take t = some l') : l'.give t = some l := by
  rcases take_cases h with ⟨rfl, rfl⟩ | ⟨n, rfl, rfl⟩
  · exact give_held_zero t
  · exact give_held_succ t n

/-! ## How deep a task is in it -/

/-- The takes of a task which it has not given back. -/
def depth (t : τ) : RecLock τ → Nat
  | .free => 0
  | .held u n => if u = t then n + 1 else 0

@[simp] theorem depth_free (t : τ) : (free : RecLock τ).depth t = 0 := rfl

@[simp] theorem depth_held (t : τ) (n : Nat) : (held t n).depth t = n + 1 := if_pos rfl

theorem depth_held_ne {u : τ} (h : u ≠ t) (n : Nat) : (held u n).depth t = 0 := if_neg h

/-- Only the holder is in. -/
theorem depth_pos : 0 < l.depth t ↔ ∃ n, l = .held t n := by
  constructor
  · intro h
    cases l with
    | free => exact absurd h (by simp)
    | held u n =>
      by_cases hut : u = t
      · exact ⟨n, by rw [hut]⟩
      · exact absurd h (by simp [depth_held_ne hut])
  · rintro ⟨n, rfl⟩
    simp

theorem depth_take (h : l.take t = some l') : l'.depth t = l.depth t + 1 := by
  rcases take_cases h with ⟨rfl, rfl⟩ | ⟨n, rfl, rfl⟩
  · simp
  · simp

/-- A take is nothing to another task. -/
theorem depth_take_ne {u : τ} (h : l.take t = some l') (hu : t ≠ u) : l'.depth u = l.depth u := by
  rcases take_cases h with ⟨rfl, rfl⟩ | ⟨n, rfl, rfl⟩
  · rw [depth_held_ne hu, depth_free]
  · rw [depth_held_ne hu, depth_held_ne hu]

/-- Nor is a give. -/
theorem depth_give_ne {u : τ} (h : l.give t = some l') (hu : t ≠ u) : l'.depth u = l.depth u := by
  rcases give_cases h with ⟨rfl, rfl⟩ | ⟨n, rfl, rfl⟩
  · rw [depth_held_ne hu, depth_free]
  · rw [depth_held_ne hu, depth_held_ne hu]

end RecLock

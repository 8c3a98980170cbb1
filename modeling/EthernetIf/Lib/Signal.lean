import Mathlib.Data.List.Destutter

/-!
# Following a signal

A signal is read again and again, and something else — a switch, a service — is operated
whenever a reading differs from the one before. The operations then *are* the changes of the
signal:

> the operations, in order, are `changes b rs`, where `rs` are the readings so far and `b`
> stands for the time before the first of them.

Between a reading that differs and the operation it asks for, the operations are one behind.
`Follows` has both states, and the rules say how a reading and an operation move between them.
`changes` is Mathlib's `List.destutter`, without the value it starts from.
-/

namespace Signal

variable {α : Type*}

/-- The last reading. -/
def level (b : α) (rs : List α) : α := rs.getLastD b

@[simp] theorem level_nil (b : α) : level b [] = b := rfl

@[simp] theorem level_snoc (b : α) (rs : List α) (r : α) : level b (rs ++ [r]) = r := by
  simp [level]

theorem level_cons (b r : α) (rs : List α) : level b (r :: rs) = level r rs :=
  List.getLastD_cons

/-! ## A switch -/

/-- What is operated: its position, and the operations that led to it. -/
structure Switch (b : α) where
  on : α
  ops : List α
  on_eq : on = level b ops

namespace Switch

variable {b : α}

/-- Not operated yet. -/
def init (b : α) : Switch b := ⟨b, [], rfl⟩

def turn (sw : Switch b) (v : α) : Switch b := ⟨v, sw.ops ++ [v], (level_snoc b sw.ops v).symm⟩

/-- A switch that is operated only where that makes a difference. -/
def set [DecidableEq α] (sw : Switch b) (v : α) : Switch b := if sw.on = v then sw else sw.turn v

end Switch

/-! ## Changes -/

variable [DecidableEq α] {b r : α} {rs ops : List α}

/-- The readings that differ from the one before. -/
def changes (b : α) (rs : List α) : List α := (rs.destutter' (· ≠ ·) b).tail

theorem cons_changes (b : α) (rs : List α) : b :: changes b rs = rs.destutter' (· ≠ ·) b := by
  induction rs with
  | nil => rfl
  | cons r rs ih =>
    rw [changes, List.destutter'_cons]
    split
    · rfl
    · exact ih

theorem changes_cons (b r : α) (rs : List α) :
    changes b (r :: rs) = if r = b then changes b rs else r :: changes r rs := by
  rw [changes, List.destutter'_cons]
  by_cases hr : r = b
  · rw [if_pos hr, if_neg (by simp [hr])]
    rfl
  · rw [if_neg hr, if_pos (Ne.symm hr), List.tail_cons, cons_changes]

/-- Changes alternate, the first of them with the time before. -/
theorem changes_isChain (b : α) (rs : List α) : (b :: changes b rs).IsChain (· ≠ ·) := by
  rw [cons_changes]
  exact List.isChain_destutter' _ rs b

theorem changes_snoc (b r : α) (rs : List α) :
    changes b (rs ++ [r]) = if r = level b rs then changes b rs else changes b rs ++ [r] := by
  induction rs generalizing b with
  | nil => rw [List.nil_append, changes_cons]; rfl
  | cons r' rs ih =>
    rw [List.cons_append, changes_cons, changes_cons, level_cons]
    by_cases hr : r' = b
    · rw [if_pos hr, if_pos hr, ih, hr]
    · rw [if_neg hr, if_neg hr, ih]
      split
      · rfl
      · rfl

theorem level_changes (b : α) (rs : List α) : level b (changes b rs) = level b rs := by
  induction rs using List.reverseRecOn with
  | nil => rfl
  | append_singleton rs r ih =>
    rw [changes_snoc, level_snoc]
    by_cases hr : r = level b rs
    · rw [if_pos hr, ih, hr]
    · rw [if_neg hr, level_snoc]

/-! ## Operations that follow -/

/-- The operations are the changes so far — all but the last one, where they are behind. -/
def Follows (b : α) (behind : Bool) (ops rs : List α) : Prop :=
  changes b rs = if behind then ops ++ [level b rs] else ops

namespace Follows

theorem init (b : α) : Follows b false [] [] := rfl

/-- A reading. -/
theorem read (h : Follows b false ops rs) (r : α) :
    Follows b (decide (r ≠ level b rs)) ops (rs ++ [r]) := by
  have hops : changes b rs = ops := h
  rw [Follows, changes_snoc, hops, level_snoc]
  by_cases hr : r = level b rs
  · simp [hr]
  · simp [hr]

/-- The operation that was missing. -/
theorem turn (h : Follows b true ops rs) : Follows b false (ops ++ [level b rs]) rs := h

theorem changes_eq (h : Follows b false ops rs) : ops = changes b rs := Eq.symm h

theorem level_eq (h : Follows b false ops rs) : level b ops = level b rs := by
  rw [h.changes_eq, level_changes]

theorem level_ne (h : Follows b true ops rs) : level b ops ≠ level b rs := by
  have hops : changes b rs = ops ++ [level b rs] := h
  have hchain := changes_isChain b rs
  rw [hops, ← List.cons_append, List.isChain_append] at hchain
  refine hchain.2.2 _ ?_ _ rfl
  rw [List.getLast?_cons, level, List.getLastD_eq_getLast?]
  rfl

/-- Behind or not, the operations alternate. -/
theorem isChain {behind : Bool} (h : Follows b behind ops rs) : (b :: ops).IsChain (· ≠ ·) := by
  have hchain := changes_isChain b rs
  rw [show changes b rs = _ from h] at hchain
  cases behind with
  | false => exact hchain
  | true =>
    rw [if_pos rfl, ← List.cons_append] at hchain
    exact hchain.left_of_append

end Follows

end Signal

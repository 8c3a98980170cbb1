import Mathlib.Data.List.Basic

/-!
# A queue with a bounded number of places

First in, first out, and never more than `n` items: the bound is part of the type, so a queue
that has outgrown its places cannot be built. Both operations say in their result whether they
took place (`send` not where the queue is full, `receive` not where it is empty), and the
rules for them (`send_eq_some`, `receive_eq_some`) speak of the list of items only.
-/

structure Fifo (α : Type*) (n : ℕ) where
  items : List α
  bounded : items.length ≤ n

namespace Fifo

variable {α : Type*} {n : ℕ}

@[ext] theorem ext {q r : Fifo α n} (h : q.items = r.items) : q = r := by
  cases q
  cases r
  cases h
  rfl

def empty : Fifo α n := { items := [], bounded := Nat.zero_le n }

/-- Every place is taken. -/
def Full (q : Fifo α n) : Prop := q.items.length = n

instance (q : Fifo α n) : Decidable q.Full := inferInstanceAs (Decidable (_ = _))

/-- Puts an item at the back. -/
def send (q : Fifo α n) (a : α) : Option (Fifo α n) :=
  if h : q.items.length < n then
    some { items := q.items ++ [a], bounded := by rw [List.length_append]; exact h }
  else none

/-- Takes the item at the front. -/
def receive : Fifo α n → Option (α × Fifo α n)
  | { items := [], .. } => none
  | { items := a :: l, bounded } =>
      some (a, { items := l, bounded := Nat.le_of_succ_le bounded })

theorem lt_of_not_full {q : Fifo α n} (h : ¬ q.Full) : q.items.length < n :=
  Nat.lt_of_le_of_ne q.bounded h

theorem send_eq_none {q : Fifo α n} {a : α} : q.send a = none ↔ q.Full := by
  constructor
  · intro h
    by_contra hfull
    rw [send, dif_pos (lt_of_not_full hfull)] at h
    cases h
  · intro hfull
    rw [send, dif_neg (Nat.not_lt_of_le (Nat.le_of_eq hfull.symm))]

theorem send_eq_some {q r : Fifo α n} {a : α} :
    q.send a = some r ↔ r.items = q.items ++ [a] := by
  constructor
  · intro h
    unfold send at h
    split at h
    · cases h
      rfl
    · cases h
  · intro h
    have hlen := r.bounded
    rw [h, List.length_append, List.length_singleton] at hlen
    rw [send, dif_pos (Nat.lt_of_succ_le hlen), Option.some.injEq]
    exact ext h.symm

theorem lt_of_send {q r : Fifo α n} {a : α} (h : q.send a = some r) : q.items.length < n := by
  apply lt_of_not_full
  intro hfull
  rw [send_eq_none.mpr hfull] at h
  cases h

theorem receive_eq_none {q : Fifo α n} : q.receive = none ↔ q.items = [] := by
  obtain ⟨items, hle⟩ := q
  cases items with
  | nil => simp [receive]
  | cons a l => simp [receive]

theorem receive_eq_some {q r : Fifo α n} {a : α} :
    q.receive = some (a, r) ↔ q.items = a :: r.items := by
  obtain ⟨items, hle⟩ := q
  cases items with
  | nil => simp [receive]
  | cons b l =>
    rw [receive, Option.some.injEq, Prod.mk.injEq, List.cons.injEq, Fifo.ext_iff]

end Fifo

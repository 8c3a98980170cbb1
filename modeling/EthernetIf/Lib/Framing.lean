import Mathlib.Data.List.Basic

/-!
# Messages in a stream

A message of several items goes through a stream item by item; the first item is tagged, and
the last (`tag`). The receiver appends what it takes to the message it has begun, begins a new
one at each first item, and puts a message away at each last one (`Framer.take`). It counts as
a fault an item that is tagged first inside a message, or is not where none is begun.

`Framer.run_part` is the round trip, for what has come through the stream so far: the receiver
has the first messages, complete and in order, a proper beginning of the next one, and not a
single fault. Whatever has come through a stream of messages is of that form (`prefix_flatMap`).
-/

/-- An item, and whether a message begins or ends with it. -/
structure Tagged (α : Type*) where
  data : α
  first : Bool
  last : Bool
deriving DecidableEq, Repr

/-- The messages put away, and what there is of the next one: nothing, between two messages. -/
structure Framer (α : Type*) where
  frames : List (List α) := []
  part : List α := []
  faults : Nat := 0
deriving DecidableEq, Repr

variable {α : Type*}

/-- The items of a message. -/
def tag (m : List α) : List (Tagged α) :=
  m.mapIdx fun i x => { data := x, first := i == 0, last := i + 1 == m.length }

namespace Framer

/-- The receiver takes an item. -/
def take (s : Framer α) (e : Tagged α) : Framer α :=
  let part := (if e.first then [] else s.part) ++ [e.data]
  { frames := if e.last then s.frames ++ [part] else s.frames
    part := if e.last then [] else part
    faults := if e.first = s.part.isEmpty then s.faults else s.faults + 1 }

/-- It takes them all. -/
def run (s : Framer α) (w : List (Tagged α)) : Framer α := w.foldl take s

theorem run_append (s : Framer α) (v w : List (Tagged α)) : s.run (v ++ w) = (s.run v).run w :=
  List.foldl_append

theorem tag_getElem? (m : List α) {j : Nat} (hj : j < m.length) :
    (tag m)[j]? = some { data := m[j], first := j == 0, last := j + 1 == m.length } := by
  simp [tag, List.getElem?_mapIdx, List.getElem?_eq_getElem hj]

/-- Item `j` of a message whose first `j` items are there. -/
theorem take_item (fs : List (List α)) (n : Nat) (m : List α) {j : Nat} (hj : j < m.length)
    (last : Bool) :
    take { frames := fs, part := m.take j, faults := n } { data := m[j], first := j == 0, last } =
      { frames := if last then fs ++ [m.take (j + 1)] else fs
        part := if last then [] else m.take (j + 1)
        faults := n } := by
  have hempty : (j == 0) = (m.take j).isEmpty := by
    rw [Bool.eq_iff_iff, List.isEmpty_iff, beq_iff_eq, List.take_eq_nil_iff]
    refine ⟨.inl, fun h => h.resolve_right ?_⟩
    rintro rfl
    exact absurd hj (Nat.not_lt_zero _)
  have hpart : (if (j == 0) = true then [] else m.take j) ++ [m[j]] = m.take (j + 1) := by
    rw [List.take_add_one, List.getElem?_eq_getElem hj, Option.toList_some]
    congr 1
    split
    next hzero => rw [beq_iff_eq.mp hzero, List.take_zero]
    next => rfl
  simp only [take, hpart, if_pos hempty]

/-- **Inside a message** the receiver has what came of it. -/
theorem run_take_tag (fs : List (List α)) (n : Nat) (m : List α) {j : Nat} (hj : j < m.length) :
    run { frames := fs, faults := n } ((tag m).take j) =
      { frames := fs, part := m.take j, faults := n } := by
  induction j with
  | zero => rfl
  | succ j ih =>
    have hlt : j < m.length := Nat.lt_of_succ_lt hj
    have hlast : (j + 1 == m.length) = false := beq_false_of_ne (Nat.ne_of_lt hj)
    rw [List.take_add_one, tag_getElem? m hlt, Option.toList_some, run_append, ih hlt, hlast]
    exact take_item fs n m hlt false

/-- **A whole message** is put away. -/
theorem run_tag (fs : List (List α)) (n : Nat) {m : List α} (hm : m ≠ []) :
    run { frames := fs, faults := n } (tag m) = { frames := fs ++ [m], faults := n } := by
  have hpos : 0 < m.length := List.length_pos_of_ne_nil hm
  obtain ⟨j, hj⟩ : ∃ j, j + 1 = m.length := ⟨m.length - 1, Nat.succ_pred_eq_of_pos hpos⟩
  have hlt : j < m.length := by omega
  have hlast : (j + 1 == m.length) = true := beq_iff_eq.mpr hj
  have hsplit : tag m = (tag m).take j ++ [{ data := m[j], first := j == 0, last := true }] := by
    rw [← hlast, ← Option.toList_some, ← tag_getElem? m hlt, ← List.take_add_one, hj]
    exact (List.take_of_length_le (by simp [tag])).symm
  rw [hsplit, run_append, run_take_tag fs n m hlt]
  refine (take_item fs n m hlt true).trans ?_
  simp [hj]

/-- Messages one after the other. -/
theorem run_flatMap_tag (fs : List (List α)) (n : Nat) {ms : List (List α)}
    (hms : ∀ m ∈ ms, m ≠ []) :
    run { frames := fs, faults := n } (ms.flatMap tag) = { frames := fs ++ ms, faults := n } := by
  induction ms generalizing fs with
  | nil => simp [run]
  | cons m ms ih =>
    rw [List.flatMap_cons, run_append, run_tag fs n (hms m List.mem_cons_self),
      ih _ fun m' hm' => hms m' (List.mem_cons_of_mem _ hm')]
    simp

/-- **The round trip**: messages, and the beginning of one. -/
theorem run_part {ms : List (List α)} (hms : ∀ m ∈ ms, m ≠ []) {m : List α} {j : Nat}
    (hj : j < m.length) :
    run {} (ms.flatMap tag ++ (tag m).take j) = { frames := ms, part := m.take j } := by
  rw [run_append, run_flatMap_tag [] 0 hms]
  exact run_take_tag ms 0 m hj

end Framer

/-- What came so far through a stream that is put together of pieces: all of it, or some pieces
    and a part of the next. -/
theorem prefix_flatMap {β γ : Type*} {f : β → List γ} {ms : List β} {w : List γ}
    (hw : w <+: ms.flatMap f) :
    w = ms.flatMap f ∨ ∃ pre m post j, ms = pre ++ m :: post ∧ j < (f m).length ∧
      w = pre.flatMap f ++ (f m).take j := by
  induction ms generalizing w with
  | nil => exact .inl (List.prefix_nil.mp hw)
  | cons m ms ih =>
    rw [List.flatMap_cons] at hw ⊢
    rcases Nat.lt_or_ge w.length (f m).length with hlt | hge
    · have hshort : w <+: f m :=
        List.prefix_of_prefix_length_le hw (List.prefix_append ..) (Nat.le_of_lt hlt)
      exact .inr ⟨[], m, ms, w.length, rfl, hlt, List.prefix_iff_eq_take.mp hshort⟩
    · obtain ⟨v, rfl⟩ : f m <+: w :=
        List.prefix_of_prefix_length_le (List.prefix_append ..) hw hge
      rw [List.prefix_append_right_inj] at hw
      rcases ih hw with rfl | ⟨pre, m', post, j, rfl, hj, rfl⟩
      · exact .inl rfl
      · exact .inr ⟨m :: pre, m', post, j, rfl, hj, by simp⟩

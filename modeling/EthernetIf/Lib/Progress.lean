import EthernetIf.Lib.Lts
import Mathlib.Data.Nat.Init

/-!
# Progress under a fair schedule

An infinite interleaving is a sequence of labels. A label that is not enabled where the
schedule gives it does nothing, so every sequence is an interleaving, and the states it goes
through are a function of it (`follow`). The schedule is *fair* to a number of parties where
each of them has its turn again and again; what a turn is may depend on the state it falls on
(`FairAlong`), so that a party can be promised a turn at a moment when nothing bars its way.

One rule (`eventually_of_able`) turns a measure into progress. It asks for two things of the
machine as long as the goal is not reached, both about single steps:

* a step lowers the measure, or leaves it as it is and with it everyone who is able to lower
  it — so a party that waits may spin, and a bystander may do what it likes;
* there is a party able to lower it, that is, one whose turn — whenever it comes — does.

Where turns do not depend on the state, being able is a matter of the labels of a party
(`Helps`), and the rule is `eventually_of_rank`.
-/

namespace Lts

variable {σ α ι : Type*} {step : σ → α → Option σ}

/-- The state after `n` turns of the schedule. -/
def follow (step : σ → α → Option σ) (s : σ) (sched : ℕ → α) : ℕ → σ
  | 0 => s
  | n + 1 => (step (follow step s sched n) (sched n)).getD (follow step s sched n)

/-- Every party has a turn after any point. A label may be a turn of several parties, or of
    none. -/
def Fair (turn : α → ι → Prop) (sched : ℕ → α) : Prop := ∀ i n, ∃ m, n ≤ m ∧ turn (sched m) i

/-- The same for turns that depend on the state. -/
def FairAlong (step : σ → α → Option σ) (turn : σ → α → ι → Prop) (s : σ) (sched : ℕ → α) : Prop :=
  ∀ i n, ∃ m, n ≤ m ∧ turn (follow step s sched m) (sched m) i

@[simp] theorem follow_zero (s : σ) (sched : ℕ → α) : follow step s sched 0 = s := rfl

theorem follow_succ (s : σ) (sched : ℕ → α) (n : ℕ) :
    follow step s sched (n + 1) =
      (step (follow step s sched n) (sched n)).getD (follow step s sched n) := rfl

/-- A schedule is followed from any of its states. -/
theorem follow_add (s : σ) (sched : ℕ → α) (n m : ℕ) :
    follow step s sched (n + m) =
      follow step (follow step s sched n) (fun k => sched (n + k)) m := by
  induction m with
  | zero => rfl
  | succ m ih => rw [← Nat.add_assoc, follow_succ, follow_succ, ih]

theorem Fair.along {turn : α → ι → Prop} {sched : ℕ → α} (h : Fair turn sched)
    (step : σ → α → Option σ) (s : σ) : FairAlong step (fun _ => turn) s sched :=
  h

theorem FairAlong.drop {turn : σ → α → ι → Prop} {s : σ} {sched : ℕ → α}
    (h : FairAlong step turn s sched) (n : ℕ) :
    FairAlong step turn (follow step s sched n) fun k => sched (n + k) := by
  intro i k
  obtain ⟨m, hm, hi⟩ := h i (n + k)
  obtain ⟨j, rfl⟩ := Nat.exists_eq_add_of_le (Nat.le_of_add_right_le hm)
  refine ⟨j, Nat.le_of_add_le_add_left hm, ?_⟩
  rw [← follow_add]
  exact hi

/-- An invariant under the steps that meet a condition, where all of the schedule do. -/
theorem follow_invariant_along {I : σ → Prop} {C : σ → α → Prop} {s : σ} {sched : ℕ → α}
    (h₀ : I s) (hs : ∀ s a t, I s → C s a → step s a = some t → I t)
    (hC : ∀ n, C (follow step s sched n) (sched n)) (n : ℕ) : I (follow step s sched n) := by
  induction n with
  | zero => exact h₀
  | succ n ih =>
    rw [follow_succ]
    cases hstep : step (follow step s sched n) (sched n) with
    | none => exact ih
    | some t => exact hs _ _ t ih (hC n) hstep

/-- An invariant under the labels that the schedule takes from. -/
theorem follow_invariant {I : σ → Prop} {L : α → Prop} {s : σ} {sched : ℕ → α} (h₀ : I s)
    (hs : ∀ s a t, I s → L a → step s a = some t → I t) (hL : ∀ n, L (sched n)) (n : ℕ) :
    I (follow step s sched n) :=
  follow_invariant_along (C := fun _ a => L a) h₀ hs hL n

/-- Machines that agree wherever a condition holds go through the same states, where all the
    schedule's steps meet it. -/
theorem follow_congr {step' : σ → α → Option σ} {C : σ → α → Prop} {s : σ} {sched : ℕ → α}
    (hC : ∀ n, C (follow step s sched n) (sched n))
    (hsame : ∀ s a, C s a → step s a = step' s a) (n : ℕ) :
    follow step s sched n = follow step' s sched n := by
  induction n with
  | zero => rfl
  | succ n ih => rw [follow_succ, follow_succ, ← ih, hsame _ _ (hC n)]

theorem follow_reachable (s : σ) (sched : ℕ → α) (n : ℕ) :
    Reachable step s (follow step s sched n) :=
  follow_invariant (I := Reachable step s) (L := fun _ => True) ⟨[], rfl⟩
    (fun _ a _ ⟨as, has⟩ _ hstep => ⟨as ++ [a], exec_snoc.mpr ⟨_, has, hstep⟩⟩)
    (fun _ => trivial) n

section Able

variable {I : σ → Prop} {L : α → Prop} {turn : σ → α → ι → Prop} (able : σ → ι → Prop)
  (Goal : σ → Prop) (rank : σ → ℕ)

/-- The measure is lower, or as it was, and so is who is able to lower it. -/
def Descends (able : σ → ι → Prop) (rank : σ → ℕ) (s t : σ) : Prop :=
  rank t < rank s ∨ (rank t = rank s ∧ ∀ i, able s i → able t i)

variable {able rank} in
theorem Descends.refl (s : σ) : Descends able rank s s := .inr ⟨rfl, fun _ h => h⟩

/-- Up to some turn: the goal is reached, or the measure is lower, or whoever was able to lower
    it still is. -/
theorem follow_able {s : σ} {sched : ℕ → α} (h₀ : I s) (hno : ¬ Goal s)
    (hs : ∀ s a t, I s → ¬ Goal s → L a → step s a = some t →
      Goal t ∨ (I t ∧ Descends able rank s t))
    (hL : ∀ n, L (sched n)) {i : ι} (hi : able s i) (n : ℕ) :
    (∃ k, Goal (follow step s sched k)) ∨
    (∃ k, I (follow step s sched k) ∧ rank (follow step s sched k) < rank s) ∨
    (I (follow step s sched n) ∧ ¬ Goal (follow step s sched n) ∧
      rank (follow step s sched n) = rank s ∧ able (follow step s sched n) i) := by
  induction n with
  | zero => exact .inr (.inr ⟨h₀, hno, rfl, hi⟩)
  | succ n ih =>
    rcases ih with hgoal | hlt | ⟨hI, hno', heq, hable⟩
    · exact .inl hgoal
    · exact .inr (.inl hlt)
    · cases hstep : step (follow step s sched n) (sched n) with
      | none =>
        rw [follow_succ, hstep]
        exact .inr (.inr ⟨hI, hno', heq, hable⟩)
      | some t =>
        have ht : follow step s sched (n + 1) = t := by
          rw [follow_succ, hstep]
          rfl
        by_cases hgoal : Goal t
        · exact .inl ⟨n + 1, ht ▸ hgoal⟩
        · obtain ⟨hIt, hlt | ⟨hsame, hkeep⟩⟩ :=
            (hs _ _ t hI hno' (hL n) hstep).resolve_left hgoal
          · refine .inr (.inl ⟨n + 1, ht ▸ hIt, ?_⟩)
            rw [ht, ← heq]
            exact hlt
          · rw [ht]
            exact .inr (.inr ⟨hIt, hgoal, hsame.trans heq, hkeep i hable⟩)

/-- **Progress.** -/
theorem eventually_of_able
    (hs : ∀ s a t, I s → ¬ Goal s → L a → step s a = some t →
      Goal t ∨ (I t ∧ Descends able rank s t))
    (hsome : ∀ s, I s → ¬ Goal s → ∃ i, able s i)
    (hable : ∀ s a i, I s → ¬ Goal s → able s i → L a → turn s a i →
      ∃ t, step s a = some t ∧ rank t < rank s)
    {s : σ} {sched : ℕ → α} (h₀ : I s) (hL : ∀ n, L (sched n))
    (hfair : FairAlong step turn s sched) : ∃ n, Goal (follow step s sched n) := by
  induction hr : rank s using Nat.strong_induction_on generalizing s sched with
  | _ r ih =>
    subst hr
    by_cases hno : Goal s
    · exact ⟨0, hno⟩
    · obtain ⟨i, hi⟩ := hsome s h₀ hno
      obtain ⟨m, -, hm⟩ := hfair i 0
      have hdrop : (∃ k, Goal (follow step s sched k)) ∨
          ∃ k, I (follow step s sched k) ∧ rank (follow step s sched k) < rank s := by
        rcases follow_able able Goal rank h₀ hno hs hL hi m with
          hgoal | hlt | ⟨hI, hno', heq, hi'⟩
        · exact .inl hgoal
        · exact .inr hlt
        · -- the turn of the party that is able
          obtain ⟨t, hstep, hlt⟩ := hable _ _ i hI hno' hi' (hL m) hm
          have ht : follow step s sched (m + 1) = t := by
            rw [follow_succ, hstep]
            rfl
          rcases hs _ _ t hI hno' (hL m) hstep with hgoal | ⟨hIt, -⟩
          · exact .inl ⟨m + 1, ht ▸ hgoal⟩
          · refine .inr ⟨m + 1, ht ▸ hIt, ?_⟩
            rw [ht, ← heq]
            exact hlt
      rcases hdrop with hgoal | ⟨k, hI, hlt⟩
      · exact hgoal
      · obtain ⟨n, hn⟩ := ih _ hlt hI (fun j => hL (k + j)) (hfair.drop k) rfl
        exact ⟨k + n, by rw [follow_add]; exact hn⟩

open Classical in
/-- The measure of what is left, which is nothing where the goal is reached. -/
noncomputable def leftTo (Goal : σ → Prop) (rank : σ → ℕ) (s : σ) : ℕ :=
  if Goal s then 0 else rank s + 1

variable {Goal rank} in
theorem leftTo_lt {s t : σ} (hs : ¬ Goal s) (ht : Goal t ∨ rank t < rank s) :
    leftTo Goal rank t < leftTo Goal rank s := by
  unfold leftTo
  rw [if_neg hs]
  split
  next => exact Nat.succ_pos _
  next hgoal => exact Nat.succ_lt_succ (ht.resolve_left hgoal)

/-- Where every step lowers the measure, it is enough that there is always a party whose turn is
    not in vain. -/
theorem eventually_of_lowers {turn : α → ι → Prop}
    (hs : ∀ s a t, I s → ¬ Goal s → L a → step s a = some t →
      Goal t ∨ (I t ∧ rank t < rank s))
    (hsome : ∀ s, I s → ¬ Goal s → ∃ i, ∀ a, L a → turn a i → ∃ t, step s a = some t)
    {s : σ} {sched : ℕ → α} (h₀ : I s) (hL : ∀ n, L (sched n)) (hfair : Fair turn sched) :
    ∃ n, Goal (follow step s sched n) := by
  have hlower : ∀ s a t, I s → ¬ Goal s → L a → step s a = some t →
      leftTo Goal rank t < leftTo Goal rank s := by
    intro s a t hi hno ha ht
    exact leftTo_lt hno ((hs s a t hi hno ha ht).imp id And.right)
  refine eventually_of_able (I := I) (L := L)
    (fun s i => ∀ a, L a → turn a i → ∃ t, step s a = some t) Goal (leftTo Goal rank) ?_ hsome ?_
    h₀ hL (hfair.along step s)
  · intro s a t hi hno ha ht
    refine (hs s a t hi hno ha ht).imp id fun hnext => ⟨hnext.1, .inl ?_⟩
    exact hlower s a t hi hno ha ht
  · intro s a i hi hno hable ha hturn
    obtain ⟨t, ht⟩ := hable a ha hturn
    exact ⟨t, ht, hlower s a t hi hno ha ht⟩

/-- The same for a goal that is kept once it is reached. -/
theorem eventually_always_of_able (hs : ∀ s a t, I s → L a → step s a = some t → I t)
    (hdec : ∀ s a t, I s → ¬ Goal s → L a → step s a = some t → Descends able rank s t)
    (hsome : ∀ s, I s → ¬ Goal s → ∃ i, able s i)
    (hable : ∀ s a i, I s → ¬ Goal s → able s i → L a → turn s a i →
      ∃ t, step s a = some t ∧ rank t < rank s)
    (hkeep : ∀ s a t, I s → Goal s → L a → step s a = some t → Goal t)
    {s : σ} {sched : ℕ → α} (h₀ : I s) (hL : ∀ n, L (sched n))
    (hfair : FairAlong step turn s sched) :
    ∃ n, ∀ m, n ≤ m → Goal (follow step s sched m) := by
  obtain ⟨n, hn⟩ := eventually_of_able able Goal rank
    (fun s a t hi hno ha ht => .inr ⟨hs s a t hi ha ht, hdec s a t hi hno ha ht⟩) hsome hable h₀
    hL hfair
  refine ⟨n, fun m hm => ?_⟩
  obtain ⟨k, rfl⟩ := Nat.exists_eq_add_of_le hm
  rw [follow_add]
  exact (follow_invariant (I := fun s => I s ∧ Goal s) ⟨follow_invariant h₀ hs hL n, hn⟩
    (fun s a t hi ha ht => ⟨hs s a t hi.1 ha ht, hkeep s a t hi.1 hi.2 ha ht⟩)
    (fun j => hL (n + j)) k).2

end Able

section Helps

variable {I : σ → Prop} {L : α → Prop} {turn : α → ι → Prop}

/-- Whatever party `i` does in its turn lowers the measure. -/
def Helps (step : σ → α → Option σ) (L : α → Prop) (turn : α → ι → Prop) (rank : σ → ℕ) (s : σ)
    (i : ι) : Prop :=
  ∀ a, L a → turn a i → ∃ t, step s a = some t ∧ rank t < rank s

variable (Goal : σ → Prop) (rank : σ → ℕ)

theorem eventually_of_rank
    (hs : ∀ s a t, I s → ¬ Goal s → L a → step s a = some t →
      Goal t ∨ (I t ∧ Descends (Helps step L turn rank) rank s t))
    (hhelp : ∀ s, I s → ¬ Goal s → ∃ i, Helps step L turn rank s i)
    {s : σ} {sched : ℕ → α} (h₀ : I s) (hL : ∀ n, L (sched n)) (hfair : Fair turn sched) :
    ∃ n, Goal (follow step s sched n) :=
  eventually_of_able (Helps step L turn rank) Goal rank hs hhelp
    (fun _ a _ _ _ hi ha hturn => hi a ha hturn) h₀ hL (hfair.along step s)

theorem eventually_always_of_rank (hs : ∀ s a t, I s → L a → step s a = some t → I t)
    (hdec : ∀ s a t, I s → L a → step s a = some t →
      Descends (Helps step L turn rank) rank s t)
    (hhelp : ∀ s, I s → ¬ Goal s → ∃ i, Helps step L turn rank s i)
    (hkeep : ∀ s a t, I s → Goal s → L a → step s a = some t → Goal t)
    {s : σ} {sched : ℕ → α} (h₀ : I s) (hL : ∀ n, L (sched n)) (hfair : Fair turn sched) :
    ∃ n, ∀ m, n ≤ m → Goal (follow step s sched m) :=
  eventually_always_of_able (Helps step L turn rank) Goal rank hs
    (fun s a t hi _ ha ht => hdec s a t hi ha ht) hhelp
    (fun _ a _ _ _ hi ha hturn => hi a ha hturn) hkeep h₀ hL (hfair.along step s)

end Helps

/-- A state that no step leaves is where the schedule stays. -/
theorem follow_stuck {s : σ} (h : ∀ a t, step s a = some t → t = s) (sched : ℕ → α) (n : ℕ) :
    follow step s sched n = s := by
  induction n with
  | zero => rfl
  | succ n ih =>
    rw [follow_succ, ih]
    cases hstep : step s (sched n) with
    | none => rfl
    | some t => exact h _ t hstep

end Lts

import Mathlib.Logic.Function.Basic
import Mathlib.Data.List.Induction

/-!
# Runs of a labelled machine

A machine here is a partial step function `step : σ → α → Option σ`: in state `s` the label
`a` is *enabled* when `step s a` is `some`, and the label carries every choice the machine
does not make itself (an allocator's answer, a status word the hardware writes, which of
several agents moves next). An interleaving is then nothing but a list of labels, and

> a fact about every interleaving is a fact about `exec step s₀ as` for every list `as`.

Three rules pay for the whole file, and every run theorem goes through one of them:

* `exec_invariant` — an invariant the initial state has and every step keeps;
* `OnRun.invariant`, `OnRun.of_invariant` — the same, for a condition that every step of the run
  meets (`OnRun`): the invariant has to survive only the steps that meet it. Where the invariant
  makes two conditions one, the same runs meet them (`onRun_congr`);
* `exec_history` — an invariant of the run's *history*, labels included, by induction on the
  last step. This is the rule for a statement of the form "the final state looks like this if
  and only if every step of the run met the condition".
-/

namespace Lts

variable {σ τ α β : Type*} {step : σ → α → Option σ}

/-! ## Executing a list of labels -/

/-- Take the labels in order; `none` as soon as one of them is not enabled. -/
def exec (step : σ → α → Option σ) : σ → List α → Option σ
  | s, [] => some s
  | s, a :: as => (step s a).bind fun t => exec step t as

@[simp] theorem exec_nil (s : σ) : exec step s [] = some s := rfl

theorem exec_cons (s : σ) (a : α) (as : List α) :
    exec step s (a :: as) = (step s a).bind fun t => exec step t as := rfl

theorem exec_append (s : σ) (as bs : List α) :
    exec step s (as ++ bs) = (exec step s as).bind fun t => exec step t bs := by
  induction as generalizing s with
  | nil => rfl
  | cons a as ih =>
    rw [List.cons_append, exec_cons, exec_cons]
    cases step s a with
    | none => rfl
    | some t => exact ih t

/-- The last step of a run, split off: what every history argument inducts on. -/
theorem exec_snoc {s t : σ} {as : List α} {a : α} :
    exec step s (as ++ [a]) = some t ↔ ∃ u, exec step s as = some u ∧ step u a = some t := by
  rw [exec_append, Option.bind_eq_some_iff]
  simp [exec_cons]

/-- Two runs end to end. -/
theorem exec_trans {s t u : σ} {as bs : List α} (h₁ : exec step s as = some t)
    (h₂ : exec step t bs = some u) : exec step s (as ++ bs) = some u := by
  rw [exec_append, h₁]
  exact h₂

/-! ## Conditions met along a run -/

/-- Every step of the run meets `C`, a condition on the state before it and its label. -/
def OnRun (step : σ → α → Option σ) (C : σ → α → Prop) : σ → List α → Prop
  | _, [] => True
  | s, a :: as => C s a ∧ ∀ t, step s a = some t → OnRun step C t as

theorem onRun_append {C : σ → α → Prop} {s t : σ} {as bs : List α}
    (h : exec step s as = some t) :
    OnRun step C s (as ++ bs) ↔ OnRun step C s as ∧ OnRun step C t bs := by
  induction as generalizing s with
  | nil =>
    cases h
    simp [OnRun]
  | cons a as ih =>
    rw [exec_cons, Option.bind_eq_some_iff] at h
    obtain ⟨u, hu, hrest⟩ := h
    simp only [List.cons_append, OnRun, hu, Option.some.injEq, forall_eq', ih hrest,
      and_assoc]

theorem onRun_snoc {C : σ → α → Prop} {s t : σ} {as : List α} {a : α}
    (h : exec step s as = some t) :
    OnRun step C s (as ++ [a]) ↔ OnRun step C s as ∧ C t a := by
  rw [onRun_append h]
  simp [OnRun]

/-- The condition at one step of the run. -/
theorem OnRun.at {C : σ → α → Prop} {s t : σ} {as bs : List α} {a : α}
    (h : OnRun step C s (as ++ a :: bs)) (hrun : exec step s as = some t) : C t a :=
  ((onRun_append hrun).mp h).2.1

/-- Where a run does not meet a condition there is a step that does not. -/
theorem exists_step_of_not_onRun {C : σ → α → Prop} {s : σ} {as : List α}
    (h : ¬ OnRun step C s as) :
    ∃ pre a post t, as = pre ++ a :: post ∧ exec step s pre = some t ∧ ¬ C t a := by
  induction as generalizing s with
  | nil => exact absurd trivial h
  | cons a as ih =>
    by_cases hC : C s a
    · have hnext : ∃ t, step s a = some t ∧ ¬ OnRun step C t as := by
        by_contra hno
        apply h
        refine ⟨hC, fun t ht => ?_⟩
        by_contra hrest
        exact hno ⟨t, ht, hrest⟩
      obtain ⟨t, ht, hrest⟩ := hnext
      obtain ⟨pre, b, post, u, rfl, hpre, hb⟩ := ih hrest
      exact ⟨a :: pre, b, post, u, rfl, by rw [exec_cons, ht]; exact hpre, hb⟩
    · exact ⟨[], a, as, s, rfl, rfl, hC⟩

/-- A condition that always holds is met by every run. -/
theorem OnRun.of_forall {C : σ → α → Prop} (h : ∀ s a, C s a) (s : σ) (as : List α) :
    OnRun step C s as := by
  induction as generalizing s with
  | nil => trivial
  | cons a as ih => exact ⟨h s a, fun t _ => ih t⟩

/-- A weaker condition is met too. -/
theorem OnRun.mono {C D : σ → α → Prop} {s : σ} {as : List α} (h : OnRun step C s as)
    (hCD : ∀ s a, C s a → D s a) : OnRun step D s as := by
  induction as generalizing s with
  | nil => trivial
  | cons a as ih => exact ⟨hCD s a h.1, fun t ht => ih (h.2 t ht)⟩

/-- **A condition from an invariant** that only the steps meeting another condition keep. -/
theorem OnRun.of_invariant {I : σ → Prop} {C D : σ → α → Prop} {s : σ} {as : List α}
    (h : OnRun step C s as) (h₀ : I s)
    (hs : ∀ s a s', I s → C s a → step s a = some s' → I s')
    (hD : ∀ s a, I s → C s a → D s a) : OnRun step D s as := by
  induction as generalizing s with
  | nil => trivial
  | cons a as ih =>
    obtain ⟨hC, hrest⟩ := h
    refine ⟨hD s a h₀ hC, fun t ht => ?_⟩
    exact ih (hrest t ht) (hs s a t h₀ hC ht)

/-- The invariant itself, where the run ends. -/
theorem OnRun.invariant {I : σ → Prop} {C : σ → α → Prop} {s t : σ} {as : List α}
    (h : OnRun step C s as) (h₀ : I s)
    (hs : ∀ s a s', I s → C s a → step s a = some s' → I s')
    (hrun : exec step s as = some t) : I t := by
  induction as generalizing s with
  | nil =>
    cases hrun
    exact h₀
  | cons a as ih =>
    obtain ⟨hC, hrest⟩ := h
    obtain ⟨u, hu, hrun⟩ := Option.bind_eq_some_iff.mp hrun
    exact ih (hrest u hu) (hs s a u h₀ hC hu) hrun

/-- Two conditions that agree wherever an invariant holds are met by the same runs. -/
theorem onRun_congr {I : σ → Prop} {C D : σ → α → Prop} {s : σ} (h₀ : I s)
    (hs : ∀ s a s', I s → step s a = some s' → I s') (hCD : ∀ s a, I s → (C s a ↔ D s a))
    {as : List α} : OnRun step C s as ↔ OnRun step D s as := by
  constructor
  · intro h
    exact h.of_invariant h₀ (fun s a t hi _ => hs s a t hi) fun s a hi => (hCD s a hi).mp
  · intro h
    exact h.of_invariant h₀ (fun s a t hi _ => hs s a t hi) fun s a hi => (hCD s a hi).mpr

/-- **Two machines that agree wherever a condition holds** do the same in a run that meets it. -/
theorem OnRun.congr {step' : σ → α → Option σ} {C : σ → α → Prop} {s : σ} {as : List α}
    (h : OnRun step C s as) (hsame : ∀ s a, C s a → step s a = step' s a) :
    exec step s as = exec step' s as ∧ OnRun step' C s as := by
  induction as generalizing s with
  | nil => exact ⟨rfl, trivial⟩
  | cons a as ih =>
    obtain ⟨hC, hrest⟩ := h
    have ha := hsame s a hC
    refine ⟨?_, hC, fun t ht => (ih (hrest t (ha.trans ht))).2⟩
    rw [exec_cons, exec_cons, ← ha]
    cases hstep : step s a with
    | none => rfl
    | some t => exact (ih (hrest t hstep)).1

/-- A condition that can be decided at each step can be decided along a run. -/
instance OnRun.decidable {C : σ → α → Prop} [∀ s a, Decidable (C s a)] :
    ∀ s as, Decidable (OnRun step C s as)
  | _, [] => .isTrue trivial
  | s, a :: as =>
      match h : step s a with
      | none => decidable_of_iff (C s a) (by simp [OnRun, h])
      | some t =>
          have := OnRun.decidable (C := C) t as
          decidable_of_iff (C s a ∧ OnRun step C t as) (by simp [OnRun, h])

/-! ## Invariants of runs -/

/-- **History induction**: a relation between the labels taken so far and the state
    reached, carried along by the last step. -/
theorem exec_history {s₀ : σ} {P : List α → σ → Prop} (h₀ : P [] s₀)
    (hs : ∀ as s a s', exec step s₀ as = some s → P as s → step s a = some s' →
      P (as ++ [a]) s') :
    ∀ {as s}, exec step s₀ as = some s → P as s := by
  intro as
  induction as using List.reverseRecOn with
  | nil =>
    intro s h
    cases h
    exact h₀
  | append_singleton as a ih =>
    intro s h
    obtain ⟨u, hu, hstep⟩ := exec_snoc.mp h
    exact hs as u a s hu (ih hu) hstep

/-- **Invariant.** -/
theorem exec_invariant {I : σ → Prop} {s₀ : σ} (h₀ : I s₀)
    (hs : ∀ s a s', I s → step s a = some s' → I s') {as : List α} {s : σ}
    (h : exec step s₀ as = some s) : I s :=
  exec_history (P := fun _ s => I s) h₀ (fun _ t a t' _ ih hstep => hs t a t' ih hstep) h

/-! ## Counting steps -/

/-- How many steps of a run are of a kind. -/
def tally (step : σ → α → Option σ) (p : σ → α → Bool) : σ → List α → ℕ
  | _, [] => 0
  | s, a :: as =>
      (if p s a then 1 else 0) + ((step s a).map fun t => tally step p t as).getD 0

theorem tally_snoc {p : σ → α → Bool} {s t : σ} {as : List α} {a : α}
    (h : exec step s as = some t) :
    tally step p s (as ++ [a]) = tally step p s as + if p t a then 1 else 0 := by
  induction as generalizing s with
  | nil =>
    cases h
    cases hstep : step t a <;> simp [tally, hstep]
  | cons b as ih =>
    obtain ⟨u, hu, hrun⟩ := Option.bind_eq_some_iff.mp h
    simp only [List.cons_append, tally, hu, Option.map_some, Option.getD_some, ih hrun,
      Nat.add_assoc]

theorem OnRun.tally_congr {step' : σ → α → Option σ} {C : σ → α → Prop} {s : σ} {as : List α}
    (h : OnRun step C s as) (hsame : ∀ s a, C s a → step s a = step' s a) (p : σ → α → Bool) :
    tally step p s as = tally step' p s as := by
  induction as generalizing s with
  | nil => rfl
  | cons a as ih =>
    obtain ⟨hC, hrest⟩ := h
    rw [tally, tally, ← hsame s a hC]
    cases hstep : step s a with
    | none => rfl
    | some t => rw [Option.map_some, Option.map_some, ih (hrest t hstep)]

/-! ## Reachability and projections -/

/-- Some run from `s₀` ends in `s`. -/
def Reachable (step : σ → α → Option σ) (s₀ s : σ) : Prop := ∃ as, exec step s₀ as = some s

theorem Reachable.invariant {I : σ → Prop} {s₀ s : σ} (h : Reachable step s₀ s) (h₀ : I s₀)
    (hs : ∀ s a s', I s → step s a = some s' → I s') : I s :=
  let ⟨_, hex⟩ := h
  exec_invariant h₀ hs hex

/-- **Projection**: where every step of a machine is, seen through `f`, a step of a second
    machine or no step at all, its reachable states are seen as reachable states of the
    second. A machine composed of parts inherits every invariant of a part this way. -/
theorem Reachable.project {step₂ : τ → β → Option τ} {f : σ → τ}
    (hf : ∀ s a s', step s a = some s' → f s' = f s ∨ ∃ b, step₂ (f s) b = some (f s'))
    {s₀ s : σ} (h : Reachable step s₀ s) : Reachable step₂ (f s₀) (f s) := by
  apply h.invariant (I := fun s => Reachable step₂ (f s₀) (f s)) ⟨[], rfl⟩
  rintro t a t' ⟨bs, hbs⟩ hstep
  rcases hf t a t' hstep with heq | ⟨b, hb⟩
  · exact heq ▸ ⟨bs, hbs⟩
  · exact ⟨bs ++ [b], exec_snoc.mpr ⟨_, hbs, hb⟩⟩

/-! ## Computing one run -/

/-- A run that was computed, and found to end in a state with the property `p`. -/
theorem exists_exec {s₀ : σ} {as : List α} {Q : σ → Prop} (p : σ → Bool)
    (h : ((exec step s₀ as).filter p).isSome = true)
    (hQ : ∀ s, exec step s₀ as = some s → p s = true → Q s) :
    ∃ s, exec step s₀ as = some s ∧ Q s := by
  obtain ⟨s, hs⟩ := Option.isSome_iff_exists.mp h
  obtain ⟨hrun, hp⟩ := Option.filter_eq_some_iff.mp hs
  exact ⟨s, hrun, hQ s hrun hp⟩

/-- The same from an initial state that has to be computed first. -/
theorem exists_init_exec {init : Option τ} {boot : τ → σ} {as : List α} {Q : τ → σ → Prop}
    (p : σ → Bool) (h : (init.bind fun t => (exec step (boot t) as).filter p).isSome = true)
    (hQ : ∀ t s, init = some t → exec step (boot t) as = some s → p s = true → Q t s) :
    ∃ t s, init = some t ∧ exec step (boot t) as = some s ∧ Q t s := by
  obtain ⟨s', hs'⟩ := Option.isSome_iff_exists.mp h
  obtain ⟨t, ht, hrun'⟩ := Option.bind_eq_some_iff.mp hs'
  obtain ⟨s, hrun, hs⟩ := exists_exec p (by rw [hrun']; rfl) fun s => hQ t s ht
  exact ⟨t, s, ht, hrun, hs⟩

end Lts

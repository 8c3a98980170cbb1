import EthernetIf.Lib.Lts

/-!
# Proof outlines of a task beside its environment

One task calls procedures one after another; a procedure is a list of statements over a shared
state; and between any two statements the environment — hardware, say — may change that state.
A statement may also fail to finish, and is then tried again: that is a busy wait.

A *proof outline* writes an assertion at every point of a body. It is a proof when every
assertion is stable under the environment and every statement takes the assertion before it to
the one after it, and it says three things at once:

* what holds at every point, whatever the environment does (`A`);
* what every statement must meet when it runs (`G`) — the property that is proved;
* what may be assumed of a statement when it runs (`C`) — for a property that holds only under
  a condition.

`onRun_of_outline` is the rule the file is for: outlines of the single bodies, each from the
same idle assertion back to it, make a theorem about all sequences of calls.
-/

namespace Outline

open Lts

variable {δ σ κ ε : Type*}

/-! ## The machine -/

/-- The shared state, and the running procedure with what is left of its body. -/
structure Sys (δ σ κ : Type*) where
  data : δ
  running : Option (κ × List σ)

inductive Act (κ ε : Type*)
  | call (k : κ)  -- the task calls a procedure
  | cpu           -- the running procedure takes its next statement, or returns
  | env (e : ε)   -- the environment takes a step

section Machine

variable (callable : κ → Bool) (body : κ → List σ) (run : σ → δ → δ × Bool)
  (env : ε → δ → Option δ)

/-- One step. `run` says whether the statement is over. -/
def step (s : Sys δ σ κ) : Act κ ε → Option (Sys δ σ κ)
  | .call k =>
      if s.running.isNone && callable k then some { s with running := some (k, body k) } else none
  | .cpu =>
      match s.running with
      | none => none
      | some (_, []) => some { s with running := none }
      | some (k, st :: p) =>
          let r := run st s.data
          some { data := r.1, running := some (k, if r.2 then p else st :: p) }
  | .env e => (env e s.data).map fun d => { s with data := d }

end Machine

/-- A condition on statements, at the statement that a step runs. -/
def AtStmt (C : κ → σ → δ → Prop) (s : Sys δ σ κ) (a : Act κ ε) : Prop :=
  match a, s.running with
  | .cpu, some (k, st :: _) => C k st s.data
  | _, _ => True

instance {C : κ → σ → δ → Prop} [∀ k st d, Decidable (C k st d)] (s : Sys δ σ κ) (a : Act κ ε) :
    Decidable (AtStmt C s a) := by
  unfold AtStmt
  split <;> infer_instance

theorem atStmt_true (s : Sys δ σ κ) (a : Act κ ε) : AtStmt (fun _ _ _ => True) s a := by
  unfold AtStmt
  split <;> trivial

/-- What is left of a procedure is the end of its body. -/
def InBody (body : κ → List σ) (s : Sys δ σ κ) : Prop :=
  ∀ k p, s.running = some (k, p) → p <:+ body k

theorem inBody_step {callable : κ → Bool} {body : κ → List σ} {run : σ → δ → δ × Bool}
    {env : ε → δ → Option δ} {s t : Sys δ σ κ} {a : Act κ ε} (h : InBody body s)
    (hstep : step callable body run env s a = some t) : InBody body t := by
  intro k' p' hrun
  cases a with
  | call k =>
    simp only [step] at hstep
    split at hstep
    next =>
      cases hstep
      cases hrun
      exact List.suffix_refl _
    next => simp at hstep
  | env e =>
    obtain ⟨d, -, rfl⟩ := Option.map_eq_some_iff.mp hstep
    exact h k' p' hrun
  | cpu =>
    obtain ⟨d, running⟩ := s
    cases running with
    | none => simp [step] at hstep
    | some kp =>
      obtain ⟨k, p⟩ := kp
      cases p with
      | nil =>
        cases hstep
        simp at hrun
      | cons st p =>
        cases hstep
        have hsuffix := h k (st :: p) rfl
        simp only [Option.some.injEq, Prod.mk.injEq] at hrun
        obtain ⟨rfl, rfl⟩ := hrun
        split
        · exact (List.suffix_cons st p).trans hsuffix
        · exact hsuffix

/-! ## Outlines -/

/-- No step of the environment ends an assertion. -/
def Stable (env : ε → δ → Option δ) (A : δ → Prop) : Prop :=
  ∀ e d d', A d → env e d = some d' → A d'

theorem Stable.and {env : ε → δ → Option δ} {A B : δ → Prop} (hA : Stable env A)
    (hB : Stable env B) : Stable env fun d => A d ∧ B d := by
  intro e d d' h hstep
  exact ⟨hA e d d' h.1 hstep, hB e d d' h.2 hstep⟩

/-- **A proof outline** of a body, from the assertion before it to the one after it. -/
inductive Proves (run : σ → δ → δ × Bool) (env : ε → δ → Option δ) (C G : σ → δ → Prop) :
    (δ → Prop) → List σ → (δ → Prop) → Prop
  | nil {A B : δ → Prop} (hA : Stable env A) (h : ∀ d, A d → B d) : Proves run env C G A [] B
  | cons {A A' B : δ → Prop} {st : σ} {p : List σ} (hA : Stable env A)
      (h : ∀ d, A d → C st d →
        G st d ∧ if (run st d).2 then A' (run st d).1 else A (run st d).1)
      (hp : Proves run env C G A' p B) : Proves run env C G A (st :: p) B

/-- The assertion of some outline of what is left holds. -/
def Holds (run : σ → δ → δ × Bool) (env : ε → δ → Option δ) (C G : σ → δ → Prop)
    (p : List σ) (B : δ → Prop) (d : δ) : Prop :=
  ∃ A, Proves run env C G A p B ∧ A d

section Rules

variable {run : σ → δ → δ × Bool} {env : ε → δ → Option δ} {C G : σ → δ → Prop} {B : δ → Prop}

theorem Proves.stable {A : δ → Prop} {p : List σ} (h : Proves run env C G A p B) :
    Stable env A := by
  cases h with
  | nil hA _ => exact hA
  | cons hA _ _ => exact hA

/-- A statement that is over at once. -/
theorem Proves.once {A D : δ → Prop} {st : σ} {p : List σ} (hA : Stable env A)
    (h : ∀ d, A d → C st d → G st d ∧ (run st d).2 = true ∧ D (run st d).1)
    (hp : Proves run env C G D p B) : Proves run env C G A (st :: p) B := by
  refine .cons hA ?_ hp
  intro d hd hC
  obtain ⟨hG, hover, hD⟩ := h d hd hC
  refine ⟨hG, ?_⟩
  rw [if_pos hover]
  exact hD

/-- What every statement meets by itself needs no assertion. -/
theorem Proves.of_always (h : ∀ st d, G st d) (p : List σ) :
    Proves run env C G (fun _ => True) p fun _ => True := by
  have hstable : Stable env fun _ => True := fun _ _ _ _ _ => trivial
  induction p with
  | nil => exact .nil hstable fun _ _ => trivial
  | cons st p ih =>
    refine .cons hstable ?_ ih
    intro d _ _
    exact ⟨h st d, by split <;> trivial⟩

theorem Holds.interfere {p : List σ} {d d' : δ} {e : ε} (h : Holds run env C G p B d)
    (hstep : env e d = some d') : Holds run env C G p B d' := by
  obtain ⟨A, hproves, hd⟩ := h
  exact ⟨A, hproves, hproves.stable e d d' hd hstep⟩

theorem Holds.ret {d : δ} (h : Holds run env C G [] B d) : B d := by
  obtain ⟨A, hproves, hd⟩ := h
  cases hproves with
  | nil _ hB => exact hB d hd

/-- The next statement meets what it must, and the outline goes on behind it — or at it, when
    it is not over. -/
theorem Holds.stmt {st : σ} {p : List σ} {d : δ} (h : Holds run env C G (st :: p) B d)
    (hC : C st d) :
    G st d ∧ Holds run env C G (if (run st d).2 then p else st :: p) B (run st d).1 := by
  obtain ⟨A, hproves, hd⟩ := h
  cases hproves with
  | cons hA hst hp =>
    obtain ⟨hG, hnext⟩ := hst d hd hC
    refine ⟨hG, ?_⟩
    split
    next hover =>
      rw [if_pos hover] at hnext
      exact ⟨_, hp, hnext⟩
    next hover =>
      rw [if_neg hover] at hnext
      exact ⟨A, .cons hA hst hp, hnext⟩

end Rules

/-! ## From bodies to runs -/

section Runs

variable {callable : κ → Bool} {body : κ → List σ} {run : σ → δ → δ × Bool}
  {env : ε → δ → Option δ} {C G : κ → σ → δ → Prop} {Idle : δ → Prop}

/-- The idle assertion between calls, and an outline of the rest inside one. -/
def Outlined (run : σ → δ → δ × Bool) (env : ε → δ → Option δ) (C G : κ → σ → δ → Prop)
    (Idle : δ → Prop) (s : Sys δ σ κ) : Prop :=
  match s.running with
  | none => Idle s.data
  | some (k, p) => Holds run env (C k) (G k) p Idle s.data

theorem inv_step (hIdle : Stable env Idle)
    (hbody : ∀ k, callable k = true → Proves run env (C k) (G k) Idle (body k) Idle)
    {s t : Sys δ σ κ} {a : Act κ ε} (h : Outlined run env C G Idle s) (hC : AtStmt C s a)
    (hstep : step callable body run env s a = some t) :
    AtStmt G s a ∧ Outlined run env C G Idle t := by
  cases a with
  | call k =>
    refine ⟨trivial, ?_⟩
    simp only [step] at hstep
    split at hstep
    next hcall =>
      rw [Bool.and_eq_true, Option.isNone_iff_eq_none] at hcall
      cases hstep
      simp only [Outlined, hcall.1] at h
      exact ⟨Idle, hbody k hcall.2, h⟩
    next => simp at hstep
  | env e =>
    refine ⟨trivial, ?_⟩
    obtain ⟨d, hd, rfl⟩ := Option.map_eq_some_iff.mp hstep
    simp only [Outlined] at h ⊢
    cases hrun : s.running with
    | none =>
      simp only [hrun] at h ⊢
      exact hIdle e _ _ h hd
    | some kp =>
      simp only [hrun] at h ⊢
      exact Holds.interfere h hd
  | cpu =>
    obtain ⟨d, running⟩ := s
    cases running with
    | none => simp [step] at hstep
    | some kp =>
      obtain ⟨k, p⟩ := kp
      cases p with
      | nil =>
        cases hstep
        have hidle : Holds run env (C k) (G k) [] Idle d := h
        exact ⟨trivial, hidle.ret⟩
      | cons st p =>
        cases hstep
        have hrest : Holds run env (C k) (G k) (st :: p) Idle d := h
        exact hrest.stmt hC

/-- **The rule.** From outlines of the bodies: in a run whose statements meet `C` they meet
    `G`, and the invariant holds where the run ends. -/
theorem onRun_of_outline (hIdle : Stable env Idle)
    (hbody : ∀ k, callable k = true → Proves run env (C k) (G k) Idle (body k) Idle)
    {s₀ s : Sys δ σ κ} (h₀ : Outlined run env C G Idle s₀) {as : List (Act κ ε)}
    (hrun : exec (step callable body run env) s₀ as = some s)
    (hC : OnRun (step callable body run env) (AtStmt C) s₀ as) :
    OnRun (step callable body run env) (AtStmt G) s₀ as ∧ Outlined run env C G Idle s := by
  refine exec_history
    (P := fun as s => OnRun (step callable body run env) (AtStmt C) s₀ as →
      OnRun (step callable body run env) (AtStmt G) s₀ as ∧ Outlined run env C G Idle s)
    (fun _ => ⟨trivial, h₀⟩) ?_ hrun hC
  intro as u a t hexec ih hstep hC
  obtain ⟨hCas, hCa⟩ := (onRun_snoc hexec).mp hC
  obtain ⟨hGas, hinv⟩ := ih hCas
  obtain ⟨hGa, hinv'⟩ := inv_step hIdle hbody hinv hCa hstep
  exact ⟨(onRun_snoc hexec).mpr ⟨hGas, hGa⟩, hinv'⟩

end Runs

end Outline

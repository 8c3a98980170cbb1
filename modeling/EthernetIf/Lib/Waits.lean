import EthernetIf.Lib.Outline
import EthernetIf.Lib.Progress

/-!
# Busy waits that end

A procedure of `Lib/Outline` is stopped by nothing but its own waits: a statement that is not
over is tried again. So a procedure returns when its waits end, and they end when the
environment still has to do what they wait for (`pend` counts it) and does it in its turn.

`returns` asks for this about single statements and single steps of the environment only
(`Ends`). Whatever a statement adds to what is pending is worth less than the statement.
-/

namespace Outline

open Lts

variable {δ σ κ ε ι : Type*}

/-- A turn of the task, or of one of the parties that make up the environment. -/
def turn (of : ε → ι → Prop) : Act κ ε → Option ι → Prop
  | .cpu, none => True
  | .env e, some i => of e i
  | _, _ => False

/-- **What ends the waits** among some statements: never more than `K` things are pending, and
    * a step of the environment does one of them, or none, and then every party can do what it
      could do, and a statement that was ready still is;
    * a statement that is not ready leaves what is pending alone, and some party has to act;
    * a party that has to act does one of the things that are pending. -/
structure Ends (run : σ → δ → δ × Bool) (env : ε → δ → Option δ) (of : ε → ι → Prop)
    (stmts : σ → Prop) (K : ℕ) (pend : δ → ℕ) (able : δ → ι → Prop) : Prop where
  pend_le : ∀ d, pend d ≤ K
  lower : ∀ e d d', env e d = some d' →
    pend d' < pend d ∨ (pend d' = pend d ∧ ∀ i, able d i → able d' i)
  ready : ∀ st e d d', env e d = some d' → (run st d).2 = true → (run st d').2 = true
  wait : ∀ st d, stmts st → (run st d).2 = false →
    (∃ i, able d i) ∧ pend (run st d).1 = pend d ∧ ∀ i, able d i → able (run st d).1 i
  acts : ∀ e d i, able d i → of e i → ∃ d', env e d = some d' ∧ pend d' < pend d

section Returns

variable {callable : κ → Bool} {body : κ → List σ} {run : σ → δ → δ × Bool}
  {env : ε → δ → Option δ} {of : ε → ι → Prop} {stmts : σ → Prop} {K : ℕ} {pend : δ → ℕ}
  {able : δ → ι → Prop}

/-- What is left of the procedure, and what is pending. -/
def rank (K : ℕ) (pend : δ → ℕ) (s : Sys δ σ κ) : ℕ :=
  match s.running with
  | none => 0
  | some (_, p) => (K + 1) * (p.length + 1) + pend s.data

/-- The task is able to take a statement that is ready; the others are as they are. -/
def ableIn (run : σ → δ → δ × Bool) (able : δ → ι → Prop) (s : Sys δ σ κ) : Option ι → Prop
  | none => ∀ k st p, s.running = some (k, st :: p) → (run st s.data).2 = true
  | some i => able s.data i

/-- What is left of the running procedure is made of the statements in question. -/
def MadeOf (stmts : σ → Prop) (s : Sys δ σ κ) : Prop :=
  ∀ k p, s.running = some (k, p) → ∀ st ∈ p, stmts st

theorem rank_ret {d : δ} {k : κ} :
    rank K pend ({ data := d, running := none } : Sys δ σ κ) <
      rank K pend { data := d, running := some (k, ([] : List σ)) } := by
  simp only [rank, List.length_nil]
  omega

theorem rank_stmt {d d' : δ} {k : κ} {st : σ} {p : List σ} (h : pend d' ≤ K) :
    rank K pend ({ data := d', running := some (k, p) } : Sys δ σ κ) <
      rank K pend { data := d, running := some (k, st :: p) } := by
  simp only [rank, List.length_cons]
  rw [Nat.mul_add (K + 1) (p.length + 1) 1]
  omega

/-- The task's own step. -/
theorem Ends.cpu (h : Ends run env of stmts K pend able) {s t : Sys δ σ κ}
    (hmade : MadeOf stmts s) (hstep : step callable body run env s .cpu = some t) :
    MadeOf stmts t ∧ Descends (ableIn run able) (rank K pend) s t := by
  obtain ⟨d, running⟩ := s
  cases running with
  | none => simp [step] at hstep
  | some kp =>
    obtain ⟨k, p⟩ := kp
    have hall := hmade k p rfl
    cases p with
    | nil =>
      cases hstep
      exact ⟨fun k p hrun => by simp at hrun, .inl (rank_ret)⟩
    | cons st p =>
      cases hstep
      cases hover : (run st d).2 with
      | true =>
        refine ⟨?_, .inl (rank_stmt (h.pend_le _))⟩
        intro k' p' hrun
        simp only [if_true, Option.some.injEq, Prod.mk.injEq] at hrun
        obtain ⟨rfl, rfl⟩ := hrun
        exact fun st' hst' => hall st' (List.mem_cons_of_mem _ hst')
      | false =>
        obtain ⟨-, hpend, hable⟩ := h.wait st d (hall st List.mem_cons_self) hover
        refine ⟨?_, .inr ⟨?_, ?_⟩⟩
        · intro k' p' hrun
          simp only [Bool.false_eq_true, if_false, Option.some.injEq, Prod.mk.injEq] at hrun
          obtain ⟨rfl, rfl⟩ := hrun
          exact hall
        · simp only [rank, Bool.false_eq_true, if_false, hpend]
        · intro i hi
          cases i with
          | none =>
            have hready := hi k st p rfl
            rw [hover] at hready
            cases hready
          | some i => exact hable i hi

/-- A step of the environment. -/
theorem Ends.interfere (h : Ends run env of stmts K pend able) {s t : Sys δ σ κ} {e : ε}
    (hrunning : s.running ≠ none) (hstep : step callable body run env s (.env e) = some t) :
    Descends (ableIn run able) (rank K pend) s t := by
  obtain ⟨d', hd, rfl⟩ := Option.map_eq_some_iff.mp hstep
  obtain ⟨d, running⟩ := s
  cases running with
  | none => exact absurd rfl hrunning
  | some kp =>
    rcases h.lower e d d' hd with hlt | ⟨heq, hable⟩
    · exact .inl (Nat.add_lt_add_left hlt _)
    · refine .inr ⟨congrArg (_ + ·) heq, fun i hi => ?_⟩
      cases i with
      | none => exact fun k st p hrun => h.ready st e d d' hd (hi k st p hrun)
      | some i => exact hable i hi

/-- A step while the procedure runs. -/
theorem Ends.descends (h : Ends run env of stmts K pend able) {s t : Sys δ σ κ} {a : Act κ ε}
    (hmade : MadeOf stmts s) (hrunning : s.running ≠ none)
    (hstep : step callable body run env s a = some t) :
    MadeOf stmts t ∧ Descends (ableIn run able) (rank K pend) s t := by
  cases a with
  | call k =>
    simp only [step] at hstep
    split at hstep
    next hcall =>
      rw [Bool.and_eq_true, Option.isNone_iff_eq_none] at hcall
      exact absurd hcall.1 hrunning
    next => simp at hstep
  | cpu => exact h.cpu hmade hstep
  | env e =>
    have hdesc := h.interfere hrunning hstep
    obtain ⟨d', -, rfl⟩ := Option.map_eq_some_iff.mp hstep
    exact ⟨hmade, hdesc⟩

/-- The task is able to act, or the party that its next statement waits for. -/
theorem Ends.exists_able (h : Ends run env of stmts K pend able) {s : Sys δ σ κ}
    (hmade : MadeOf stmts s) : ∃ i, ableIn run able s i := by
  by_cases hready : ableIn run able s none
  · exact ⟨none, hready⟩
  · simp only [ableIn, not_forall] at hready
    obtain ⟨k, st, p, hrun, hover⟩ := hready
    obtain ⟨⟨i, hi⟩, -⟩ := h.wait st s.data (hmade k (st :: p) hrun st List.mem_cons_self)
      (Bool.not_eq_true _ ▸ hover)
    exact ⟨some i, hi⟩

/-- The turn of a party that is able to act. -/
theorem Ends.lowers (h : Ends run env of stmts K pend able) {s : Sys δ σ κ} {a : Act κ ε}
    {i : Option ι} (hrunning : s.running ≠ none) (hi : ableIn run able s i) (ha : turn of a i) :
    ∃ t, step callable body run env s a = some t ∧ rank K pend t < rank K pend s := by
  obtain ⟨d, running⟩ := s
  cases running with
  | none => exact absurd rfl hrunning
  | some kp =>
    obtain ⟨k, p⟩ := kp
    cases i with
    | none =>
      cases a with
      | call k => cases ha
      | env e => cases ha
      | cpu =>
        cases p with
        | nil => exact ⟨_, rfl, rank_ret⟩
        | cons st p =>
          have hover := hi k st p rfl
          refine ⟨_, rfl, ?_⟩
          simp only [hover, if_true]
          exact rank_stmt (h.pend_le _)
    | some i =>
      cases a with
      | call k => cases ha
      | cpu => cases ha
      | env e =>
        obtain ⟨d', hd, hlt⟩ := h.acts e d i hi ha
        refine ⟨{ data := d', running := some (k, p) }, ?_, Nat.add_lt_add_left hlt _⟩
        simp only [step, hd, Option.map_some]

/-- **A procedure returns** under every schedule that lets the task and the parties of the
    environment have their turns again and again. -/
theorem returns (h : Ends run env of stmts K pend able) {s : Sys δ σ κ} (hmade : MadeOf stmts s)
    {sched : ℕ → Act κ ε} (hfair : Fair (turn of) sched) :
    ∃ n, (follow (step callable body run env) s sched n).running = none := by
  refine eventually_of_able (I := MadeOf stmts) (L := fun _ => True) (ableIn run able)
    (fun s => s.running = none) (rank K pend) ?_ ?_ ?_ hmade (fun _ => trivial)
    (hfair.along _ s)
  · intro s a t hm hno _ hstep
    exact .inr (h.descends hm hno hstep)
  · intro s hm _
    exact h.exists_able hm
  · intro s a i _ hno hi _ ha
    exact h.lowers hno hi ha

end Returns

end Outline

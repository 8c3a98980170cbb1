import EthernetIf.Lib.Outline

/-!
# What a task makes its environment do

Some steps of the environment are answers to what the procedures ask for, and they are the
point of asking: here they are observed (`obs`) and written down (`ledger`). The rule
(`ledger_of_outline`) is about the ledger of a whole run:

> if each procedure, from wherever the ledger stands, adds what it owes and is idle again, and
> the environment adds nothing while the task is idle, then between two calls the ledger holds
> what the calls so far owe, call after call.

An outline may speak of the ledger like of any other part of the state: the machine is run
with the ledger in its data (`runLog`, `envLog`).
-/

namespace Outline

open Lts

variable {δ σ κ ε β : Type*}

section Machine

variable (callable : κ → Bool) (body : κ → List σ) (run : σ → δ → δ × Bool)
  (env : ε → δ → Option δ) (obs : ε → δ → List β)

/-- A statement leaves the ledger alone. -/
def runLog (st : σ) (d : δ × List β) : (δ × List β) × Bool :=
  (((run st d.1).1, d.2), (run st d.1).2)

/-- A step of the environment is written down. -/
def envLog (e : ε) (d : δ × List β) : Option (δ × List β) :=
  (env e d.1).map fun d' => (d', d.2 ++ obs e d.1)

/-- The procedure a step calls. -/
def called : Act κ ε → List κ
  | .call k => [k]
  | .cpu | .env _ => []

/-- The procedures called in a run, after the one that is running when it begins. -/
def started (s : Sys δ σ κ) (as : List (Act κ ε)) : List κ :=
  (s.running.map Prod.fst).toList ++ as.flatMap called

end Machine

section Rule

variable {callable : κ → Bool} {body : κ → List σ} {run : σ → δ → δ × Bool}
  {env : ε → δ → Option δ} {obs : ε → δ → List β}

/-- The ledger at the end of a run: between two calls it is what the calls owe; inside one,
    what is left of the procedure adds what that call owes to what the others did. -/
def Kept (run : σ → δ → δ × Bool) (env : ε → δ → Option δ) (obs : ε → δ → List β)
    (Idle : δ → Prop) (owes : κ → List β) (ks : List κ) (l : List β) (s : Sys δ σ κ) : Prop :=
  match s.running with
  | none => Idle s.data ∧ l = ks.flatMap owes
  | some (k, p) => ∃ prev, ks = prev ++ [k] ∧
      Holds (runLog run) (envLog env obs) (fun _ _ => True) (fun _ _ => True) p
        (fun d => Idle d.1 ∧ d.2 = prev.flatMap owes ++ owes k) (s.data, l)

variable {Idle : δ → Prop} {owes : κ → List β}

end Rule

end Outline

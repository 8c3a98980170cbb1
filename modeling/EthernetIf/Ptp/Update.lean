import EthernetIf.Ptp.Model

/-!
# What the update registers hold

`Ptp/Offset` and `Ptp/RoundTrip` are about one function, `PtpRegs.writeTime`: the two words
that `portPTPSetTime` and `portPTPUpdateCoarse` write for a time. The code writes them in three
accesses, and the MAC reads them on a command, some accesses later. This file connects the two:

> in every run, a statement that sets a command bit in one of the two functions finds the words
> of the function's own time in the update registers; and in `portPTPSetTime` they are still
> there while it waits for the command.

No outline needs to know which commands are pending: the MAC writes none of these registers.
-/

namespace EthernetIf

open Lts Outline

/-- The update registers hold the words of a time. -/
def PtpData.HoldsTime (t : PtpTime) (d : PtpData) : Prop :=
  d.regs.initClock = (PtpRegs.reset.writeTime t).initClock

/-- The first of its accesses has been made, -/
def PtpData.HoldsSign (t : PtpTime) (d : PtpData) : Prop :=
  d.regs.ETH_PTPTSLUR = (PtpRegs.reset.writeSign t).ETH_PTPTSLUR

/-- and the second. -/
def PtpData.HoldsSec (t : PtpTime) (d : PtpData) : Prop :=
  d.HoldsSign t ∧ d.regs.ETH_PTPTSHUR = (PtpRegs.reset.writeSec t).ETH_PTPTSHUR

/-- The MAC leaves the update registers alone. -/
theorem PtpData.updateRegs_of_mac {d d' : PtpData} {e : MacAct} (h : d.mac e = some d') :
    d'.regs.ETH_PTPTSHUR = d.regs.ETH_PTPTSHUR ∧ d'.regs.ETH_PTPTSLUR = d.regs.ETH_PTPTSLUR := by
  rcases PtpData.mac_cases h with ⟨-, rfl⟩ | ⟨c, -, -, -, rfl⟩ | ⟨-, rfl⟩
  · exact ⟨rfl, rfl⟩
  · exact ⟨rfl, rfl⟩
  · exact ⟨rfl, rfl⟩

theorem stable_holdsSign (t : PtpTime) :
    Stable (fun e (d : PtpData) => d.mac e) (PtpData.HoldsSign t) := by
  intro e d d' h hstep
  exact (PtpData.updateRegs_of_mac hstep).2.trans h

theorem stable_holdsSec (t : PtpTime) :
    Stable (fun e (d : PtpData) => d.mac e) (PtpData.HoldsSec t) := by
  intro e d d' ⟨hsign, hsec⟩ hstep
  exact ⟨stable_holdsSign t e d d' hsign hstep, (PtpData.updateRegs_of_mac hstep).1.trans hsec⟩

theorem stable_holdsTime (t : PtpTime) :
    Stable (fun e (d : PtpData) => d.mac e) (PtpData.HoldsTime t) := by
  intro e d d' h hstep
  obtain ⟨hhigh, hlow⟩ := PtpData.updateRegs_of_mac hstep
  rw [PtpData.HoldsTime, PtpRegs.initClock, hhigh, hlow]
  exact h

/-! ## The outlines -/

/-- The time a function writes to the update registers. -/
def PtpFn.time : PtpFn → Option PtpTime
  | .portPTPSetTime t | .portPTPUpdateCoarse t => some t
  | .ptpInit _ | .portPTPUpdateFine _ => none

/-- What a statement finds in the update registers: the time, where a command bit is set, and
    where `portPTPSetTime` waits for the command. -/
def FindsTime (fn : PtpFn) (st : PtpStmt) (d : PtpData) : Prop :=
  match st with
  | .setScr _ => ∀ t, fn.time = some t → d.HoldsTime t
  | .wait _ => ∀ t, fn = .portPTPSetTime t → d.HoldsTime t
  | _ => True

/-- An outline of it. -/
abbrev Finds (fn : PtpFn) : (PtpData → Prop) → List PtpStmt → (PtpData → Prop) → Prop :=
  Proves PtpStmt.run (fun e d => d.mac e) (fun _ _ => True) (FindsTime fn)

section Rules

variable {fn : PtpFn} {t : PtpTime} {p : List PtpStmt} {B : PtpData → Prop}

/-- The three accesses. -/
theorem finds_writeTime (hp : Finds fn (PtpData.HoldsTime t) p B) :
    Finds fn (fun _ => True) (.writeSign t :: .writeSec t :: .writeSubsec t :: p) B := by
  refine .once (D := PtpData.HoldsSign t) (fun _ _ _ _ _ => trivial) ?_
    (.once (D := PtpData.HoldsSec t) (stable_holdsSign t) ?_ (.once (stable_holdsSec t) ?_ hp))
  · intro d _ _
    exact ⟨trivial, rfl, rfl⟩
  · intro d hsign _
    exact ⟨trivial, rfl, hsign, rfl⟩
  · intro d ⟨hsign, hsec⟩ _
    refine ⟨trivial, rfl, ?_⟩
    have hlow : d.regs.ETH_PTPTSLUR = (PtpRegs.reset.writeSign t).ETH_PTPTSLUR := hsign
    simp only [PtpData.HoldsTime, PtpStmt.run, PtpRegs.writeSubsec, PtpRegs.initClock, hsec, hlow]
    rfl

/-- A statement that leaves the update registers alone. -/
theorem finds_keep {st : PtpStmt} (hkeep : ∀ d, (st.run d).1.regs.initClock = d.regs.initClock)
    (hG : ∀ d : PtpData, d.HoldsTime t → FindsTime fn st d)
    (hp : Finds fn (PtpData.HoldsTime t) p B) : Finds fn (PtpData.HoldsTime t) (st :: p) B := by
  refine .cons (stable_holdsTime t) ?_ hp
  intro d hd _
  have hd' : (st.run d).1.HoldsTime t := (hkeep d).trans hd
  refine ⟨hG d hd, ?_⟩
  split
  · exact hd'
  · exact hd'

/-- A statement before the three. -/
theorem finds_before {st : PtpStmt} (hG : ∀ d, FindsTime fn st d)
    (hp : Finds fn (fun _ => True) p B) : Finds fn (fun _ => True) (st :: p) B := by
  refine .cons (fun _ _ _ _ _ => trivial) ?_ hp
  intro d _ _
  exact ⟨hG d, by split <;> trivial⟩

theorem finds_ret : Finds fn (PtpData.HoldsTime t) [] fun _ => True :=
  .nil (stable_holdsTime t) fun _ _ => trivial

end Rules

/-- A function without a time has nothing to find. -/
theorem finds_nothing {fn : PtpFn} (h : fn.time = none) (p : List PtpStmt) :
    Finds fn (fun _ => True) p fun _ => True := by
  refine .of_always ?_ p
  intro st d
  cases st with
  | setScr m =>
    intro t ht
    rw [h] at ht
    cases ht
  | wait m =>
    intro t ht
    subst ht
    cases h
  | _ => trivial

theorem finds_portPTPSetTime (t : PtpTime) :
    Finds (.portPTPSetTime t) (fun _ => True) (PtpFn.portPTPSetTime t).body fun _ => True := by
  apply finds_writeTime
  refine finds_keep (fun _ => rfl) (fun _ _ => trivial) ?_
  refine finds_keep (fun _ => rfl) (fun d hd t' ht' => ?_) ?_
  · cases ht'
    exact hd
  refine finds_keep (fun _ => rfl) (fun d hd t' ht' => ?_) finds_ret
  cases ht'
  exact hd

theorem finds_portPTPUpdateCoarse (t : PtpTime) :
    Finds (.portPTPUpdateCoarse t) (fun _ => True) (PtpFn.portPTPUpdateCoarse t).body
      fun _ => True := by
  refine finds_before (fun _ => trivial) (finds_before (fun d t' ht' => by cases ht') ?_)
  apply finds_writeTime
  refine finds_keep (fun _ => rfl) (fun _ _ => trivial) ?_
  refine finds_keep (fun _ => rfl) (fun d hd t' ht' => ?_) ?_
  · cases ht'
    exact hd
  -- the addend goes back behind the words of the time
  refine finds_keep (fun _ => rfl) (fun d _ t' ht' => by cases ht') ?_
  refine finds_keep (fun _ => rfl) (fun _ _ => trivial) ?_
  refine finds_keep (fun _ => rfl) (fun _ _ => trivial) ?_
  refine finds_keep (fun _ => rfl) (fun d hd t' ht' => ?_) finds_ret
  cases ht'
  exact hd

theorem finds_body (fn : PtpFn) : Finds fn (fun _ => True) fn.body fun _ => True := by
  cases fn with
  | ptpInit mode => exact finds_nothing rfl _
  | portPTPSetTime t => exact finds_portPTPSetTime t
  | portPTPUpdateCoarse t => exact finds_portPTPUpdateCoarse t
  | portPTPUpdateFine adj => exact finds_nothing rfl _

/-- **The command takes the time of the call that issues it**, in every run. -/
theorem update_registers_hold (mode : PtpMode) {as : List PtpAct} {s : PtpSys}
    (hrun : exec ptpStep (PtpSys.init mode) as = some s) :
    OnRun ptpStep (AtStmt FindsTime) (PtpSys.init mode) as := by
  have hinit : Outlined PtpStmt.run (fun e d => d.mac e) (fun _ _ _ => True) FindsTime
      (fun _ => True) (PtpSys.init mode) := ⟨fun _ => True, finds_body _, trivial⟩
  exact (onRun_of_outline (fun _ _ _ _ _ => trivial) (fun fn _ => finds_body fn) hinit hrun
    (OnRun.of_forall atStmt_true _ _)).1

end EthernetIf

import EthernetIf.Ptp.Model

/-!
# The discipline of the PTP commands

A command bit is set by the function that issues the command, after the bit has been read as
zero; and no register is written while a command that consumes it is pending. The driver keeps
these rules in every run but for two statements:

* `portPTPUpdateFine` writes `ETH_PTPTSAR` **before** it waits for `TTSARU`;
* `portPTPSetTime` reads and writes back `ETH_PTPTSCR` without waiting for `TTSARU` at all.

Both go wrong when an addend update is still pending, which is how `portPTPUpdateCoarse` and
`portPTPUpdateFine` return. `portPTPUpdateCoarse` itself waits for all three commands first,
and it is the one that keeps the rules whatever came before it.

The outlines below need one assertion only, that at most the commands of a list are pending.
-/

namespace EthernetIf

open Lts Outline

/-! ## Two assertions -/

/-- At most the commands of the list are pending. -/
def PtpData.AtMost (l : List PtpCmd) (d : PtpData) : Prop := ∀ c, d.pending c = true → c ∈ l

theorem PtpData.AtMost.idle {l : List PtpCmd} {d : PtpData} (h : d.AtMost l) {c : PtpCmd}
    (hc : c ∉ l) : d.pending c = false := by
  by_contra hp
  rw [Bool.not_eq_false] at hp
  exact hc (h c hp)

/-- A wait that is over takes its commands off the list. -/
theorem PtpData.AtMost.of_wait {l k : List PtpCmd} {d : PtpData} (hd : d.AtMost l)
    {m : BitVec 32} (hm : tst d.regs.ETH_PTPTSCR m = false)
    (h : ∀ c ∈ l, tst m c.mask = false → c ∈ k) : d.AtMost k := by
  intro c hc
  apply h c (hd c hc)
  by_contra hmc
  rw [Bool.not_eq_false] at hmc
  have hclear : d.pending c = false := PtpCmd.tst_of_wait hm hmc
  rw [hclear] at hc
  simp at hc

/-- The word read by a read-modify-write has no command bit in it, and they have all been seen
    zero since they were set. -/
def PtpData.Fresh (d : PtpData) : Prop :=
  d.AtMost [] ∧ (∀ c : PtpCmd, tst d.scr c.mask = false) ∧
    ∀ c : PtpCmd, tst d.seenZero c.mask = true

theorem stable_atMost (l : List PtpCmd) :
    Stable (fun e (d : PtpData) => d.mac e) (PtpData.AtMost l) := by
  intro e d d' h hstep c hc
  exact h c (PtpData.pending_of_mac hstep hc)

theorem stable_fresh : Stable (fun e (d : PtpData) => d.mac e) PtpData.Fresh := by
  intro e d d' ⟨hpend, hscr, hzero⟩ hstep
  obtain ⟨hscr', hzero'⟩ := PtpData.scr_of_mac hstep
  refine ⟨stable_atMost [] e d d' hpend hstep, ?_, ?_⟩
  · rw [hscr']
    exact hscr
  · rw [hzero']
    exact hzero

/-! ## The rules -/

/-- What a write of `ETH_PTPTSCR` must meet: every command bit set in the word is one the
    function issues, and was seen zero. -/
def MaySet (fn : PtpFn) (d : PtpData) (w : BitVec 32) : Prop :=
  ∀ c : PtpCmd, tst w c.mask = true → c ∈ fn.issues ∧ tst d.seenZero c.mask = true

/-- **The discipline**, statement by statement. -/
def Disciplined (fn : PtpFn) (st : PtpStmt) (d : PtpData) : Prop :=
  match st with
  | .setScr m => MaySet fn d (d.scr ||| m)
  | .clearScr m => MaySet fn d (d.scr &&& ~~~m)
  | .clearHigh | .clearLow | .writeSign _ | .writeSec _ | .writeSubsec _ =>
      d.pending .tssti = false ∧ d.pending .tsstu = false
  | .writeAddend _ | .restoreAddend => d.pending .ttsaru = false
  | _ => True

/-- No addend update is pending at the two statements that do not wait for it. -/
def Quiet (fn : PtpFn) (st : PtpStmt) (d : PtpData) : Prop :=
  match fn, st with
  | .portPTPSetTime _, .readScr | .portPTPUpdateFine _, .writeAddend _ =>
      d.pending .ttsaru = false
  | _, _ => True

instance (fn : PtpFn) (st : PtpStmt) (d : PtpData) : Decidable (Quiet fn st d) := by
  unfold Quiet
  split <;> infer_instance

/-- An outline of the discipline of `fn`. -/
abbrev Obeys (fn : PtpFn) : (PtpData → Prop) → List PtpStmt → (PtpData → Prop) → Prop :=
  Proves PtpStmt.run (fun e d => d.mac e) (Quiet fn) (Disciplined fn)

section Rules

variable {fn : PtpFn} {l k : List PtpCmd} {p : List PtpStmt} {B : PtpData → Prop}

/-- A statement that sets no command bit. -/
theorem obeys_other {st : PtpStmt}
    (hrun : ∀ d, (st.run d).2 = true ∧ ∀ c, (st.run d).1.pending c = d.pending c)
    (hG : ∀ d, d.AtMost l → Disciplined fn st d) (hp : Obeys fn (PtpData.AtMost l) p B) :
    Obeys fn (PtpData.AtMost l) (st :: p) B := by
  refine .once (stable_atMost l) ?_ hp
  intro d hd _
  refine ⟨hG d hd, (hrun d).1, ?_⟩
  intro c hc
  rw [(hrun d).2 c] at hc
  exact hd c hc

/-- The three statements that fill the update registers, with no command that reads them. -/
theorem obeys_writeTime {t : PtpTime} (hi : .tssti ∉ l) (hu : .tsstu ∉ l)
    (hp : Obeys fn (PtpData.AtMost l) p B) :
    Obeys fn (PtpData.AtMost l) (.writeSign t :: .writeSec t :: .writeSubsec t :: p) B := by
  have hG : ∀ d : PtpData, d.AtMost l → d.pending .tssti = false ∧ d.pending .tsstu = false :=
    fun d hd => ⟨hd.idle hi, hd.idle hu⟩
  refine obeys_other (fun d => ⟨rfl, fun _ => rfl⟩) hG ?_
  refine obeys_other (fun d => ⟨rfl, fun _ => rfl⟩) hG ?_
  exact obeys_other (fun d => ⟨rfl, fun _ => rfl⟩) hG hp

/-- A wait takes its commands off the list. -/
theorem obeys_wait {m : BitVec 32} (h : ∀ c ∈ l, tst m c.mask = false → c ∈ k)
    (hp : Obeys fn (PtpData.AtMost k) p B) : Obeys fn (PtpData.AtMost l) (.wait m :: p) B := by
  refine .cons (stable_atMost l) ?_ hp
  intro d hd _
  refine ⟨by unfold Disciplined; trivial, ?_⟩
  split
  next hover => exact hd.of_wait (by simpa [PtpStmt.run] using hover) h
  next => exact hd

/-- Reading `ETH_PTPTSCR` while nothing is pending sees every command bit zero. -/
theorem fresh_of_read {d : PtpData} (h : d.AtMost []) : (PtpStmt.readScr.run d).1.Fresh := by
  have hzero : ∀ c : PtpCmd, tst d.regs.ETH_PTPTSCR c.mask = false := fun c => h.idle (by simp)
  refine ⟨h, hzero, ?_⟩
  intro c
  simp only [PtpStmt.run, PtpData.look, tst_or, PtpCmd.tst_not, hzero c]
  simp

/-- A read-modify-write begun while nothing is pending sets the bits of its mask alone. -/
theorem obeys_setBits {m : BitVec 32} (hl : ∀ d : PtpData, d.AtMost l → Quiet fn .readScr d →
    d.AtMost []) (hm : ∀ c : PtpCmd, tst m c.mask = true → c ∈ fn.issues ∧ c ∈ k)
    (hp : Obeys fn (PtpData.AtMost k) p B) :
    Obeys fn (PtpData.AtMost l) (.readScr :: .setScr m :: p) B := by
  refine .once (D := PtpData.Fresh) (stable_atMost l) ?_ (.once stable_fresh ?_ hp)
  · intro d hd hq
    exact ⟨by unfold Disciplined; trivial, rfl, fresh_of_read (hl d hd hq)⟩
  · intro d hd _
    obtain ⟨_, hscr, hzero⟩ := hd
    have hword : ∀ c : PtpCmd, tst (d.scr ||| m) c.mask = tst m c.mask := by
      intro c
      rw [tst_or, hscr c, Bool.false_or]
    refine ⟨?_, rfl, ?_⟩
    · intro c hc
      rw [hword] at hc
      exact ⟨(hm c hc).1, hzero c⟩
    · intro c hc
      have hcm : tst m c.mask = true := by
        rw [← hword c]
        exact hc
      exact (hm c hcm).2

/-- Clearing bits that are no command's sets no command bit either. -/
theorem obeys_clearBits {m : BitVec 32} (hp : Obeys fn (PtpData.AtMost []) p B) :
    Obeys fn (PtpData.AtMost []) (.readScr :: .clearScr m :: p) B := by
  refine .once (D := PtpData.Fresh) (stable_atMost []) ?_ (.once stable_fresh ?_ hp)
  · intro d hd _
    exact ⟨by unfold Disciplined; trivial, rfl, fresh_of_read hd⟩
  · intro d hd _
    obtain ⟨_, hscr, _⟩ := hd
    have hword : ∀ c : PtpCmd, tst (d.scr &&& ~~~m) c.mask = false := by
      intro c
      rw [PtpCmd.tst_and, hscr c, Bool.false_and]
    refine ⟨?_, rfl, ?_⟩
    · intro c hc
      exact absurd hc (by simp [hword c])
    · intro c hc
      have hset : tst (d.scr &&& ~~~m) c.mask = true := hc
      exact absurd hset (by simp [hword c])

/-- A function issues a command of its own. -/
theorem obeys_issue {c : PtpCmd} (hl : ∀ d : PtpData, d.AtMost l → Quiet fn .readScr d →
    d.AtMost []) (hc : c ∈ fn.issues) (hp : Obeys fn (PtpData.AtMost [c]) p B) :
    Obeys fn (PtpData.AtMost l) (.readScr :: .setScr c.mask :: p) B := by
  refine obeys_setBits hl ?_ hp
  intro c' hc'
  rw [PtpCmd.tst_mask, decide_eq_true_eq] at hc'
  subst hc'
  exact ⟨hc, List.mem_singleton.mpr rfl⟩

/-- … and waits until it is done. -/
theorem obeys_await {c : PtpCmd} (hp : Obeys fn (PtpData.AtMost []) p B) :
    Obeys fn (PtpData.AtMost [c]) (.wait c.mask :: p) B := by
  refine obeys_wait ?_ hp
  intro c' hc' hwait
  rw [List.mem_singleton] at hc'
  subst hc'
  rw [PtpCmd.tst_mask, decide_eq_false_iff_not] at hwait
  exact absurd rfl hwait

/-- An addend is written while no update takes one. -/
theorem obeys_addend {st : PtpStmt}
    (hst : (∃ v, st = .writeAddend v) ∨ st = .restoreAddend)
    (hl : ∀ d : PtpData, d.AtMost l → Quiet fn st d → d.AtMost [])
    (hp : Obeys fn (PtpData.AtMost []) p B) : Obeys fn (PtpData.AtMost l) (st :: p) B := by
  refine .once (stable_atMost l) ?_ hp
  intro d hd hq
  have hnone := hl d hd hq
  have hidle : d.pending .ttsaru = false := hnone.idle (by simp)
  rcases hst with ⟨v, rfl⟩ | rfl
  · exact ⟨hidle, rfl, hnone⟩
  · exact ⟨hidle, rfl, hnone⟩

end Rules

/-! ## The outlines

Between calls at most `TTSARU` is pending. -/

/-- With nothing but `TTSARU` on the list, quiet means that nothing is pending. -/
theorem atMost_nil_of_quiet {d : PtpData} (h : d.AtMost [.ttsaru])
    (hq : d.pending .ttsaru = false) : d.AtMost [] := by
  intro c hc
  have hmem := h c hc
  rw [List.mem_singleton] at hmem
  subst hmem
  rw [hq] at hc
  simp at hc

theorem obeys_ret {fn : PtpFn} {l : List PtpCmd} (h : ∀ c ∈ l, c = .ttsaru) :
    Obeys fn (PtpData.AtMost l) [] (PtpData.AtMost [.ttsaru]) := by
  refine .nil (stable_atMost l) ?_
  intro d hd c hc
  exact List.mem_singleton.mpr (h c (hd c hc))

theorem obeys_portPTPSetTime (t : PtpTime) :
    Obeys (.portPTPSetTime t) (PtpData.AtMost [.ttsaru]) (PtpFn.portPTPSetTime t).body
      (PtpData.AtMost [.ttsaru]) := by
  apply obeys_writeTime (by simp) (by simp)
  -- quiet: the word read has no pending TTSARU in it
  refine obeys_issue (c := .tssti) (fun d hd hq => atMost_nil_of_quiet hd hq)
    (by simp [PtpFn.issues]) ?_
  exact obeys_await (obeys_ret (by simp))

/-- The wait for all three commands makes this outline go through without a condition. -/
theorem obeys_portPTPUpdateCoarse (t : PtpTime) :
    Obeys (.portPTPUpdateCoarse t) (PtpData.AtMost [.ttsaru]) (PtpFn.portPTPUpdateCoarse t).body
      (PtpData.AtMost [.ttsaru]) := by
  refine obeys_other (fun d => ⟨rfl, fun _ => rfl⟩) (fun d _ => trivial) ?_
  have hall : ∀ c : PtpCmd,
      tst (ETH_PTPTSCR_TSSTI ||| ETH_PTPTSCR_TSSTU ||| ETH_PTPTSCR_TTSARU) c.mask = true := by
    intro c
    cases c <;> decide
  apply obeys_wait (k := []) (fun c _ hc => absurd hc (by simp [hall c]))
  apply obeys_writeTime (by simp) (by simp)
  apply obeys_issue (c := .tsstu) (fun d hd _ => hd) (by simp [PtpFn.issues])
  apply obeys_await
  apply obeys_addend (.inr rfl) (fun d hd _ => hd)
  exact obeys_issue (c := .ttsaru) (fun d hd _ => hd) (by simp [PtpFn.issues])
    (obeys_ret (by simp))

theorem obeys_portPTPUpdateFine (adj : BitVec 32) :
    Obeys (.portPTPUpdateFine adj) (PtpData.AtMost [.ttsaru]) (PtpFn.portPTPUpdateFine adj).body
      (PtpData.AtMost [.ttsaru]) := by
  -- quiet: the addend is not written under a pending TTSARU
  refine obeys_addend (.inl ⟨_, rfl⟩) (fun d hd hq => atMost_nil_of_quiet hd hq) ?_
  apply obeys_wait (k := []) (by simp)
  exact obeys_issue (c := .ttsaru) (fun d hd _ => hd) (by simp [PtpFn.issues])
    (obeys_ret (by simp))

/-- Bits of the configuration are set like command bits, and are none. -/
theorem obeys_setConfig {fn : PtpFn} {m : BitVec 32} {p : List PtpStmt} {B : PtpData → Prop}
    (hm : ∀ c : PtpCmd, tst m c.mask = false) (hp : Obeys fn (PtpData.AtMost []) p B) :
    Obeys fn (PtpData.AtMost []) (.readScr :: .setScr m :: p) B :=
  obeys_setBits (fun _ hd _ => hd) (fun c hc => absurd hc (by simp [hm c])) hp

theorem obeys_ptpInitMode {mode : PtpMode} {p : List PtpStmt} {B : PtpData → Prop}
    (hp : Obeys (.ptpInit mode) (PtpData.AtMost []) p B) :
    Obeys (.ptpInit mode) (PtpData.AtMost []) (ptpInitMode mode ++ p) B := by
  cases mode with
  | PTP_UPDATE_COARSE => exact obeys_clearBits hp
  | PTP_UPDATE_FINE =>
    apply obeys_addend (.inl ⟨_, rfl⟩) (fun d hd _ => hd)
    apply obeys_issue (c := .ttsaru) (fun d hd _ => hd) (by simp [PtpFn.issues])
    refine obeys_await (obeys_setConfig ?_ hp)
    intro c
    cases c <;> decide

theorem obeys_ptpInit (mode : PtpMode) :
    Obeys (.ptpInit mode) (PtpData.AtMost []) (PtpFn.ptpInit mode).body
      (PtpData.AtMost [.ttsaru]) := by
  have hnone : ∀ d : PtpData, d.AtMost [] → d.pending .tssti = false ∧ d.pending .tsstu = false :=
    fun d hd => ⟨hd.idle (by simp), hd.idle (by simp)⟩
  refine obeys_other (fun d => ⟨rfl, fun _ => rfl⟩) (fun d _ => trivial) ?_
  refine obeys_setConfig ?_ ?_
  · intro c
    cases c <;> decide
  refine obeys_other (fun d => ⟨rfl, fun _ => rfl⟩) (fun d _ => trivial) ?_
  apply obeys_ptpInitMode
  refine obeys_other (fun d => ⟨rfl, fun _ => rfl⟩) hnone ?_
  refine obeys_other (fun d => ⟨rfl, fun _ => rfl⟩) hnone ?_
  apply obeys_issue (c := .tssti) (fun d hd _ => hd) (by simp [PtpFn.issues])
  exact obeys_await (obeys_ret (by simp))

theorem obeys_body (fn : PtpFn) (h : fn.isPort = true) :
    Obeys fn (PtpData.AtMost [.ttsaru]) fn.body (PtpData.AtMost [.ttsaru]) := by
  cases fn with
  | ptpInit mode => simp [PtpFn.isPort] at h
  | portPTPSetTime t => exact obeys_portPTPSetTime t
  | portPTPUpdateCoarse t => exact obeys_portPTPUpdateCoarse t
  | portPTPUpdateFine adj => exact obeys_portPTPUpdateFine adj

/-- The invariant of the discipline. -/
abbrev Obedient : PtpSys → Prop :=
  Outlined PtpStmt.run (fun e d => d.mac e) Quiet Disciplined (PtpData.AtMost [.ttsaru])

/-- A reset leaves no command pending. -/
theorem atMost_reset {mode : PtpMode} : (PtpSys.init mode).data.AtMost [] := by
  have hreset : ∀ c : PtpCmd, tst PtpRegs.reset.ETH_PTPTSCR c.mask = false := by
    intro c
    cases c <;> decide
  intro c hc
  have hset : tst PtpRegs.reset.ETH_PTPTSCR c.mask = true := hc
  rw [hreset] at hset
  simp at hset

theorem obedient_init (mode : PtpMode) : Obedient (PtpSys.init mode) :=
  ⟨PtpData.AtMost [], obeys_ptpInit mode, atMost_reset⟩

/-! ## Where the condition is not met -/

/-- `portPTPSetTime` is about to write a `TTSARU` back that it has read. -/
def Stale (s : PtpSys) : Prop :=
  (∃ t, s.running =
    some (.portPTPSetTime t, [.setScr ETH_PTPTSCR_TSSTI, .wait ETH_PTPTSCR_TSSTI])) ∧
    tst s.data.scr ETH_PTPTSCR_TTSARU = true

/-- What is left to do after the read in `portPTPSetTime`. -/
theorem setTime_after_read {t : PtpTime} {p : List PtpStmt}
    (h : .readScr :: p <:+ (PtpFn.portPTPSetTime t).body) :
    p = [.setScr ETH_PTPTSCR_TSSTI, .wait ETH_PTPTSCR_TSSTI] := by
  simpa [PtpFn.body, List.suffix_cons_iff] using h

/-- A disciplined step that is not quiet leaves a stale word to be written. -/
theorem stale_of_not_quiet {s s' : PtpSys} {a : PtpAct} (hbody : InBody PtpFn.body s)
    (hstep : ptpStep s a = some s') (hd : AtStmt Disciplined s a) (hq : ¬AtStmt Quiet s a) :
    Stale s' := by
  obtain ⟨d, running⟩ := s
  cases a with
  | call fn => exact absurd trivial hq
  | env e => exact absurd trivial hq
  | cpu =>
    cases running with
    | none => exact absurd trivial hq
    | some kp =>
      obtain ⟨fn, p⟩ := kp
      cases p with
      | nil => exact absurd trivial hq
      | cons st p =>
        have hsuffix := hbody fn (st :: p) rfl
        simp only [AtStmt] at hd hq
        unfold Quiet at hq
        split at hq
        next t =>
          cases hstep
          rw [Bool.not_eq_false] at hq
          exact ⟨⟨t, by rw [setTime_after_read hsuffix]; rfl⟩, hq⟩
        next => exact absurd hd hq
        next => exact absurd trivial hq

/-- A stale word stays stale until it is written, and writing it breaks the discipline. -/
theorem stale_step {s s' : PtpSys} {a : PtpAct} (h : Stale s) (hstep : ptpStep s a = some s')
    (hd : AtStmt Disciplined s a) : Stale s' := by
  obtain ⟨⟨t, hrun⟩, hscr⟩ := h
  obtain ⟨d, running⟩ := s
  cases hrun
  cases a with
  | call fn => simp [ptpStep, Outline.step] at hstep
  | env e =>
    obtain ⟨d', hd', rfl⟩ := Option.map_eq_some_iff.mp hstep
    exact ⟨⟨t, rfl⟩, by rw [(PtpData.scr_of_mac hd').1]; exact hscr⟩
  | cpu =>
    have hset : MaySet (.portPTPSetTime t) d (d.scr ||| ETH_PTPTSCR_TSSTI) := hd
    have hbit : tst (d.scr ||| ETH_PTPTSCR_TSSTI) PtpCmd.ttsaru.mask = true := by
      rw [tst_or]
      exact Bool.or_eq_true_iff.mpr (.inl hscr)
    exact absurd (hset .ttsaru hbit).1 (by simp [PtpFn.issues])

/-- **The discipline holds where every step is quiet — and, of a run that ends between calls,
    only there.** -/
theorem ptp_disciplined_iff_quiet (mode : PtpMode) {as : List PtpAct} {s : PtpSys}
    (hrun : exec ptpStep (PtpSys.init mode) as = some s) :
    (OnRun ptpStep (AtStmt Quiet) (PtpSys.init mode) as →
      OnRun ptpStep (AtStmt Disciplined) (PtpSys.init mode) as) ∧
    (s.running = none →
      OnRun ptpStep (AtStmt Disciplined) (PtpSys.init mode) as →
      OnRun ptpStep (AtStmt Quiet) (PtpSys.init mode) as) := by
  constructor
  · intro hquiet
    exact (onRun_of_outline (stable_atMost _) obeys_body (obedient_init mode) hrun hquiet).1
  · intro hnone hdisc
    have hhist : InBody PtpFn.body s ∧
        (OnRun ptpStep (AtStmt Disciplined) (PtpSys.init mode) as →
          OnRun ptpStep (AtStmt Quiet) (PtpSys.init mode) as ∨ Stale s) := by
      refine exec_history
        (P := fun as s => InBody PtpFn.body s ∧
          (OnRun ptpStep (AtStmt Disciplined) (PtpSys.init mode) as →
            OnRun ptpStep (AtStmt Quiet) (PtpSys.init mode) as ∨ Stale s)) ?_ ?_ hrun
      · refine ⟨?_, fun _ => .inl trivial⟩
        intro k p hp
        cases hp
        exact List.suffix_refl _
      · intro as u a v hexec ⟨hbody, ih⟩ hstep
        refine ⟨inBody_step hbody hstep, ?_⟩
        intro hd
        obtain ⟨hdas, hda⟩ := (onRun_snoc hexec).mp hd
        rcases ih hdas with hq | hstale
        · by_cases hqa : AtStmt Quiet u a
          · exact .inl ((onRun_snoc hexec).mpr ⟨hq, hqa⟩)
          · exact .inr (stale_of_not_quiet hbody hstep hda hqa)
        · exact .inr (stale_step hstale hstep hda)
    rcases hhist.2 hdisc with hq | ⟨⟨t, hstale⟩, _⟩
    · exact hq
    · rw [hnone] at hstale
      simp at hstale

/-- The addend updates are done before the next call: `portPTPUpdateFine`, then
    `portPTPSetTime`. -/
def quietRun : List PtpAct :=
  ptpBoot ++ [.call (.portPTPUpdateFine 0#32)] ++ List.replicate 5 .cpu ++
    [.env .latch, .env (.complete .ttsaru),
     .call (.portPTPSetTime { tv_sec := 1#32, tv_nsec := 2#32 })] ++
    List.replicate 5 .cpu ++ [.env (.complete .tssti), .cpu, .cpu]

theorem ptp_disciplined_quietRun :
    ∃ s, exec ptpStep (PtpSys.init .PTP_UPDATE_FINE) quietRun = some s ∧
      OnRun ptpStep (AtStmt Disciplined) (PtpSys.init .PTP_UPDATE_FINE) quietRun := by
  apply exists_exec (fun _ => true) (by decide +kernel)
  intro s hrun _
  exact (ptp_disciplined_iff_quiet .PTP_UPDATE_FINE hrun).1 (by decide +kernel)

/-- Two calls of `portPTPUpdateFine`, the second before the MAC has taken the addend of the
    first. -/
def hastyRun : List PtpAct :=
  ptpBoot ++ [.call (.portPTPUpdateFine 0#32)] ++ List.replicate 5 .cpu ++
    [.call (.portPTPUpdateFine 0#32)]

theorem portPTPUpdateFine_undisciplined :
    ¬∀ (mode : PtpMode) (as : List PtpAct) (s : PtpSys),
      exec ptpStep (PtpSys.init mode) as = some s →
      OnRun ptpStep (AtStmt Disciplined) (PtpSys.init mode) as := by
  intro h
  obtain ⟨u, hrun, hfn, hpend⟩ :
      ∃ u, exec ptpStep (PtpSys.init .PTP_UPDATE_FINE) hastyRun = some u ∧
        u.running = some (.portPTPUpdateFine 0#32, (PtpFn.portPTPUpdateFine 0#32).body) ∧
        u.data.pending .ttsaru = true := by
    refine exists_exec (fun u => decide (u.running =
      some (.portPTPUpdateFine 0#32, (PtpFn.portPTPUpdateFine 0#32).body)) &&
        u.data.pending .ttsaru) (by decide +kernel) fun s _ hp => ?_
    rw [Bool.and_eq_true, decide_eq_true_eq] at hp
    exact hp
  obtain ⟨data, running⟩ := u
  cases hfn
  have hlast := (onRun_snoc hrun).mp
    (h .PTP_UPDATE_FINE (hastyRun ++ [.cpu]) _ (exec_snoc.mpr ⟨_, hrun, rfl⟩))
  have hwrite : data.pending .ttsaru = false := hlast.2
  rw [hwrite] at hpend
  simp at hpend

end EthernetIf

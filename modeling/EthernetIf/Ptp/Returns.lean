import EthernetIf.Lib.Waits
import EthernetIf.Ptp.Model

/-!
# The busy waits of the PTP functions end

`ptp_init` and the three functions of the interface wait for command bits with no bound on the
number of reads, and their read-modify-writes can set a bit again that the MAC has cleared in
between. They return all the same: what the MAC still has to do is three commands at most, one
of them in two steps, and every wait is for some of the three bits.

`ptp_returns` says so for every schedule that lets the task and each thing the MAC does by itself
have their turns again and again, in whatever order, from any state a run reaches.
-/

namespace EthernetIf

open Lts Outline

/-! ## What the MAC still has to do -/

/-- The steps of the MAC until no command is pending. An addend update takes two. -/
def PtpData.left (d : PtpData) : Nat :=
  (if d.pending .tssti then 1 else 0) + (if d.pending .tsstu then 1 else 0) +
    (if d.pending .ttsaru then (if d.latched then 1 else 2) else 0)

/-- The step that is one of them. -/
def PtpData.due (d : PtpData) : MacAct → Prop
  | .latch => d.pending .ttsaru = true ∧ d.latched = false
  | .complete c => d.pending c = true ∧ (c = .ttsaru → d.latched = true)

theorem PtpData.left_le (d : PtpData) : d.left ≤ 4 := by
  unfold PtpData.left
  split <;> split <;> split <;> try split
  all_goals omega

/-- The command bits and the latch are all there is to it. -/
theorem PtpData.left_congr {d d' : PtpData} (hp : ∀ c, d'.pending c = d.pending c)
    (hl : d'.latched = d.latched) : d'.left = d.left ∧ ∀ i, d.due i → d'.due i := by
  refine ⟨by simp only [PtpData.left, hp, hl], fun i hi => ?_⟩
  cases i with
  | latch => exact ⟨(hp _).trans hi.1, hl.trans hi.2⟩
  | complete c => exact ⟨(hp c).trans hi.1, fun hc => hl.trans (hi.2 hc)⟩

theorem PtpData.left_latch {d : PtpData} (hp : d.pending .ttsaru = true)
    (hl : d.latched = false) (v : BitVec 32) :
    ({ d with inForce := v, latched := true } : PtpData).left < d.left := by
  have hpending : ∀ c,
      ({ d with inForce := v, latched := true } : PtpData).pending c = d.pending c := fun _ => rfl
  simp only [PtpData.left, hpending, hp, hl, if_true, Bool.false_eq_true, if_false]
  omega

theorem PtpData.left_clear {d : PtpData} {c : PtpCmd} (hp : d.pending c = true)
    (hl : c = .ttsaru → d.latched = true) : (d.clear c).left < d.left := by
  have hlatched : (d.clear c).latched = d.latched := rfl
  cases c with
  | tssti =>
    simp only [PtpData.left, PtpData.pending_clear, hp, hlatched]
    simp
  | tsstu =>
    simp only [PtpData.left, PtpData.pending_clear, hp, hlatched]
    simp
  | ttsaru =>
    simp only [PtpData.left, PtpData.pending_clear, hp, hlatched, hl rfl]
    simp

/-- A step that is due is one less. -/
theorem PtpData.mac_due {d : PtpData} {e : MacAct} (h : d.due e) :
    ∃ d', d.mac e = some d' ∧ d'.left < d.left := by
  cases e with
  | latch => exact ⟨_, if_pos h.1, PtpData.left_latch h.1 h.2 _⟩
  | complete c =>
    obtain ⟨hp, hl⟩ := h
    cases c with
    | tssti => exact ⟨_, if_pos hp, PtpData.left_clear hp hl⟩
    | tsstu =>
      have hless : (d.clear .tsstu).left < d.left := PtpData.left_clear hp hl
      exact ⟨_, if_pos hp, hless⟩
    | ttsaru =>
      have hboth : (d.pending .ttsaru && d.latched) = true := by rw [hp, hl rfl]; rfl
      exact ⟨_, if_pos hboth, PtpData.left_clear hp hl⟩

/-- No step of the MAC is one more, and taking the addend twice changes nothing here. -/
theorem PtpData.left_mac {d d' : PtpData} {e : MacAct} (h : d.mac e = some d') :
    d'.left < d.left ∨ (d'.left = d.left ∧ ∀ i, d.due i → d'.due i) := by
  rcases PtpData.mac_cases h with ⟨hp, rfl⟩ | ⟨c, hp, hl, -, rfl⟩ | ⟨hp, rfl⟩
  · cases hl : d.latched with
    | false => exact .inl (PtpData.left_latch hp hl _)
    | true => exact .inr (PtpData.left_congr (fun _ => rfl) hl.symm)
  · exact .inl (PtpData.left_clear hp hl)
  · have hless : (d.clear .tsstu).left < d.left := PtpData.left_clear hp (by simp)
    exact .inl hless

/-- A command that is pending leaves the MAC something to do. -/
theorem PtpData.due_of_pending {d : PtpData} {c : PtpCmd} (h : d.pending c = true) :
    ∃ i, d.due i := by
  by_cases hl : c = .ttsaru → d.latched = true
  · exact ⟨.complete c, h, hl⟩
  · obtain ⟨rfl, hlatched⟩ := not_forall.mp hl
    exact ⟨.latch, h, Bool.eq_false_of_not_eq_true hlatched⟩

/-! ## What the functions wait for -/

def ETH_PTPTSCR_CMDS : BitVec 32 := ETH_PTPTSCR_TSSTI ||| ETH_PTPTSCR_TSSTU ||| ETH_PTPTSCR_TTSARU

/-- The bits of the three commands. -/
theorem PtpCmd.of_bit {i : Nat} (hi : i < 32) (h : ETH_PTPTSCR_CMDS.getLsbD i = true) :
    ∃ c : PtpCmd, c.mask = 1#32 <<< i := by
  have hbits : ∀ i < 32, ETH_PTPTSCR_CMDS.getLsbD i = true → i = 2 ∨ i = 3 ∨ i = 5 := by decide
  rcases hbits i hi h with rfl | rfl | rfl
  · exact ⟨.tssti, rfl⟩
  · exact ⟨.tsstu, rfl⟩
  · exact ⟨.ttsaru, rfl⟩

/-- A wait is for some of the three bits. -/
theorem PtpFn.wait_mask {fn : PtpFn} {m : BitVec 32} (h : .wait m ∈ fn.body) :
    m ||| ETH_PTPTSCR_CMDS = ETH_PTPTSCR_CMDS := by
  cases fn with
  | ptpInit mode =>
    cases mode with
    | PTP_UPDATE_COARSE =>
      simp only [PtpFn.body, ptpInitMode, List.cons_append, List.nil_append, List.mem_cons,
        reduceCtorEq, PtpStmt.wait.injEq, List.not_mem_nil, or_false, false_or] at h
      subst h
      decide
    | PTP_UPDATE_FINE =>
      simp only [PtpFn.body, ptpInitMode, List.cons_append, List.nil_append, List.mem_cons,
        reduceCtorEq, PtpStmt.wait.injEq, List.not_mem_nil, or_false, false_or] at h
      rcases h with rfl | rfl <;> decide
  | portPTPSetTime t =>
    simp only [PtpFn.body, List.mem_cons, reduceCtorEq, PtpStmt.wait.injEq, List.not_mem_nil,
      or_false, false_or] at h
    subst h
    decide
  | portPTPUpdateCoarse t =>
    simp only [PtpFn.body, List.mem_cons, reduceCtorEq, PtpStmt.wait.injEq, List.not_mem_nil,
      or_false, false_or] at h
    rcases h with rfl | rfl <;> decide
  | portPTPUpdateFine adj =>
    simp only [PtpFn.body, List.mem_cons, reduceCtorEq, PtpStmt.wait.injEq, List.not_mem_nil,
      or_false, false_or] at h
    subst h
    decide

/-- So a wait that goes on is for a command that is pending. -/
theorem PtpFn.pending_of_wait {fn : PtpFn} {m : BitVec 32} (h : .wait m ∈ fn.body) {d : PtpData}
    (hm : tst d.regs.ETH_PTPTSCR m = true) : ∃ c, d.pending c = true := by
  obtain ⟨i, hi, hx, hbit⟩ := (tst_iff _ m).mp hm
  have hcmds : ETH_PTPTSCR_CMDS.getLsbD i = true := by
    rw [← PtpFn.wait_mask h, BitVec.getLsbD_or, hbit, Bool.true_or]
  obtain ⟨c, hc⟩ := PtpCmd.of_bit hi hcmds
  refine ⟨c, ?_⟩
  rw [PtpData.pending, hc, tst_bit _ hi]
  exact hx

/-- The MAC sets no bit of `ETH_PTPTSCR`. -/
theorem PtpData.tst_of_mac {d d' : PtpData} {e : MacAct} (h : d.mac e = some d')
    {m : BitVec 32} (hm : tst d'.regs.ETH_PTPTSCR m = true) :
    tst d.regs.ETH_PTPTSCR m = true := by
  have hclear : ∀ c : PtpCmd, tst (d.clear c).regs.ETH_PTPTSCR m = true →
      tst d.regs.ETH_PTPTSCR m = true := by
    intro c hc
    obtain ⟨i, hi, hx, hbit⟩ := (tst_iff _ m).mp hc
    rw [PtpData.clear, BitVec.getLsbD_and, Bool.and_eq_true] at hx
    exact (tst_iff _ m).mpr ⟨i, hi, hx.1, hbit⟩
  rcases PtpData.mac_cases h with ⟨-, rfl⟩ | ⟨c, -, -, -, rfl⟩ | ⟨-, rfl⟩
  · exact hm
  · exact hclear c hm
  · exact hclear .tsstu hm

/-- Every other statement is over at once. -/
theorem PtpStmt.waits {st : PtpStmt} {d : PtpData} (h : (st.run d).2 = false) :
    ∃ m, st = .wait m ∧ tst d.regs.ETH_PTPTSCR m = true := by
  cases st with
  | wait m => exact ⟨m, rfl, by simpa [PtpStmt.run] using h⟩
  | maskTrigger | setIncrement | clearHigh | clearLow | writeSign | writeSec | writeSubsec
  | writeAddend | saveAddend | restoreAddend | readScr | setScr | clearScr => cases h

/-! ## The functions return -/

/-- The statements of the functions. -/
def PtpStmt.OfFn (st : PtpStmt) : Prop := ∃ fn : PtpFn, st ∈ fn.body

/-- The parties are the task and the single things the MAC does. -/
def ptpTurn : PtpAct → Option MacAct → Prop := turn fun e i => e = i

theorem ptp_ends :
    Ends PtpStmt.run (fun e d => d.mac e) (fun e i => e = i) PtpStmt.OfFn 4 PtpData.left
      PtpData.due where
  pend_le := PtpData.left_le
  lower _ _ _ h := PtpData.left_mac h
  ready := by
    intro _ e d d' h hover
    by_contra hwait
    obtain ⟨m, rfl, hm⟩ := PtpStmt.waits (Bool.eq_false_of_not_eq_true hwait)
    have hset := PtpData.tst_of_mac h hm
    simp [PtpStmt.run, hset] at hover
  wait := by
    rintro st d ⟨fn, hst⟩ hover
    obtain ⟨m, rfl, hm⟩ := PtpStmt.waits hover
    obtain ⟨c, hc⟩ := PtpFn.pending_of_wait hst hm
    exact ⟨PtpData.due_of_pending hc, PtpData.left_congr (fun _ => rfl) rfl⟩
  acts := by
    rintro e d i hi rfl
    exact PtpData.mac_due hi

theorem PtpSys.ofFn {s : PtpSys} (h : InBody PtpFn.body s) : MadeOf PtpStmt.OfFn s :=
  fun fn p hrun _ hst => ⟨fn, (h fn p hrun).subset hst⟩

/-- **The busy waits end.** In every state that a run of calls and MAC steps reaches, every
    schedule of the task and of the MAC that passes over none of them for ever brings the
    running function to its end. -/
theorem ptp_returns (mode : PtpMode) (as : List PtpAct) (s : PtpSys)
    (hrun : exec ptpStep (PtpSys.init mode) as = some s) (sched : Nat → PtpAct)
    (hfair : Fair ptpTurn sched) : ∃ n, (follow ptpStep s sched n).running = none := by
  have h₀ : InBody PtpFn.body (PtpSys.init mode) := by
    intro fn p hrun
    cases hrun
    exact List.suffix_refl _
  have hbody := exec_invariant h₀ (fun s a t hs hstep => inBody_step hs hstep) hrun
  exact returns ptp_ends (PtpSys.ofFn hbody) hfair

/-! ## One schedule -/

/-- The task and the MAC, by turns. -/
def ptpByTurns (n : Nat) : PtpAct :=
  match n % 5 with
  | 0 => .cpu
  | 1 => .env .latch
  | 2 => .env (.complete .tssti)
  | 3 => .env (.complete .tsstu)
  | _ => .env (.complete .ttsaru)

theorem fair_ptpByTurns : Fair ptpTurn ptpByTurns := by
  have hslot : ∀ n k, k < 5 → ptpByTurns (5 * n + k) = ptpByTurns k := by
    intro n k hk
    rw [ptpByTurns, Nat.mul_add_mod, ptpByTurns]
  intro i n
  cases i with
  | none => exact ⟨5 * n, by omega, by rw [← Nat.add_zero (5 * n), hslot n 0 (by decide)]; trivial⟩
  | some e =>
    cases e with
    | latch => exact ⟨5 * n + 1, by omega, by rw [hslot n 1 (by decide)]; rfl⟩
    | complete c =>
      cases c with
      | tssti => exact ⟨5 * n + 2, by omega, by rw [hslot n 2 (by decide)]; rfl⟩
      | tsstu => exact ⟨5 * n + 3, by omega, by rw [hslot n 3 (by decide)]; rfl⟩
      | ttsaru => exact ⟨5 * n + 4, by omega, by rw [hslot n 4 (by decide)]; rfl⟩

/-- A coarse update that has to wait for the addend of the fine update before it. -/
theorem ptp_returns_coarse :
    ∃ s, exec ptpStep (PtpSys.init .PTP_UPDATE_FINE)
        (List.flatten [ptpBoot, [.call (.portPTPUpdateFine 0#32)], List.replicate 5 .cpu,
          [.call (.portPTPUpdateCoarse { tv_sec := 0#32, tv_nsec := 7#32 }), .cpu, .cpu]]) =
        some s ∧
      (s.data.pending .ttsaru = true ∧ s.running.isSome = true) ∧
      ∃ n, (follow ptpStep s ptpByTurns n).running = none := by
  apply exists_exec (fun s => s.data.pending .ttsaru && s.running.isSome) (by decide +kernel)
  intro s hrun hs
  exact ⟨Bool.and_eq_true_iff.mp hs, ptp_returns _ _ s hrun ptpByTurns fair_ptpByTurns⟩

end EthernetIf

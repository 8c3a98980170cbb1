import EthernetIf.Lib.Outline
import EthernetIf.Ptp.Addend
import EthernetIf.Ptp.Time

/-!
# The PTP functions, register access by register access

Each function is the list of its register accesses, in the order of the source, and the machine
that runs them is the one of `Lib/Outline`: one task calls the functions, and the MAC takes
steps in between. A read-modify-write of `ETH_PTPTSCR` is **two** accesses — the MAC can clear
a command bit after the read and before the write, and the write then sets it again.

The MAC has three commands. Software sets a command's bit, and the MAC clears it when the
command is done: `TSSTI` loads the time from the update registers, `TSSTU` adds them to it and
clears `ETH_PTPTSAR`, `TTSARU` takes the addend from `ETH_PTPTSAR` at some moment before it is
done.
-/

namespace EthernetIf

open Lts Outline

/-! ## Bits -/

-- PTPTSCR
def ETH_PTPTSCR_TSE : BitVec 32 := 1#32 <<< 0
def ETH_PTPTSCR_TSFCU : BitVec 32 := 1#32 <<< 1
def ETH_PTPTSCR_TSSTI : BitVec 32 := 1#32 <<< 2
def ETH_PTPTSCR_TSSTU : BitVec 32 := 1#32 <<< 3
def ETH_PTPTSCR_TTSARU : BitVec 32 := 1#32 <<< 5
def ETH_PTPTSCR_TSSARFE : BitVec 32 := 1#32 <<< 8
def ETH_PTPTSCR_TSSIPV6FE : BitVec 32 := 1#32 <<< 12
def ETH_PTPTSCR_TSSIPV4FE : BitVec 32 := 1#32 <<< 13

-- the masks ptp_init uses beside them
def ETH_MACIMR_TSTIM : BitVec 32 := 1#32 <<< 9
def ETH_PTPSSIR_STSSI : BitVec 32 := 0xff#32
def ADJ_FREQ_BASE_INCREMENT : BitVec 32 := 43#32

/-- The commands. -/
inductive PtpCmd
  | tssti  -- initialise the time
  | tsstu  -- update the time
  | ttsaru -- update the addend
deriving DecidableEq, Repr

def PtpCmd.mask : PtpCmd → BitVec 32
  | .tssti => ETH_PTPTSCR_TSSTI
  | .tsstu => ETH_PTPTSCR_TSSTU
  | .ttsaru => ETH_PTPTSCR_TTSARU

/-! ## The functions -/

/-- The register accesses. -/
inductive PtpStmt
  | maskTrigger              -- ETH_MACIMR |= ETH_MACIMR_TSTIM;
  | setIncrement             -- ETH_PTPSSIR = ETH_PTPSSIR_STSSI & ADJ_FREQ_BASE_INCREMENT;
  | clearHigh                -- ETH_PTPTSHUR = 0;
  | clearLow                 -- ETH_PTPTSLUR = 0;
  | writeSign (t : PtpTime)  -- ETH_PTPTSLUR = ETH_PTPTSLUR_TSUPNS or 0;
  | writeSec (t : PtpTime)   -- ETH_PTPTSHUR = …;
  | writeSubsec (t : PtpTime)          -- ETH_PTPTSLUR |= …;
  | writeAddend (addend : BitVec 32)   -- ETH_PTPTSAR = …;
  | saveAddend               -- u32_t addend = ETH_PTPTSAR;
  | restoreAddend            -- ETH_PTPTSAR = addend;
  | readScr                  -- the read of ETH_PTPTSCR |= … or &= …
  | setScr (m : BitVec 32)   -- its write, with the bits of m set
  | clearScr (m : BitVec 32) -- its write, with the bits of m cleared
  | wait (m : BitVec 32)     -- while(ETH_PTPTSCR & m);
deriving DecidableEq, Repr

/-- `mode`, the parameter of `ptp_init`. -/
inductive PtpMode
  | PTP_UPDATE_COARSE
  | PTP_UPDATE_FINE
deriving DecidableEq, Repr

inductive PtpFn
  | ptpInit (mode : PtpMode)
  | portPTPSetTime (timestamp : PtpTime)
  | portPTPUpdateCoarse (timestamp : PtpTime)
  | portPTPUpdateFine (adj : BitVec 32)
deriving DecidableEq, Repr

/-- `ptp_init` runs once, at start-up. The others are the interface. -/
def PtpFn.isPort : PtpFn → Bool
  | .ptpInit _ => false
  | _ => true

/-- The commands a function is there to issue. -/
def PtpFn.issues : PtpFn → List PtpCmd
  | .ptpInit _ => [.ttsaru, .tssti]
  | .portPTPSetTime _ => [.tssti]
  | .portPTPUpdateCoarse _ => [.tsstu, .ttsaru]
  | .portPTPUpdateFine _ => [.ttsaru]

/-- The branch on `mode` in `ptp_init`. The `printf` of the addend there only reads it. -/
def ptpInitMode : PtpMode → List PtpStmt
  | .PTP_UPDATE_FINE =>
      [.writeAddend ptpInitAddend,
       .readScr, .setScr ETH_PTPTSCR_TTSARU, .wait ETH_PTPTSCR_TTSARU,
       .readScr, .setScr ETH_PTPTSCR_TSFCU]
  | .PTP_UPDATE_COARSE =>
      [.readScr, .clearScr ETH_PTPTSCR_TSFCU]

def PtpFn.body : PtpFn → List PtpStmt
  | .ptpInit mode =>
      [.maskTrigger,
       .readScr,
       .setScr (ETH_PTPTSCR_TSE ||| ETH_PTPTSCR_TSSIPV4FE ||| ETH_PTPTSCR_TSSIPV6FE |||
         ETH_PTPTSCR_TSSARFE),
       .setIncrement] ++
      (ptpInitMode mode ++
      [.clearHigh, .clearLow,
       .readScr, .setScr ETH_PTPTSCR_TSSTI, .wait ETH_PTPTSCR_TSSTI])
  | .portPTPSetTime timestamp =>
      [.writeSign timestamp, .writeSec timestamp, .writeSubsec timestamp,
       .readScr, .setScr ETH_PTPTSCR_TSSTI, .wait ETH_PTPTSCR_TSSTI]
  | .portPTPUpdateCoarse timestamp =>
      [.saveAddend,
       .wait (ETH_PTPTSCR_TSSTI ||| ETH_PTPTSCR_TSSTU ||| ETH_PTPTSCR_TTSARU),
       .writeSign timestamp, .writeSec timestamp, .writeSubsec timestamp,
       .readScr, .setScr ETH_PTPTSCR_TSSTU, .wait ETH_PTPTSCR_TSSTU,
       .restoreAddend,
       .readScr, .setScr ETH_PTPTSCR_TTSARU]
  | .portPTPUpdateFine adj =>
      [.writeAddend (updateFineAddend adj),
       .wait ETH_PTPTSCR_TTSARU,
       .readScr, .setScr ETH_PTPTSCR_TTSARU]

/-! ## The machine -/

/-- The registers and what is behind them, the local variables of the running call, and two
    things no code reads: `seenZero` has the command bits that were read as zero after they
    were last set, and `want` is the addend last computed. -/
structure PtpData where
  regs : PtpRegs
  inForce : BitVec 32   -- the addend the MAC counts with
  latched : Bool        -- the running TTSARU has taken ETH_PTPTSAR
  scr : BitVec 32       -- what the running read-modify-write has read
  addend : BitVec 32    -- portPTPUpdateCoarse's local variable
  seenZero : BitVec 32
  want : BitVec 32
deriving DecidableEq, Repr

/-- The bit of a command is set. -/
def PtpData.pending (d : PtpData) (c : PtpCmd) : Bool := tst d.regs.ETH_PTPTSCR c.mask

/-- A read of `ETH_PTPTSCR`, as far as the MAC is concerned. -/
def PtpData.look (d : PtpData) : PtpData :=
  { d with seenZero := d.seenZero ||| ~~~d.regs.ETH_PTPTSCR }

/-- A write of `ETH_PTPTSCR`. An addend update that was not under way begins anew. -/
def PtpData.writeScr (d : PtpData) (w : BitVec 32) : PtpData :=
  { d with
    regs := { d.regs with ETH_PTPTSCR := w }
    latched := d.latched && d.pending .ttsaru
    seenZero := d.seenZero &&& ~~~w }

/-- One access. The second component says whether the statement is over. -/
def PtpStmt.run (st : PtpStmt) (d : PtpData) : PtpData × Bool :=
  match st with
  | .maskTrigger =>
      ({ d with regs.ETH_MACIMR := d.regs.ETH_MACIMR ||| ETH_MACIMR_TSTIM }, true)
  | .setIncrement =>
      ({ d with regs.ETH_PTPSSIR := ETH_PTPSSIR_STSSI &&& ADJ_FREQ_BASE_INCREMENT }, true)
  | .clearHigh => ({ d with regs.ETH_PTPTSHUR := 0#32 }, true)
  | .clearLow => ({ d with regs.ETH_PTPTSLUR := 0#32 }, true)
  | .writeSign t => ({ d with regs := d.regs.writeSign t }, true)
  | .writeSec t => ({ d with regs := d.regs.writeSec t }, true)
  | .writeSubsec t => ({ d with regs := d.regs.writeSubsec t }, true)
  | .writeAddend v => ({ d with regs.ETH_PTPTSAR := v, want := v }, true)
  | .saveAddend => ({ d with addend := d.regs.ETH_PTPTSAR }, true)
  | .restoreAddend => ({ d with regs.ETH_PTPTSAR := d.addend }, true)
  | .readScr => ({ d.look with scr := d.regs.ETH_PTPTSCR }, true)
  | .setScr m => (d.writeScr (d.scr ||| m), true)
  | .clearScr m => (d.writeScr (d.scr &&& ~~~m), true)
  | .wait m => (d.look, !tst d.regs.ETH_PTPTSCR m)

/-- What the MAC does by itself. -/
inductive MacAct
  | latch                  -- a pending TTSARU takes ETH_PTPTSAR
  | complete (c : PtpCmd)  -- a pending command is done
deriving DecidableEq, Repr

def PtpData.clear (d : PtpData) (c : PtpCmd) : PtpData :=
  { d with regs.ETH_PTPTSCR := d.regs.ETH_PTPTSCR &&& ~~~c.mask }

def PtpData.mac (d : PtpData) : MacAct → Option PtpData
  | .latch =>
      if d.pending .ttsaru then some { d with inForce := d.regs.ETH_PTPTSAR, latched := true }
      else none
  | .complete .tssti => if d.pending .tssti then some (d.clear .tssti) else none
  | .complete .tsstu =>
      -- coarse update clears the addend
      if d.pending .tsstu then some { d.clear .tsstu with regs.ETH_PTPTSAR := 0#32 } else none
  | .complete .ttsaru => if d.pending .ttsaru && d.latched then some (d.clear .ttsaru) else none

abbrev PtpSys := Sys PtpData PtpStmt PtpFn

abbrev PtpAct := Outline.Act PtpFn MacAct

def ptpStep : PtpSys → PtpAct → Option PtpSys :=
  Outline.step PtpFn.isPort PtpFn.body PtpStmt.run fun e d => d.mac e

/-- After a reset of the MAC, with `ptp_init` about to run. -/
def PtpSys.init (mode : PtpMode) : PtpSys :=
  { data :=
      { regs := PtpRegs.reset, inForce := 0#32, latched := false, scr := 0#32, addend := 0#32,
        seenZero := 0#32, want := 0#32 }
    running := some (.ptpInit mode, (PtpFn.ptpInit mode).body) }

/-- One way through `ptp_init`: the MAC is done with each command at once. -/
def ptpBoot : List PtpAct :=
  List.replicate 7 .cpu ++ [.env .latch, .env (.complete .ttsaru)] ++
    List.replicate 7 .cpu ++ [.env (.complete .tssti), .cpu, .cpu]

/-! ## Command bits -/

theorem PtpCmd.mask_eq (c : PtpCmd) : ∃ i < 32, c.mask = 1#32 <<< i := by
  cases c with
  | tssti => exact ⟨2, by decide, rfl⟩
  | tsstu => exact ⟨3, by decide, rfl⟩
  | ttsaru => exact ⟨5, by decide, rfl⟩

theorem PtpCmd.tst_not (c : PtpCmd) (x : BitVec 32) : tst (~~~x) c.mask = !tst x c.mask := by
  obtain ⟨i, hi, hc⟩ := c.mask_eq
  rw [hc, tst_bit _ hi, tst_bit _ hi, BitVec.getLsbD_not]
  simp [hi]

theorem PtpCmd.tst_and (c : PtpCmd) (x y : BitVec 32) :
    tst (x &&& y) c.mask = (tst x c.mask && tst y c.mask) := by
  obtain ⟨i, hi, hc⟩ := c.mask_eq
  rw [hc, tst_bit _ hi, tst_bit _ hi, tst_bit _ hi, BitVec.getLsbD_and]

theorem PtpCmd.tst_mask (c c' : PtpCmd) : tst c.mask c'.mask = decide (c = c') := by
  cases c <;> cases c' <;> decide

/-- A mask that reads as zero reads as zero at each of its bits. -/
theorem PtpCmd.tst_of_wait {c : PtpCmd} {x m : BitVec 32} (h : tst x m = false)
    (hc : tst m c.mask = true) : tst x c.mask = false := by
  obtain ⟨i, hi, hbit⟩ := c.mask_eq
  rw [hbit, tst_bit _ hi] at hc ⊢
  by_contra hx
  rw [Bool.not_eq_false] at hx
  exact absurd ((tst_iff x m).mpr ⟨i, hi, hx, hc⟩) (by simp [h])

/-! ## What the MAC can do -/

theorem PtpData.pending_clear (d : PtpData) (c c' : PtpCmd) :
    (d.clear c).pending c' = (d.pending c' && !decide (c = c')) := by
  rw [PtpData.pending, PtpData.clear, PtpCmd.tst_and, PtpCmd.tst_not, PtpCmd.tst_mask]
  rfl

/-- The MAC takes the addend, or clears the bit of a command that was pending. -/
theorem PtpData.mac_cases {d d' : PtpData} {e : MacAct} (h : d.mac e = some d') :
    (d.pending .ttsaru = true ∧ d' = { d with inForce := d.regs.ETH_PTPTSAR, latched := true }) ∨
    (∃ c, d.pending c = true ∧ (c = .ttsaru → d.latched = true) ∧ c ≠ .tsstu ∧ d' = d.clear c) ∨
    (d.pending .tsstu = true ∧ d' = { d.clear .tsstu with regs.ETH_PTPTSAR := 0#32 }) := by
  cases e with
  | latch =>
    obtain ⟨hp, heq⟩ := Option.ite_none_right_eq_some.mp h
    cases heq
    exact .inl ⟨hp, rfl⟩
  | complete c =>
    cases c with
    | tssti =>
      obtain ⟨hp, heq⟩ := Option.ite_none_right_eq_some.mp h
      cases heq
      exact .inr (.inl ⟨.tssti, hp, by simp, by simp, rfl⟩)
    | tsstu =>
      obtain ⟨hp, heq⟩ := Option.ite_none_right_eq_some.mp h
      cases heq
      exact .inr (.inr ⟨hp, rfl⟩)
    | ttsaru =>
      obtain ⟨hp, heq⟩ := Option.ite_none_right_eq_some.mp h
      rw [Bool.and_eq_true] at hp
      cases heq
      exact .inr (.inl ⟨.ttsaru, hp.1, fun _ => hp.2, by simp, rfl⟩)

/-- No command becomes pending by itself. -/
theorem PtpData.pending_of_mac {d d' : PtpData} {e : MacAct} (h : d.mac e = some d')
    {c : PtpCmd} (hc : d'.pending c = true) : d.pending c = true := by
  rcases PtpData.mac_cases h with ⟨-, rfl⟩ | ⟨c', -, -, -, rfl⟩ | ⟨-, rfl⟩
  · exact hc
  · rw [PtpData.pending_clear, Bool.and_eq_true] at hc
    exact hc.1
  · have hclear : (d.clear .tsstu).pending c = true := hc
    rw [PtpData.pending_clear, Bool.and_eq_true] at hclear
    exact hclear.1

theorem PtpData.scr_of_mac {d d' : PtpData} {e : MacAct} (h : d.mac e = some d') :
    d'.scr = d.scr ∧ d'.seenZero = d.seenZero := by
  rcases PtpData.mac_cases h with ⟨-, rfl⟩ | ⟨c', -, -, -, rfl⟩ | ⟨-, rfl⟩
  · exact ⟨rfl, rfl⟩
  · exact ⟨rfl, rfl⟩
  · exact ⟨rfl, rfl⟩

end EthernetIf

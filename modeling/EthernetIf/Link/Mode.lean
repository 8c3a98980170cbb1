import EthernetIf.Link.Services

/-!
# The MAC runs in the mode of the PHY

`phy_negotiate` asks for the mode once, after a change of the reading, and the mode can change
at any time after — and before, and while it waits. What makes the answer good is the latch.
The mode changes only while the link is down, and a link that has been down leaves `low` set
until the next read; so

> `low = false` means that nothing has happened since the last read, and a mode that was asked
> for since then is still the mode.

`ModeAt` carries that, statement by statement, under the premise `s.chip.low = false`: no step
of the chip can end such an assertion (`PhyChip.act_trusted`). When the next poll reads the
link as up, the premise is discharged for all the time back to the last read.
-/

namespace EthernetIf

open Lts Signal

/-! ## The bits of the mode -/

/-- The bits of `ETH_MACCR` that `phy_negotiate` writes. -/
def modeMask : BitVec 32 := ETH_MACCR_DM ||| ETH_MACCR_FES

theorem PhyMode.maccr_and_mask (m : PhyMode) : m.maccr &&& modeMask = m.maccr := by
  obtain ⟨sp, fd⟩ := m
  cases sp <;> cases fd <;> rfl

theorem PhyMode.maccr_and_not_mask (m : PhyMode) : m.maccr &&& ~~~modeMask = 0#32 := by
  obtain ⟨sp, fd⟩ := m
  cases sp <;> cases fd <;> rfl

/-- Writing a mode over another: its bits are there, -/
theorem PhyMode.update_and_mask (m : PhyMode) (x : BitVec 32) :
    (x &&& ~~~modeMask ||| m.maccr) &&& modeMask = m.maccr := by
  rw [BitVec.and_or_distrib_right, m.maccr_and_mask, BitVec.and_assoc, BitVec.not_and_self]
  simp

/-- and the other bits are as they were. -/
theorem PhyMode.update_and_not_mask (m : PhyMode) (x : BitVec 32) :
    (x &&& ~~~modeMask ||| m.maccr) &&& ~~~modeMask = x &&& ~~~modeMask := by
  rw [BitVec.and_or_distrib_right, m.maccr_and_not_mask, BitVec.and_assoc, BitVec.and_self]
  simp

/-- The switch of `phy_negotiate` takes each code to its mode. -/
theorem LinkState.negotiateSwitch_eq {m : PhyMode} {status : BitVec 32} (regval : BitVec 32)
    (h : status &&& LAN87XX_SCSR_SPEED = m.speed) :
    negotiateSwitch status regval = regval ||| m.maccr := by
  unfold negotiateSwitch
  rw [h]
  obtain ⟨sp, fd⟩ := m
  cases sp with
  | false =>
    cases fd with
    | false => exact (BitVec.or_zero).symm
    | true => rfl
  | true =>
    cases fd with
    | false => rfl
    | true => exact BitVec.or_assoc _ _ _

/-! ## The latch -/

/-- While the latch is not set, nothing has happened. -/
theorem PhyChip.act_trusted {c c' : PhyChip} {a : PhyChip.Act} (h : c.act a = some c')
    (hlow : c'.low = false) : c.low = false ∧ c'.mode = c.mode := by
  cases a with
  | drop =>
    cases h
    cases hlow
  | negotiate m =>
    obtain ⟨hlink, heq⟩ := Option.ite_none_left_eq_some.mp h
    cases heq
    have hset := c.latched (by simpa using hlink)
    rw [hset] at hlow
    cases hlow
  | recover =>
    cases h
    exact ⟨hlow, rfl⟩

/-- The mode the status register reports is one of the four, and is the mode the PHY is in
    unless the latch is set. -/
theorem PhyChip.Reports.mode {c : PhyChip} {status : BitVec 32} (h : c.Reports status) :
    ∃ m : PhyMode, status &&& LAN87XX_SCSR_SPEED = m.speed ∧ (c.low = false → m = c.mode) := by
  obtain ⟨⟨sp, fd, hspeed⟩, hlink⟩ := h
  cases hl : c.link with
  | true => exact ⟨c.mode, hlink hl, fun _ => rfl⟩
  | false => exact ⟨⟨sp, fd⟩, hspeed, fun hlow => absurd (c.latched hl) (by simp [hlow])⟩

/-! ## The outline -/

/-- **The assertion at a statement.** From the read of `ETH_MACCR` to its write, `regval` is
    that register without its mode, and then with the mode that was reported. -/
def ModeAt (s : LinkState) : PhyStmt → Prop
  | .start | .reset => s.readings = []
  | .poll | .delay | .unlock =>
      s.linkStatus = true → s.chip.low = false → s.ETH_MACCR &&& modeMask = s.chip.mode.maccr
  | .toggle | .lock | .setLink => True
  | .callback .test | .callback (.negotiate .readMaccr) => True
  | .callback (.negotiate .writeBcr) | .callback (.negotiate .waitDone) =>
      s.regval = s.ETH_MACCR &&& ~~~modeMask
  | .callback (.negotiate .switch) =>
      s.regval = s.ETH_MACCR &&& ~~~modeMask ∧
        ∃ m : PhyMode, s.status &&& LAN87XX_SCSR_SPEED = m.speed ∧
          (s.chip.low = false → m = s.chip.mode)
  | .callback (.negotiate .writeMaccr) =>
      ∃ m : PhyMode, s.regval = s.ETH_MACCR &&& ~~~modeMask ||| m.maccr ∧
        (s.chip.low = false → m = s.chip.mode)
  | .callback .setUp | .callback .dhcpStart | .callback .igmpStart =>
      s.chip.low = false → s.ETH_MACCR &&& modeMask = s.chip.mode.maccr
  | .callback .setDown | .callback .dhcpStop | .callback .igmpStop => True

/-- The same chip, or one that has set its latch. -/
def Trusts (c c' : PhyChip) : Prop := c'.low = false → c.low = false ∧ c'.mode = c.mode

theorem Trusts.refl (c : PhyChip) : Trusts c c := fun hlow => ⟨hlow, rfl⟩

/-- No step of the chip ends an assertion. -/
theorem ModeAt.frame {s t : LinkState} {st : PhyStmt} (h : ModeAt s st)
    (hchip : Trusts s.chip t.chip) (hls : t.linkStatus = s.linkStatus)
    (hrs : t.readings = s.readings) (hregval : t.regval = s.regval)
    (hstatus : t.status = s.status) (hmaccr : t.ETH_MACCR = s.ETH_MACCR) : ModeAt t st := by
  cases st with
  | start | reset => exact hrs.trans h
  | poll | delay | unlock =>
    intro hup hlow
    obtain ⟨hlow, hmode⟩ := hchip hlow
    rw [hmaccr, hmode]
    exact h (hls ▸ hup) hlow
  | toggle | lock | setLink => trivial
  | callback c =>
    cases c with
    | test | setDown | dhcpStop | igmpStop => trivial
    | setUp | dhcpStart | igmpStart =>
      intro hlow
      obtain ⟨hlow, hmode⟩ := hchip hlow
      rw [hmaccr, hmode]
      exact h hlow
    | negotiate n =>
      cases n with
      | readMaccr => trivial
      | writeBcr | waitDone =>
        show t.regval = t.ETH_MACCR &&& ~~~modeMask
        rw [hregval, hmaccr]
        exact h
      | switch =>
        obtain ⟨hreg, m, hspeed, hm⟩ := h
        refine ⟨?_, m, hstatus ▸ hspeed, fun hlow => ?_⟩
        · rw [hregval, hmaccr]
          exact hreg
        · obtain ⟨hlow, hmode⟩ := hchip hlow
          rw [hmode]
          exact hm hlow
      | writeMaccr =>
        obtain ⟨m, hreg, hm⟩ := h
        refine ⟨m, ?_, fun hlow => ?_⟩
        · rw [hregval, hmaccr]
          exact hreg
        · obtain ⟨hlow, hmode⟩ := hchip hlow
          rw [hmode]
          exact hm hlow

/-- A statement of `phy_negotiate`: the mode the switch reads is the mode `ETH_MACCR` gets. -/
theorem ModeAt.phyNegotiate {s t : LinkState} {n : NegStmt}
    (h : ModeAt s (.callback (.negotiate n))) (hstep : s.phyNegotiate n = some t) :
    ∀ st', t.phy = some st' → ModeAt t st' := by
  intro st' hst'
  cases n with
  | readMaccr =>
    cases hstep
    cases hst'
    rfl
  | writeBcr =>
    cases hstep
    cases hst'
    exact h
  | waitDone => cases hstep
  | switch =>
    cases hstep
    cases hst'
    obtain ⟨hreg, m, hspeed, hm⟩ := h
    refine ⟨m, ?_, hm⟩
    show LinkState.negotiateSwitch s.status s.regval = _
    rw [LinkState.negotiateSwitch_eq _ hspeed, hreg]
    rfl
  | writeMaccr =>
    cases hstep
    cases hst'
    obtain ⟨m, hreg, hm⟩ := h
    intro hlow
    show s.regval &&& modeMask = s.chip.mode.maccr
    rw [hreg, m.update_and_mask, hm hlow]

/-- A statement of `ethernetif_link_callback`. -/
theorem ModeAt.linkCallback {s t : LinkState} {c : CbStmt} (h : ModeAt s (.callback c))
    (hinv : PhyInv (.callback c) s) (hstep : s.linkCallback c = some t) :
    ∀ st', t.phy = some st' → ModeAt t st' := by
  intro st' hst'
  cases c with
  | test =>
    cases hstep
    cases hst'
    split
    · trivial
    · trivial
  | negotiate n => exact ModeAt.phyNegotiate h hstep st' hst'
  | setUp | dhcpStart =>
    simp only [LinkState.linkCallback] at hstep
    obtain rfl := LinkState.of_netifapi hstep
    cases hst'
    exact h
  | igmpStart =>
    simp only [LinkState.linkCallback] at hstep
    obtain rfl := LinkState.of_netifapi hstep
    cases hst'
    intro _
    exact h
  | setDown | dhcpStop =>
    simp only [LinkState.linkCallback] at hstep
    obtain rfl := LinkState.of_netifapi hstep
    cases hst'
    trivial
  | igmpStop =>
    simp only [LinkState.linkCallback] at hstep
    obtain rfl := LinkState.of_netifapi hstep
    cases hst'
    -- this branch was taken because the link is down
    intro hup
    have hdown := (hinv.linkStatus_eq (by simp) rfl).trans (hinv.branch false rfl)
    exact absurd (hup.symm.trans hdown) (by simp)

/-- **A statement** of `ethernetif_phy`, from its assertion to the next one. -/
theorem ModeAt.ethernetifPhy {s t : LinkState} {st : PhyStmt} (h : ModeAt s st)
    (hlock : LockInv s) (hphy : s.phy = some st) (hinv : PhyInv st s)
    (hstep : s.ethernetifPhy st = some t) : ∀ st', t.phy = some st' → ModeAt t st' := by
  intro st' hst'
  cases st with
  | start =>
    cases hstep
    cases hst'
    exact h
  | reset =>
    cases hstep
    cases hst'
    intro hup
    have hdown : s.linkStatus = level false s.readings := hinv.linkStatus_eq (by simp) rfl
    rw [show s.readings = [] from h] at hdown
    exact absurd (hup.symm.trans hdown) (by simp)
  | poll =>
    cases hstep
    cases hst'
    split
    next => trivial
    next hsame =>
      -- a reading that is up finds the latch not set, and does not set it
      intro hup hlow
      have hisup : s.chip.isup = true := by rw [← not_ne_iff.mp hsame, ← hup]; rfl
      have htrust : s.chip.low = false := by simpa [PhyChip.isup] using hisup
      exact h hup htrust
  | toggle =>
    cases hstep
    cases hst'
    trivial
  | lock =>
    obtain ⟨l, -, rfl⟩ := Option.map_eq_some_iff.mp hstep
    cases hst'
    trivial
  | setLink =>
    simp only [LinkState.ethernetifPhy, hinv.netifSetLink_eq (hlock.callbacks hphy rfl).2] at hstep
    cases hstep
    cases hst'
    trivial
  | unlock =>
    obtain ⟨l, -, rfl⟩ := Option.map_eq_some_iff.mp hstep
    cases hst'
    exact h
  | delay =>
    cases hstep
    cases hst'
    exact h
  | callback c => exact ModeAt.linkCallback h hinv hstep st' hst'

/-! ## Every run -/

/-- The assertion where the task is; and until `portEthInit` is over, the link callback has
    not run. -/
structure ModeInv (s : LinkState) : Prop where
  early : s.main ≠ .done → s.calls = []
  modeAt : ∀ st, s.phy = some st → ModeAt s st

/-- While `portEthInit` writes `ETH_MACCR`, no link has been reported up. -/
theorem ModeInv.down {s : LinkState} {st : PhyStmt} (h : ModeInv s) (hmain : s.main ≠ .done)
    (hinv : PhyInv st s) (hlink : st.linkBehind = false) (hst : st ≠ .start) :
    s.linkStatus = false := by
  have hbehind : st.statusBehind = false := by
    cases st with
    | toggle => cases hlink
    | _ => rfl
  have hcalls := hinv.calls
  rw [hlink, h.early hmain] at hcalls
  rw [hinv.linkStatus_eq hst hbehind, ← hcalls.level_eq]
  rfl

theorem ModeInv.portEthInit {s t : LinkState} (h : ModeInv s) (hlock : LockInv s)
    (hfollow : FollowInv s) (hstep : s.portEthInit = some t) : ModeInv t := by
  have hnotDone : s.main ≠ .done := by
    intro hmain
    simp [LinkState.portEthInit, hmain] at hstep
  cases hmain : s.main with
  | done => exact absurd hmain hnotDone
  | macInit =>
    simp only [LinkState.portEthInit, hmain] at hstep
    cases hstep
    have hnone := hlock.beforePhy (by rw [hmain]; rfl)
    exact ⟨fun _ => h.early hnotDone, fun st hst => by simp [hnone] at hst⟩
  | createPhy =>
    simp only [LinkState.portEthInit, hmain] at hstep
    cases hstep
    refine ⟨fun _ => h.early hnotDone, fun st hst => ?_⟩
    cases hst
    exact (hfollow.fresh (hlock.beforePhy (by rw [hmain]; rfl))).readings
  | startWrite m maccr =>
    simp only [LinkState.portEthInit, hmain] at hstep
    cases hstep
    refine ⟨fun _ => h.early hnotDone, fun st hst => ?_⟩
    have hat := h.modeAt st hst
    have hinv := hfollow.at hst
    cases hin : st.inLock with
    | true => exact absurd (hlock.main_done hst hin) hnotDone
    | false =>
      cases st with
      | start | reset => exact hat
      | poll | delay =>
        intro hup
        have hdown := h.down hnotDone hinv rfl (by simp)
        exact absurd (hup.symm.trans hdown) (by simp)
      | toggle | lock => trivial
      | setLink | callback c | unlock => cases hin
  | lock | unlock =>
    simp only [LinkState.portEthInit, hmain] at hstep
    obtain ⟨l, -, rfl⟩ := Option.map_eq_some_iff.mp hstep
    exact ⟨fun _ => h.early hnotDone,
      fun st hst => (h.modeAt st hst).frame (.refl _) rfl rfl rfl rfl rfl⟩
  | netInit | startRead m | setDefault | setStatusCallback | setLinkCallback =>
    simp only [LinkState.portEthInit, hmain] at hstep
    cases hstep
    exact ⟨fun _ => h.early hnotDone,
      fun st hst => (h.modeAt st hst).frame (.refl _) rfl rfl rfl rfl rfl⟩

/-- What a statement of `ethernetif_phy` leaves alone. -/
theorem LinkState.ethernetifPhy_frame {s t : LinkState} {st : PhyStmt}
    (hstep : s.ethernetifPhy st = some t) :
    t.main = s.main ∧ (st ≠ .setLink → t.calls = s.calls) ∧
      (st ≠ .poll → t.readings = s.readings ∧ t.chip = s.chip) ∧
      (st ≠ .callback (.negotiate .writeMaccr) → t.ETH_MACCR = s.ETH_MACCR) := by
  cases st with
  | start | reset | toggle | delay =>
    cases hstep
    exact ⟨rfl, fun _ => rfl, fun _ => ⟨rfl, rfl⟩, fun _ => rfl⟩
  | poll =>
    cases hstep
    exact ⟨rfl, fun _ => rfl, fun h => absurd rfl h, fun _ => rfl⟩
  | lock | unlock =>
    obtain ⟨l, -, rfl⟩ := Option.map_eq_some_iff.mp hstep
    exact ⟨rfl, fun _ => rfl, fun _ => ⟨rfl, rfl⟩, fun _ => rfl⟩
  | setLink =>
    cases hstep
    unfold LinkState.netifSetLink
    split
    next => exact ⟨rfl, fun _ => rfl, fun _ => ⟨rfl, rfl⟩, fun _ => rfl⟩
    next =>
      split
      next => exact ⟨rfl, fun h => absurd rfl h, fun _ => ⟨rfl, rfl⟩, fun _ => rfl⟩
      next => exact ⟨rfl, fun _ => rfl, fun _ => ⟨rfl, rfl⟩, fun _ => rfl⟩
  | callback c =>
    cases c with
    | test =>
      cases hstep
      exact ⟨rfl, fun _ => rfl, fun _ => ⟨rfl, rfl⟩, fun _ => rfl⟩
    | negotiate n =>
      cases n with
      | waitDone => cases hstep
      | readMaccr | writeBcr | switch =>
        cases hstep
        exact ⟨rfl, fun _ => rfl, fun _ => ⟨rfl, rfl⟩, fun _ => rfl⟩
      | writeMaccr =>
        cases hstep
        exact ⟨rfl, fun _ => rfl, fun _ => ⟨rfl, rfl⟩, fun h => absurd rfl h⟩
    | setUp | dhcpStart | igmpStart | setDown | dhcpStop | igmpStop =>
      simp only [LinkState.ethernetifPhy, LinkState.linkCallback] at hstep
      obtain rfl := LinkState.of_netifapi hstep
      exact ⟨rfl, fun _ => rfl, fun _ => ⟨rfl, rfl⟩, fun _ => rfl⟩

theorem ModeInv.step {s t : LinkState} {a : LinkAct} (h : ModeInv s) (hlock : LockInv s)
    (hfollow : FollowInv s) (hstep : linkStep s a = some t) : ModeInv t := by
  cases a with
  | main => exact h.portEthInit hlock hfollow hstep
  | phy =>
    obtain ⟨st, hst, hstep⟩ := Option.bind_eq_some_iff.mp hstep
    obtain ⟨hmain, hcalls, -, -⟩ := LinkState.ethernetifPhy_frame hstep
    refine ⟨fun hnotDone => ?_, (h.modeAt st hst).ethernetifPhy hlock hst (hfollow.at hst) hstep⟩
    rw [hmain] at hnotDone
    by_cases hset : st = .setLink
    · subst hset
      exact absurd (hlock.main_done hst rfl) hnotDone
    · rw [hcalls hset]
      exact h.early hnotDone
  | scsr status =>
    obtain ⟨⟨hphy, hreports⟩, heq⟩ := Option.ite_none_right_eq_some.mp hstep
    cases heq
    refine ⟨h.early, fun st hst => ?_⟩
    have hregval : s.regval = s.ETH_MACCR &&& ~~~modeMask := h.modeAt _ hphy
    cases hst
    split
    · exact ⟨hregval, hreports.mode⟩
    · exact hregval
  | tcpipTake | tcpipGive =>
    obtain ⟨l, -, rfl⟩ := Option.map_eq_some_iff.mp hstep
    exact ⟨h.early, fun st hst => (h.modeAt st hst).frame (.refl _) rfl rfl rfl rfl rfl⟩
  | chip b =>
    obtain ⟨c, hc, rfl⟩ := Option.map_eq_some_iff.mp hstep
    exact ⟨h.early, fun st hst =>
      (h.modeAt st hst).frame (fun hlow => PhyChip.act_trusted hc hlow) rfl rfl rfl rfl rfl⟩

/-- All three invariants, along a run. -/
theorem ModeInv.run {maccr : BitVec 32} {chip : PhyChip} {as : List LinkAct} {s : LinkState}
    (h : exec linkStep (.init maccr chip) as = some s) :
    LockInv s ∧ FollowInv s ∧ ModeInv s := by
  refine exec_invariant (I := fun s => LockInv s ∧ FollowInv s ∧ ModeInv s) ?_ ?_ h
  · exact ⟨LockInv.init maccr chip, FollowInv.init maccr chip, fun _ => rfl,
      fun st hst => by cases hst⟩
  · rintro u a v ⟨hlock, hfollow, hmode⟩ hstep
    exact ⟨hlock.step hstep, hfollow.step hlock hstep, hmode.step hlock hfollow hstep⟩

/-! ## After a negotiation -/

/-- Once `portEthInit` is over, only `phy_negotiate` writes `ETH_MACCR`, and it keeps the other
    bits. -/
theorem ModeInv.otherBits {s t : LinkState} {a : LinkAct} (h : ModeInv s)
    (hmain : s.main = .done) (hstep : linkStep s a = some t) :
    t.main = .done ∧ t.ETH_MACCR &&& ~~~modeMask = s.ETH_MACCR &&& ~~~modeMask := by
  cases a with
  | main => simp [linkStep, LinkState.portEthInit, hmain] at hstep
  | phy =>
    obtain ⟨st, hst, hstep⟩ := Option.bind_eq_some_iff.mp hstep
    obtain ⟨hmain', -, -, hmaccr⟩ := LinkState.ethernetifPhy_frame hstep
    refine ⟨hmain'.trans hmain, ?_⟩
    by_cases hwrite : st = .callback (.negotiate .writeMaccr)
    · subst hwrite
      obtain ⟨m, hregval, -⟩ := h.modeAt _ hst
      cases hstep
      show s.regval &&& ~~~modeMask = _
      rw [hregval, m.update_and_not_mask]
    · rw [hmaccr hwrite]
  | scsr status =>
    obtain ⟨-, heq⟩ := Option.ite_none_right_eq_some.mp hstep
    cases heq
    exact ⟨hmain, rfl⟩
  | tcpipTake | tcpipGive =>
    obtain ⟨l, -, rfl⟩ := Option.map_eq_some_iff.mp hstep
    exact ⟨hmain, rfl⟩
  | chip b =>
    obtain ⟨c, -, rfl⟩ := Option.map_eq_some_iff.mp hstep
    exact ⟨hmain, rfl⟩

/-! ## Between two readings -/

/-- Nothing has been read: the latch has seen whatever has happened, and a poll that had been
    processed still is the last one. -/
def SameReadings (s t : LinkState) : Prop :=
  t.readings = s.readings ∧ Trusts s.chip t.chip ∧ (s.Processed → t.Processed)

theorem SameReadings.trans {s t u : LinkState} (h₁ : SameReadings s t) (h₂ : SameReadings t u) :
    SameReadings s u := by
  obtain ⟨hrs₁, hchip₁, hdone₁⟩ := h₁
  obtain ⟨hrs₂, hchip₂, hdone₂⟩ := h₂
  refine ⟨hrs₂.trans hrs₁, fun hlow => ?_, fun hdone => hdone₂ (hdone₁ hdone)⟩
  obtain ⟨hlow₂, hmode₂⟩ := hchip₂ hlow
  obtain ⟨hlow₁, hmode₁⟩ := hchip₁ hlow₂
  exact ⟨hlow₁, hmode₂.trans hmode₁⟩

/-- `portEthInit` reads nothing; it creates the task once. -/
theorem LinkState.portEthInit_readings {s t : LinkState} (hlock : LockInv s)
    (hstep : s.portEthInit = some t) : SameReadings s t := by
  cases hmain : s.main with
  | createPhy =>
    simp only [LinkState.portEthInit, hmain] at hstep
    cases hstep
    have hnone := hlock.beforePhy (by rw [hmain]; rfl)
    refine ⟨rfl, .refl _, fun hdone => ?_⟩
    simp [LinkState.Processed, hnone] at hdone
  | lock | unlock =>
    simp only [LinkState.portEthInit, hmain] at hstep
    obtain ⟨l, -, rfl⟩ := Option.map_eq_some_iff.mp hstep
    exact ⟨rfl, .refl _, id⟩
  | done => simp [LinkState.portEthInit, hmain] at hstep
  | _ =>
    simp only [LinkState.portEthInit, hmain] at hstep
    cases hstep
    exact ⟨rfl, .refl _, id⟩

/-- A step reads the link, or it does not. -/
theorem linkStep_readings {s t : LinkState} {a : LinkAct} (hlock : LockInv s)
    (hstep : linkStep s a = some t) :
    SameReadings s t ∨ s.readings.length < t.readings.length := by
  cases a with
  | main => exact .inl (LinkState.portEthInit_readings hlock hstep)
  | phy =>
    obtain ⟨st, hst, hstep⟩ := Option.bind_eq_some_iff.mp hstep
    by_cases hpoll : st = .poll
    · subst hpoll
      cases hstep
      right
      simp
    · obtain ⟨-, -, hread, -⟩ := LinkState.ethernetifPhy_frame hstep
      obtain ⟨hreadings, hchip⟩ := hread hpoll
      refine .inl ⟨hreadings, ?_, fun hdone => ?_⟩
      · rw [hchip]
        exact .refl _
      · rcases hdone with hphy | hphy
        · rw [hst, Option.some.injEq] at hphy
          subst hphy
          cases hstep
          exact .inr rfl
        · rw [hst, Option.some.injEq] at hphy
          exact absurd hphy hpoll
  | scsr status =>
    obtain ⟨⟨hphy, -⟩, heq⟩ := Option.ite_none_right_eq_some.mp hstep
    cases heq
    refine .inl ⟨rfl, .refl _, fun hdone => ?_⟩
    simp [LinkState.Processed, hphy] at hdone
  | tcpipTake | tcpipGive =>
    obtain ⟨l, -, rfl⟩ := Option.map_eq_some_iff.mp hstep
    exact .inl ⟨rfl, .refl _, id⟩
  | chip b =>
    obtain ⟨c, hc, rfl⟩ := Option.map_eq_some_iff.mp hstep
    exact .inl ⟨rfl, fun hlow => PhyChip.act_trusted hc hlow, id⟩

theorem exec_readings {s t : LinkState} {as : List LinkAct} (hlock : LockInv s)
    (h : exec linkStep s as = some t) :
    SameReadings s t ∨ s.readings.length < t.readings.length := by
  refine (exec_invariant (I := fun t => LockInv t ∧
    (SameReadings s t ∨ s.readings.length < t.readings.length)) ?_ ?_ h).2
  · exact ⟨hlock, .inl ⟨rfl, .refl _, id⟩⟩
  · rintro u a v ⟨hlock, hread⟩ hstep
    refine ⟨hlock.step hstep, ?_⟩
    rcases hread with hsame | hlt
    · rcases linkStep_readings hlock hstep with hsame' | hlt'
      · exact .inl (hsame.trans hsame')
      · rw [hsame.1] at hlt'
        exact .inr hlt'
    · rcases linkStep_readings hlock hstep with hsame' | hlt'
      · rw [← hsame'.1] at hlt
        exact .inr hlt
      · exact .inr (hlt.trans hlt')

/-- The other bits, along a run. -/
theorem otherBits_exec {r u : LinkState} {as : List LinkAct} (hlock : LockInv r)
    (hfollow : FollowInv r) (hmode : ModeInv r) (hmain : r.main = .done)
    (h : exec linkStep r as = some u) :
    u.ETH_MACCR &&& ~~~modeMask = r.ETH_MACCR &&& ~~~modeMask := by
  refine (exec_invariant (I := fun u => (LockInv u ∧ FollowInv u ∧ ModeInv u) ∧ u.main = .done ∧
    u.ETH_MACCR &&& ~~~modeMask = r.ETH_MACCR &&& ~~~modeMask) ?_ ?_ h).2.2
  · exact ⟨⟨hlock, hfollow, hmode⟩, hmain, rfl⟩
  · rintro s a t ⟨⟨hlock, hfollow, hmode⟩, hmain, hbits⟩ hstep
    obtain ⟨hmain', hbits'⟩ := hmode.otherBits hmain hstep
    exact ⟨⟨hlock.step hstep, hfollow.step hlock hstep, hmode.step hlock hfollow hstep⟩,
      hmain', hbits'.trans hbits⟩

/-- Where the last reading is up, is processed, and nothing has happened since, the mode is
    right. -/
theorem ModeInv.trusted {s : LinkState} (h : ModeInv s) (hfollow : FollowInv s)
    (hdone : s.Processed) (hup : level false s.readings = true) (hlow : s.chip.low = false) :
    s.ETH_MACCR &&& modeMask = s.chip.mode.maccr := by
  rcases hdone with hphy | hphy
  · have hstatus := (hfollow.at hphy).linkStatus_eq (by simp) rfl
    exact h.modeAt _ hphy (hstatus.trans hup) hlow
  · have hstatus := (hfollow.at hphy).linkStatus_eq (by simp) rfl
    exact h.modeAt _ hphy (hstatus.trans hup) hlow

/-- **While the link is trusted the MAC is in the PHY's mode.** A poll that read the link as
    up has been processed (`s`), and up to a later moment (`t`) nothing more is read and the
    link bit stays up — as it does where `t` is the next poll, and reads up. Whatever the PHY
    has done, at every moment `u` in between `FES` and `DM` are the PHY's mode, and the other
    bits of `ETH_MACCR` are what any negotiation (`r`) found there. -/
theorem mac_mode_eq {maccr : BitVec 32} {chip : PhyChip} {as bs cs : List LinkAct}
    {s u t : LinkState} (hs : exec linkStep (.init maccr chip) as = some s)
    (hprocessed : s.phy = some .delay) (hup : level false s.readings = true)
    (hu : exec linkStep s bs = some u) (ht : exec linkStep u cs = some t)
    (hnext : t.readings = s.readings) (hup' : t.chip.isup = true) :
    u.ETH_MACCR &&& modeMask = u.chip.mode.maccr ∧
      ∀ (as₁ as₂ : List LinkAct) (r : LinkState), as = as₁ ++ as₂ →
        exec linkStep (.init maccr chip) as₁ = some r →
        r.phy = some (.callback (.negotiate .readMaccr)) →
        u.ETH_MACCR &&& ~~~modeMask = r.ETH_MACCR &&& ~~~modeMask := by
  obtain ⟨hlock, hfollow, hmode⟩ := ModeInv.run hs
  obtain ⟨hlock', hfollow', hmode'⟩ := ModeInv.run (exec_trans hs hu)
  constructor
  · -- nothing is read from `s` to `u`, nor from `u` to `t`
    have hsu : SameReadings s u := by
      rcases exec_readings hlock hu with hsame | hlt
      · exact hsame
      · rcases exec_readings hlock' ht with hsame' | hlt'
        · exact absurd hlt (by rw [← hsame'.1, hnext]; exact lt_irrefl _)
        · exact absurd (hlt.trans hlt') (by rw [hnext]; exact lt_irrefl _)
    have hut : SameReadings u t := by
      rcases exec_readings hlock' ht with hsame | hlt
      · exact hsame
      · exact absurd hlt (by rw [hnext, hsu.1]; exact lt_irrefl _)
    have hlow : t.chip.low = false := by simpa [PhyChip.isup] using hup'
    refine hmode'.trusted hfollow' (hsu.2.2 (.inl hprocessed)) ?_ (hut.2.1 hlow).1
    rw [hsu.1]
    exact hup
  · intro as₁ as₂ r has hr hneg
    obtain ⟨hlock₁, hfollow₁, hmode₁⟩ := ModeInv.run hr
    rw [has, exec_append, hr, Option.bind_some] at hs
    exact otherBits_exec hlock₁ hfollow₁ hmode₁ (hlock₁.main_done hneg rfl) (exec_trans hs hu)

/-- A link that is up when `ETH_phy` first polls, and still up at the second poll. -/
theorem mac_mode_eq_bringUp :
    ∃ s, exec linkStep (.init 0x8000#32 (.connected ⟨true, false⟩)) bringUp = some s ∧
      ∃ r, exec linkStep (.init 0x8000#32 (.connected ⟨true, false⟩)) (bringUp.take 19) = some r ∧
        s.ETH_MACCR &&& modeMask = s.chip.mode.maccr ∧
        s.ETH_MACCR &&& ~~~modeMask = r.ETH_MACCR &&& ~~~modeMask := by
  refine exists_exec
    (fun s => decide (s.phy = some .delay ∧ s.readings = [true] ∧ s.chip.isup = true))
    (by decide +kernel) fun s hs hp => ?_
  obtain ⟨hphy, hreadings, hisup⟩ := of_decide_eq_true hp
  refine exists_exec (fun r => decide (r.phy = some (.callback (.negotiate .readMaccr))))
    (by decide +kernel) fun r hr hneg => ?_
  have hpoll : exec linkStep s [.phy] = some (s.goto .poll) := by
    rw [exec_cons, linkStep, hphy]
    rfl
  obtain ⟨hmode, hbits⟩ := mac_mode_eq hs hphy (by rw [hreadings]; rfl) (exec_nil s) hpoll rfl
    hisup
  exact ⟨hmode, hbits _ _ r (List.take_append_drop 19 bringUp).symm hr (of_decide_eq_true hneg)⟩

end EthernetIf

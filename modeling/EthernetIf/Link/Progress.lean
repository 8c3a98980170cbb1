import EthernetIf.Link.Hold
import EthernetIf.Link.Mode

/-!
# A link that stays is followed

That the services follow the readings does not say that anything is ever read. Here the link
keeps still from some moment on, and `portEthInit` and `ETH_phy` have their turns again and
again, when lwIP's thread has let go of the core lock. One thing can still stop them:
`phy_negotiate` waits for `LAN87XX_SCSR_AUTODONE`, without a bound, and nobody can promise that
the PHY sets it — with the cable pulled it need not. So

> the interface gets to where the link is, and stays there, if and only if no wait for the end
> of the negotiation lasts for ever.

At most two changes are ahead of `ETH_phy`: a link that went down and came up again since the
last poll is read as down once more, because the link bit latches, and then as up. The measure
counts them, and the statements to the next poll.
-/

namespace EthernetIf

open Lts Signal

/-! ## Turns -/

/-- A step that leaves the link up (`b`), or down. -/
def LinkAct.Keeps (b : Bool) : LinkAct → Prop
  | .chip .drop => b = false
  | .chip .recover => b = true
  | _ => True

/-- The tasks that have to act. -/
inductive LinkParty
  | main      -- startTask3
  | phy       -- ETH_phy
deriving DecidableEq, Repr

/-- lwIP's thread does not have the lock. -/
def LinkState.Unbarred (s : LinkState) : Prop := ∀ n, s.lock ≠ .held .tcpip n

def LinkParty.turn (s : LinkState) (a : LinkAct) : LinkParty → Prop
  | .main => a = .main ∧ s.Unbarred
  | .phy => a = .phy ∧ s.Unbarred

/-- Who is waited for: a task that has its turn, or — `none` — the PHY, as long as a wait for
    it lasts. -/
def LinkState.turn (s : LinkState) (a : LinkAct) : Option LinkParty → Prop
  | some i => i.turn s a
  | none => ¬ s.Negotiates

/-- The interface is as the link is, and where that is up, the MAC in the mode `m`. -/
structure LinkState.Followed (b : Bool) (m : PhyMode) (s : LinkState) : Prop where
  link : s.netif.linkUp.on = b
  service : ∀ sv, (s.netif.service sv).on = b
  mode : b = true → s.ETH_MACCR &&& modeMask = m.maccr

/-! ## The measure -/

def MainStmt.left : MainStmt → Nat
  | .lock => 12
  | .macInit => 11
  | .netInit => 10
  | .createPhy => 9
  | .startRead m => if m = ETH_MACCR_TE then 8 else 6
  | .startWrite m _ => if m = ETH_MACCR_TE then 7 else 5
  | .setDefault => 4
  | .setStatusCallback => 3
  | .setLinkCallback => 2
  | .unlock => 1
  | .done => 0

def NegStmt.left : NegStmt → Nat
  | .readMaccr => 5
  | .writeBcr => 4
  | .waitDone => 3
  | .switch => 2
  | .writeMaccr => 1

def CbStmt.left : CbStmt → Nat
  | .test => 9
  | .negotiate n => 3 + n.left
  | .setUp | .setDown => 3
  | .dhcpStart | .dhcpStop => 2
  | .igmpStart | .igmpStop => 1

/-- Statements to the next poll. -/
def PhyStmt.left : PhyStmt → Nat
  | .toggle => 14
  | .lock => 13
  | .setLink => 12
  | .callback c => 2 + c.left
  | .start | .unlock => 2
  | .reset | .delay => 1
  | .poll => 0

/-- Polls that will read a change. -/
def LinkState.ahead (b : Bool) (s : LinkState) : Nat :=
  if s.chip.isup ≠ b then 2 else if level false s.readings = b then 0 else 1

def LinkState.phyLeft (b : Bool) (s : LinkState) : Nat :=
  match s.phy with
  | none => 60
  | some st => 20 * s.ahead b + st.left

def LinkState.rank (b : Bool) (s : LinkState) : Nat := s.main.left + s.phyLeft b

theorem LinkState.ahead_le (b : Bool) (s : LinkState) : s.ahead b ≤ 2 := by
  unfold LinkState.ahead
  split
  · exact Nat.le_refl 2
  · split
    · exact Nat.zero_le 2
    · exact Nat.le_succ 1

theorem CbStmt.left_le (c : CbStmt) : c.left ≤ 9 := by
  cases c with
  | negotiate n => cases n <;> decide
  | _ => decide

/-- The measure of a state that differs elsewhere. -/
theorem LinkState.phyLeft_congr {b : Bool} {s t : LinkState} (hphy : t.phy = s.phy)
    (hisup : t.chip.isup = s.chip.isup) (hreadings : t.readings = s.readings) :
    t.phyLeft b = s.phyLeft b := by
  simp only [LinkState.phyLeft, LinkState.ahead, hphy, hisup, hreadings]

/-! ## The invariant -/

/-- Past its creation `ETH_phy` exists. -/
def PhyExists (s : LinkState) : Prop := s.main.beforePhy = false → s.phy.isSome = true

/-- What holds while the link is kept, and the mode `m` with it where it is up. -/
structure Settling (b : Bool) (m : PhyMode) (s : LinkState) : Prop where
  lock : LockInv s
  follow : FollowInv s
  mode : ModeInv s
  exists_phy : PhyExists s
  link : s.chip.link = b
  keeps : b = true → s.chip.mode = m

/-- Everything is as the link is, and it will be read so. -/
structure Settled (b : Bool) (s : LinkState) : Prop where
  phy : s.phy = some .poll ∨ s.phy = some .delay
  level : level false s.readings = b
  isup : s.chip.isup = b

/-! ## Steps -/

theorem PhyChip.act_keeps {b : Bool} {c c' : PhyChip} {a : PhyChip.Act}
    (hkeeps : (LinkAct.chip a).Keeps b) (hlink : c.link = b) (h : c.act a = some c') :
    c'.link = b ∧ c'.isup = c.isup ∧ (b = true → c'.mode = c.mode) := by
  cases a with
  | drop =>
    cases h
    have hdown : b = false := hkeeps
    have hlow := c.latched (hlink.trans hdown)
    exact ⟨hdown.symm, by simp [PhyChip.isup, hlow], fun _ => rfl⟩
  | negotiate m =>
    obtain ⟨hdown, heq⟩ := Option.ite_none_left_eq_some.mp h
    cases heq
    exact ⟨hlink, rfl, fun hb => absurd (hlink.trans hb) hdown⟩
  | recover =>
    cases h
    have hup : b = true := hkeeps
    exact ⟨hup.symm, rfl, fun _ => rfl⟩

/-- A statement of `portEthInit` is one less. -/
theorem LinkState.left_portEthInit {s t : LinkState} (hstep : s.portEthInit = some t) :
    t.main.left < s.main.left ∧ t.chip = s.chip ∧ t.readings = s.readings ∧
      ((t.phy = s.phy ∧ (t.main.beforePhy = false → s.main.beforePhy = false)) ∨
        (s.main = .createPhy ∧ t.phy = some .start)) := by
  cases hmain : s.main with
  | lock | unlock =>
    simp only [LinkState.portEthInit, hmain] at hstep
    obtain ⟨l, -, rfl⟩ := Option.map_eq_some_iff.mp hstep
    exact ⟨Nat.lt_succ_self _, rfl, rfl, .inl ⟨rfl, by simp [MainStmt.beforePhy]⟩⟩
  | createPhy =>
    simp only [LinkState.portEthInit, hmain] at hstep
    cases hstep
    exact ⟨Nat.lt_succ_self _, rfl, rfl, .inr ⟨rfl, rfl⟩⟩
  | startRead m =>
    simp only [LinkState.portEthInit, hmain] at hstep
    cases hstep
    refine ⟨?_, rfl, rfl, .inl ⟨rfl, fun _ => rfl⟩⟩
    simp only [MainStmt.left]
    split
    · exact Nat.lt_succ_self 7
    · exact Nat.lt_succ_self 5
  | startWrite m maccr =>
    simp only [LinkState.portEthInit, hmain] at hstep
    cases hstep
    refine ⟨?_, rfl, rfl, .inl ⟨rfl, fun _ => rfl⟩⟩
    by_cases hm : m = ETH_MACCR_TE
    · simp only [MainStmt.left, if_pos hm]
      exact Nat.lt_succ_self 6
    · simp only [MainStmt.left, if_neg hm]
      exact Nat.lt_succ_self 4
  | macInit | netInit | setDefault | setStatusCallback | setLinkCallback =>
    simp only [LinkState.portEthInit, hmain] at hstep
    cases hstep
    exact ⟨Nat.lt_succ_self _, rfl, rfl, .inl ⟨rfl, by simp [MainStmt.beforePhy]⟩⟩
  | done => simp [LinkState.portEthInit, hmain] at hstep

/-- So is one of `ethernetif_phy`, up to the poll. -/
theorem LinkState.left_ethernetifPhy {s t : LinkState} {st : PhyStmt} (hst : st ≠ .poll)
    (hstep : s.ethernetifPhy st = some t) : ∃ st', t.phy = some st' ∧ st'.left < st.left := by
  cases st with
  | poll => exact absurd rfl hst
  | start | reset | toggle | delay =>
    cases hstep
    exact ⟨_, rfl, by decide⟩
  | lock | unlock =>
    obtain ⟨l, -, rfl⟩ := Option.map_eq_some_iff.mp hstep
    exact ⟨_, rfl, by decide⟩
  | setLink =>
    cases hstep
    unfold LinkState.netifSetLink
    split
    · exact ⟨_, rfl, by decide⟩
    · split
      · exact ⟨_, rfl, by decide⟩
      · exact ⟨_, rfl, by decide⟩
  | callback c =>
    cases c with
    | test =>
      cases hstep
      refine ⟨_, rfl, ?_⟩
      split <;> decide
    | negotiate n =>
      cases n with
      | waitDone => cases hstep
      | readMaccr | writeBcr | switch | writeMaccr =>
        cases hstep
        exact ⟨_, rfl, by decide⟩
    | setUp | dhcpStart | igmpStart | setDown | dhcpStop | igmpStop =>
      simp only [LinkState.ethernetifPhy, LinkState.linkCallback] at hstep
      obtain rfl := LinkState.of_netifapi hstep
      exact ⟨_, rfl, by decide⟩

theorem PhyExists.step {s t : LinkState} {a : LinkAct} (h : PhyExists s)
    (hstep : linkStep s a = some t) : PhyExists t := by
  cases a with
  | main =>
    obtain ⟨-, -, -, ⟨hphy, hbefore⟩ | ⟨-, hphy⟩⟩ := LinkState.left_portEthInit hstep
    · rw [PhyExists, hphy]
      exact fun ht => h (hbefore ht)
    · rw [PhyExists, hphy]
      exact fun _ => rfl
  | phy =>
    obtain ⟨st, -, hstep⟩ := Option.bind_eq_some_iff.mp hstep
    intro _
    by_cases hst : st = .poll
    · subst hst
      cases hstep
      rfl
    · obtain ⟨st', hphy, -⟩ := LinkState.left_ethernetifPhy hst hstep
      rw [hphy]
      rfl
  | scsr status =>
    obtain ⟨-, heq⟩ := Option.ite_none_right_eq_some.mp hstep
    cases heq
    exact fun _ => rfl
  | tcpipTake | tcpipGive | chip =>
    obtain ⟨_, -, rfl⟩ := Option.map_eq_some_iff.mp hstep
    exact h

/-- A poll reads the link as it is, unless it was down meanwhile. -/
theorem LinkState.ahead_poll {b : Bool} {s t : LinkState} (hlink : s.chip.link = b)
    (hstep : s.ethernetifPhy .poll = some t) :
    t.chip.link = b ∧ t.chip.isup = b ∧ t.chip.mode = s.chip.mode ∧
      level false t.readings = s.chip.isup := by
  cases hstep
  refine ⟨hlink, ?_, rfl, level_snoc _ _ _⟩
  show (!(!s.chip.link)) = b
  rw [Bool.not_not, hlink]

namespace Settling

variable {b : Bool} {m : PhyMode} {s t : LinkState}

/-- Where not everything is done, a poll reads a change, or is one less before it. -/
theorem rank_poll (h : Settling b m s) (hno : ¬ Settled b s) (hphy : s.phy = some .poll)
    (hstep : s.ethernetifPhy .poll = some t) : t.phyLeft b < s.phyLeft b := by
  obtain ⟨-, hisup, -, hlevel⟩ := LinkState.ahead_poll h.link hstep
  have hs : s.phyLeft b = 20 * s.ahead b := by
    simp only [LinkState.phyLeft, hphy]
    rfl
  have ht : t.phyLeft b ≤ 20 * t.ahead b + 14 := by
    cases hstep
    simp only [LinkState.phyLeft, LinkState.goto]
    refine Nat.add_le_add_left ?_ _
    split <;> decide
  have hahead : t.ahead b < s.ahead b := by
    rw [LinkState.ahead, LinkState.ahead, if_neg (not_not.mpr hisup), hlevel]
    by_cases hnow : s.chip.isup = b
    · have hlevel' : level false s.readings ≠ b := fun hl => hno ⟨.inl hphy, hl, hnow⟩
      rw [if_pos hnow, if_neg (not_not.mpr hnow), if_neg hlevel']
      exact Nat.one_pos
    · rw [if_neg hnow, if_pos hnow]
      exact Nat.lt_succ_self 1
  omega

/-- **A statement of `ethernetif_phy`** lowers the measure. -/
theorem rank_phy (h : Settling b m s) (hno : ¬ Settled b s) (hstep : linkStep s .phy = some t) :
    t.rank b < s.rank b := by
  obtain ⟨st, hphy, hstep⟩ := Option.bind_eq_some_iff.mp hstep
  obtain ⟨hmain, -, hsame, -⟩ := LinkState.ethernetifPhy_frame hstep
  rw [LinkState.rank, LinkState.rank, hmain]
  refine Nat.add_lt_add_left ?_ _
  by_cases hst : st = .poll
  · subst hst
    exact h.rank_poll hno hphy hstep
  · obtain ⟨st', hphy', hlt⟩ := LinkState.left_ethernetifPhy hst hstep
    obtain ⟨hreadings, hchip⟩ := hsame hst
    simp only [LinkState.phyLeft, hphy, hphy', LinkState.ahead, hreadings, hchip]
    exact Nat.add_lt_add_left hlt _

/-- So does one of `portEthInit`. -/
theorem rank_main (h : Settling b m s) (hstep : s.portEthInit = some t) :
    t.rank b < s.rank b := by
  obtain ⟨hlt, hchip, hreadings, ⟨hphy, -⟩ | ⟨hmain, hphy⟩⟩ := LinkState.left_portEthInit hstep
  · have hsame := LinkState.phyLeft_congr (b := b) hphy (by rw [hchip]) hreadings
    rw [LinkState.rank, LinkState.rank, hsame]
    exact Nat.add_lt_add_right hlt _
  · have hnone := h.lock.beforePhy (by rw [hmain]; rfl)
    have hs : s.phyLeft b = 60 := by simp only [LinkState.phyLeft, hnone]
    have ht : t.phyLeft b = 20 * t.ahead b + 2 := by
      simp only [LinkState.phyLeft, hphy]
      rfl
    have hahead := t.ahead_le b
    rw [LinkState.rank, LinkState.rank, hs, ht]
    omega

end Settling

/-! ## Who is able -/

/-- Nobody who could have the lock has it. -/
theorem LinkState.lock_free {s : LinkState} (h : LockInv s) (hunbarred : s.Unbarred)
    (hmain : s.main.inLock = false) (hphy : ∀ st, s.phy = some st → st.inLock = false) :
    s.lock = .free := by
  cases hlock : s.lock with
  | free => rfl
  | held task n =>
    cases task with
    | main =>
      rw [h.ofMain n hlock] at hmain
      cases hmain
    | phy =>
      obtain ⟨st, hst, hin⟩ := h.ofPhy n hlock
      rw [hphy st hst] at hin
      cases hin
    | tcpip => exact absurd hlock (hunbarred n)

/-- Who is to act, and does so in its turn. -/
def LinkState.able (s : LinkState) : Option LinkParty → Prop
  | some .main => s.main ≠ .done
  | some .phy => s.main = .done ∧ ¬ s.Negotiates
  | none => s.main = .done ∧ s.Negotiates

theorem LinkState.able_congr {s t : LinkState} (hmain : t.main = s.main) (hphy : t.phy = s.phy)
    {i : Option LinkParty} (h : s.able i) : t.able i := by
  cases i with
  | none => exact ⟨hmain.trans h.1, hphy.trans h.2⟩
  | some i =>
    cases i with
    | main => exact fun ht => h (hmain.symm.trans ht)
    | phy => exact ⟨hmain.trans h.1, fun ht => h.2 (hphy.symm.trans ht)⟩

theorem LinkState.exists_able (s : LinkState) : ∃ i, s.able i := by
  by_cases hmain : s.main = .done
  · by_cases hwait : s.Negotiates
    · exact ⟨none, hmain, hwait⟩
    · exact ⟨some .phy, hmain, hwait⟩
  · exact ⟨some .main, hmain⟩

namespace Settling

variable {b : Bool} {m : PhyMode} {s t : LinkState}

theorem main_enabled (h : Settling b m s) (hunbarred : s.Unbarred) (hmain : s.main ≠ .done) :
    ∃ t, linkStep s .main = some t := by
  cases hin : s.main.inLock with
  | true => exact h.lock.main_enabled (h.lock.main hin)
  | false =>
    have hnone : s.phy = none := by
      apply h.lock.beforePhy
      cases hs : s.main with
      | lock => rfl
      | done => exact absurd hs hmain
      | _ =>
        rw [hs] at hin
        cases hin
    have hfree : s.lock = .free := LinkState.lock_free h.lock hunbarred hin (by simp [hnone])
    cases hs : s.main with
    | lock => simp [linkStep, LinkState.portEthInit, hs, hfree, RecLock.take]
    | done => exact absurd hs hmain
    | _ =>
      rw [hs] at hin
      cases hin

theorem phy_enabled (h : Settling b m s) (hunbarred : s.Unbarred) (hmain : s.main = .done)
    (hwait : ¬ s.Negotiates) : ∃ t, linkStep s .phy = some t := by
  obtain ⟨st, hphy⟩ := Option.isSome_iff_exists.mp (h.exists_phy (by rw [hmain]; rfl))
  cases hin : st.inLock with
  | true => exact h.lock.phy_enabled (h.lock.phy st hphy hin) hwait
  | false =>
    have hfree : s.lock = .free := by
      refine LinkState.lock_free h.lock hunbarred (by rw [hmain]; rfl) ?_
      intro st' hst'
      rw [hphy] at hst'
      cases hst'
      exact hin
    rw [linkStep, hphy]
    cases st with
    | lock => exact ⟨_, by rw [Option.bind_some, LinkState.ethernetifPhy, hfree]; rfl⟩
    | start | reset | poll | toggle | delay => exact ⟨_, rfl⟩
    | setLink | callback | unlock => cases hin

/-- **Each in its turn**: whoever is to act lowers the measure. -/
theorem acts (h : Settling b m s) (hno : ¬ Settled b s) {a : LinkAct} {i : Option LinkParty}
    (hi : s.able i) (hturn : s.turn a i) : ∃ t, linkStep s a = some t ∧ t.rank b < s.rank b := by
  cases i with
  | none => exact absurd hi.2 hturn
  | some i =>
    cases i with
    | main =>
      obtain ⟨rfl, hunbarred⟩ := hturn
      obtain ⟨t, hstep⟩ := h.main_enabled hunbarred hi
      exact ⟨t, hstep, h.rank_main hstep⟩
    | phy =>
      obtain ⟨rfl, hunbarred⟩ := hturn
      obtain ⟨t, hstep⟩ := h.phy_enabled hunbarred hi.1 hi.2
      exact ⟨t, hstep, h.rank_phy hno hstep⟩

/-! ## Every step -/

theorem step (h : Settling b m s) {a : LinkAct} (hkeeps : a.Keeps b)
    (hstep : linkStep s a = some t) : Settling b m t := by
  have hlock := h.lock.step hstep
  have hfollow := h.follow.step h.lock hstep
  have hmode := h.mode.step h.lock h.follow hstep
  have hexists := PhyExists.step h.exists_phy hstep
  cases a with
  | main =>
    obtain ⟨-, hchip, -⟩ := LinkState.left_portEthInit hstep
    exact ⟨hlock, hfollow, hmode, hexists, by rw [hchip]; exact h.link,
      by rw [hchip]; exact h.keeps⟩
  | phy =>
    obtain ⟨st, -, hstep⟩ := Option.bind_eq_some_iff.mp hstep
    obtain ⟨-, -, hsame, -⟩ := LinkState.ethernetifPhy_frame hstep
    by_cases hst : st = .poll
    · subst hst
      obtain ⟨hlink, -, hm, -⟩ := LinkState.ahead_poll h.link hstep
      exact ⟨hlock, hfollow, hmode, hexists, hlink, by rw [hm]; exact h.keeps⟩
    · obtain ⟨-, hchip⟩ := hsame hst
      exact ⟨hlock, hfollow, hmode, hexists, by rw [hchip]; exact h.link,
        by rw [hchip]; exact h.keeps⟩
  | scsr status =>
    obtain ⟨-, heq⟩ := Option.ite_none_right_eq_some.mp hstep
    cases heq
    exact ⟨hlock, hfollow, hmode, hexists, h.link, h.keeps⟩
  | tcpipTake | tcpipGive =>
    obtain ⟨l, -, rfl⟩ := Option.map_eq_some_iff.mp hstep
    exact ⟨hlock, hfollow, hmode, hexists, h.link, h.keeps⟩
  | chip c =>
    obtain ⟨chip, hchip, rfl⟩ := Option.map_eq_some_iff.mp hstep
    obtain ⟨hlink, -, hm⟩ := PhyChip.act_keeps hkeeps h.link hchip
    exact ⟨hlock, hfollow, hmode, hexists, hlink, fun hb => (hm hb).trans (h.keeps hb)⟩

/-- A step lowers the measure, or leaves it to the same parties. -/
theorem descends (h : Settling b m s) (hno : ¬ Settled b s) {a : LinkAct} (hkeeps : a.Keeps b)
    (hstep : linkStep s a = some t) :
    Descends LinkState.able (LinkState.rank b) s t := by
  cases a with
  | main => exact .inl (h.rank_main hstep)
  | phy => exact .inl (h.rank_phy hno hstep)
  | scsr status =>
    obtain ⟨⟨hphy, hreports⟩, heq⟩ := Option.ite_none_right_eq_some.mp hstep
    by_cases hdone : tst status LAN87XX_SCSR_AUTODONE = true
    · rw [if_pos hdone] at heq
      cases heq
      left
      simp only [LinkState.rank, LinkState.phyLeft, hphy, LinkState.ahead]
      exact Nat.add_lt_add_left (Nat.add_lt_add_left (by decide) _) _
    · rw [if_neg hdone, ← hphy] at heq
      cases heq
      exact .inr ⟨rfl, fun i hi => LinkState.able_congr rfl rfl hi⟩
  | tcpipTake | tcpipGive =>
    obtain ⟨l, -, rfl⟩ := Option.map_eq_some_iff.mp hstep
    exact .inr ⟨rfl, fun i hi => LinkState.able_congr rfl rfl hi⟩
  | chip c =>
    obtain ⟨chip, hchip, rfl⟩ := Option.map_eq_some_iff.mp hstep
    obtain ⟨-, hisup, -⟩ := PhyChip.act_keeps hkeeps h.link hchip
    refine .inr ⟨?_, fun i hi => LinkState.able_congr rfl rfl hi⟩
    exact congrArg (s.main.left + ·) (LinkState.phyLeft_congr rfl hisup rfl)

/-- What has settled stays so: each poll reads what is known already. -/
theorem settled_step (h : Settling b m s) (hs : Settled b s) {a : LinkAct} (hkeeps : a.Keeps b)
    (hstep : linkStep s a = some t) : Settled b t := by
  have hphy : s.phy ≠ none := by
    rcases hs.phy with hphy | hphy
    · simp [hphy]
    · simp [hphy]
  cases a with
  | main =>
    obtain ⟨-, hchip, hreadings, ⟨hsame, -⟩ | ⟨hmain, -⟩⟩ := LinkState.left_portEthInit hstep
    · exact ⟨by rw [hsame]; exact hs.phy, by rw [hreadings]; exact hs.level,
        by rw [hchip]; exact hs.isup⟩
    · exact absurd (h.lock.beforePhy (by rw [hmain]; rfl)) hphy
  | phy =>
    rcases hs.phy with hphy | hphy
    · rw [linkStep, hphy, Option.bind_some] at hstep
      obtain ⟨-, hisup, -, hlevel⟩ := LinkState.ahead_poll h.link hstep
      have hstatus := (h.follow.at hphy).linkStatus_eq (by simp) rfl
      refine ⟨.inr ?_, hlevel.trans hs.isup, hisup⟩
      cases hstep
      exact congrArg some (if_neg (by rw [hstatus, hs.level, hs.isup]; exact not_not.mpr rfl))
    · rw [linkStep, hphy, Option.bind_some] at hstep
      cases hstep
      exact ⟨.inl rfl, hs.level, hs.isup⟩
  | scsr status =>
    obtain ⟨⟨hwait, -⟩, -⟩ := Option.ite_none_right_eq_some.mp hstep
    rcases hs.phy with hphy | hphy
    · simp [hphy] at hwait
    · simp [hphy] at hwait
  | tcpipTake | tcpipGive =>
    obtain ⟨l, -, rfl⟩ := Option.map_eq_some_iff.mp hstep
    exact ⟨hs.phy, hs.level, hs.isup⟩
  | chip c =>
    obtain ⟨chip, hchip, rfl⟩ := Option.map_eq_some_iff.mp hstep
    obtain ⟨-, hisup, -⟩ := PhyChip.act_keeps hkeeps h.link hchip
    exact ⟨hs.phy, hs.level, hisup.trans hs.isup⟩

end Settling

/-! ## The interface follows -/

/-- What has settled is followed. -/
theorem Settled.followed {b : Bool} {m : PhyMode} {s : LinkState} (hs : Settled b s)
    (h : Settling b m s) : s.Followed b m := by
  obtain ⟨hphy, hlevel, hisup⟩ := hs
  have hcaught : s.netif.linkUp.on = b ∧ ∀ sv, (s.netif.service sv).on = b := by
    rw [← hlevel]
    rcases hphy with hphy | hphy
    · obtain ⟨hon, hservice, -⟩ := (h.follow.at hphy).caught rfl fun _ => rfl
      exact ⟨hon, hservice⟩
    · obtain ⟨hon, hservice, -⟩ := (h.follow.at hphy).caught rfl fun _ => rfl
      exact ⟨hon, hservice⟩
  refine ⟨hcaught.1, hcaught.2, fun hup => ?_⟩
  rw [← h.keeps hup]
  refine h.mode.trusted h.follow hphy.symm (hlevel.trans hup) ?_
  rw [hup] at hisup
  exact Bool.not_eq_true' _ |>.mp hisup

/-- Inside the wait nothing can have: the flag is set already, and no service is on yet. -/
theorem FollowInv.not_followed {b : Bool} {m : PhyMode} {s : LinkState} (h : FollowInv s)
    (hwait : s.Negotiates) : ¬ s.Followed b m := by
  intro hfollowed
  have hphy := h.at hwait
  have hbehind := (hphy.service .up).level_ne
  rw [← (s.netif.service .up).on_eq, hfollowed.service, ← hphy.linkUp_on rfl,
    hfollowed.link] at hbehind
  exact hbehind rfl

/-- **A link that stays is followed**, unless a negotiation goes on for ever. From every state
    that any interleaving of the tasks and the chip reaches: if from then on the link stays as it
    is, and `portEthInit` and `ETH_phy` have their turns again and again when lwIP's thread does
    not have the core lock, then from some moment on the link flag of the interface is what the
    link is, each service is started or stopped as it is, and while it is up the MAC is in the
    PHY's mode — if and only if there is always a later moment at which `phy_negotiate` does not
    wait for `LAN87XX_SCSR_AUTODONE`. -/
theorem link_followed_iff (maccr : BitVec 32) (chip : PhyChip) (as : List LinkAct)
    (s : LinkState) (hrun : exec linkStep (.init maccr chip) as = some s) (sched : Nat → LinkAct)
    (hkeeps : ∀ n, (sched n).Keeps s.chip.link)
    (hfair : FairAlong linkStep LinkParty.turn s sched) :
    (∃ n, ∀ k, n ≤ k → (follow linkStep s sched k).Followed s.chip.link s.chip.mode) ↔
      ∀ n, ∃ m, n ≤ m ∧ ¬ (follow linkStep s sched m).Negotiates := by
  obtain ⟨hlock, hfollow, hmode⟩ := ModeInv.run hrun
  have hexists : PhyExists s :=
    exec_invariant (I := PhyExists) (fun h => by cases h) (fun _ _ _ h hstep => h.step hstep) hrun
  have h₀ : Settling s.chip.link s.chip.mode s :=
    ⟨hlock, hfollow, hmode, hexists, rfl, fun _ => rfl⟩
  have hstep : ∀ u a t, Settling s.chip.link s.chip.mode u → a.Keeps s.chip.link →
      linkStep u a = some t → Settling s.chip.link s.chip.mode t := fun _ _ _ h => h.step
  have hk := follow_invariant h₀ hstep hkeeps
  constructor
  · rintro ⟨n, hn⟩ k
    exact ⟨max k n, Nat.le_max_left k n, fun hwait =>
      (hk _).follow.not_followed hwait (hn _ (Nat.le_max_right k n))⟩
  · intro hends
    have hall : FairAlong linkStep LinkState.turn s sched := by
      intro i
      cases i with
      | none => exact hends
      | some i => exact hfair i
    obtain ⟨n, hn⟩ := eventually_always_of_able LinkState.able
      (Settled s.chip.link) (LinkState.rank s.chip.link) hstep
      (fun _ _ _ h hno ha ht => h.descends hno ha ht) (fun u _ _ => u.exists_able)
      (fun _ _ _ h hno hi _ hturn => h.acts hno hi hturn)
      (fun _ _ _ h hs ha ht => h.settled_step hs ha ht) h₀ hkeeps hall
    exact ⟨n, fun k hnk => (hn k hnk).followed (hk k)⟩

/-- A reading with the bit ends the wait. -/
theorem LinkState.Negotiates.ends {s : LinkState} (hwait : s.Negotiates) {status : BitVec 32}
    (hdone : tst status LAN87XX_SCSR_AUTODONE = true) (hreports : s.chip.Reports status) :
    ∃ t, linkStep s (.scsr status) = some t ∧ ¬ t.Negotiates := by
  refine ⟨_, if_pos ⟨hwait, hreports⟩, ?_⟩
  rw [LinkState.Negotiates, if_pos hdone]
  simp

/-- No wait lasts for ever where the PHY reports the end of the negotiation again and again. -/
theorem waits_end {s : LinkState} {sched : Nat → LinkAct}
    (h : ∀ n, ∃ m, n ≤ m ∧ ∃ status, sched m = .scsr status ∧
      tst status LAN87XX_SCSR_AUTODONE = true ∧ (follow linkStep s sched m).chip.Reports status)
    (n : Nat) : ∃ m, n ≤ m ∧ ¬ (follow linkStep s sched m).Negotiates := by
  obtain ⟨m, hm, status, ha, hdone, hreports⟩ := h n
  by_cases hwait : (follow linkStep s sched m).Negotiates
  · obtain ⟨t, hstep, hends⟩ := hwait.ends hdone hreports
    refine ⟨m + 1, Nat.le_succ_of_le hm, ?_⟩
    rw [follow_succ, ha, hstep]
    exact hends
  · exact ⟨m, hm, hwait⟩

/-! ### A fair schedule -/

/-- `portEthInit`, `ETH_phy` and the PHY by turns. -/
def byThirds (m : PhyMode) (n : Nat) : LinkAct :=
  if n % 3 = 0 then .main
  else if n % 3 = 1 then .phy
  else .scsr (LAN87XX_SCSR_AUTODONE ||| m.speed)

/-- A task of the driver that takes the lock bars nobody's way, -/
theorem unbarred_of_take {l l' : RecLock Task} {task : Task} (htask : task ≠ .tcpip)
    (h : l.take task = some l') (n : Nat) : l' ≠ .held .tcpip n := by
  rcases RecLock.take_cases h with ⟨-, rfl⟩ | ⟨k, -, rfl⟩
  · simp [htask]
  · simp [htask]

/-- nor does one that gives it. -/
theorem LinkState.Unbarred.give {s : LinkState} {task : Task} {l : RecLock Task} (h : s.Unbarred)
    (hgive : s.lock.give task = some l) (n : Nat) : l ≠ .held .tcpip n := by
  rcases RecLock.give_cases hgive with ⟨-, rfl⟩ | ⟨k, hs, rfl⟩
  · simp
  · intro heq
    cases heq
    exact h _ hs

theorem LinkState.Unbarred.portEthInit {s t : LinkState} (h : s.Unbarred)
    (hstep : s.portEthInit = some t) : t.Unbarred := by
  cases hmain : s.main with
  | lock =>
    simp only [LinkState.portEthInit, hmain] at hstep
    obtain ⟨l, hl, rfl⟩ := Option.map_eq_some_iff.mp hstep
    exact unbarred_of_take (by simp) hl
  | unlock =>
    simp only [LinkState.portEthInit, hmain] at hstep
    obtain ⟨l, hl, rfl⟩ := Option.map_eq_some_iff.mp hstep
    exact h.give hl
  | done => simp [LinkState.portEthInit, hmain] at hstep
  | macInit | netInit | createPhy | startRead | startWrite | setDefault | setStatusCallback
  | setLinkCallback =>
    simp only [LinkState.portEthInit, hmain] at hstep
    cases hstep
    exact h

theorem LinkState.Unbarred.ethernetifPhy {s t : LinkState} {st : PhyStmt} (h : s.Unbarred)
    (hstep : s.ethernetifPhy st = some t) : t.Unbarred := by
  cases st with
  | lock =>
    obtain ⟨l, hl, rfl⟩ := Option.map_eq_some_iff.mp hstep
    exact unbarred_of_take (by simp) hl
  | unlock =>
    obtain ⟨l, hl, rfl⟩ := Option.map_eq_some_iff.mp hstep
    exact h.give hl
  | start | reset | poll | toggle | delay =>
    cases hstep
    exact h
  | setLink =>
    cases hstep
    unfold LinkState.netifSetLink
    split
    · exact h
    · split
      · exact h
      · exact h
  | callback c =>
    cases c with
    | test =>
      cases hstep
      exact h
    | negotiate n =>
      cases n with
      | waitDone => cases hstep
      | readMaccr | writeBcr | switch | writeMaccr =>
        cases hstep
        exact h
    | setUp | dhcpStart | igmpStart | setDown | dhcpStop | igmpStop =>
      simp only [LinkState.ethernetifPhy, LinkState.linkCallback] at hstep
      obtain rfl := LinkState.of_netifapi hstep
      exact h

/-- Only lwIP's thread can bar the way. -/
theorem LinkState.Unbarred.step {s t : LinkState} {a : LinkAct} (h : s.Unbarred)
    (ha : a ≠ .tcpipTake) (hstep : linkStep s a = some t) : t.Unbarred := by
  cases a with
  | tcpipTake => exact absurd rfl ha
  | tcpipGive =>
    obtain ⟨l, hl, rfl⟩ := Option.map_eq_some_iff.mp hstep
    exact h.give hl
  | scsr status =>
    obtain ⟨-, heq⟩ := Option.ite_none_right_eq_some.mp hstep
    cases heq
    exact h
  | chip c =>
    obtain ⟨_, -, rfl⟩ := Option.map_eq_some_iff.mp hstep
    exact h
  | main => exact h.portEthInit hstep
  | phy =>
    obtain ⟨st, -, hstep⟩ := Option.bind_eq_some_iff.mp hstep
    exact h.ethernetifPhy hstep

theorem byThirds_keeps (m : PhyMode) (n : Nat) :
    (byThirds m n).Keeps true ∧ byThirds m n ≠ .tcpipTake := by
  unfold byThirds
  split
  · exact ⟨trivial, by simp⟩
  · split
    · exact ⟨trivial, by simp⟩
    · exact ⟨trivial, by simp⟩

/-- It is fair where lwIP's thread does not have the lock to begin with, on a link that is up,
    and the PHY reports the end of the negotiation. -/
theorem fair_byThirds {m : PhyMode} {s : LinkState} (h : Settling true m s)
    (hunbarred : s.Unbarred) :
    FairAlong linkStep LinkParty.turn s (byThirds m) ∧
      ∀ n, ∃ k, n ≤ k ∧ ¬ (follow linkStep s (byThirds m) k).Negotiates := by
  have hfollow : ∀ n, Settling true m (follow linkStep s (byThirds m) n) ∧
      (follow linkStep s (byThirds m) n).Unbarred :=
    follow_invariant (I := fun s => Settling true m s ∧ s.Unbarred)
      (L := fun a => a.Keeps true ∧ a ≠ .tcpipTake) ⟨h, hunbarred⟩
      (fun _ _ _ hi ha ht => ⟨hi.1.step ha.1 ht, hi.2.step ha.2 ht⟩) (byThirds_keeps m)
  refine ⟨fun i n => ?_, waits_end fun n => ?_⟩
  · cases i with
    | main =>
      refine ⟨3 * n, by omega, ?_, (hfollow _).2⟩
      rw [byThirds, if_pos (Nat.mul_mod_right 3 n)]
    | phy =>
      refine ⟨3 * n + 1, by omega, ?_, (hfollow _).2⟩
      rw [byThirds, if_neg (by omega), if_pos (by omega)]
  · refine ⟨3 * n + 2, by omega, LAN87XX_SCSR_AUTODONE ||| m.speed, ?_, ?_, ?_⟩
    · rw [byThirds, if_neg (by omega), if_neg (by omega)]
    · obtain ⟨sp, fd⟩ := m
      cases sp <;> cases fd <;> decide
    · have hmode := (hfollow (3 * n + 2)).1.keeps rfl
      have hspeed : (LAN87XX_SCSR_AUTODONE ||| m.speed) &&& LAN87XX_SCSR_SPEED = m.speed := by
        obtain ⟨sp, fd⟩ := m
        cases sp <;> cases fd <;> decide
      exact ⟨⟨m.speed100, m.fullDuplex, hspeed⟩, fun _ => by rw [hmode]; exact hspeed⟩

/-- The link is up from the start. -/
theorem link_followed_connected :
    ∃ n, ∀ k, n ≤ k →
      (follow linkStep (.init 0x8000#32 (.connected ⟨true, false⟩)) (byThirds ⟨true, false⟩)
        k).Followed true ⟨true, false⟩ := by
  have h₀ : Settling true ⟨true, false⟩ (.init 0x8000#32 (.connected ⟨true, false⟩)) :=
    ⟨LockInv.init _ _, FollowInv.init _ _, ⟨fun _ => rfl, fun _ h => (by cases h)⟩,
      fun h => (by cases h), rfl, fun _ => rfl⟩
  obtain ⟨hfair, hends⟩ := fair_byThirds h₀ (by simp [LinkState.Unbarred, LinkState.init])
  exact (link_followed_iff 0x8000#32 (.connected ⟨true, false⟩) [] _ rfl
    (byThirds ⟨true, false⟩) (fun n => (byThirds_keeps _ n).1) hfair).mpr hends

end EthernetIf

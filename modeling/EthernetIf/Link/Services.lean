import EthernetIf.Link.Lock

/-!
# The services follow the link

`ethernetif_phy` keeps the last reading in a boolean that it **toggles**, and acts on a change
through a callback that starts or stops the services one after another. Between two polls some
of them are behind: which ones is a matter of where the task is, and `PhyInv` is the proof
outline that says so, statement by statement —

> at a statement `st`, the operations of a service are all the changes of the reading, or all
> but the last one where `st.behind` says so.

The lock makes the outline stable: a change that `ETH_phy` acts on finds the link callback
registered, so none is lost on the way up.
-/

namespace EthernetIf

open Lts Signal

/-! ## What is behind, and where -/

/-- The services, in the order in which the link callback deals with them. -/
inductive Service
  | up
  | dhcp
  | igmp
deriving DecidableEq, Repr

instance Service.decidableForall {p : Service → Prop} [∀ sv, Decidable (p sv)] :
    Decidable (∀ sv, p sv) :=
  decidable_of_iff (p .up ∧ p .dhcp ∧ p .igmp)
    ⟨fun h sv => by cases sv with
      | up => exact h.1
      | dhcp => exact h.2.1
      | igmp => exact h.2.2,
     fun h => ⟨h .up, h .dhcp, h .igmp⟩⟩

def Netif.service (n : Netif) : Service → Switch false
  | .up => n.up
  | .dhcp => n.dhcp
  | .igmp => n.igmp

theorem Netif.service_register (n : Netif) (sv : Service) (b c : Bool) :
    ({ n with statusCallback := b, linkCallback := c } : Netif).service sv = n.service sv := by
  cases sv <;> rfl

/-- The service is operated. -/
def Netif.turn (n : Netif) (sv : Service) (v : Bool) : Netif :=
  match sv with
  | .up => { n with up := n.up.turn v }
  | .dhcp => { n with dhcp := n.dhcp.turn v }
  | .igmp => { n with igmp := n.igmp.turn v }

theorem Netif.service_turn (n : Netif) (sv sv' : Service) (v : Bool) :
    ((n.turn sv v).service sv').ops =
      if sv' = sv then (n.service sv').ops ++ [v] else (n.service sv').ops := by
  cases sv <;> cases sv' <;> rfl

theorem Netif.linkUp_turn (n : Netif) (sv : Service) (v : Bool) :
    (n.turn sv v).linkUp = n.linkUp := by
  cases sv <;> rfl

def CbStmt.behind : CbStmt → Service → Bool
  | .test, _ | .negotiate _, _ | .setUp, _ | .setDown, _ => true
  | .dhcpStart, sv | .dhcpStop, sv => decide (sv ≠ .up)
  | .igmpStart, sv | .igmpStop, sv => decide (sv = .igmp)

/-- A change has been read, and the service has not been operated yet. -/
def PhyStmt.behind : PhyStmt → Service → Bool
  | .toggle, _ | .lock, _ | .setLink, _ => true
  | .callback c, sv => c.behind sv
  | .start, _ | .reset, _ | .poll, _ | .unlock, _ | .delay, _ => false

/-- The same for the link flag and the link callback. -/
def PhyStmt.linkBehind : PhyStmt → Bool
  | .toggle | .lock | .setLink => true
  | .start | .reset | .poll | .callback _ | .unlock | .delay => false

/-- The same for `link_status`. -/
def PhyStmt.statusBehind : PhyStmt → Bool
  | .toggle => true
  | _ => false

/-- The reading that brings the callback here. -/
def CbStmt.branch : CbStmt → Option Bool
  | .test => none
  | .negotiate _ | .setUp | .dhcpStart | .igmpStart => some true
  | .setDown | .dhcpStop | .igmpStop => some false

def PhyStmt.branch : PhyStmt → Option Bool
  | .callback c => c.branch
  | _ => none

/-! ## The outline -/

/-- **The assertion at a statement** of `ethernetif_phy`. -/
structure PhyInv (st : PhyStmt) (s : LinkState) : Prop where
  link : Follows false st.linkBehind s.netif.linkUp.ops s.readings
  calls : Follows false st.linkBehind s.calls s.readings
  service : ∀ sv, Follows false (st.behind sv) (s.netif.service sv).ops s.readings
  status : st ≠ .start → s.linkStatus = (level false s.readings ^^ st.statusBehind)
  branch : ∀ b, st.branch = some b → level false s.readings = b

/-- Before the task exists nothing has been read, and nothing operated. -/
structure Fresh (s : LinkState) : Prop where
  readings : s.readings = []
  calls : s.calls = []
  link : s.netif.linkUp.ops = []
  service : ∀ sv, (s.netif.service sv).ops = []

def FollowInv (s : LinkState) : Prop :=
  match s.phy with
  | none => Fresh s
  | some st => PhyInv st s

theorem FollowInv.at {s : LinkState} {st : PhyStmt} (h : FollowInv s) (hphy : s.phy = some st) :
    PhyInv st s := by
  simpa only [FollowInv, hphy] using h

theorem FollowInv.init (maccr : BitVec 32) (chip : PhyChip) : FollowInv (.init maccr chip) := by
  refine ⟨rfl, rfl, rfl, ?_⟩
  intro sv
  cases sv with
  | up => rfl
  | dhcp => rfl
  | igmp => rfl

namespace PhyInv

variable {s t : LinkState} {st st' : PhyStmt}

/-- The flag is set while the last reading is up, and the callback has run. -/
theorem linkUp_on (h : PhyInv st s) (hbehind : st.linkBehind = false) :
    s.netif.linkUp.on = level false s.readings := by
  have hlink := h.link
  rw [hbehind] at hlink
  rw [s.netif.linkUp.on_eq, hlink.level_eq]

/-- `link_status` is the last reading, but for the moment before it is toggled. -/
theorem linkStatus_eq (h : PhyInv st s) (hst : st ≠ .start) (hbehind : st.statusBehind = false) :
    s.linkStatus = level false s.readings := by
  rw [h.status hst, hbehind, Bool.xor_false]

/-- Where nothing is behind, everything is as the last reading was. -/
theorem caught (h : PhyInv st s) (hlink : st.linkBehind = false)
    (hbehind : ∀ sv, st.behind sv = false) :
    s.netif.linkUp.on = level false s.readings ∧
    (∀ sv, (s.netif.service sv).on = level false s.readings) ∧
    s.calls = changes false s.readings ∧
    ∀ sv, (s.netif.service sv).ops = changes false s.readings := by
  have hcalls := h.calls
  have hservice := h.service
  rw [hlink] at hcalls
  simp only [hbehind] at hservice
  refine ⟨h.linkUp_on hlink, fun sv => ?_, hcalls.changes_eq, fun sv => (hservice sv).changes_eq⟩
  rw [(s.netif.service sv).on_eq, (hservice sv).level_eq]

/-- A statement after which nothing is more or less behind. -/
theorem move (h : PhyInv st s) (hst : st' ≠ .start → st ≠ .start)
    (hlink : st'.linkBehind = st.linkBehind) (hbehind : st'.behind = st.behind)
    (hstatus : st'.statusBehind = st.statusBehind)
    (hbranch : ∀ b, st'.branch = some b → level false s.readings = b)
    (hflag : t.netif.linkUp = s.netif.linkUp)
    (hservice : ∀ sv, t.netif.service sv = s.netif.service sv)
    (hls : t.linkStatus = s.linkStatus) (hrs : t.readings = s.readings)
    (hcalls : t.calls = s.calls) : PhyInv st' t where
  link := by
    rw [hlink, hflag, hrs]
    exact h.link
  calls := by
    rw [hlink, hcalls, hrs]
    exact h.calls
  service := fun sv => by
    rw [hbehind, hservice, hrs]
    exact h.service sv
  status := fun hst' => by
    rw [hls, hrs, hstatus]
    exact h.status (hst hst')
  branch := fun b hb => by
    rw [hrs]
    exact hbranch b hb

/-- The callback operates the next service. -/
theorem operate (sv : Service) (v : Bool) (h : PhyInv st s) (hst : st ≠ .start)
    (hbranch : st.branch = some v) (hbehind : st.behind sv = true)
    (hlink : st'.linkBehind = st.linkBehind) (hstatus : st'.statusBehind = st.statusBehind)
    (hbehind' : ∀ sv', st'.behind sv' = (st.behind sv' && decide (sv' ≠ sv)))
    (hbranch' : st'.branch = some v ∨ st'.branch = none) :
    PhyInv st' { s.goto st' with netif := s.netif.turn sv v } where
  link := by
    rw [hlink]
    show Follows false _ (s.netif.turn sv v).linkUp.ops _
    rw [Netif.linkUp_turn]
    exact h.link
  calls := by
    rw [hlink]
    exact h.calls
  service := fun sv' => by
    show Follows false _ ((s.netif.turn sv v).service sv').ops s.readings
    rw [Netif.service_turn, hbehind']
    by_cases hsv : sv' = sv
    · subst hsv
      have hserv := h.service sv'
      rw [hbehind] at hserv
      rw [if_pos rfl, ← h.branch v hbranch]
      simpa using hserv.turn
    · rw [if_neg hsv, decide_eq_true hsv, Bool.and_true]
      exact h.service sv'
  status := fun _ => by
    rw [hstatus]
    exact h.status hst
  branch := fun b hb => by
    rcases hbranch' with hv | hnone
    · rw [hv, Option.some.injEq] at hb
      rw [← hb]
      exact h.branch v hbranch
    · rw [hnone] at hb
      cases hb

/-- A reading. A change puts everything behind, another reading nothing. -/
theorem poll (h : PhyInv .poll s) {c : PhyChip} (r : Bool)
    (hst : st = if s.linkStatus ≠ r then .toggle else .delay) :
    PhyInv st { s.goto st with chip := c, readings := s.readings ++ [r] } := by
  have hstatus := h.linkStatus_eq (by simp) rfl
  have hlink := Follows.read h.link r
  have hcalls := Follows.read h.calls r
  have hservice := fun sv => Follows.read (h.service sv) r
  rw [hstatus] at hst
  by_cases hr : r = level false s.readings
  · rw [if_neg (by simp [hr])] at hst
    subst hst
    rw [decide_eq_false (by simp [hr])] at hlink hcalls
    refine ⟨hlink, hcalls, fun sv => ?_, fun _ => ?_, by simp [PhyStmt.branch]⟩
    · rw [decide_eq_false (by simp [hr])] at hservice
      exact hservice sv
    · show s.linkStatus = (level false (s.readings ++ [r]) ^^ false)
      rw [hstatus, level_snoc, Bool.xor_false, hr]
  · rw [if_pos (Ne.symm hr)] at hst
    subst hst
    rw [decide_eq_true hr] at hlink hcalls
    refine ⟨hlink, hcalls, fun sv => ?_, fun _ => ?_, by simp [PhyStmt.branch]⟩
    · rw [decide_eq_true hr] at hservice
      exact hservice sv
    · show s.linkStatus = (level false (s.readings ++ [r]) ^^ true)
      rw [hstatus, level_snoc, Bool.xor_true]
      exact Bool.eq_not_of_ne (Ne.symm hr)

/-- The flag differs from the reading, so it is set, and the callback runs. -/
theorem netifSetLink_eq (h : PhyInv .setLink s) (hcallback : s.netif.linkCallback = true) :
    s.netifSetLink s.linkStatus =
      { s.goto (.callback .test) with
        netif := { s.netif with linkUp := s.netif.linkUp.turn s.linkStatus }
        calls := s.calls ++ [s.linkStatus] } := by
  have hne : s.netif.linkUp.on ≠ s.linkStatus := by
    rw [s.netif.linkUp.on_eq, h.linkStatus_eq (by simp) rfl]
    exact Follows.level_ne h.link
  rw [LinkState.netifSetLink, if_neg hne, if_pos hcallback]

theorem setLink (h : PhyInv .setLink s) (hcallback : s.netif.linkCallback = true) :
    FollowInv (s.netifSetLink s.linkStatus) := by
  rw [h.netifSetLink_eq hcallback]
  have hstatus := h.linkStatus_eq (by simp) rfl
  refine ⟨?_, ?_, h.service, fun _ => h.status (by simp), by simp [PhyStmt.branch, CbStmt.branch]⟩
  · rw [hstatus]
    exact Follows.turn h.link
  · rw [hstatus]
    exact Follows.turn h.calls

/-- The callback finds the flag as the reading was, and takes its branch. -/
theorem test (h : PhyInv (.callback .test) s)
    (hst : st = .callback (if s.netif.linkUp.on then .negotiate .readMaccr else .setDown)) :
    PhyInv st (s.goto st) := by
  have hon := h.linkUp_on rfl
  rw [hon] at hst
  cases hlevel : level false s.readings with
  | false =>
    rw [hlevel] at hst
    subst hst
    refine h.move (by simp) rfl rfl rfl ?_ rfl (fun _ => rfl) rfl rfl rfl
    intro b hb
    cases hb
    exact hlevel
  | true =>
    rw [hlevel] at hst
    subst hst
    refine h.move (by simp) rfl rfl rfl ?_ rfl (fun _ => rfl) rfl rfl rfl
    intro b hb
    cases hb
    exact hlevel

/-- A flag that is behind is not as it should be: setting it is an operation. -/
theorem set_up {v : Bool} (h : PhyInv st s) (hbehind : st.behind .up = true)
    (hbranch : st.branch = some v) :
    ({ s.netif with up := s.netif.up.set v } : Netif) = s.netif.turn .up v := by
  have hservice := h.service .up
  rw [hbehind] at hservice
  have hne : s.netif.up.on ≠ v := by
    rw [s.netif.up.on_eq, ← h.branch v hbranch]
    exact hservice.level_ne
  rw [Switch.set, if_neg hne]
  rfl

/-- A statement of `ethernetif_link_callback`. -/
theorem linkCallback {c : CbStmt} (h : PhyInv (.callback c) s)
    (hstep : s.linkCallback c = some t) : FollowInv t := by
  cases c with
  | test =>
    cases hstep
    exact h.test rfl
  | negotiate n =>
    cases n with
    | waitDone => cases hstep
    | readMaccr | writeBcr | switch | writeMaccr =>
      cases hstep
      exact h.move (by simp) rfl rfl rfl h.branch rfl (fun _ => rfl) rfl rfl rfl
  | setUp =>
    simp only [LinkState.linkCallback] at hstep
    obtain rfl := LinkState.of_netifapi hstep
    rw [h.set_up rfl rfl]
    exact h.operate .up true (by simp) rfl rfl rfl rfl (by decide) (.inl rfl)
  | dhcpStart =>
    simp only [LinkState.linkCallback] at hstep
    obtain rfl := LinkState.of_netifapi hstep
    exact h.operate .dhcp true (by simp) rfl rfl rfl rfl (by decide) (.inl rfl)
  | igmpStart =>
    simp only [LinkState.linkCallback] at hstep
    obtain rfl := LinkState.of_netifapi hstep
    exact h.operate .igmp true (by simp) rfl rfl rfl rfl (by decide) (.inr rfl)
  | setDown =>
    simp only [LinkState.linkCallback] at hstep
    obtain rfl := LinkState.of_netifapi hstep
    rw [h.set_up rfl rfl]
    exact h.operate .up false (by simp) rfl rfl rfl rfl (by decide) (.inl rfl)
  | dhcpStop =>
    simp only [LinkState.linkCallback] at hstep
    obtain rfl := LinkState.of_netifapi hstep
    exact h.operate .dhcp false (by simp) rfl rfl rfl rfl (by decide) (.inl rfl)
  | igmpStop =>
    simp only [LinkState.linkCallback] at hstep
    obtain rfl := LinkState.of_netifapi hstep
    exact h.operate .igmp false (by simp) rfl rfl rfl rfl (by decide) (.inr rfl)

/-- **A statement** of `ethernetif_phy`. -/
theorem ethernetifPhy (h : PhyInv st s) (hlock : LockInv s) (hphy : s.phy = some st)
    (hstep : s.ethernetifPhy st = some t) : FollowInv t := by
  cases st with
  | start =>
    cases hstep
    refine ⟨h.link, h.calls, h.service, fun _ => ?_, by simp [PhyStmt.branch]⟩
    simpa [LinkState.goto, PhyStmt.statusBehind] using h.linkUp_on rfl
  | reset | delay =>
    cases hstep
    exact h.move (by simp) rfl rfl rfl (by simp [PhyStmt.branch]) rfl (fun _ => rfl) rfl
      rfl rfl
  | poll =>
    cases hstep
    exact h.poll _ rfl
  | toggle =>
    cases hstep
    refine ⟨h.link, h.calls, h.service, fun _ => ?_, by simp [PhyStmt.branch]⟩
    simp [LinkState.goto, PhyStmt.statusBehind, h.status (by simp)]
  | lock =>
    obtain ⟨l, -, rfl⟩ := Option.map_eq_some_iff.mp hstep
    exact h.move (by simp) rfl rfl rfl (by simp [PhyStmt.branch]) rfl (fun _ => rfl) rfl
      rfl rfl
  | setLink =>
    cases hstep
    exact h.setLink (hlock.callbacks hphy rfl).2
  | unlock =>
    obtain ⟨l, -, rfl⟩ := Option.map_eq_some_iff.mp hstep
    exact h.move (by simp) rfl rfl rfl (by simp [PhyStmt.branch]) rfl (fun _ => rfl) rfl
      rfl rfl
  | callback c => exact h.linkCallback hstep

end PhyInv

/-! ## Every run -/

/-- What the outline does not read may change. -/
theorem FollowInv.frame {s t : LinkState} (h : FollowInv s) (hphy : t.phy = s.phy)
    (hflag : t.netif.linkUp = s.netif.linkUp)
    (hservice : ∀ sv, t.netif.service sv = s.netif.service sv)
    (hls : t.linkStatus = s.linkStatus) (hrs : t.readings = s.readings)
    (hcalls : t.calls = s.calls) : FollowInv t := by
  unfold FollowInv at h ⊢
  rw [hphy]
  cases hst : s.phy with
  | none =>
    rw [hst] at h
    refine ⟨hrs.trans h.readings, hcalls.trans h.calls, ?_, fun sv => ?_⟩
    · rw [hflag]
      exact h.link
    · rw [hservice]
      exact h.service sv
  | some st =>
    rw [hst] at h
    exact h.move id rfl rfl rfl h.branch hflag hservice hls hrs hcalls

theorem Fresh.phyInv {s t : LinkState} (h : Fresh s) (hnetif : t.netif = s.netif)
    (hrs : t.readings = s.readings) (hcalls : t.calls = s.calls) : PhyInv .start t where
  link := by
    rw [hnetif, hrs, h.link, h.readings]
    rfl
  calls := by
    rw [hcalls, hrs, h.calls, h.readings]
    rfl
  service := fun sv => by
    rw [hnetif, hrs, h.service sv, h.readings]
    rfl
  status := fun hst => absurd rfl hst
  branch := fun b hb => by cases hb

theorem FollowInv.fresh {s : LinkState} (h : FollowInv s) (hphy : s.phy = none) : Fresh s := by
  simpa only [FollowInv, hphy] using h

/-- `portEthInit` clears the flags before the task exists, and creates it. -/
theorem FollowInv.portEthInit {s t : LinkState} (h : FollowInv s) (hlock : LockInv s)
    (hstep : s.portEthInit = some t) : FollowInv t := by
  cases hmain : s.main with
  | netInit =>
    simp only [LinkState.portEthInit, hmain] at hstep
    cases hstep
    have hphy := hlock.beforePhy (by rw [hmain]; rfl)
    have hfresh := h.fresh hphy
    rw [FollowInv, hphy]
    refine ⟨hfresh.readings, hfresh.calls, rfl, fun sv => ?_⟩
    cases sv with
    | up => rfl
    | dhcp => exact hfresh.service .dhcp
    | igmp => exact hfresh.service .igmp
  | createPhy =>
    simp only [LinkState.portEthInit, hmain] at hstep
    cases hstep
    have hphy := hlock.beforePhy (by rw [hmain]; rfl)
    exact (h.fresh hphy).phyInv rfl rfl rfl
  | lock | unlock =>
    simp only [LinkState.portEthInit, hmain] at hstep
    obtain ⟨l, -, rfl⟩ := Option.map_eq_some_iff.mp hstep
    exact h.frame rfl rfl (fun _ => rfl) rfl rfl rfl
  | setStatusCallback | setLinkCallback =>
    simp only [LinkState.portEthInit, hmain] at hstep
    cases hstep
    exact h.frame rfl rfl (fun sv => s.netif.service_register sv _ _) rfl rfl rfl
  | macInit | startRead m | startWrite m maccr | setDefault =>
    simp only [LinkState.portEthInit, hmain] at hstep
    cases hstep
    exact h.frame rfl rfl (fun _ => rfl) rfl rfl rfl
  | done => simp [LinkState.portEthInit, hmain] at hstep

theorem FollowInv.step {s t : LinkState} {a : LinkAct} (h : FollowInv s) (hlock : LockInv s)
    (hstep : linkStep s a = some t) : FollowInv t := by
  cases a with
  | main => exact h.portEthInit hlock hstep
  | phy =>
    obtain ⟨st, hst, hstep⟩ := Option.bind_eq_some_iff.mp hstep
    exact (h.at hst).ethernetifPhy hlock hst hstep
  | scsr status =>
    obtain ⟨⟨hphy, -⟩, heq⟩ := Option.ite_none_right_eq_some.mp hstep
    cases heq
    have hat := h.at hphy
    exact hat.move (by simp) rfl rfl rfl hat.branch rfl (fun _ => rfl) rfl rfl rfl
  | tcpipTake | tcpipGive =>
    obtain ⟨l, -, rfl⟩ := Option.map_eq_some_iff.mp hstep
    exact h.frame rfl rfl (fun _ => rfl) rfl rfl rfl
  | chip a =>
    obtain ⟨c, -, rfl⟩ := Option.map_eq_some_iff.mp hstep
    exact h.frame rfl rfl (fun _ => rfl) rfl rfl rfl

/-- A run keeps both. -/
theorem FollowInv.run {maccr : BitVec 32} {chip : PhyChip} {as : List LinkAct} {s : LinkState}
    (h : exec linkStep (.init maccr chip) as = some s) : LockInv s ∧ FollowInv s := by
  refine exec_invariant (I := fun s => LockInv s ∧ FollowInv s)
    ⟨LockInv.init maccr chip, FollowInv.init maccr chip⟩ ?_ h
  rintro u a v ⟨hlock, hfollow⟩ hstep
  exact ⟨hlock.step hstep, hfollow.step hlock hstep⟩

/-- Every reading has been processed. -/
def LinkState.Processed (s : LinkState) : Prop := s.phy = some .delay ∨ s.phy = some .poll

/-- **The services follow the link**, whatever is read and however the tasks interleave. When
    a poll has been processed, the flags and the services are as the last reading was, and the
    callback has run once for each change. A service is started and stopped in turn, starting
    first; and no change is acted on before both callbacks are registered. -/
theorem services_follow_link {maccr : BitVec 32} {chip : PhyChip} {as : List LinkAct}
    {s : LinkState} (h : exec linkStep (.init maccr chip) as = some s) :
    (s.Processed →
      s.netif.linkUp.on = level false s.readings ∧
      (∀ sv, (s.netif.service sv).on = level false s.readings) ∧
      s.calls = changes false s.readings ∧
      ∀ sv, (s.netif.service sv).ops = changes false s.readings) ∧
    (∀ sv, (false :: (s.netif.service sv).ops).IsChain (· ≠ ·)) ∧
    ∀ st, s.phy = some st → st.inLock = true →
      s.netif.statusCallback = true ∧ s.netif.linkCallback = true := by
  obtain ⟨hlock, hfollow⟩ := FollowInv.run h
  refine ⟨fun hdone => ?_, fun sv => ?_, fun st hst hin => hlock.callbacks hst hin⟩
  · rcases hdone with hphy | hphy
    · exact (hfollow.at hphy).caught rfl fun _ => rfl
    · exact (hfollow.at hphy).caught rfl fun _ => rfl
  · cases hphy : s.phy with
    | none => simp [(hfollow.fresh hphy).service sv]
    | some st => exact ((hfollow.at hphy).service sv).isChain

/-- The link is up when `ETH_phy` first polls, with the callbacks still to be registered: the
    task waits for the lock, and then starts the services. -/
def bringUp : List LinkAct :=
  List.replicate 4 .main ++ List.replicate 4 .phy ++ List.replicate 8 .main ++
    List.replicate 5 .phy ++ [.scsr (LAN87XX_SCSR_AUTODONE ||| LAN87XX_SCSR_SPEED_100HD)] ++
    List.replicate 6 .phy

/-- A PHY with a link. -/
def PhyChip.connected (m : PhyMode) : PhyChip :=
  { link := true, mode := m, low := false, latched := fun h => by cases h }

theorem services_follow_link_bringUp :
    ∃ s, exec linkStep (.init 0x8000#32 (.connected ⟨true, false⟩)) bringUp = some s ∧
      s.readings = [true] ∧ s.calls = [true] ∧ ∀ sv, (s.netif.service sv).on = true := by
  refine exists_exec (fun s => decide (s.phy = some .delay ∧ s.readings = [true]))
    (by decide +kernel) fun s hrun hp => ?_
  obtain ⟨hphy, hreadings⟩ := of_decide_eq_true hp
  obtain ⟨-, hservice, hcalls, -⟩ := (services_follow_link hrun).1 (.inl hphy)
  rw [hreadings] at hservice hcalls
  exact ⟨hreadings, hcalls, hservice⟩

end EthernetIf

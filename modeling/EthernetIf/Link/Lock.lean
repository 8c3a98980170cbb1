import EthernetIf.Link.Model

/-!
# Who has the core lock

`portEthInit` takes the lock before it adds the interface — which creates `ETH_phy` — and
gives it after both callbacks are registered. `ETH_phy` takes it around each change of the
link. The invariant says which of the two has it, statement by statement, and one consequence
is what the rest of the development uses:

> whoever finds `ETH_phy` inside `netif_set_link_up` or `_down` finds both callbacks registered
> (`LockInv.callbacks`).
-/

namespace EthernetIf

open Lts

/-! ## Where the lock is held -/

/-- `portEthInit` has the lock. -/
def MainStmt.inLock : MainStmt → Bool
  | .lock | .done => false
  | _ => true

/-- `ETH_phy` has not been created. -/
def MainStmt.beforePhy : MainStmt → Bool
  | .lock | .macInit | .netInit | .createPhy => true
  | _ => false

def MainStmt.pastStatusCallback : MainStmt → Bool
  | .setLinkCallback | .unlock | .done => true
  | _ => false

def MainStmt.pastLinkCallback : MainStmt → Bool
  | .unlock | .done => true
  | _ => false

/-- `ETH_phy` has the lock. -/
def PhyStmt.inLock : PhyStmt → Bool
  | .setLink | .callback _ | .unlock => true
  | .start | .reset | .poll | .toggle | .lock | .delay => false

/-- Who has the lock, and what has been done by then. -/
structure LockInv (s : LinkState) : Prop where
  main : s.main.inLock = true → s.lock = .held .main 0
  phy : ∀ st, s.phy = some st → st.inLock = true → s.lock = .held .phy 0
  ofMain : ∀ n, s.lock = .held .main n → s.main.inLock = true
  ofPhy : ∀ n, s.lock = .held .phy n → ∃ st, s.phy = some st ∧ st.inLock = true
  beforePhy : s.main.beforePhy = true → s.phy = none
  status : s.main.pastStatusCallback = true → s.netif.statusCallback = true
  link : s.main.pastLinkCallback = true → s.netif.linkCallback = true

namespace LockInv

theorem init (maccr : BitVec 32) (chip : PhyChip) : LockInv (.init maccr chip) where
  main := by simp [LinkState.init, MainStmt.inLock]
  phy := by simp [LinkState.init]
  ofMain := by simp [LinkState.init]
  ofPhy := by simp [LinkState.init]
  beforePhy := fun _ => rfl
  status := by simp [LinkState.init, MainStmt.pastStatusCallback]
  link := by simp [LinkState.init, MainStmt.pastLinkCallback]

/-- While `ETH_phy` has the lock, `portEthInit` is over. -/
theorem main_done {s : LinkState} {st : PhyStmt} (h : LockInv s) (hphy : s.phy = some st)
    (hin : st.inLock = true) : s.main = .done := by
  have hlock := h.phy st hphy hin
  cases hmain : s.main with
  | done => rfl
  | lock => exact absurd (h.beforePhy (by rw [hmain]; rfl)) (by simp [hphy])
  | _ => simp [h.main (by rw [hmain]; rfl)] at hlock

/-- Inside the lock, `ETH_phy` finds both callbacks registered. -/
theorem callbacks {s : LinkState} {st : PhyStmt} (h : LockInv s) (hphy : s.phy = some st)
    (hin : st.inLock = true) : s.netif.statusCallback = true ∧ s.netif.linkCallback = true := by
  have hmain := h.main_done hphy hin
  exact ⟨h.status (by rw [hmain]; rfl), h.link (by rw [hmain]; rfl)⟩

/-- `ETH_phy` goes on without taking the lock or giving it. -/
theorem move {s t : LinkState} {st st' : PhyStmt} (h : LockInv s) (hphy : s.phy = some st)
    (hphy' : t.phy = some st') (hin : st'.inLock = st.inLock) (hmain : t.main = s.main)
    (hlock : t.lock = s.lock) (hstatus : t.netif.statusCallback = s.netif.statusCallback)
    (hlink : t.netif.linkCallback = s.netif.linkCallback) : LockInv t where
  main := fun hm => by
    rw [hlock]
    exact h.main (hmain ▸ hm)
  phy := fun st₁ hst₁ hin₁ => by
    rw [hphy', Option.some.injEq] at hst₁
    rw [hlock]
    exact h.phy st hphy (by rw [← hin, hst₁, hin₁])
  ofMain := fun n hn => by
    rw [hmain]
    exact h.ofMain n (hlock ▸ hn)
  ofPhy := fun n hn => by
    obtain ⟨st₁, hst₁, hin₁⟩ := h.ofPhy n (hlock ▸ hn)
    rw [hphy, Option.some.injEq] at hst₁
    exact ⟨st', hphy', by rw [hin, hst₁, hin₁]⟩
  beforePhy := fun hm => by
    have hnone := h.beforePhy (hmain ▸ hm)
    rw [hphy] at hnone
    exact absurd hnone (by simp)
  status := fun hm => by
    rw [hstatus]
    exact h.status (hmain ▸ hm)
  link := fun hm => by
    rw [hlink]
    exact h.link (hmain ▸ hm)

end LockInv

/-- A call of lwIP that gets through: the nested take and give cancel. -/
theorem LinkState.of_netifapi {s t : LinkState} {st : PhyStmt} {f : Netif → Netif}
    (hstep : (s.goto st).netifapi f = some t) : t = { s.goto st with netif := f s.netif } := by
  obtain ⟨l, htake, hstep⟩ := Option.bind_eq_some_iff.mp hstep
  rw [RecLock.give_of_take htake] at hstep
  exact (Option.some.inj hstep).symm

namespace LockInv

/-- `portEthInit` goes on inside the lock. -/
theorem moveMain {s t : LinkState} (h : LockInv s) (hin : s.main.inLock = true)
    (hin' : t.main.inLock = true) (hlock : t.lock = s.lock) (hphy : t.phy = s.phy)
    (hbefore : t.main.beforePhy = true → s.main.beforePhy = true)
    (hstatus : t.main.pastStatusCallback = true → t.netif.statusCallback = true)
    (hlink : t.main.pastLinkCallback = true → t.netif.linkCallback = true) : LockInv t where
  main := fun _ => by
    rw [hlock]
    exact h.main hin
  phy := fun st hst => by
    rw [hlock]
    exact h.phy st (hphy ▸ hst)
  ofMain := fun _ _ => hin'
  ofPhy := fun n hn => by
    rw [hphy]
    exact h.ofPhy n (hlock ▸ hn)
  beforePhy := fun hm => by
    rw [hphy]
    exact h.beforePhy (hbefore hm)
  status := hstatus
  link := hlink

theorem portEthInit {s t : LinkState} (h : LockInv s) (hstep : s.portEthInit = some t) :
    LockInv t := by
  cases hmain : s.main with
  | lock =>
    simp only [LinkState.portEthInit, hmain] at hstep
    obtain ⟨l, hl, rfl⟩ := Option.map_eq_some_iff.mp hstep
    have hnone : s.phy = none := h.beforePhy (by rw [hmain]; rfl)
    rcases RecLock.take_cases hl with ⟨-, rfl⟩ | ⟨n, hheld, -⟩
    · exact ⟨fun _ => rfl, by simp [hnone], fun _ _ => rfl, by simp, fun _ => hnone,
        by simp [MainStmt.pastStatusCallback], by simp [MainStmt.pastLinkCallback]⟩
    · have hin := h.ofMain n hheld
      rw [hmain] at hin
      cases hin
  | createPhy =>
    simp only [LinkState.portEthInit, hmain] at hstep
    cases hstep
    have hlock := h.main (by rw [hmain]; rfl)
    refine ⟨fun _ => hlock, ?_, fun _ _ => rfl, by simp [hlock], ?_, ?_, ?_⟩
    · intro st hst hin
      cases hst
      cases hin
    all_goals
      intro hm
      cases hm
  | unlock =>
    simp only [LinkState.portEthInit, hmain] at hstep
    obtain ⟨l, hl, rfl⟩ := Option.map_eq_some_iff.mp hstep
    have hlock := h.main (by rw [hmain]; rfl)
    rw [hlock] at hl
    cases hl
    refine ⟨by simp [MainStmt.inLock], ?_, by simp, by simp, by simp [MainStmt.beforePhy],
      fun _ => h.status (by rw [hmain]; rfl), fun _ => h.link (by rw [hmain]; rfl)⟩
    intro st hst hin
    have hheld := h.phy st hst hin
    rw [hlock] at hheld
    cases hheld
  | startWrite m maccr =>
    simp only [LinkState.portEthInit, hmain] at hstep
    cases hstep
    refine h.moveMain (by rw [hmain]; rfl) ?_ rfl rfl ?_ ?_ ?_
    all_goals
      dsimp only
      split
    all_goals first
      | rfl
      | intro hm
        cases hm
  | setLinkCallback =>
    simp only [LinkState.portEthInit, hmain] at hstep
    cases hstep
    exact h.moveMain (by rw [hmain]; rfl) rfl rfl rfl (by simp [MainStmt.beforePhy])
      (fun _ => h.status (by rw [hmain]; rfl)) (fun _ => rfl)
  | setStatusCallback =>
    simp only [LinkState.portEthInit, hmain] at hstep
    cases hstep
    exact h.moveMain (by rw [hmain]; rfl) rfl rfl rfl (by simp [MainStmt.beforePhy])
      (fun _ => rfl) (by simp [MainStmt.pastLinkCallback])
  | macInit | netInit | startRead m | setDefault =>
    simp only [LinkState.portEthInit, hmain] at hstep
    cases hstep
    exact h.moveMain (by rw [hmain]; rfl) rfl rfl rfl (by simp [hmain, MainStmt.beforePhy])
      (by simp [MainStmt.pastStatusCallback]) (by simp [MainStmt.pastLinkCallback])
  | done => simp [LinkState.portEthInit, hmain] at hstep

/-- A statement of `ethernetif_link_callback`: the whole of it runs inside the lock. -/
theorem linkCallback {s t : LinkState} {c : CbStmt} (h : LockInv s)
    (hphy : s.phy = some (.callback c)) (hstep : s.linkCallback c = some t) : LockInv t := by
  cases c with
  | test =>
    cases hstep
    exact h.move hphy rfl rfl rfl rfl rfl rfl
  | negotiate n =>
    cases n with
    | waitDone => cases hstep
    | readMaccr | writeBcr | switch | writeMaccr =>
      cases hstep
      exact h.move hphy rfl rfl rfl rfl rfl rfl
  | setUp | dhcpStart | igmpStart | setDown | dhcpStop | igmpStop =>
    simp only [LinkState.linkCallback] at hstep
    obtain rfl := LinkState.of_netifapi hstep
    exact h.move hphy rfl rfl rfl rfl rfl rfl

/-- A statement of `ethernetif_phy`. -/
theorem ethernetifPhy {s t : LinkState} {st : PhyStmt} (h : LockInv s)
    (hphy : s.phy = some st) (hstep : s.ethernetifPhy st = some t) : LockInv t := by
  cases st with
  | start | reset | toggle | delay =>
    cases hstep
    exact h.move hphy rfl rfl rfl rfl rfl rfl
  | poll =>
    cases hstep
    refine h.move hphy rfl ?_ rfl rfl rfl rfl
    split
    · rfl
    · rfl
  | lock =>
    obtain ⟨l, hl, rfl⟩ := Option.map_eq_some_iff.mp hstep
    rcases RecLock.take_cases hl with ⟨hfree, rfl⟩ | ⟨n, hheld, -⟩
    · refine ⟨fun hm => ?_, fun _ _ _ => rfl, by simp, fun _ _ => ⟨.setLink, rfl, rfl⟩,
        fun hm => ?_, h.status, h.link⟩
      · have hlock := h.main hm
        rw [hfree] at hlock
        cases hlock
      · have hnone := h.beforePhy hm
        rw [hphy] at hnone
        cases hnone
    · obtain ⟨st, hst, hin⟩ := h.ofPhy n hheld
      rw [hphy] at hst
      cases hst
      cases hin
  | setLink =>
    cases hstep
    unfold LinkState.netifSetLink
    split
    next => exact h.move hphy rfl rfl rfl rfl rfl rfl
    next =>
      split
      next => exact h.move hphy rfl rfl rfl rfl rfl rfl
      next => exact h.move hphy rfl rfl rfl rfl rfl rfl
  | callback c => exact h.linkCallback hphy hstep
  | unlock =>
    obtain ⟨l, hl, rfl⟩ := Option.map_eq_some_iff.mp hstep
    have hlock := h.phy .unlock hphy rfl
    rw [hlock] at hl
    cases hl
    refine ⟨fun hm => ?_, fun st hst hin => ?_, by simp, by simp, fun hm => ?_, h.status, h.link⟩
    · have hheld := h.main hm
      rw [hlock] at hheld
      cases hheld
    · cases hst
      cases hin
    · have hnone := h.beforePhy hm
      rw [hphy] at hnone
      cases hnone

/-- lwIP's thread takes the lock or gives it: it had been free or its own, and is again. -/
theorem tcpip {s : LinkState} {l : RecLock Task} (h : LockInv s)
    (hs : s.lock = .free ∨ ∃ n, s.lock = .held .tcpip n)
    (hl : l = .free ∨ ∃ n, l = .held .tcpip n) : LockInv { s with lock := l } where
  main := fun hm => by
    have hheld := h.main hm
    rcases hs with hfree | ⟨n, hn⟩
    · simp [hfree] at hheld
    · simp [hn] at hheld
  phy := fun st hst hin => by
    have hheld := h.phy st hst hin
    rcases hs with hfree | ⟨n, hn⟩
    · simp [hfree] at hheld
    · simp [hn] at hheld
  ofMain := by
    rcases hl with rfl | ⟨n, rfl⟩
    · simp
    · simp
  ofPhy := by
    rcases hl with rfl | ⟨n, rfl⟩
    · simp
    · simp
  beforePhy := h.beforePhy
  status := h.status
  link := h.link

theorem step {s t : LinkState} {a : LinkAct} (h : LockInv s) (hstep : linkStep s a = some t) :
    LockInv t := by
  cases a with
  | main => exact h.portEthInit hstep
  | phy =>
    obtain ⟨st, hst, hstep⟩ := Option.bind_eq_some_iff.mp hstep
    exact h.ethernetifPhy hst hstep
  | scsr status =>
    obtain ⟨⟨hphy, -⟩, heq⟩ := Option.ite_none_right_eq_some.mp hstep
    cases heq
    exact h.move hphy rfl rfl rfl rfl rfl rfl
  | tcpipTake =>
    obtain ⟨l, hl, rfl⟩ := Option.map_eq_some_iff.mp hstep
    rcases RecLock.take_cases hl with ⟨hs, rfl⟩ | ⟨n, hs, rfl⟩
    · exact h.tcpip (.inl hs) (.inr ⟨0, rfl⟩)
    · exact h.tcpip (.inr ⟨n, hs⟩) (.inr ⟨n + 1, rfl⟩)
  | tcpipGive =>
    obtain ⟨l, hl, rfl⟩ := Option.map_eq_some_iff.mp hstep
    rcases RecLock.give_cases hl with ⟨hs, rfl⟩ | ⟨n, hs, rfl⟩
    · exact h.tcpip (.inr ⟨0, hs⟩) (.inl rfl)
    · exact h.tcpip (.inr ⟨n + 1, hs⟩) (.inr ⟨n, rfl⟩)
  | chip a =>
    obtain ⟨c, -, rfl⟩ := Option.map_eq_some_iff.mp hstep
    exact ⟨h.main, h.phy, h.ofMain, h.ofPhy, h.beforePhy, h.status, h.link⟩

end LockInv

end EthernetIf

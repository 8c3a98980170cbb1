import EthernetIf.Lib.Progress
import EthernetIf.Link.Lock

/-!
# What the core lock is held for

`netif_guarded`: the interface is changed under the lock only, and whichever of `portEthInit` and
`ETH_phy` has the lock can go on — with one exception. `phy_negotiate` runs inside
`netifapi_netif_set_link_up`, so it waits for the PHY with the lock held, and while it waits
lwIP's own thread does not get the lock (`negotiation_holds_lock`).
-/

namespace EthernetIf

open Lts

/-- Whose step it is. -/
def LinkAct.task : LinkAct → Option Task
  | .main => some .main
  | .phy | .scsr _ => some .phy
  | .tcpipTake | .tcpipGive => some .tcpip
  | .chip _ => none

theorem lockInv_exec {maccr : BitVec 32} {chip : PhyChip} {as : List LinkAct} {s : LinkState}
    (hrun : exec linkStep (.init maccr chip) as = some s) : LockInv s :=
  exec_invariant (LockInv.init maccr chip) (fun _ _ _ h hstep => h.step hstep) hrun

/-! ## Under the lock only -/

/-- `portEthInit` changes the interface inside the lock. -/
theorem LinkState.inLock_of_portEthInit {s t : LinkState} (hstep : s.portEthInit = some t)
    (hne : t.netif ≠ s.netif) : s.main.inLock = true := by
  cases hmain : s.main with
  | lock =>
    simp only [LinkState.portEthInit, hmain] at hstep
    obtain ⟨l, -, rfl⟩ := Option.map_eq_some_iff.mp hstep
    exact absurd rfl hne
  | done => simp [LinkState.portEthInit, hmain] at hstep
  | _ => rfl

/-- So does `ETH_phy`. -/
theorem LinkState.inLock_of_ethernetifPhy {s t : LinkState} {st : PhyStmt}
    (hstep : s.ethernetifPhy st = some t) (hne : t.netif ≠ s.netif) : st.inLock = true := by
  cases st with
  | start | reset | poll | toggle | delay =>
    cases hstep
    exact absurd rfl hne
  | lock =>
    obtain ⟨l, -, rfl⟩ := Option.map_eq_some_iff.mp hstep
    exact absurd rfl hne
  | setLink | callback | unlock => rfl

/-! ## Whoever has the lock goes on -/

/-- `ETH_phy` waits for the end of the negotiation. -/
def LinkState.Negotiates (s : LinkState) : Prop := s.phy = some (.callback (.negotiate .waitDone))

theorem LockInv.main_enabled {s : LinkState} (h : LockInv s) {n : Nat}
    (hheld : s.lock = .held .main n) : ∃ t, linkStep s .main = some t := by
  have hin := h.ofMain n hheld
  cases hmain : s.main with
  | lock | done =>
    rw [hmain] at hin
    cases hin
  | unlock =>
    have hlock := h.main hin
    exact ⟨{ s with lock := .free, main := .done },
      by simp [linkStep, LinkState.portEthInit, hmain, hlock]⟩
  | _ => simp [linkStep, LinkState.portEthInit, hmain]

/-- A netif function of `netifapi` inside the lock. -/
theorem LinkState.netifapi_held {s : LinkState} {n : Nat} (hheld : s.lock = .held .phy n)
    (f : Netif → Netif) : s.netifapi f = some { s with netif := f s.netif } := by
  have htake : s.lock.take .phy = some (.held .phy (n + 1)) := by
    rw [hheld]
    rfl
  rw [LinkState.netifapi, htake, Option.bind_some, RecLock.give_held_succ, Option.map_some, hheld]

/-- The callback goes on with its next statement. -/
theorem LockInv.linkCallback_enabled {s : LinkState} {c : CbStmt}
    (hheld : s.lock = .held .phy 0) (hwait : c ≠ .negotiate .waitDone) :
    ∃ t, s.linkCallback c = some t := by
  have hnested : ∀ st f, (s.goto st).netifapi f = some { s.goto st with netif := f s.netif } := by
    intro st f
    exact LinkState.netifapi_held (s := s.goto st) hheld f
  cases c with
  | test => exact ⟨_, rfl⟩
  | negotiate n =>
    cases n with
    | waitDone => exact absurd rfl hwait
    | readMaccr | writeBcr | switch | writeMaccr => exact ⟨_, rfl⟩
  | setUp | dhcpStart | igmpStart | setDown | dhcpStop | igmpStop =>
    exact ⟨_, by rw [LinkState.linkCallback, hnested]⟩

theorem LockInv.phy_enabled {s : LinkState} (h : LockInv s) {n : Nat}
    (hheld : s.lock = .held .phy n) (hwait : ¬ s.Negotiates) :
    ∃ t, linkStep s .phy = some t := by
  obtain ⟨st, hphy, hin⟩ := h.ofPhy n hheld
  have hlock := h.phy st hphy hin
  have hstmt : ∃ t, s.ethernetifPhy st = some t := by
    cases st with
    | start | reset | poll | toggle | lock | delay => cases hin
    | setLink => exact ⟨_, rfl⟩
    | callback c =>
      apply LockInv.linkCallback_enabled hlock
      rintro rfl
      exact hwait hphy
    | unlock =>
      refine ⟨{ s.goto .delay with lock := .free }, ?_⟩
      rw [LinkState.ethernetifPhy, hlock, RecLock.give_held_zero, Option.map_some]
  obtain ⟨t, ht⟩ := hstmt
  exact ⟨t, by rw [linkStep, hphy]; exact ht⟩

/-- **The interface is guarded by the core lock**, in every state that any interleaving of the
    three tasks and the chip reaches. A step that changes the interface is a step of the task
    that has the lock. And a task of the driver that has the lock is never stopped by it, nor by
    another task: `portEthInit` can go on, and so can `ETH_phy`, unless it waits for the end of
    the negotiation. -/
theorem netif_guarded (maccr : BitVec 32) (chip : PhyChip) (as : List LinkAct) (s : LinkState)
    (hrun : exec linkStep (.init maccr chip) as = some s) :
    (∀ a t, linkStep s a = some t → t.netif ≠ s.netif →
      ∃ task, a.task = some task ∧ s.lock = .held task 0) ∧
    (∀ n, s.lock = .held .main n → ∃ t, linkStep s .main = some t) ∧
    (∀ n, s.lock = .held .phy n → s.Negotiates ∨ ∃ t, linkStep s .phy = some t) := by
  have h := lockInv_exec hrun
  refine ⟨fun a t hstep hne => ?_, fun n hn => h.main_enabled hn, fun n hn => ?_⟩
  · cases a with
    | main => exact ⟨.main, rfl, h.main (LinkState.inLock_of_portEthInit hstep hne)⟩
    | phy =>
      obtain ⟨st, hphy, hstep⟩ := Option.bind_eq_some_iff.mp hstep
      exact ⟨.phy, rfl, h.phy st hphy (LinkState.inLock_of_ethernetifPhy hstep hne)⟩
    | scsr status =>
      obtain ⟨-, heq⟩ := Option.ite_none_right_eq_some.mp hstep
      cases heq
      exact absurd rfl hne
    | tcpipTake | tcpipGive | chip =>
      obtain ⟨_, -, rfl⟩ := Option.map_eq_some_iff.mp hstep
      exact absurd rfl hne
  · by_cases hwait : s.Negotiates
    · exact .inl hwait
    · exact .inr (h.phy_enabled hn hwait)

/-- `ETH_phy` is about to raise the link flag. -/
theorem netif_guarded_setLink :
    ∃ s, exec linkStep (.init 0x8000#32
        { link := true, mode := ⟨true, true⟩, low := false, latched := fun h => by cases h })
        (List.replicate 12 .main ++ List.replicate 5 .phy) = some s ∧
      s.phy = some .setLink ∧ s.lock = .held .phy 0 ∧
      (s.Negotiates ∨ ∃ t, linkStep s .phy = some t) := by
  refine exists_exec (fun s => decide (s.phy = some .setLink ∧ s.lock = .held .phy 0))
    (by decide +kernel) fun s hrun hp => ?_
  obtain ⟨hphy, hlock⟩ := of_decide_eq_true hp
  exact ⟨hphy, hlock, (netif_guarded _ _ _ s hrun).2.2 0 hlock⟩

/-! ## Waiting with the lock held -/

/-- A reading that ends the wait. -/
def LinkAct.EndsWait (a : LinkAct) : Prop :=
  ∃ status, a = .scsr status ∧ tst status LAN87XX_SCSR_AUTODONE = true

/-- While `ETH_phy` waits, a step is one of the chip or a reading. -/
theorem LockInv.waits {s t : LinkState} {a : LinkAct} (h : LockInv s) (hwait : s.Negotiates)
    (ha : ¬ a.EndsWait) (hstep : linkStep s a = some t) :
    ((∃ status, a = .scsr status) ∨ ∃ c, a = .chip c) ∧ t.Negotiates ∧ t.lock = s.lock ∧
      t.netif = s.netif ∧ t.ETH_MACCR = s.ETH_MACCR := by
  have hlock : s.lock = .held .phy 0 := h.phy _ hwait rfl
  cases a with
  | main =>
    have hdone := h.main_done hwait rfl
    simp [linkStep, LinkState.portEthInit, hdone] at hstep
  | phy =>
    have hphy : s.phy = some (.callback (.negotiate .waitDone)) := hwait
    rw [linkStep, hphy] at hstep
    cases hstep
  | scsr status =>
    obtain ⟨-, heq⟩ := Option.ite_none_right_eq_some.mp hstep
    have hundone : tst status LAN87XX_SCSR_AUTODONE ≠ true := fun hd => ha ⟨status, rfl, hd⟩
    rw [if_neg hundone] at heq
    cases heq
    exact ⟨.inl ⟨status, rfl⟩, rfl, rfl, rfl, rfl⟩
  | tcpipTake =>
    rw [linkStep, hlock] at hstep
    cases hstep
  | tcpipGive =>
    rw [linkStep, hlock] at hstep
    cases hstep
  | chip c =>
    obtain ⟨chip, -, rfl⟩ := Option.map_eq_some_iff.mp hstep
    exact ⟨.inr ⟨c, rfl⟩, hwait, rfl, rfl, rfl⟩

/-- So it is for any number of them. -/
theorem LockInv.waits_exec {s t : LinkState} {as : List LinkAct} (h : LockInv s)
    (hwait : s.Negotiates) (has : ∀ a ∈ as, ¬ a.EndsWait) (hrun : exec linkStep s as = some t) :
    (∀ a ∈ as, (∃ status, a = .scsr status) ∨ ∃ c, a = .chip c) ∧ t.Negotiates ∧
      t.lock = s.lock ∧ t.netif = s.netif ∧ t.ETH_MACCR = s.ETH_MACCR := by
  induction as generalizing s with
  | nil =>
    cases hrun
    exact ⟨by simp, hwait, rfl, rfl, rfl⟩
  | cons a as ih =>
    obtain ⟨u, hu, hrun⟩ := Option.bind_eq_some_iff.mp hrun
    obtain ⟨hkind, hwait', hlock, hnetif, hmaccr⟩ :=
      h.waits hwait (has a List.mem_cons_self) hu
    obtain ⟨hkinds, hwait'', hlock', hnetif', hmaccr'⟩ :=
      ih (h.step hu) hwait' (fun b hb => has b (List.mem_cons_of_mem _ hb)) hrun
    exact ⟨List.forall_mem_cons.mpr ⟨hkind, hkinds⟩, hwait'', hlock'.trans hlock,
      hnetif'.trans hnetif, hmaccr'.trans hmaccr⟩

/-! ## From the end of the wait to the end of the lock -/

/-- The statements up to and with `UNLOCK_TCPIP_CORE`, where no wait is among them. -/
def PhyStmt.toGive : PhyStmt → Option Nat
  | .callback (.negotiate .switch) => some 6
  | .callback (.negotiate .writeMaccr) => some 5
  | .callback .setUp | .callback .setDown => some 4
  | .callback .dhcpStart | .callback .dhcpStop => some 3
  | .callback .igmpStart | .callback .igmpStop => some 2
  | .unlock => some 1
  | _ => none

def LinkState.toGive (s : LinkState) : Nat := (s.phy.bind PhyStmt.toGive).getD 0

/-- `ETH_phy` is on its way to give the lock. -/
def LinkState.Leaves (s : LinkState) : Prop :=
  LockInv s ∧ ∃ st n, s.phy = some st ∧ st.toGive = some n

theorem LinkState.Leaves.lock {s : LinkState} (h : s.Leaves) : s.lock = .held .phy 0 := by
  obtain ⟨hi, st, n, hphy, hn⟩ := h
  apply hi.phy st hphy
  cases st with
  | callback | unlock => rfl
  | _ => cases hn

/-- A statement on the way. -/
theorem LinkState.Leaves.phy {s t : LinkState} (h : s.Leaves)
    (hstep : linkStep s .phy = some t) : t.toGive < s.toGive ∧ (t.lock = .free ∨ t.Leaves) := by
  have hlock := h.lock
  have hi := h.1.step hstep
  obtain ⟨-, st, n, hphy, hn⟩ := h
  have hsn : s.toGive = n := by rw [LinkState.toGive, hphy, Option.bind_some, hn, Option.getD_some]
  have hnext : ∀ st' k, t.phy = some st' → st'.toGive = some k → k < n →
      t.toGive < s.toGive ∧ (t.lock = .free ∨ t.Leaves) := by
    intro st' k ht hk hlt
    refine ⟨?_, .inr ⟨hi, st', k, ht, hk⟩⟩
    rw [hsn, LinkState.toGive, ht, Option.bind_some, hk, Option.getD_some]
    exact hlt
  rw [linkStep, hphy, Option.bind_some] at hstep
  cases st with
  | start | reset | poll | toggle | lock | setLink | delay => cases hn
  | unlock =>
    rw [LinkState.ethernetifPhy, hlock, RecLock.give_held_zero, Option.map_some] at hstep
    cases hstep
    cases hn
    exact ⟨by rw [hsn]; exact Nat.one_pos, .inl rfl⟩
  | callback c =>
    cases c with
    | test => cases hn
    | negotiate st =>
      cases st with
      | readMaccr | writeBcr | waitDone => cases hn
      | switch | writeMaccr =>
        cases hn
        cases hstep
        exact hnext _ _ rfl rfl (by decide)
    | setUp | dhcpStart | igmpStart | setDown | dhcpStop | igmpStop =>
      cases hn
      simp only [LinkState.ethernetifPhy, LinkState.linkCallback] at hstep
      obtain rfl := LinkState.of_netifapi hstep
      exact hnext _ _ rfl rfl (by decide)

/-- `ETH_phy` does not wait any more. -/
theorem LinkState.Leaves.not_negotiates {s : LinkState} (h : s.Leaves) : ¬ s.Negotiates := by
  intro hw
  obtain ⟨-, st, n, hphy, hn⟩ := h
  cases hw.symm.trans hphy
  cases hn

/-- A turn of `ETH_phy`. -/
def LinkAct.phyTurn (a : LinkAct) (_ : Unit) : Prop := a = .phy

theorem LinkState.Leaves.helps {s : LinkState} (h : s.Leaves) :
    Helps linkStep (fun _ => True) LinkAct.phyTurn LinkState.toGive s () := by
  rintro a - rfl
  obtain ⟨t, ht⟩ := h.1.phy_enabled h.lock h.not_negotiates
  exact ⟨t, ht, (h.phy ht).1⟩

/-- The way is not barred by what the others do meanwhile. -/
theorem LinkState.Leaves.step {s t : LinkState} {a : LinkAct} (h : s.Leaves)
    (hstep : linkStep s a = some t) :
    t.lock = .free ∨
      (t.Leaves ∧ Descends (Helps linkStep (fun _ => True) LinkAct.phyTurn LinkState.toGive)
        LinkState.toGive s t) := by
  have hlock := h.lock
  cases a with
  | phy =>
    obtain ⟨hlt, hfree | hleaves⟩ := h.phy hstep
    · exact .inl hfree
    · exact .inr ⟨hleaves, .inl hlt⟩
  | main =>
    obtain ⟨hi, st, n, hphy, hn⟩ := h
    have hin : st.inLock = true := by
      cases st with
      | callback | unlock => rfl
      | _ => cases hn
    simp [linkStep, LinkState.portEthInit, hi.main_done hphy hin] at hstep
  | scsr status =>
    obtain ⟨⟨hphy, -⟩, -⟩ := Option.ite_none_right_eq_some.mp hstep
    exact absurd hphy h.not_negotiates
  | tcpipTake | tcpipGive =>
    rw [linkStep, hlock] at hstep
    cases hstep
  | chip c =>
    have hi := h.1.step hstep
    obtain ⟨chip, -, rfl⟩ := Option.map_eq_some_iff.mp hstep
    have hleaves : { s with chip := chip }.Leaves := ⟨hi, h.2⟩
    exact .inr ⟨hleaves, .inr ⟨rfl, fun _ _ => hleaves.helps⟩⟩

/-- **Negotiation stops the stack.** The tasks here are the three that the machine has:
    `portEthInit`, `ETH_phy` and lwIP's own thread (`ETH_input` is not in it). In every state
    that any interleaving of them and the PHY reaches with `ETH_phy` waiting for the end of the
    negotiation: until a reading has `LAN87XX_SCSR_AUTODONE`, whatever else happens, none of the
    three takes the core lock or gives it, none takes a statement but for the further readings of
    `ETH_phy`, and neither the interface nor `ETH_MACCR` changes. After the first such reading
    the lock is given, under every schedule that lets `ETH_phy` have its turn again and again. -/
theorem negotiation_holds_lock (maccr : BitVec 32) (chip : PhyChip) (as : List LinkAct)
    (s : LinkState) (hrun : exec linkStep (.init maccr chip) as = some s) (hwait : s.Negotiates) :
    (∀ bs t, (∀ a ∈ bs, ¬ a.EndsWait) → exec linkStep s bs = some t →
      (∀ a ∈ bs, (∃ status, a = .scsr status) ∨ ∃ c, a = .chip c) ∧
      t.Negotiates ∧ t.lock = .held .phy 0 ∧ t.netif = s.netif ∧ t.ETH_MACCR = s.ETH_MACCR) ∧
    (∀ a t, a.EndsWait → linkStep s a = some t → t.lock = .held .phy 0 ∧
      ∀ sched, Fair LinkAct.phyTurn sched → ∃ n, (follow linkStep t sched n).lock = .free) := by
  have h := lockInv_exec hrun
  have hlock : s.lock = .held .phy 0 := h.phy _ hwait rfl
  refine ⟨fun bs t hbs hrun => ?_, ?_⟩
  · rw [← hlock]
    exact h.waits_exec hwait hbs hrun
  · rintro a t ⟨status, rfl, hdone⟩ hstep
    have hi := h.step hstep
    obtain ⟨-, heq⟩ := Option.ite_none_right_eq_some.mp hstep
    rw [if_pos hdone] at heq
    cases heq
    refine ⟨hlock, fun sched hfair => ?_⟩
    exact eventually_of_rank (I := LinkState.Leaves) (L := fun _ => True)
      (fun u => u.lock = .free) LinkState.toGive (fun _ _ _ hl _ _ ht => hl.step ht)
      (fun _ hl _ => ⟨(), hl.helps⟩) ⟨hi, _, 6, rfl, rfl⟩ (fun _ => trivial) hfair

/-- The cable is pulled while `ETH_phy` waits: the readings go on, and the lock stays held. -/
theorem negotiation_holds_lock_pulled :
    ∃ s t, exec linkStep (.init 0x8000#32
        { link := true, mode := ⟨true, true⟩, low := false, latched := fun h => by cases h })
        (List.replicate 12 .main ++ List.replicate 9 .phy) = some s ∧
      exec linkStep s [.scsr (6#32 <<< 2), .chip .drop, .scsr (6#32 <<< 2)] = some t ∧
      s.Negotiates ∧ t.chip.link = false ∧ t.Negotiates ∧ t.lock = .held .phy 0 := by
  refine exists_init_exec (fun t => !t.chip.link) (by decide +kernel) fun s t hrun hnext hdown => ?_
  have hphy : (exec linkStep (.init 0x8000#32
      { link := true, mode := ⟨true, true⟩, low := false, latched := fun h => by cases h })
      (List.replicate 12 .main ++ List.replicate 9 .phy)).bind LinkState.phy =
        some (.callback (.negotiate .waitDone)) := by decide +kernel
  have hwait : s.Negotiates := by
    rw [hrun] at hphy
    exact hphy
  obtain ⟨-, hstill, hlock, -⟩ := (negotiation_holds_lock _ _ _ s hrun hwait).1 _ t (by
    simp [LinkAct.EndsWait, tst, LAN87XX_SCSR_AUTODONE]) hnext
  exact ⟨hwait, by simpa using hdown, hstill, hlock⟩

end EthernetIf

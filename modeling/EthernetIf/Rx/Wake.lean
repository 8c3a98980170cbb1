import EthernetIf.Rx.Model
import EthernetIf.Tx.Wake

/-!
# Neither DMA is left asleep on work it was given

The receive side first. The DMA suspends where it fetches a descriptor it does not own and sets
RBUS in the same step; `process_rx_descr` gives a descriptor back *before* it reads RBUS. So a
DMA that sleeps before a descriptor it owns is one whose call has yet to test the flag,
acknowledge it or poll, and RBUS is set until it does (`RxWake`). That takes no invariant of
the ring: it does not matter which descriptor was given back, nor where the DMA stands.

The transmit side has its half in `Tx/Wake`, and `no_lost_wakeup` is both.
-/

namespace EthernetIf

open Lts Ring

variable {P A : Type}

/-- The statements behind the hand-over that look after a suspended DMA. -/
def RxStmt.waking : RxStmt → Bool
  | .testRbus | .ackRbus | .poll => true
  | _ => false

structure RxWake (s : RxState P A) : Prop where
  rbus : s.suspended = true → s.rbus = true ∨ s.call = some .poll
  parked : s.suspended = true → (s.ring s.pos).own = true →
    ∃ st, s.call = some st ∧ st.waking = true

/-- A store that leaves OWN of its descriptor alone leaves all of them alone. -/
theorem own_store (s : RxState P A) {f : DmaDesc P A → DmaDesc P A}
    (hf : (f s.desc).own = s.desc.own) (i : Nat) : ((s.store f).ring i).own = (s.ring i).own := by
  simp only [RxState.store]
  by_cases hi : i = s.cur
  · subst hi
    rw [Function.update_self, hf]
    rfl
  · rw [Function.update_of_ne hi]

theorem own_setLen (s : RxState P A) (i : Nat) : (s.setLen.ring i).own = (s.ring i).own := by
  unfold RxState.setLen
  exact own_store s rfl i

theorem own_setBuf (s : RxState P A) (i : Nat) : (s.setBuf.ring i).own = (s.ring i).own := by
  unfold RxState.setBuf
  exact own_store s rfl i

theorem own_setPbuf (s : RxState P A) (fresh : Option (Pbuf P A)) (i : Nat) :
    ((s.setPbuf fresh).ring i).own = (s.ring i).own := by
  unfold RxState.setPbuf
  exact own_store s rfl i

/-- Outside the waking statements a suspended DMA stands before a descriptor of the CPU, and
    stays there as long as nothing is handed over. -/
theorem RxWake.keep {s t : RxState P A} (h : RxWake s)
    (hcall : ∀ st, s.call = some st → st.waking = false) (hsus : t.suspended = s.suspended)
    (hrbus : t.rbus = s.rbus) (hown : (t.ring t.pos).own = (s.ring s.pos).own) : RxWake t where
  rbus := fun hs => by
    rcases h.rbus (hsus ▸ hs) with htrue | hpoll
    · exact .inl (hrbus.trans htrue)
    · exact absurd (hcall _ hpoll) (by simp [RxStmt.waking])
  parked := fun hs ho => by
    obtain ⟨st, hst, hw⟩ := h.parked (hsus ▸ hs) (hown ▸ ho)
    exact absurd hw (by simp [hcall st hst])

theorem rxWake_cpu {s t : RxState P A} {st : RxStmt} (h : RxWake s) (hcall : s.call = some st)
    (hstep : s.stmt st .cpu = some t) : RxWake t := by
  -- what the statements that are not waking have in common
  have hkeep : st.waking = false → ∀ st', s.call = some st' → st'.waking = false := by
    intro hw st' hst'
    obtain rfl := Option.some.inj (hcall.symm.trans hst')
    exact hw
  cases st with
  | input | alloc => simp [RxState.stmt] at hstep
  | checkOwn | checkPbuf | checkFlags | checkAlloc =>
    cases hstep
    split <;> exact h.keep (hkeep rfl) rfl rfl rfl
  | free | advance =>
    cases hstep
    exact h.keep (hkeep rfl) rfl rfl rfl
  | setLen =>
    cases hstep
    exact h.keep (hkeep rfl) rfl rfl (own_setLen s s.pos)
  | setBuf =>
    cases hstep
    exact h.keep (hkeep rfl) rfl rfl (own_setBuf s s.pos)
  | setOwn =>
    cases hstep
    refine ⟨fun hs => ?_, fun _ _ => ⟨.testRbus, rfl, rfl⟩⟩
    rcases h.rbus hs with htrue | hpoll
    · exact .inl htrue
    · exact absurd (hkeep rfl _ hpoll) (by simp [RxStmt.waking])
  | testRbus =>
    cases hstep
    split
    next hrbus => exact ⟨fun _ => .inl hrbus, fun _ _ => ⟨.ackRbus, rfl, rfl⟩⟩
    next hrbus =>
      -- RBUS reads clear here, so the DMA is not suspended
      have hrun : s.suspended ≠ true := by
        intro hs
        rcases h.rbus hs with htrue | hpoll
        · exact hrbus htrue
        · exact absurd (Option.some.inj (hcall.symm.trans hpoll)) (by simp)
      exact ⟨fun hs => absurd hs hrun, fun hs => absurd hs hrun⟩
  | ackRbus =>
    cases hstep
    exact ⟨fun _ => .inr rfl, fun _ _ => ⟨.poll, rfl, rfl⟩⟩
  | poll =>
    cases hstep
    exact ⟨fun hs => absurd hs (by simp [RxState.poll, RxState.goto]),
      fun hs => absurd hs (by simp [RxState.poll, RxState.goto])⟩

theorem rxWake_dma {s t : RxState P A} {w : BitVec 32} (hstep : s.dma w = some t) :
    RxWake t := by
  obtain ⟨hsus, ⟨-, rfl⟩ | ⟨hown, rfl⟩⟩ := rxDma_cases hstep
  · exact ⟨fun hs => absurd (hsus.symm.trans hs) (by simp),
      fun hs => absurd (hsus.symm.trans hs) (by simp)⟩
  · exact ⟨fun _ => .inl rfl, fun _ ho => absurd (ho.symm.trans hown) (by simp)⟩

theorem rxWake_step {s t : RxState P A} {a : RxAct P A} (h : RxWake s)
    (hstep : rxStep s a = some t) : RxWake t := by
  rcases rxStep_cases hstep with ⟨-, hcall, rfl⟩ | ⟨w, -, hdma⟩ | ⟨-, st, hcall, hst⟩ |
    ⟨accept, -, hcall, rfl⟩ | ⟨fresh, -, hcall, rfl⟩
  · exact h.keep (fun st hst => absurd (hcall.symm.trans hst) (by simp)) rfl rfl rfl
  · exact rxWake_dma hdma
  · exact rxWake_cpu h hcall hst
  · refine h.keep (fun st hst => ?_) rfl rfl rfl
    obtain rfl := Option.some.inj (hcall.symm.trans hst)
    rfl
  · refine h.keep (fun st hst => ?_) rfl rfl (own_setPbuf s fresh s.pos)
    obtain rfl := Option.some.inj (hcall.symm.trans hst)
    rfl

theorem rxWake_exec {N B : Nat} {alloc : Nat → Option (Pbuf P A)} {s₀ s : RxState P A}
    {as : List (RxAct P A)} (hinit : RxState.init N B alloc = some s₀)
    (h : exec rxStep s₀ as = some s) : RxWake s := by
  obtain ⟨ring, -, rfl⟩ := Option.map_eq_some_iff.mp hinit
  refine exec_invariant (I := RxWake) ?_ (fun _ _ _ hi hs => rxWake_step hi hs) h
  exact ⟨fun hs => absurd hs (by simp), fun hs => absurd hs (by simp)⟩

/-- Between calls, what a suspended transmit DMA has consumed is all there is, and the
    descriptor it stands at is idle. -/
theorem TxWake.parked {N : Nat} (hN : 0 < N) {s : TxState P A} [DecidableEq P]
    (hi : TxInv N s) (h : TxWake s) (hcall : s.call = none) (hsus : s.suspended = true) :
    (s.ring s.pos).own = false := by
  have hdrained := h.drained hsus
  have hqueued := (hi.quiet hcall).1
  have hle := hi.ring.wire_le
  simp only [TxState.inCall, hcall, Nat.add_zero] at hdrained
  have hall : s.queued = s.wire.length := by omega
  rw [hi.ring.pos, ← hall, hi.ring.own_queued hN]
  omega

/-- **No lost wake-up.** Whatever a run has been, when `ethernetif_output` has returned a
    suspended transmit DMA stands at a descriptor the CPU owns, and when `process_rx_descr`
    has returned — with either result — a suspended receive DMA does. -/
theorem no_lost_wakeup [DecidableEq P] (N : Nat) (hN : 0 < N) :
    (∀ (as : List (TxAct P A)) (s : TxState P A), exec txStep (TxState.init P A N) as = some s →
      s.call = none → s.suspended = true → (s.ring s.pos).own = false) ∧
    (∀ (B : Nat) (alloc : Nat → Option (Pbuf P A)) (s₀ : RxState P A) (as : List (RxAct P A))
      (s : RxState P A), RxState.init N B alloc = some s₀ → exec rxStep s₀ as = some s →
      s.call = none → s.suspended = true → (s.ring s.pos).own = false) := by
  constructor
  · intro as s hrun hcall hsus
    obtain ⟨hinv, hwake⟩ := txWake_exec hN hrun
    exact hwake.parked hN hinv hcall hsus
  · intro B alloc s₀ as s hinit hrun hcall hsus
    by_contra hown
    rw [Bool.not_eq_false] at hown
    obtain ⟨st, hst, -⟩ := (rxWake_exec hinit hrun).parked hsus hown
    exact absurd (hcall.symm.trans hst) (by simp)

/-- The DMA sleeps, is given a frame, wakes to the poll, sends it, and sleeps again. -/
theorem no_lost_wakeup_sleep :
    ∃ s : TxState Nat Nat,
      exec txStep (TxState.init Nat Nat 1) (.dma 0#32 :: .output
        { head := { addr := 0, payload := 0, tot_len := 1, len := 1 }, tail := [],
          nodup := by decide } :: List.replicate 16 .cpu ++ [.dma 0#32, .dma 0#32]) = some s ∧
      s.wire.length = 1 ∧ s.suspended = true ∧ (s.ring s.pos).own = false := by
  refine exists_exec (fun s => s.wire.length == 1 && (s.call.isNone && s.suspended))
    (by decide +kernel) fun s hrun hp => ?_
  simp only [Bool.and_eq_true, beq_iff_eq, Option.isNone_iff_eq_none] at hp
  obtain ⟨hwire, hcall, hsus⟩ := hp
  exact ⟨hwire, hsus, (no_lost_wakeup 1 (by decide)).1 _ s hrun hcall hsus⟩

end EthernetIf

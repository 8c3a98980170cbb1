import EthernetIf.Tx.Invariant

/-!
# A suspended transmit DMA

The DMA suspends only where it has consumed everything handed over, and sets TBUS in the same
step; only the poll demand at the end of `ethernetif_output` wakes it. So while it is
suspended, what it has not consumed was submitted by the running call, and TBUS is set unless
the call has already acknowledged it and is about to poll (`TxWake`).
-/

namespace EthernetIf

open Lts Ring

variable {P A : Type}

/-- How many fragments the running call was given. -/
def TxState.inCall (s : TxState P A) : Nat :=
  match s.call with
  | none => 0
  | some c => c.p.frags.length

structure TxWake (s : TxState P A) : Prop where
  tbus : s.suspended = true → s.tbus = true ∨ ∃ c, s.call = some c ∧ c.stmt = .poll
  drained : s.suspended = true → (entriesOf s.sent).length ≤ s.wire.length + s.inCall

variable [DecidableEq P]

omit [DecidableEq P] in
/-- A statement of the call that keeps it running. -/
theorem TxWake.ofCall {s t : TxState P A} {c d : TxCall P A} (h : TxWake s)
    (hcall : s.call = some c) (hpoll : c.stmt ≠ .poll) (ht : t.call = some d)
    (hp : d.p = c.p) (hsus : t.suspended = s.suspended)
    (htbus : t.tbus = s.tbus ∨ d.stmt = .poll) (hsent : t.sent = s.sent)
    (hwire : t.wire = s.wire) : TxWake t where
  tbus := fun hs => by
    rcases htbus with heq | hd
    · rcases h.tbus (hsus ▸ hs) with htrue | ⟨c', hc', hstmt⟩
      · exact .inl (heq.trans htrue)
      · obtain rfl := Option.some.inj (hcall.symm.trans hc')
        exact absurd hstmt hpoll
    · exact .inr ⟨d, ht, hd⟩
  drained := fun hs => by
    have hold := h.drained (hsus ▸ hs)
    simp only [TxState.inCall, hcall] at hold
    simp only [TxState.inCall, ht, hp, hsent, hwire]
    exact hold

theorem txWake_ethernetifOutput {s t : TxState P A} (h : TxWake s)
    (hstep : s.ethernetifOutput = some t) : TxWake t := by
  obtain ⟨c, hcall, ⟨hstmt, rfl⟩ | ⟨f, q, hstmt, -, rfl⟩ | ⟨hstmt, -, rfl⟩ | ⟨hstmt, htbus, rfl⟩ |
    ⟨hstmt, rfl⟩ | ⟨hstmt, rfl⟩⟩ := ethernetifOutput_cases hstep
  · exact h.ofCall hcall (by simp [hstmt]) rfl rfl rfl (.inl rfl) rfl rfl
  · obtain ⟨hsus, htbus, hsent, hwire, ⟨-, -, heq⟩ | ⟨g, -, hg⟩ | ⟨-, hnext⟩⟩ :=
      processTxDescr_cases s c q f
    · rw [heq]
      exact h
    · exact h.ofCall hcall (by simp [hstmt]) hg rfl hsus (.inl htbus) hsent hwire
    · exact h.ofCall hcall (by simp [hstmt]) hnext rfl hsus (.inl htbus) hsent hwire
  · exact h.ofCall hcall (by simp [hstmt]) rfl rfl rfl (.inl rfl) rfl rfl
  · -- TBUS reads clear here, so the DMA is not suspended
    have hrun : s.suspended ≠ true := by
      intro hs
      rcases h.tbus hs with htrue | ⟨c', hc', hstmt'⟩
      · exact absurd (htbus.symm.trans htrue) (by simp)
      · obtain rfl := Option.some.inj (hcall.symm.trans hc')
        simp [hstmt] at hstmt'
    exact ⟨fun hs => absurd hs hrun, fun hs => absurd hs hrun⟩
  · exact h.ofCall hcall (by simp [hstmt]) rfl rfl rfl (.inr rfl) rfl rfl
  · exact ⟨fun hs => absurd hs (by simp), fun hs => absurd hs (by simp)⟩

theorem txWake_step {N : Nat} (hN : 0 < N) {s t : TxState P A} {a : TxAct P A}
    (hi : TxInv N s) (h : TxWake s) (hstep : txStep s a = some t) : TxWake t := by
  cases a with
  | output p =>
    obtain ⟨hcall, rfl⟩ := txStep_output hstep
    refine ⟨fun hs => ?_, fun hs => ?_⟩
    · rcases h.tbus hs with htrue | ⟨c, hc, -⟩
      · exact .inl htrue
      · exact absurd (hcall.symm.trans hc) (by simp)
    · have hold := h.drained hs
      simp only [TxState.inCall, hcall, Nat.add_zero] at hold
      simp only [TxState.inCall, entriesOf_snoc, List.length_append, PbufChain.length_entries]
      omega
  | cpu => exact txWake_ethernetifOutput h hstep
  | dma wb =>
    obtain ⟨hrun, ⟨-, rfl⟩ | ⟨hwire, rfl⟩⟩ := hi.ring.dma_cases hN hstep
    · exact ⟨fun hs => absurd (hrun.symm.trans hs) (by simp),
        fun hs => absurd (hrun.symm.trans hs) (by simp)⟩
    · refine ⟨fun _ => .inl rfl, fun _ => ?_⟩
      show (entriesOf s.sent).length ≤ s.wire.length + s.inCall
      rw [hwire]
      unfold TxState.inCall
      cases hcall : s.call with
      | none => exact Nat.le_of_eq (hi.quiet hcall).1.symm
      | some c =>
        obtain ⟨base, hat⟩ := hi.call c hcall
        obtain ⟨pre, hsent, hbase⟩ := hat.sent
        have hqueued := hat.queued
        simp only [hsent, entriesOf_snoc, List.length_append, PbufChain.length_entries, hbase]
        omega

theorem txWake_exec {N : Nat} (hN : 0 < N) {as : List (TxAct P A)} {s : TxState P A}
    (h : exec txStep (TxState.init P A N) as = some s) : TxInv N s ∧ TxWake s :=
  exec_invariant (I := fun s => TxInv N s ∧ TxWake s)
    ⟨TxInv.init hN, fun hs => absurd hs (by simp [TxState.init]),
      fun hs => absurd hs (by simp [TxState.init])⟩
    (fun _ _ _ hi hs => ⟨txInv_step hN hi.1 hs, txWake_step hN hi.1 hi.2 hs⟩) h

end EthernetIf

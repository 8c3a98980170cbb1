import EthernetIf.Tx.Wake

/-!
# When transmission deadlocks

`process_tx_descr` waits for OWN to clear inside the loop over the fragments, and the poll
demand that wakes a suspended DMA comes after the loop. So a call that needs a descriptor it
has itself handed over, while the DMA sleeps, waits for ever. That takes a chain longer than
the ring — and any such chain does it, when the DMA happens to be idle.
-/

namespace EthernetIf

open Lts Ring

variable {P A : Type}

/-- The CPU waits at the OWN loop for a descriptor of a suspended DMA. -/
def Deadlocked (s : TxState P A) : Prop :=
  ∃ c, s.call = some c ∧ c.stmt = .frag .wait ∧ (s.ring s.cur).own = true ∧ s.suspended = true

variable [DecidableEq P]

/-- No step of either party leaves a deadlock: the CPU spins, the DMA sleeps, and no second
    call gets the lock. -/
theorem Deadlocked.stuck {s t : TxState P A} {a : TxAct P A} (h : Deadlocked s)
    (hstep : txStep s a = some t) : t = s := by
  obtain ⟨c, hcall, hstmt, hown, hsus⟩ := h
  cases a with
  | output p => simp [txStep, hcall] at hstep
  | dma wb => simp [txStep, TxState.dma, hsus] at hstep
  | cpu =>
    simp only [txStep, TxState.ethernetifOutput, hcall, hstmt] at hstep
    obtain ⟨q, -, rfl⟩ := Option.map_eq_some_iff.mp hstep
    simp [TxState.processTxDescr, hown]

/-! ## Chains that fit never deadlock -/

/-- While the DMA is suspended the unconsumed entries are the running call's own, so the next
    slot is idle as long as the chain is no longer than the ring. -/
theorem not_deadlocked_of_fits {N : Nat} (hN : 0 < N) {s : TxState P A} (hi : TxInv N s)
    (hw : TxWake s) (hfits : ∀ p ∈ s.sent, p.frags.length ≤ N) : ¬ Deadlocked s := by
  rintro ⟨c, hcall, hstmt, hown, hsus⟩
  obtain ⟨base, hat⟩ := hi.call c hcall
  obtain ⟨pre, hsent, hbase⟩ := hat.sent
  obtain ⟨q, hq, -⟩ := hat.frag .wait hstmt
  have hlt := TxCall.lt_of_q hq
  have hlen := hfits c.p (hi.sent_of_call hcall)
  have hdrained := hw.drained hsus
  have hqueued := hat.queued
  rw [if_neg (by simp [hstmt])] at hqueued
  simp only [TxState.inCall, hcall, hsent, entriesOf_snoc, List.length_append,
    PbufChain.length_entries, hbase] at hdrained
  have hidle := (hi.ring.own_queued hN).mpr (by omega)
  rw [← hat.cur_eq (by simp [hstmt])] at hidle
  exact absurd (hown.symm.trans hidle) (by simp)

/-! ## A chain that does not fit deadlocks an idle DMA -/

/-- A call on a chain longer than the ring, not yet through its loop, with the DMA asleep
    since before the call. -/
def Starving (N : Nat) (s : TxState P A) : Prop :=
  s.suspended = true ∧ ∃ c, s.call = some c ∧ (c.stmt = .loop ∨ ∃ f, c.stmt = .frag f) ∧
    N < c.p.frags.length ∧ (entriesOf s.sent).length = s.wire.length + c.p.frags.length

/-- Statements the loop has left to take. -/
def TxCall.remaining (c : TxCall P A) : Nat :=
  (c.p.frags.length - c.k) * 12 +
    match c.stmt with
    | .frag f => 10 - f.ctorIdx
    | _ => 11

def TxState.remaining (s : TxState P A) : Nat :=
  match s.call with
  | none => 0
  | some c => c.remaining

omit [DecidableEq P] in
theorem Starving.ofCall {N : Nat} {s t : TxState P A} {c d : TxCall P A}
    (h : Starving N s) (hcall : s.call = some c) (ht : t.call = some d) (hp : d.p = c.p)
    (hd : d.stmt = .loop ∨ ∃ f, d.stmt = .frag f) (hsus : t.suspended = s.suspended)
    (hsent : t.sent = s.sent) (hwire : t.wire = s.wire) : Starving N t := by
  obtain ⟨hs, c', hc', -, hlen, htotal⟩ := h
  obtain rfl := Option.some.inj (hcall.symm.trans hc')
  exact ⟨hsus.trans hs, d, ht, hd, by rw [hp]; exact hlen, by rw [hp, hsent, hwire]; exact htotal⟩

/-- A starving call spins, or takes a statement and still starves. -/
theorem Starving.step {N : Nat} {s : TxState P A} (hi : TxInv N s)
    (h : Starving N s) :
    Deadlocked s ∨
      ∃ t, txStep s .cpu = some t ∧ Starving N t ∧ t.remaining < s.remaining := by
  obtain ⟨hsus, c, hcall, hloop, hlen, htotal⟩ := id h
  obtain ⟨base, hat⟩ := hi.call c hcall
  obtain ⟨pre, hsent, hbase⟩ := hat.sent
  simp only [hsent, entriesOf_snoc, List.length_append, PbufChain.length_entries, hbase]
    at htotal
  have hqueued := hat.queued
  have hqle := hi.ring.queued_le
  rcases hloop with hstmt | ⟨f, hstmt⟩
  · -- the loop cannot end: that would have put more than `N` descriptors in flight
    rw [if_neg (by simp [hstmt])] at hqueued
    have hlt : c.k < c.p.frags.length := by have := hat.le; omega
    have hq : c.q.isSome = true := by simp [TxCall.q, hlt]
    right
    refine ⟨s.goto c (.frag .wait), ?_, ?_, ?_⟩
    · simp [txStep, TxState.ethernetifOutput, hcall, hstmt, hq]
    · exact h.ofCall hcall rfl rfl (.inr ⟨_, rfl⟩) rfl rfl rfl
    · simp [TxState.remaining, TxState.goto, TxCall.remaining, hcall, hstmt,
        FragStmt.ctorIdx]
  · obtain ⟨q, hq, -⟩ := hat.frag f hstmt
    have hlt := TxCall.lt_of_q hq
    have hstep : txStep s .cpu = some (s.processTxDescr c q f) := by
      simp [txStep, TxState.ethernetifOutput, hcall, hstmt, hq]
    obtain ⟨hsus', -, hsent', hwire', ⟨rfl, hown, -⟩ | ⟨g, hfg, hg⟩ | ⟨-, hnext⟩⟩ :=
      processTxDescr_cases s c q f
    · exact .inl ⟨c, hcall, hstmt, hown, hsus⟩
    · right
      refine ⟨_, hstep, h.ofCall hcall hg rfl (.inr ⟨_, rfl⟩) hsus' hsent' hwire', ?_⟩
      have hg10 : g.ctorIdx ≤ 10 := by cases g <;> decide
      simp only [TxState.remaining, TxCall.remaining, hcall, hg, hstmt]
      omega
    · right
      refine ⟨_, hstep, h.ofCall hcall hnext rfl (.inl rfl) hsus' hsent' hwire', ?_⟩
      simp only [TxState.remaining, TxCall.remaining, hcall, hnext, hstmt]
      omega

/-- Left to itself, a starving call deadlocks. -/
theorem Starving.deadlocks {N : Nat} (hN : 0 < N) {s : TxState P A} (hi : TxInv N s)
    (h : Starving N s) :
    ∃ n t, exec txStep s (List.replicate n .cpu) = some t ∧ Deadlocked t := by
  induction hm : s.remaining using Nat.strong_induction_on generalizing s with
  | _ m ih =>
    subst hm
    rcases h.step hi with hdead | ⟨t, hstep, ht, hlt⟩
    · exact ⟨0, s, rfl, hdead⟩
    · obtain ⟨n, u, hrun, hdead⟩ := ih _ hlt (txInv_step hN hi hstep) ht rfl
      refine ⟨n + 1, u, ?_, hdead⟩
      rw [List.replicate_succ, exec_cons, hstep]
      exact hrun

/-- The run: the DMA finds the ring empty and suspends, then the chain is sent. -/
theorem deadlock_of_long {N : Nat} (hN : 0 < N) (p : PbufChain P A) (hp : N < p.frags.length) :
    ∃ n s, exec txStep (TxState.init P A N)
      (.dma 0#32 :: .output p :: List.replicate n .cpu) = some s ∧ Deadlocked s := by
  have hinit := TxInv.init (P := P) (A := A) hN
  have hdma : txStep (TxState.init P A N) (.dma 0#32) = some (TxState.init P A N).suspend := by
    have hown := (hinit.ring.own_queued hN).mpr (by simpa [TxState.init] using hN)
    have hslot : ((TxState.init P A N).ring (TxState.init P A N).pos).own = false := by
      simpa [TxState.init] using hown
    simp only [txStep, TxState.dma, hslot]
    rfl
  have hi := txInv_step hN hinit hdma
  have hstep : txStep (TxState.init P A N).suspend (.output p) = some _ := rfl
  obtain ⟨n, t, hrun, hdead⟩ := Starving.deadlocks hN (txInv_step hN hi hstep)
    ⟨rfl, _, rfl, .inl rfl, hp, by simp [TxState.suspend, TxState.init, entriesOf,
      PbufChain.length_entries]⟩
  refine ⟨n, t, ?_, hdead⟩
  rw [exec_cons, hdma, Option.bind_some, exec_cons, hstep]
  exact hrun

/-- **Transmission is free of deadlock exactly when no chain is longer than the ring**: for
    the chains of a set `S`, no interleaving of any sequence of calls with the DMA ever reaches
    the CPU waiting for a suspended DMA if and only if each of them has at most `N`
    fragments. -/
theorem tx_deadlockFree_iff (N : Nat) (hN : 0 < N) (S : Set (PbufChain P A)) :
    (∀ as s, (∀ p, TxAct.output p ∈ as → p ∈ S) →
      exec txStep (TxState.init P A N) as = some s → ¬ Deadlocked s) ↔
    ∀ p ∈ S, p.frags.length ≤ N := by
  constructor
  · intro hfree p hp
    by_contra hlong
    obtain ⟨n, s, hrun, hdead⟩ := deadlock_of_long hN p (by omega)
    refine hfree _ s (fun p' hp' => ?_) hrun hdead
    simp only [List.mem_cons, reduceCtorEq, TxAct.output.injEq, List.mem_replicate, and_false,
      or_false, false_or] at hp'
    exact hp' ▸ hp
  · intro hfits as s hcalls hrun
    obtain ⟨hi, hw⟩ := txWake_exec hN hrun
    exact not_deadlocked_of_fits hN hi hw fun p hp =>
      hfits p (hcalls p (mem_sent_exec hrun p hp))

/-- A chain of two pbufs on a ring of two, queued while the DMA is asleep. -/
theorem tx_deadlockFree_pair :
    ∃ s : TxState Nat Nat,
      exec txStep (TxState.init Nat Nat 2) (.dma 0#32 :: .output
        { head := { addr := 0, payload := 0, tot_len := 2, len := 1 },
          tail := [{ addr := 1, payload := 1, tot_len := 1, len := 1 }],
          nodup := by decide } :: List.replicate 24 .cpu) = some s ∧
      s.queued = 2 ∧ ¬ Deadlocked s := by
  apply exists_exec (fun s => s.queued == 2) (by decide +kernel)
  intro s hrun hs
  refine ⟨by simpa using hs, (tx_deadlockFree_iff 2 (by decide) { p | p.frags.length ≤ 2 }).mpr
    (fun _ hp => hp) _ s (fun p hp => ?_) hrun⟩
  simp only [List.mem_cons, reduceCtorEq, TxAct.output.injEq, List.mem_replicate, and_false,
    or_false, false_or] at hp
  subst hp
  show 2 ≤ 2
  exact Nat.le_refl 2

/-- Eleven one-byte pbufs, one more than the ring of `STIF_NUM_TX_DMA_DESC` has slots. -/
def elevenPbufs : PbufChain Nat Nat where
  head := { addr := 0, payload := 0, tot_len := 11, len := 1 }
  tail := (List.range 10).map fun i =>
    { addr := i + 1, payload := i + 1, tot_len := 1, len := 1 }
  nodup := by decide

theorem elevenPbufs_deadlocks :
    ∃ n s, exec txStep (TxState.init Nat Nat 10)
      (.dma 0#32 :: .output elevenPbufs :: List.replicate n .cpu) = some s ∧ Deadlocked s :=
  deadlock_of_long (by decide) elevenPbufs (by decide)

end EthernetIf

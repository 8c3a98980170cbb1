import EthernetIf.Tx.Ring

/-!
# The invariant of the transmit machine

`TxRing` plus where the running call is (`TxCallAt`): which fragments it has published and,
statement by statement, how much of the next descriptor is filled in (`Filled`).

`txInv_step` is the one place where the statements of the two C functions are gone through;
every theorem about the transmit ring is read off the invariant afterwards.
-/

namespace EthernetIf

open Lts Ring

variable {P A : Type}

/-! ## The running call -/

section Call

variable [DecidableEq P]

/-- How much of the descriptor at the cursor the statements before `f` have filled in. Past
    the wait there is room on the ring; the rest accumulates field by field. -/
def Filled (N : Nat) (s : TxState P A) (c : TxCall P A) (q : Pbuf P A) : FragStmt → Prop
  | .wait | .advance => True
  | .freeOld | .ref | .setPbuf | .clearFrame => s.queued < s.wire.length + N
  | .setFirst =>
      s.queued < s.wire.length + N ∧
        (s.ring s.cur).entry.first = false ∧ (s.ring s.cur).entry.last = false
  | .setLast =>
      s.queued < s.wire.length + N ∧
        (s.ring s.cur).entry.first = c.first q ∧ (s.ring s.cur).entry.last = false
  | .setBuf =>
      s.queued < s.wire.length + N ∧
        (s.ring s.cur).entry.first = c.first q ∧ (s.ring s.cur).entry.last = c.last
  | .setSize =>
      s.queued < s.wire.length + N ∧
        (s.ring s.cur).entry.first = c.first q ∧ (s.ring s.cur).entry.last = c.last ∧
        (s.ring s.cur).entry.payload = some q.payload
  | .setOwn => s.queued < s.wire.length + N ∧ (s.ring s.cur).entry = c.entryAt q

/-- Where a running call is. `base` is the number of entries submitted before it; at
    `advance` the current fragment is already handed over, everywhere else it is not. -/
structure TxCallAt (N : Nat) (s : TxState P A) (c : TxCall P A) (base : Nat) : Prop where
  sent : ∃ pre, s.sent = pre ++ [c.p] ∧ (entriesOf pre).length = base
  cur : s.cur = (base + c.k) % N
  queued : s.queued = base + c.k + (if c.stmt = .frag .advance then 1 else 0)
  le : c.k ≤ c.p.frags.length
  tail : c.stmt = .testTbus ∨ c.stmt = .ackTbus ∨ c.stmt = .poll → c.k = c.p.frags.length
  frag : ∀ f, c.stmt = .frag f → ∃ q, c.q = some q ∧ Filled N s c q f

/-- **The invariant of the transmit machine.** -/
structure TxInv (N : Nat) (s : TxState P A) : Prop where
  ring : TxRing N s
  quiet : s.call = none → s.queued = (entriesOf s.sent).length ∧ s.cur = s.queued % N
  call : ∀ c, s.call = some c → ∃ base, TxCallAt N s c base

/-- Past the wait there is room, and the cursor is at the first idle slot. -/
theorem Filled.room {N : Nat} {s : TxState P A} {c : TxCall P A} {q : Pbuf P A} {f : FragStmt}
    (h : Filled N s c q f) (hw : f ≠ .wait) (ha : f ≠ .advance) :
    s.queued < s.wire.length + N := by
  cases f with
  | wait => exact absurd rfl hw
  | advance => exact absurd rfl ha
  | freeOld | ref | setPbuf | clearFrame => exact h
  | setFirst | setLast | setBuf | setSize | setOwn => exact h.1

theorem TxCallAt.cur_eq {N base : Nat} {s : TxState P A} {c : TxCall P A}
    (h : TxCallAt N s c base) (ha : c.stmt ≠ .frag .advance) : s.cur = s.queued % N := by
  have hq := h.queued
  rw [if_neg ha, Nat.add_zero] at hq
  rw [hq]
  exact h.cur

theorem TxInv.init {N : Nat} (hN : 0 < N) : TxInv N (TxState.init P A N) where
  ring := TxRing.init hN
  quiet := fun _ => ⟨rfl, (Nat.zero_mod N).symm⟩
  call := fun _ hc => absurd hc (by simp [TxState.init])

/-- The running call is on the chain submitted last. -/
theorem TxInv.sent_of_call {N : Nat} {s : TxState P A} {c : TxCall P A} (h : TxInv N s)
    (hcall : s.call = some c) : c.p ∈ s.sent := by
  obtain ⟨base, hat⟩ := h.call c hcall
  obtain ⟨pre, hsent, -⟩ := hat.sent
  simp [hsent]

theorem TxInv.ofCall {N b : Nat} {s : TxState P A} {c : TxCall P A} (hr : TxRing N s)
    (hc : s.call = some c) (h : TxCallAt N s c b) : TxInv N s where
  ring := hr
  quiet := fun hn => absurd (hn.symm.trans hc) (by simp)
  call := fun c' hc' => by
    obtain rfl := Option.some.inj (hc.symm.trans hc')
    exact ⟨b, h⟩

/-- On to the next statement of `process_tx_descr`, short of the last one. -/
theorem TxCallAt.goto {N base : Nat} {s t : TxState P A} {c : TxCall P A} {q : Pbuf P A}
    {f g : FragStmt} (h : TxCallAt N s c base) (hf : c.stmt = .frag f) (hfa : f ≠ .advance)
    (hga : g ≠ .advance) (hq : c.q = some q) (hs : t.sent = s.sent) (hc : t.cur = s.cur)
    (hn : t.queued = s.queued) (hfill : Filled N t c q g) :
    TxCallAt N t { c with stmt := .frag g } base where
  sent := hs ▸ h.sent
  cur := hc ▸ h.cur
  queued := by
    have hold := h.queued
    rw [if_neg (by simpa [hf] using hfa)] at hold
    rw [if_neg (by simpa using hga), hn]
    exact hold
  le := h.le
  tail := by simp
  frag := fun g' hg => by
    obtain rfl : g = g' := by simpa using hg
    exact ⟨q, hq, by cases g <;> exact hfill⟩

/-! ### The statements of `process_tx_descr` -/

/-- A statement that stores into the descriptor without handing it over. -/
theorem TxInv.stored {N base : Nat} {s : TxState P A} {c : TxCall P A} {q : Pbuf P A}
    {f g : FragStmt} {u : DmaDesc P A → DmaDesc P A} (hr : TxRing N s)
    (h : TxCallAt N s c base) (hf : c.stmt = .frag f) (hfa : f ≠ .advance) (hga : g ≠ .advance)
    (hq : c.q = some q) (hroom : s.queued < s.wire.length + N)
    (hlink : ∀ d, (u d).Buffer2NextDescAddr = d.Buffer2NextDescAddr)
    (hbits : ∀ d, d.keepsInitBits = true → (u d).keepsInitBits = true)
    (hown : ∀ d, (u d).own = d.own) (hfill : Filled N (s.store u) c q g) :
    TxInv N ((s.store u).goto c (.frag g)) := by
  have hcur := h.cur_eq (by simpa [hf] using hfa)
  have hidle : (u (s.ring s.cur)).own = false := by
    rw [hown, hcur]
    exact hr.idle s.queued (Nat.le_refl _) hroom
  refine .ofCall (b := base)
    ((hr.store hcur hroom (hlink _) (hbits _) hidle).congr rfl rfl rfl rfl rfl) rfl ?_
  refine h.goto hf hfa hga hq rfl rfl rfl ?_
  cases g <;> exact hfill

/-- A statement that leaves the ring alone. -/
theorem TxInv.moved {N base : Nat} {s t : TxState P A} {c : TxCall P A} {q : Pbuf P A}
    {f g : FragStmt} (hr : TxRing N s) (h : TxCallAt N s c base) (hf : c.stmt = .frag f)
    (hfa : f ≠ .advance) (hga : g ≠ .advance) (hq : c.q = some q)
    (hring : t.ring = s.ring) (hcur : t.cur = s.cur) (hpos : t.pos = s.pos)
    (hwire : t.wire = s.wire) (hn : t.queued = s.queued) (hs : t.sent = s.sent)
    (hfill : Filled N t c q g) : TxInv N (t.goto c (.frag g)) := by
  refine .ofCall (b := base) (hr.congr hring hpos hwire hn hs) rfl ?_
  refine h.goto hf hfa hga hq hs hcur hn ?_
  cases g <;> exact hfill

/-- The descriptor goes to the DMA, with the entry of the fragment the call is at. -/
theorem TxInv.handedOver {N base : Nat} {s : TxState P A} {c : TxCall P A} {q : Pbuf P A}
    (hr : TxRing N s) (h : TxCallAt N s c base) (hf : c.stmt = .frag .setOwn)
    (hq : c.q = some q) (hfill : Filled N s c q .setOwn) :
    TxInv N (s.processTxDescr c q .setOwn) := by
  obtain ⟨hroom, hentry⟩ := hfill
  obtain ⟨pre, hsent, hbase⟩ := h.sent
  have hqueued := h.queued
  rw [if_neg (by simp [hf]), Nat.add_zero] at hqueued
  have hfly : Flies (entriesOf s.sent) s.queued
      { s.ring s.cur with Status := (s.ring s.cur).Status ||| ETH_TDES0_OWN } := by
    refine ⟨?_, ?_⟩
    · simp [DmaDesc.own, tst_or, tdes0_flags]
    · rw [hsent, entriesOf_snoc, hqueued,
        List.getElem?_append_right (by omega), hbase, Nat.add_sub_cancel_left,
        TxCall.entries_getElem? hq, ← hentry]
      simp [DmaDesc.entry, tst_or, tdes0_flags]
  have hring := hr.handOver (h.cur_eq (by simp [hf])) hroom
    (d := { s.ring s.cur with Status := (s.ring s.cur).Status ||| ETH_TDES0_OWN })
    rfl (keepsInitBits_or _) hfly rfl
  refine .ofCall (b := base) (c := { c with stmt := .frag .advance })
    (hring.congr rfl rfl rfl rfl rfl) rfl ?_
  refine ⟨h.sent, h.cur, ?_, h.le, by simp, fun g hg => ?_⟩
  · show s.queued + 1 = _
    rw [hqueued]
    rfl
  · obtain rfl : .advance = g := by simpa using hg
    exact ⟨q, hq, trivial⟩

/-- The cursor follows the link to the next slot, and the call the chain to the next fragment. -/
theorem TxInv.advanced {N base : Nat} (hN : 0 < N) {s : TxState P A} {c : TxCall P A}
    {q : Pbuf P A} (hr : TxRing N s) (h : TxCallAt N s c base) (hf : c.stmt = .frag .advance)
    (hq : c.q = some q) : TxInv N (s.processTxDescr c q .advance) := by
  have hlt := TxCall.lt_of_q hq
  have hqueued := h.queued
  rw [if_pos hf] at hqueued
  refine .ofCall (b := base) (c := { c with k := c.k + 1, stmt := .loop })
    (hr.congr rfl rfl rfl rfl rfl) rfl ⟨h.sent, ?_, ?_, hlt, by simp, by simp⟩
  · show (s.ring s.cur).Buffer2NextDescAddr = _
    rw [h.cur, hr.link _ (Nat.mod_lt _ hN), succ_mod]
    rfl
  · show s.queued = base + (c.k + 1) + 0
    omega

theorem txInv_processTxDescr {N base : Nat} (hN : 0 < N) {s : TxState P A} {c : TxCall P A}
    {q : Pbuf P A} {f : FragStmt} (hr : TxRing N s) (hcall : s.call = some c)
    (h : TxCallAt N s c base) (hf : c.stmt = .frag f) (hq : c.q = some q)
    (hfill : Filled N s c q f) : TxInv N (s.processTxDescr c q f) := by
  cases f with
  | wait =>
    simp only [TxState.processTxDescr]
    split
    next hown => exact .ofCall hr hcall h
    next hown =>
      refine .moved hr h hf (by simp) (by simp) hq rfl rfl rfl rfl rfl rfl ?_
      show s.queued < s.wire.length + N
      rw [← hr.own_queued hN, ← h.cur_eq (by simp [hf])]
      simpa using hown
  | freeOld =>
    simp only [TxState.processTxDescr]
    split
    · exact .moved hr h hf (by simp) (by simp) hq rfl rfl rfl rfl rfl rfl hfill
    · exact .moved hr h hf (by simp) (by simp) hq rfl rfl rfl rfl rfl rfl hfill
  | ref => exact .moved hr h hf (by simp) (by simp) hq rfl rfl rfl rfl rfl rfl hfill
  | setPbuf =>
    exact .stored hr h hf (by simp) (by simp) hq hfill (fun _ => rfl) (fun _ hd => hd)
      (fun _ => rfl) hfill
  | clearFrame =>
    refine .stored hr h hf (by simp) (by simp) hq hfill (fun _ => rfl)
      (fun _ hd => keepsInitBits_clearFrame hd) (fun d => ?_) ⟨hfill, ?_, ?_⟩
    · exact tst_clear_of_disjoint d.Status (by decide)
    · rw [store_ring_cur]
      exact tst_clear_of_subset (s.ring s.cur).Status (by decide)
    · rw [store_ring_cur]
      exact tst_clear_of_subset (s.ring s.cur).Status (by decide)
  | setFirst =>
    obtain ⟨hroom, hfs, hls⟩ := hfill
    simp only [TxState.processTxDescr]
    split
    next hfirst =>
      refine .stored hr h hf (by simp) (by simp) hq hroom (fun _ => rfl)
        (fun _ hd => keepsInitBits_or _ hd) (fun d => ?_) ⟨hroom, ?_, ?_⟩
      · simp [DmaDesc.own, tst_or, tdes0_flags]
      · simp [DmaDesc.entry, tst_or, tdes0_flags, hfirst]
      · simpa [DmaDesc.entry, tst_or, tdes0_flags] using hls
    next hfirst =>
      refine .moved hr h hf (by simp) (by simp) hq rfl rfl rfl rfl rfl rfl ⟨hroom, ?_, hls⟩
      rw [hfs]
      simpa using hfirst
  | setLast =>
    obtain ⟨hroom, hfs, hls⟩ := hfill
    simp only [TxState.processTxDescr]
    split
    next hlast =>
      refine .stored hr h hf (by simp) (by simp) hq hroom (fun _ => rfl)
        (fun _ hd => keepsInitBits_or _ hd) (fun d => ?_) ⟨hroom, ?_, ?_⟩
      · simp [DmaDesc.own, tst_or, tdes0_flags]
      · simpa [DmaDesc.entry, tst_or, tdes0_flags] using hfs
      · simp [DmaDesc.entry, tst_or, tdes0_flags, hlast]
    next hlast =>
      refine .moved hr h hf (by simp) (by simp) hq rfl rfl rfl rfl rfl rfl ⟨hroom, hfs, ?_⟩
      rw [hls]
      simpa using hlast
  | setBuf =>
    obtain ⟨hroom, hfs, hls⟩ := hfill
    refine .stored hr h hf (by simp) (by simp) hq hroom (fun _ => rfl) (fun _ hd => hd)
      (fun _ => rfl) ⟨hroom, ?_, ?_, ?_⟩
    · simpa [DmaDesc.entry] using hfs
    · simpa [DmaDesc.entry] using hls
    · simp [DmaDesc.entry]
  | setSize =>
    obtain ⟨hroom, hfs, hls, hpay⟩ := hfill
    refine .stored hr h hf (by simp) (by simp) hq hroom (fun _ => rfl) (fun _ hd => hd)
      (fun _ => rfl) ⟨hroom, ?_⟩
    simp only [DmaDesc.entry] at hfs hls hpay
    simp [DmaDesc.entry, TxCall.entryAt, hpay, ← hfs, ← hls]
  | setOwn => exact .handedOver hr h hf hq hfill
  | advance => exact .advanced hN hr h hf hq

/-- What a statement of `process_tx_descr` does to the call, and what it never touches: it
    spins, goes on to another statement of the same fragment, or on to the next fragment. -/
theorem processTxDescr_cases (s : TxState P A) (c : TxCall P A) (q : Pbuf P A) (f : FragStmt) :
    (s.processTxDescr c q f).suspended = s.suspended ∧
    (s.processTxDescr c q f).tbus = s.tbus ∧
    (s.processTxDescr c q f).sent = s.sent ∧
    (s.processTxDescr c q f).wire = s.wire ∧
    ((f = .wait ∧ (s.ring s.cur).own = true ∧ s.processTxDescr c q f = s) ∨
      (∃ g, f.ctorIdx < g.ctorIdx ∧
        (s.processTxDescr c q f).call = some { c with stmt := .frag g }) ∨
      (f = .advance ∧
        (s.processTxDescr c q f).call = some { c with k := c.k + 1, stmt := .loop })) := by
  cases f with
  | wait =>
    rw [TxState.processTxDescr]
    split
    next hown => exact ⟨rfl, rfl, rfl, rfl, .inl ⟨rfl, hown, rfl⟩⟩
    next => exact ⟨rfl, rfl, rfl, rfl, .inr (.inl ⟨_, by decide, rfl⟩)⟩
  | freeOld | setFirst | setLast =>
    rw [TxState.processTxDescr]
    split <;> exact ⟨rfl, rfl, rfl, rfl, .inr (.inl ⟨_, by decide, rfl⟩)⟩
  | ref | setPbuf | clearFrame | setBuf | setSize | setOwn =>
    exact ⟨rfl, rfl, rfl, rfl, .inr (.inl ⟨_, by decide, rfl⟩)⟩
  | advance => exact ⟨rfl, rfl, rfl, rfl, .inr (.inr ⟨rfl, rfl⟩)⟩

/-- The call stays on its chain. -/
theorem chain_processTxDescr {s : TxState P A} {c c' : TxCall P A} {q : Pbuf P A} {f : FragStmt}
    (hcall : s.call = some c) (hc' : (s.processTxDescr c q f).call = some c') : c'.p = c.p := by
  obtain ⟨-, -, -, -, ⟨-, -, heq⟩ | ⟨g, -, hg⟩ | ⟨-, hnext⟩⟩ := processTxDescr_cases s c q f
  · rw [heq] at hc'
    obtain rfl := Option.some.inj (hcall.symm.trans hc')
    rfl
  · obtain rfl := Option.some.inj (hg.symm.trans hc')
    rfl
  · obtain rfl := Option.some.inj (hnext.symm.trans hc')
    rfl

/-- Only a call submits. -/
theorem sent_ethernetifOutput {s t : TxState P A} (hstep : s.ethernetifOutput = some t) :
    t.sent = s.sent := by
  obtain ⟨c, -, ⟨-, rfl⟩ | ⟨f, q, -, -, rfl⟩ | ⟨-, -, rfl⟩ | ⟨-, -, rfl⟩ | ⟨-, rfl⟩ | ⟨-, rfl⟩⟩ :=
    ethernetifOutput_cases hstep
  · rfl
  · exact (processTxDescr_cases _ _ _ _).2.2.1
  · rfl
  · rfl
  · rfl
  · rfl

omit [DecidableEq P] in
theorem sent_dma {s t : TxState P A} {wb : BitVec 32} (hstep : s.dma wb = some t) :
    t.sent = s.sent := by
  obtain ⟨-, ⟨-, rfl⟩ | ⟨-, rfl⟩⟩ := txDma_cases hstep
  · rfl
  · rfl

/-! ### Every step -/

theorem TxCallAt.loop {N base : Nat} {s : TxState P A} {c : TxCall P A}
    (h : TxCallAt N s c base) (hstmt : c.stmt = .loop) :
    TxCallAt N (s.goto c (if c.q.isSome then .frag .wait else .testTbus))
      { c with stmt := if c.q.isSome then .frag .wait else .testTbus } base where
  sent := h.sent
  cur := h.cur
  queued := by
    have hqueued := h.queued
    rw [if_neg (by simp [hstmt])] at hqueued
    have hna : (if c.q.isSome then TxStmt.frag .wait else .testTbus) ≠ .frag .advance := by
      split <;> simp
    rw [if_neg hna]
    exact hqueued
  le := h.le
  tail := fun ht => by
    cases hq : c.q with
    | some q => simp [hq] at ht
    | none =>
      have hge : c.p.frags.length ≤ c.k := List.getElem?_eq_none_iff.mp hq
      exact Nat.le_antisymm h.le hge
  frag := fun f hf => by
    cases hq : c.q with
    | none => simp [hq] at hf
    | some q =>
      obtain rfl : .wait = f := by simpa [hq] using hf
      exact ⟨q, hq, trivial⟩

/-- The statements after the loop leave the position of the call alone. -/
theorem TxCallAt.tailStmt {N base : Nat} {s t : TxState P A} {c : TxCall P A} {g : TxStmt}
    (h : TxCallAt N s c base) (hc : c.stmt = .testTbus ∨ c.stmt = .ackTbus)
    (hg : g = .ackTbus ∨ g = .poll) (hs : t.sent = s.sent) (hcur : t.cur = s.cur)
    (hn : t.queued = s.queued) : TxCallAt N t { c with stmt := g } base where
  sent := hs ▸ h.sent
  cur := hcur ▸ h.cur
  queued := by
    have hqueued := h.queued
    rw [if_neg (by rcases hc with hc | hc <;> simp [hc])] at hqueued
    rw [if_neg (by rcases hg with rfl | rfl <;> simp), hn]
    exact hqueued
  le := h.le
  tail := fun _ => h.tail (by rcases hc with hc | hc <;> simp [hc])
  frag := fun f hf => by rcases hg with rfl | rfl <;> simp at hf

/-- A call that returns has handed over its whole chain. -/
theorem TxInv.return {N base : Nat} {s t : TxState P A} {c : TxCall P A}
    (h : TxCallAt N s c base) (hc : c.stmt = .testTbus ∨ c.stmt = .poll) (ht : TxRing N t)
    (hcall : t.call = none) (hs : t.sent = s.sent) (hcur : t.cur = s.cur)
    (hn : t.queued = s.queued) : TxInv N t where
  ring := ht
  quiet := fun _ => by
    obtain ⟨pre, hsent, hbase⟩ := h.sent
    have hna : c.stmt ≠ .frag .advance := by rcases hc with hc | hc <;> simp [hc]
    have hqueued := h.queued
    rw [if_neg hna, h.tail (by rcases hc with hc | hc <;> simp [hc])] at hqueued
    refine ⟨?_, ?_⟩
    · rw [hn, hs, hsent, entriesOf_snoc, List.length_append, hbase,
        PbufChain.length_entries, hqueued, Nat.add_zero]
    · rw [hcur, hn]
      exact h.cur_eq hna
  call := fun c' hc' => absurd (hcall.symm.trans hc') (by simp)

theorem txInv_ethernetifOutput {N : Nat} (hN : 0 < N) {s t : TxState P A} (h : TxInv N s)
    (hstep : s.ethernetifOutput = some t) : TxInv N t := by
  obtain ⟨c, hcall, hcases⟩ := ethernetifOutput_cases hstep
  obtain ⟨base, hat⟩ := h.call c hcall
  rcases hcases with ⟨hstmt, rfl⟩ | ⟨f, q, hstmt, hq, rfl⟩ | ⟨hstmt, -, rfl⟩ | ⟨hstmt, -, rfl⟩ |
    ⟨hstmt, rfl⟩ | ⟨hstmt, rfl⟩
  · exact .ofCall (h.ring.congr rfl rfl rfl rfl rfl) rfl (hat.loop hstmt)
  · obtain ⟨q', hq', hfill⟩ := hat.frag f hstmt
    obtain rfl := Option.some.inj (hq.symm.trans hq')
    exact txInv_processTxDescr hN h.ring hcall hat hstmt hq hfill
  · exact .ofCall (h.ring.congr rfl rfl rfl rfl rfl) rfl
      (hat.tailStmt (.inl hstmt) (.inl rfl) rfl rfl rfl)
  · exact .return hat (.inl hstmt) (h.ring.congr rfl rfl rfl rfl rfl) rfl rfl rfl rfl
  · exact .ofCall (h.ring.congr rfl rfl rfl rfl rfl) rfl
      (hat.tailStmt (.inr hstmt) (.inr rfl) rfl rfl rfl)
  · exact .return hat (.inr hstmt) (h.ring.congr rfl rfl rfl rfl rfl) rfl rfl rfl rfl

/-- The DMA closes the oldest flying slot, which is not the slot a call is filling in. -/
theorem Filled.transmit {N : Nat} {s : TxState P A} {c : TxCall P A} {q : Pbuf P A}
    {f : FragStmt} (hr : TxRing N s) (wb : BitVec 32) (hlt : s.wire.length < s.queued)
    (hcur : f ≠ .advance → s.cur = s.queued % N) (h : Filled N s c q f) :
    Filled N (s.transmit wb) c q f := by
  have hroom : s.queued < s.wire.length + N →
      (s.transmit wb).queued < (s.transmit wb).wire.length + N := by
    intro hlt'
    rw [length_transmit_wire]
    show s.queued < _
    omega
  have hslot : f ≠ .wait → f ≠ .advance →
      (s.transmit wb).ring (s.transmit wb).cur = s.ring s.cur := by
    intro hw ha
    refine Function.update_of_ne ?_ _ _
    show s.cur ≠ s.pos
    rw [hcur ha, hr.pos]
    exact (mod_ne_of_lt hlt (h.room hw ha)).symm
  cases f with
  | wait | advance => trivial
  | freeOld | ref | setPbuf | clearFrame => exact hroom h
  | setFirst | setLast | setBuf | setSize | setOwn =>
    simp only [Filled, hslot (by simp) (by simp)]
    exact ⟨hroom h.1, h.2⟩

theorem txInv_dma {N : Nat} (hN : 0 < N) {s t : TxState P A} {wb : BitVec 32} (h : TxInv N s)
    (hstep : s.dma wb = some t) : TxInv N t := by
  obtain ⟨-, ⟨hlt, rfl⟩ | ⟨-, rfl⟩⟩ := h.ring.dma_cases hN hstep
  · refine ⟨h.ring.transmit hN wb hlt, h.quiet, fun c hc => ?_⟩
    obtain ⟨base, hat⟩ := h.call c hc
    refine ⟨base, hat.sent, hat.cur, hat.queued, hat.le, hat.tail, fun f hf => ?_⟩
    obtain ⟨q, hq, hfill⟩ := hat.frag f hf
    exact ⟨q, hq, hfill.transmit h.ring wb hlt fun ha => hat.cur_eq (by simpa [hf] using ha)⟩
  · refine ⟨h.ring.suspend, h.quiet, fun c hc => ?_⟩
    obtain ⟨base, hat⟩ := h.call c hc
    refine ⟨base, hat.sent, hat.cur, hat.queued, hat.le, hat.tail, fun f hf => ?_⟩
    obtain ⟨q, hq, hfill⟩ := hat.frag f hf
    exact ⟨q, hq, by cases f <;> exact hfill⟩

theorem TxInv.submit {N : Nat} {s : TxState P A} (h : TxInv N s) (hcall : s.call = none)
    (p : PbufChain P A) :
    TxInv N { s with
      call := some { p := p, k := 0, stmt := .loop }, sent := s.sent ++ [p] } := by
  obtain ⟨hqueued, hcur⟩ := h.quiet hcall
  refine .ofCall (b := (entriesOf s.sent).length) (h.ring.submit p _) rfl
    ⟨⟨s.sent, rfl, rfl⟩, ?_, ?_, Nat.zero_le _, by simp, by simp⟩
  · rw [← hqueued]
    exact hcur
  · exact hqueued

/-- **Every step of the transmit machine keeps the invariant.** -/
theorem txInv_step {N : Nat} (hN : 0 < N) {s t : TxState P A} {a : TxAct P A}
    (h : TxInv N s) (hstep : txStep s a = some t) : TxInv N t := by
  cases a with
  | output p =>
    obtain ⟨hcall, rfl⟩ := txStep_output hstep
    exact h.submit hcall p
  | cpu => exact txInv_ethernetifOutput hN h hstep
  | dma wb => exact txInv_dma hN h hstep

/-- **Every run keeps the invariant.** -/
theorem txInv_exec {N : Nat} (hN : 0 < N) {as : List (TxAct P A)} {s : TxState P A}
    (h : exec txStep (TxState.init P A N) as = some s) : TxInv N s :=
  exec_invariant (TxInv.init hN) (fun _ _ _ hi hs => txInv_step hN hi hs) h

/-- The chains submitted in a run are the ones it called with. -/
theorem mem_sent_exec {N : Nat} {as : List (TxAct P A)} {s : TxState P A}
    (h : exec txStep (TxState.init P A N) as = some s) :
    ∀ p ∈ s.sent, TxAct.output p ∈ as := by
  refine exec_history (P := fun as s => ∀ p ∈ s.sent, TxAct.output p ∈ as)
    (fun p hp => absurd hp (by simp [TxState.init])) ?_ h
  intro as s a t _ ih hstep p hp
  cases a with
  | output p' =>
    obtain ⟨-, rfl⟩ := txStep_output hstep
    rcases List.mem_append.mp hp with hold | hnew
    · exact List.mem_append_left _ (ih p hold)
    · obtain rfl := List.mem_singleton.mp hnew
      simp
  | cpu =>
    rw [sent_ethernetifOutput hstep] at hp
    exact List.mem_append_left _ (ih p hp)
  | dma wb =>
    rw [sent_dma hstep] at hp
    exact List.mem_append_left _ (ih p hp)

end Call

end EthernetIf

import EthernetIf.Tx.Invariant

/-!
# The references of the transmit ring

`process_tx_descr` frees what it finds in the descriptor, then takes a reference to the new
pbuf and stores it: the reference of a fragment is given up by the fragment that uses the same
slot next, `N` later. `refd` and `freed` record the two kinds of calls, and `TxRefs` says what
they contain at every moment:

    refd    the addresses of the submitted fragments, in order, as far as the calls got
    freed   the same list again, N entries behind
    slot k % N, before use k    the pbuf of use k - N, or NULL in the first turn
-/

namespace EthernetIf

open Lts Ring

variable {P A : Type}

/-! ## Where the running call is between its reference counts -/

/-- `pbuf_free` of the old pbuf is done for the current fragment. -/
def FragStmt.pastFree : FragStmt → Bool
  | .wait | .freeOld | .advance => false
  | _ => true

/-- `pbuf_ref` is done too. -/
def FragStmt.pastRef : FragStmt → Bool
  | .wait | .freeOld | .ref | .advance => false
  | _ => true

/-- … and the pointer is stored. -/
def FragStmt.pastStore : FragStmt → Bool
  | .wait | .freeOld | .ref | .setPbuf | .advance => false
  | _ => true

/-- 1 while the running call is at a statement of the kind `f`. -/
def TxState.phase (s : TxState P A) (f : FragStmt → Bool) : Nat :=
  match s.call with
  | none => 0
  | some c => match c.stmt with
    | .frag g => if f g then 1 else 0
    | _ => 0

theorem TxState.phase_frag {s : TxState P A} {c : TxCall P A} {f : FragStmt}
    (hcall : s.call = some c) (hstmt : c.stmt = .frag f) (g : FragStmt → Bool) :
    s.phase g = if g f then 1 else 0 := by
  simp [TxState.phase, hcall, hstmt]

theorem TxState.phase_eq_zero {s : TxState P A}
    (h : ∀ c, s.call = some c → ∀ f, c.stmt ≠ .frag f) (g : FragStmt → Bool) :
    s.phase g = 0 := by
  unfold TxState.phase
  split
  · rfl
  next c hcall =>
    split
    next f hstmt => exact absurd hstmt (h c hcall f)
    next => rfl

/-- The addresses of the fragments submitted, in order. -/
def addrsOf (sent : List (PbufChain P A)) : List P :=
  sent.flatMap fun c => c.frags.map Pbuf.addr

/-- What the slot of use `k` holds from its previous use. -/
def previous (N : Nat) (refd : List P) (k : Nat) : Option P :=
  if k < N then none else refd[k - N]?

theorem addrsOf_snoc (sent : List (PbufChain P A)) (p : PbufChain P A) :
    addrsOf (sent ++ [p]) = addrsOf sent ++ p.frags.map Pbuf.addr := by
  simp [addrsOf]

theorem length_addrsOf (sent : List (PbufChain P A)) :
    (addrsOf sent).length = (entriesOf sent).length := by
  induction sent with
  | nil => rfl
  | cons p sent ih =>
    simp only [addrsOf, entriesOf, List.flatMap_cons, List.length_append, List.length_map,
      PbufChain.length_entries] at ih ⊢
    rw [ih]

/-- **The reference log.** -/
structure TxRefs (N : Nat) (s : TxState P A) : Prop where
  refd_eq : s.refd = (addrsOf s.sent).take s.refd.length
  freed_eq : s.freed = s.refd.take s.freed.length
  refd_len : s.refd.length = s.queued + s.phase FragStmt.pastRef
  freed_len : s.freed.length = s.queued + s.phase FragStmt.pastFree - N
  slots : Window N s.ring (fun k d => d.pbuf.map Pbuf.addr = previous N s.refd k)
    (s.queued + s.phase FragStmt.pastStore) (s.queued + s.phase FragStmt.pastStore + N)

theorem TxRefs.init {N : Nat} : TxRefs N (TxState.init P A N) where
  refd_eq := rfl
  freed_eq := rfl
  refd_len := rfl
  freed_len := (Nat.zero_sub N).symm
  slots := fun k hk hkN => by
    have hlt : k < N := by simpa [TxState.init, TxState.phase] using hkN
    have hslot : (initTxDmaDesc N (k % N) : DmaDesc P A).pbuf = none := by
      rw [initTxDmaDesc_apply (Nat.mod_lt k (by omega))]
      rfl
    show (initTxDmaDesc N (k % N) : DmaDesc P A).pbuf.map _ = _
    rw [hslot, previous, if_pos hlt]
    rfl

/-- A step that moves no reference. -/
theorem TxRefs.congr {N : Nat} {s t : TxState P A} (h : TxRefs N s) (hfreed : t.freed = s.freed)
    (hrefd : t.refd = s.refd) (hpbuf : ∀ i, (t.ring i).pbuf = (s.ring i).pbuf)
    (hsent : ∃ more, addrsOf t.sent = addrsOf s.sent ++ more)
    (hf : t.queued + t.phase FragStmt.pastFree = s.queued + s.phase FragStmt.pastFree)
    (hr : t.queued + t.phase FragStmt.pastRef = s.queued + s.phase FragStmt.pastRef)
    (hst : t.queued + t.phase FragStmt.pastStore = s.queued + s.phase FragStmt.pastStore) :
    TxRefs N t := by
  obtain ⟨more, hmore⟩ := hsent
  have hle : s.refd.length ≤ (addrsOf s.sent).length := by
    have hlen := congrArg List.length h.refd_eq
    rw [List.length_take] at hlen
    omega
  constructor
  · rw [hrefd, hmore, List.take_append_of_le_length hle]
    exact h.refd_eq
  · rw [hfreed, hrefd]
    exact h.freed_eq
  · rw [hrefd, hr]
    exact h.refd_len
  · rw [hfreed, hf]
    exact h.freed_len
  · rw [hst, hrefd]
    intro k hk hkN
    rw [hpbuf]
    exact h.slots k hk hkN

/-- A step that leaves the sent chains alone adds nothing to them. -/
theorem addrsOf_same {s t : TxState P A} (h : t.sent = s.sent) :
    ∃ more, addrsOf t.sent = addrsOf s.sent ++ more := ⟨[], by rw [h, List.append_nil]⟩

/-- On to a statement of the same phase. -/
theorem TxRefs.goto {N : Nat} {s t : TxState P A} {c : TxCall P A} {f g : FragStmt}
    (h : TxRefs N s) (hcall : s.call = some c) (hstmt : c.stmt = .frag f)
    (hfree : f.pastFree = g.pastFree) (href : f.pastRef = g.pastRef)
    (hstore : f.pastStore = g.pastStore) (hfreed : t.freed = s.freed) (hrefd : t.refd = s.refd)
    (hpbuf : ∀ i, (t.ring i).pbuf = (s.ring i).pbuf) (hsent : t.sent = s.sent)
    (hn : t.queued = s.queued) : TxRefs N (t.goto c (.frag g)) := by
  have hphase := s.phase_frag hcall hstmt
  have hphase' : ∀ F, (t.goto c (.frag g)).phase F = if F g then 1 else 0 := fun _ => rfl
  have hn : (t.goto c (.frag g)).queued = s.queued := hn
  refine h.congr hfreed hrefd hpbuf (addrsOf_same hsent) ?_ ?_ ?_
  · rw [hn, hphase, hphase', hfree]
  · rw [hn, hphase, hphase', href]
  · rw [hn, hphase, hphase', hstore]

/-- A test. -/
theorem TxRefs.jump {N : Nat} {s : TxState P A} {c : TxCall P A} {f g : FragStmt}
    (h : TxRefs N s) (hcall : s.call = some c) (hstmt : c.stmt = .frag f)
    (hfree : f.pastFree = g.pastFree) (href : f.pastRef = g.pastRef)
    (hstore : f.pastStore = g.pastStore) : TxRefs N (s.goto c (.frag g)) :=
  h.goto hcall hstmt hfree href hstore rfl rfl (fun _ => rfl) rfl rfl

/-- A store that leaves the pointer alone, once the pointer was stored. -/
theorem TxRefs.stored {N : Nat} {s : TxState P A} {c : TxCall P A} {f g : FragStmt}
    {u : DmaDesc P A → DmaDesc P A} (h : TxRefs N s) (hcall : s.call = some c)
    (hstmt : c.stmt = .frag f) (hf : f.pastStore = true) (hg : g.pastStore = true)
    (hu : ∀ d, (u d).pbuf = d.pbuf) : TxRefs N ((s.store u).goto c (.frag g)) := by
  have hpast : ∀ f : FragStmt, f.pastStore = true → f.pastFree = true ∧ f.pastRef = true := by
    intro f
    cases f <;> decide
  refine h.goto hcall hstmt ?_ ?_ (hf.trans hg.symm) rfl rfl (update_pbuf (hu _)) rfl rfl
  · rw [(hpast f hf).1, (hpast g hg).1]
  · rw [(hpast f hf).2, (hpast g hg).2]

variable [DecidableEq P]

/-- The fragment at hand is the next one of the submitted fragments. -/
theorem TxCallAt.addrsOf_queued {N base : Nat} {s : TxState P A} {c : TxCall P A} {q : Pbuf P A}
    (h : TxCallAt N s c base) (ha : c.stmt ≠ .frag .advance) (hq : c.q = some q) :
    (addrsOf s.sent)[s.queued]? = some q.addr := by
  obtain ⟨pre, hsent, hbase⟩ := h.sent
  have hqueued := h.queued
  rw [if_neg ha, Nat.add_zero] at hqueued
  rw [hsent, addrsOf_snoc, hqueued, List.getElem?_append_right (by rw [length_addrsOf]; omega),
    length_addrsOf, hbase, Nat.add_sub_cancel_left, List.getElem?_map,
    show c.p.frags[c.k]? = some q from hq]
  rfl

/-! ## The statements of `process_tx_descr` -/

/-- `pbuf_free`: the old pbuf is that of the use `N` ago, and the next one to be freed. -/
theorem TxRefs.freeOld {N base : Nat} (hN : 0 < N) {s : TxState P A} {c : TxCall P A}
    {q : Pbuf P A} (hcall : s.call = some c) (hat : TxCallAt N s c base)
    (hstmt : c.stmt = .frag .freeOld) (h : TxRefs N s) :
    TxRefs N (s.processTxDescr c q .freeOld) := by
  have hphase := s.phase_frag hcall hstmt
  have hcur := hat.cur_eq (by simp [hstmt])
  have hslot := h.slots s.queued (by rw [hphase]; exact Nat.le_refl _) (by
    rw [hphase]
    exact Nat.lt_add_of_pos_right hN)
  have hrefd := h.refd_len
  have hfreed := h.freed_len
  have hwin := h.slots
  rw [hphase] at hrefd hfreed hwin
  rw [← hcur] at hslot
  simp only [FragStmt.pastRef, FragStmt.pastFree, Bool.false_eq_true, if_false, Nat.add_zero]
    at hrefd hfreed
  simp only [TxState.processTxDescr]
  split
  next hnone =>
    -- nothing to free: the slot has not been used yet
    rw [hnone, previous] at hslot
    have hturn : s.queued < N := by
      by_contra hge
      rw [if_neg hge, List.getElem?_eq_getElem (by omega)] at hslot
      simp at hslot
    refine ⟨h.refd_eq, h.freed_eq, hrefd, ?_, hwin⟩
    show s.freed.length = s.queued + 1 - N
    omega
  next old hold =>
    rw [hold, previous] at hslot
    have hturn : ¬ s.queued < N := by
      intro hlt
      rw [if_pos hlt] at hslot
      simp at hslot
    rw [if_neg hturn] at hslot
    have hnext : s.refd[s.freed.length]? = some old.addr := by
      rw [hfreed]
      exact hslot.symm
    refine ⟨h.refd_eq, ?_, hrefd, ?_, hwin⟩
    · show s.freed ++ [old.addr] = s.refd.take (s.freed ++ [old.addr]).length
      rw [List.length_append, List.length_singleton, List.take_add_one, ← h.freed_eq, hnext]
      rfl
    · show (s.freed ++ [old.addr]).length = s.queued + 1 - N
      rw [List.length_append, List.length_singleton]
      omega

/-- `pbuf_ref`: the new pbuf is the next of the submitted fragments. -/
theorem TxRefs.ref {N base : Nat} (hN : 0 < N) {s : TxState P A} {c : TxCall P A} {q : Pbuf P A}
    (hcall : s.call = some c) (hat : TxCallAt N s c base) (hstmt : c.stmt = .frag .ref)
    (hq : c.q = some q) (h : TxRefs N s) : TxRefs N (s.processTxDescr c q .ref) := by
  have hphase := s.phase_frag hcall hstmt
  have hnext := hat.addrsOf_queued (by simp [hstmt]) hq
  have hrefd := h.refd_len
  have hfreed := h.freed_len
  have hwin := h.slots
  rw [hphase] at hrefd hfreed hwin
  simp only [FragStmt.pastRef, FragStmt.pastFree, Bool.false_eq_true, if_false, if_true,
    Nat.add_zero] at hrefd hfreed
  refine ⟨?_, ?_, ?_, hfreed, hwin.imp fun k _ hkN hk => ?_⟩
  · show s.refd ++ [q.addr] = (addrsOf s.sent).take (s.refd ++ [q.addr]).length
    rw [List.length_append, List.length_singleton, List.take_add_one, ← h.refd_eq, hrefd, hnext]
    rfl
  · show s.freed = (s.refd ++ [q.addr]).take s.freed.length
    rw [List.take_append_of_le_length (by omega)]
    exact h.freed_eq
  · show (s.refd ++ [q.addr]).length = s.queued + 1
    rw [List.length_append, List.length_singleton, hrefd]
  · have hkN : k < s.queued + N := hkN
    rw [hk]
    show previous N s.refd k = previous N (s.refd ++ [q.addr]) k
    unfold previous
    split
    · rfl
    · rw [List.getElem?_append_left (by omega)]

/-- `desc->pbuf = p`: the slot now holds for its next use what this use stored. -/
theorem TxRefs.setPbuf {N base : Nat} {s : TxState P A} {c : TxCall P A}
    {q : Pbuf P A} (hcall : s.call = some c) (hat : TxCallAt N s c base)
    (hstmt : c.stmt = .frag .setPbuf) (hq : c.q = some q) (h : TxRefs N s) :
    TxRefs N (s.processTxDescr c q .setPbuf) := by
  have hphase := s.phase_frag hcall hstmt
  have hcur := hat.cur_eq (by simp [hstmt])
  have hnext := hat.addrsOf_queued (by simp [hstmt]) hq
  have hrefd := h.refd_len
  have hfreed := h.freed_len
  have hwin := h.slots
  rw [hphase] at hrefd hfreed hwin
  simp only [FragStmt.pastRef, FragStmt.pastFree, FragStmt.pastStore, Bool.false_eq_true,
    if_false, if_true, Nat.add_zero] at hrefd hfreed hwin
  refine ⟨h.refd_eq, h.freed_eq, hrefd, hfreed, ?_⟩
  show Window N (Function.update s.ring s.cur { s.ring s.cur with pbuf := some q }) _
    (s.queued + 1) (s.queued + 1 + N)
  rw [hcur, Nat.add_right_comm, ← Nat.add_mod_right]
  refine (hwin.mono (Nat.le_succ _) (Nat.le_refl _)).push (by omega) ?_
  show some q.addr = previous N s.refd (s.queued + N)
  rw [previous, if_neg (by omega), Nat.add_sub_cancel, h.refd_eq, hrefd,
    List.getElem?_take_of_lt (Nat.lt_succ_self _), hnext]

theorem TxRefs.processTxDescr {N base : Nat} (hN : 0 < N) {s : TxState P A} {c : TxCall P A}
    {q : Pbuf P A} {f : FragStmt} (hcall : s.call = some c) (hat : TxCallAt N s c base)
    (hstmt : c.stmt = .frag f) (hq : c.q = some q) (h : TxRefs N s) :
    TxRefs N (s.processTxDescr c q f) := by
  cases f with
  | wait =>
    simp only [TxState.processTxDescr]
    split
    · exact h
    · exact h.jump hcall hstmt rfl rfl rfl
  | freeOld => exact h.freeOld hN hcall hat hstmt
  | ref => exact h.ref hN hcall hat hstmt hq
  | setPbuf => exact h.setPbuf hcall hat hstmt hq
  | clearFrame | setBuf | setSize => exact h.stored hcall hstmt rfl rfl fun _ => rfl
  | setFirst | setLast =>
    simp only [TxState.processTxDescr]
    split
    · exact h.stored hcall hstmt rfl rfl fun _ => rfl
    · exact h.jump hcall hstmt rfl rfl rfl
  | setOwn =>
    -- from here on the fragment is counted as queued, up to here it was the one at hand
    have hphase := s.phase_frag hcall hstmt
    refine h.congr rfl rfl (update_pbuf rfl) (addrsOf_same rfl) ?_ ?_ ?_ <;>
      (rw [hphase]; rfl)
  | advance =>
    have hphase := s.phase_frag hcall hstmt
    refine h.congr rfl rfl (fun _ => rfl) (addrsOf_same rfl) ?_ ?_ ?_ <;>
      (rw [hphase]; rfl)

/-! ## Every step -/

theorem txRefs_ethernetifOutput {N : Nat} (hN : 0 < N) {s t : TxState P A} (hi : TxInv N s)
    (h : TxRefs N s) (hstep : s.ethernetifOutput = some t) : TxRefs N t := by
  obtain ⟨c, hcall, hcases⟩ := ethernetifOutput_cases hstep
  obtain ⟨base, hat⟩ := hi.call c hcall
  -- outside `process_tx_descr` nothing is between its reference counts
  have hquiet : ∀ {t : TxState P A}, (∀ f, c.stmt ≠ .frag f) → t.freed = s.freed →
      t.refd = s.refd → t.ring = s.ring → t.sent = s.sent → t.queued = s.queued →
      (∀ g, g .wait = false → t.phase g = 0) → TxRefs N t := by
    intro t hno hfreed hrefd hring hsent hn hzero'
    have hzero : ∀ g, s.phase g = 0 := TxState.phase_eq_zero fun c' hc' f => by
      obtain rfl := Option.some.inj (hcall.symm.trans hc')
      exact hno f
    refine h.congr hfreed hrefd (fun i => by rw [hring]) (addrsOf_same hsent) ?_ ?_ ?_ <;>
      rw [hn, hzero, hzero' _ rfl]
  rcases hcases with ⟨hstmt, rfl⟩ | ⟨f, q, hstmt, hq, rfl⟩ | ⟨hstmt, -, rfl⟩ | ⟨hstmt, -, rfl⟩ |
    ⟨hstmt, rfl⟩ | ⟨hstmt, rfl⟩
  · refine hquiet (by simp [hstmt]) rfl rfl rfl rfl rfl fun g hg => ?_
    cases hq : c.q.isSome <;> simp [TxState.phase, TxState.goto, hg]
  · exact h.processTxDescr hN hcall hat hstmt hq
  · exact hquiet (by simp [hstmt]) rfl rfl rfl rfl rfl fun _ _ => rfl
  · exact hquiet (by simp [hstmt]) rfl rfl rfl rfl rfl fun _ _ => rfl
  · exact hquiet (by simp [hstmt]) rfl rfl rfl rfl rfl fun _ _ => rfl
  · exact hquiet (by simp [hstmt]) rfl rfl rfl rfl rfl fun _ _ => rfl

/-- **Every step of the transmit machine keeps the log.** -/
theorem txRefs_step {N : Nat} (hN : 0 < N) {s t : TxState P A} {a : TxAct P A}
    (hi : TxInv N s) (h : TxRefs N s) (hstep : txStep s a = some t) : TxRefs N t := by
  cases a with
  | output p =>
    obtain ⟨hcall, rfl⟩ := txStep_output hstep
    have hzero : ∀ g, s.phase g = 0 := fun g => by simp [TxState.phase, hcall]
    refine h.congr rfl rfl (fun _ => rfl) ⟨_, addrsOf_snoc s.sent p⟩ ?_ ?_ ?_ <;>
      (rw [hzero]; rfl)
  | cpu => exact txRefs_ethernetifOutput hN hi h hstep
  | dma wb =>
    obtain ⟨-, ⟨-, rfl⟩ | ⟨-, rfl⟩⟩ := hi.ring.dma_cases hN hstep
    · exact h.congr rfl rfl (update_pbuf rfl) (addrsOf_same rfl) rfl rfl rfl
    · exact h.congr rfl rfl (fun _ => rfl) (addrsOf_same rfl) rfl rfl rfl

end EthernetIf

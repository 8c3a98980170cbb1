import EthernetIf.Tx.Model

/-!
# The transmit ring as two windows

Count the descriptors handed to the DMA (`queued`) and the entries it consumed
(`wire.length`). Both cursors are these counts modulo the ring size, and the ring is two
windows of uses:

    fly    [wire.length, queued)            OWN set, holding entry k of what was submitted
    idle   [queued, wire.length + N)        OWN clear, contents stale

`TxRing` says so. It does not mention the running call: the CPU may do three things to the
ring (`TxRing.store`, `TxRing.handOver`, `TxRing.submit`) and the DMA two
(`TxRing.transmit`, `TxRing.suspend`), and each is one lemma here.
-/

namespace EthernetIf

open Lts Ring

variable {P A : Type}

/-! ## Entries of a chain -/

theorem PbufChain.length_entries (c : PbufChain P A) : c.entries.length = c.frags.length := by
  simp [PbufChain.entries]

theorem entriesOf_snoc (sent : List (PbufChain P A)) (c : PbufChain P A) :
    entriesOf (sent ++ [c]) = entriesOf sent ++ c.entries := by
  simp [entriesOf]

/-- The entry the call publishes for its current fragment, with the flags as the code
    computes them. -/
def TxCall.entryAt [DecidableEq P] (c : TxCall P A) (q : Pbuf P A) : TxEntry A :=
  { payload := some q.payload, len := q.len.zeroExtend 32, first := c.first q, last := c.last }

/-- A pbuf occurs once in its chain, so `q == p` holds at the head and nowhere else. -/
theorem TxCall.first_eq [DecidableEq P] {c : TxCall P A} {q : Pbuf P A} (hq : c.q = some q) :
    c.first q = (c.k == 0) := by
  have hnd : (c.p.frags.map Pbuf.addr).Nodup := c.p.nodup
  have hk : (c.p.frags.map Pbuf.addr)[c.k]? = some q.addr := by
    rw [List.getElem?_map, show c.p.frags[c.k]? = some q from hq]
    rfl
  have h0 : (c.p.frags.map Pbuf.addr)[0]? = some c.p.head.addr := rfl
  unfold TxCall.first
  rw [Bool.eq_iff_iff, beq_iff_eq, beq_iff_eq]
  constructor
  · intro heq
    obtain ⟨hlt, hget⟩ := List.getElem?_eq_some_iff.mp hk
    obtain ⟨hlt0, hget0⟩ := List.getElem?_eq_some_iff.mp h0
    exact (hnd.getElem_inj_iff).mp (hget.trans (heq.trans hget0.symm))
  · intro hk0
    rw [hk0, h0] at hk
    exact (Option.some.inj hk).symm

theorem TxCall.last_eq (c : TxCall P A) (hk : c.k < c.p.frags.length) :
    c.last = (c.k + 1 == c.p.frags.length) := by
  unfold TxCall.last
  rw [Bool.eq_iff_iff, Option.isNone_iff_eq_none, List.getElem?_eq_none_iff, beq_iff_eq]
  omega

theorem TxCall.lt_of_q {c : TxCall P A} {q : Pbuf P A} (hq : c.q = some q) :
    c.k < c.p.frags.length :=
  (List.getElem?_eq_some_iff.mp hq).1

/-- **The code's flags are the specification's**: what the call publishes for its fragment
    `k` is entry `k` of the chain. -/
theorem TxCall.entries_getElem? [DecidableEq P] {c : TxCall P A} {q : Pbuf P A}
    (hq : c.q = some q) : c.p.entries[c.k]? = some (c.entryAt q) := by
  unfold PbufChain.entries
  rw [List.getElem?_mapIdx, show c.p.frags[c.k]? = some q from hq]
  simp [TxCall.entryAt, TxCall.first_eq hq, TxCall.last_eq c (TxCall.lt_of_q hq)]

/-! ## Status words through the statements -/

theorem keepsInitBits_iff (d : DmaDesc P A) :
    d.keepsInitBits = true ↔
      d.Status.getLsbD 20 = true ∧ d.Status.getLsbD 22 = true ∧ d.Status.getLsbD 23 = true := by
  unfold DmaDesc.keepsInitBits
  rw [beq_iff_eq, and_eq_mask_iff]
  constructor
  · intro h
    exact ⟨h 20 (by decide) (by decide), h 22 (by decide) (by decide),
      h 23 (by decide) (by decide)⟩
  · rintro ⟨h20, h22, h23⟩ i hi hm
    have hcase : ∀ i < 32, txInitBits.getLsbD i = true → i = 20 ∨ i = 22 ∨ i = 23 := by decide
    rcases hcase i hi hm with rfl | rfl | rfl
    · exact h20
    · exact h22
    · exact h23

/-- The flags of TDES0 are three different bits. -/
theorem tdes0_flags :
    tst ETH_TDES0_FS ETH_TDES0_FS = true ∧ tst ETH_TDES0_FS ETH_TDES0_LS = false ∧
    tst ETH_TDES0_FS ETH_TDES0_OWN = false ∧ tst ETH_TDES0_LS ETH_TDES0_FS = false ∧
    tst ETH_TDES0_LS ETH_TDES0_LS = true ∧ tst ETH_TDES0_LS ETH_TDES0_OWN = false ∧
    tst ETH_TDES0_OWN ETH_TDES0_FS = false ∧ tst ETH_TDES0_OWN ETH_TDES0_LS = false ∧
    tst ETH_TDES0_OWN ETH_TDES0_OWN = true := by decide

theorem getLsbD_txWriteBack (x wb : BitVec 32) (i : Nat) (hi : 20 ≤ i) (hi' : i < 31) :
    (txWriteBack x wb).getLsbD i = x.getLsbD i := by
  unfold txWriteBack
  have hctl : ∀ i < 32, 20 ≤ i → i < 31 → txControlBits.getLsbD i = true := by decide
  have hown : ∀ i < 32, i < 31 → ETH_TDES0_OWN.getLsbD i = false := by decide
  rw [BitVec.getLsbD_and, BitVec.getLsbD_or, BitVec.getLsbD_and, BitVec.getLsbD_and,
    BitVec.getLsbD_not, BitVec.getLsbD_not, hctl i (by omega) hi hi', hown i (by omega) hi']
  simp only [Bool.and_true, Bool.not_true, Bool.and_false, Bool.or_false, Bool.not_false,
    Bool.and_eq_left_iff_imp, decide_eq_true_eq]
  omega

theorem getLsbD_txWriteBack_own (x wb : BitVec 32) : (txWriteBack x wb).getLsbD 31 = false := by
  unfold txWriteBack
  rw [BitVec.getLsbD_and, BitVec.getLsbD_not, show ETH_TDES0_OWN.getLsbD 31 = true by decide]
  simp

theorem keepsInitBits_or {d : DmaDesc P A} (m : BitVec 32) (h : d.keepsInitBits = true) :
    { d with Status := d.Status ||| m }.keepsInitBits = true := by
  rw [keepsInitBits_iff] at h ⊢
  simp only [BitVec.getLsbD_or, h, Bool.true_or, and_self]

theorem keepsInitBits_clearFrame {d : DmaDesc P A} (h : d.keepsInitBits = true) :
    { d with Status := d.Status &&& ~~~(ETH_TDES0_FS ||| ETH_TDES0_LS) }.keepsInitBits = true := by
  rw [keepsInitBits_iff] at h ⊢
  simp only [BitVec.getLsbD_and, h]
  decide

/-! ## The initial ring -/

theorem initTxDmaDesc_apply {N i : Nat} (hi : i < N) :
    initTxDmaDesc N i = { (DmaDesc.zero : DmaDesc P A) with
      Status := ETH_TDES0_TCH ||| ETH_TDES0_CIC_IPPLPH
      Buffer2NextDescAddr := (i + 1) % N } := by
  have hloop := foldl_range_update (fun i (d : DmaDesc P A) => { d with
      Status := ETH_TDES0_TCH ||| ETH_TDES0_CIC_IPPLPH
      pbuf := none
      Buffer2NextDescAddr := i + 1 }) (fun _ => DmaDesc.zero) N
  unfold initTxDmaDesc
  dsimp only
  by_cases hlast : i = N - 1
  · subst hlast
    rw [Function.update_self, hloop, if_pos hi]
    simp [DmaDesc.zero, show N - 1 + 1 = N by omega]
  · rw [Function.update_of_ne hlast, hloop, if_pos hi]
    simp [DmaDesc.zero, Nat.mod_eq_of_lt (show i + 1 < N by omega)]

/-! ## The ring -/

/-- The descriptor flies: the DMA owns it, and it holds entry `k` of `es`. -/
def Flies (es : List (TxEntry A)) (k : Nat) (d : DmaDesc P A) : Prop :=
  d.own = true ∧ es[k]? = some d.entry

/-- The two windows, the cursor of the DMA, and what it has consumed. -/
structure TxRing (N : Nat) (s : TxState P A) : Prop where
  wire_le : s.wire.length ≤ s.queued
  queued_le : s.queued ≤ s.wire.length + N
  submitted : s.queued ≤ (entriesOf s.sent).length
  link : Linked N s.ring
  bits : ∀ i < N, (s.ring i).keepsInitBits = true
  fly : Window N s.ring (Flies (entriesOf s.sent)) s.wire.length s.queued
  idle : Window N s.ring (fun _ d => d.own = false) s.queued (s.wire.length + N)
  wire_eq : s.wire = (entriesOf s.sent).take s.wire.length
  pos : s.pos = s.wire.length % N

/-- `TxRing` reads the ring, the DMA's cursor and the history, nothing else. -/
theorem TxRing.congr {N : Nat} {s t : TxState P A} (h : TxRing N s) (hr : t.ring = s.ring)
    (hp : t.pos = s.pos) (hw : t.wire = s.wire) (hq : t.queued = s.queued)
    (hs : t.sent = s.sent) : TxRing N t := by
  constructor
  · rw [hw, hq]; exact h.wire_le
  · rw [hw, hq]; exact h.queued_le
  · rw [hq, hs]; exact h.submitted
  · rw [hr]; exact h.link
  · rw [hr]; exact h.bits
  · rw [hr, hs, hw, hq]; exact h.fly
  · rw [hr, hw, hq]; exact h.idle
  · rw [hw, hs]; exact h.wire_eq
  · rw [hp, hw]; exact h.pos

theorem TxRing.init {N : Nat} (hN : 0 < N) : TxRing N (TxState.init P A N) where
  wire_le := Nat.le_refl 0
  queued_le := Nat.zero_le _
  submitted := Nat.zero_le _
  link := fun i hi => by
    show (initTxDmaDesc N i).Buffer2NextDescAddr = _
    rw [initTxDmaDesc_apply hi]
  bits := fun i hi => by
    show (initTxDmaDesc N i).keepsInitBits = true
    rw [initTxDmaDesc_apply hi]
    show (txInitBits &&& txInitBits == txInitBits) = true
    decide
  fly := Window.nil (Nat.le_refl 0)
  idle := fun k _ _ => by
    show (initTxDmaDesc N (k % N)).own = false
    rw [initTxDmaDesc_apply (Nat.mod_lt k hN)]
    show tst (ETH_TDES0_TCH ||| ETH_TDES0_CIC_IPPLPH) ETH_TDES0_OWN = false
    decide
  wire_eq := rfl
  pos := (Nat.zero_mod N).symm

/-- A slot of the flying window is DMA-owned, one of the idle window is not: ownership of the
    slot of the next use tells whether there is room. -/
theorem TxRing.own_queued {N : Nat} {s : TxState P A} (h : TxRing N s) (hN : 0 < N) :
    (s.ring (s.queued % N)).own = false ↔ s.queued < s.wire.length + N := by
  constructor
  · intro hown
    rcases Nat.lt_or_ge s.queued (s.wire.length + N) with hlt | hge
    · exact hlt
    · have hfull : s.queued = s.wire.length + N := Nat.le_antisymm h.queued_le hge
      have hfly := (h.fly s.wire.length (Nat.le_refl _) (by omega)).1
      rw [hfull, Nat.add_mod_right] at hown
      rw [hown] at hfly
      exact absurd hfly (by simp)
  · exact h.idle s.queued (Nat.le_refl _)

/-- A descriptor the DMA owns is in the flying window. -/
theorem TxRing.flies_of_own {N : Nat} {s : TxState P A} (h : TxRing N s) {i : Nat} (hi : i < N)
    (hown : (s.ring i).own = true) :
    ∃ k, s.wire.length ≤ k ∧ k < s.queued ∧ k % N = i := by
  obtain ⟨k, hge, hlt, hmod⟩ := exists_use hi s.wire.length
  rcases Nat.lt_or_ge k s.queued with hfly | hidle
  · exact ⟨k, hge, hfly, hmod⟩
  · have hno := h.idle k hidle hlt
    rw [hmod] at hno
    exact absurd (hown.symm.trans hno) (by simp)

@[simp] theorem store_ring_cur (s : TxState P A) (f : DmaDesc P A → DmaDesc P A) :
    (s.store f).ring (s.store f).cur = f (s.ring s.cur) := Function.update_self ..

/-- A store into the first idle slot that leaves OWN clear and the control bits and the link
    alone. -/
theorem TxRing.store {N : Nat} {s : TxState P A} {f : DmaDesc P A → DmaDesc P A}
    (h : TxRing N s) (hcur : s.cur = s.queued % N) (hroom : s.queued < s.wire.length + N)
    (hlink : (f (s.ring s.cur)).Buffer2NextDescAddr = (s.ring s.cur).Buffer2NextDescAddr)
    (hbits : (s.ring s.cur).keepsInitBits = true → (f (s.ring s.cur)).keepsInitBits = true)
    (hown : (f (s.ring s.cur)).own = false) : TxRing N (s.store f) where
  wire_le := h.wire_le
  queued_le := h.queued_le
  submitted := h.submitted
  link := h.link.update hlink
  bits := fun i hi => by
    by_cases hic : i = s.cur
    · subst hic
      simpa [TxState.store] using hbits (h.bits _ hi)
    · simpa [TxState.store, Function.update_of_ne hic] using h.bits i hi
  fly := by
    have hoff := h.fly.update_off (d := f (s.ring s.cur)) (.inl ⟨Nat.le_refl _, hroom⟩)
    rwa [← hcur] at hoff
  idle := by
    have hle := Nat.add_le_add_right h.wire_le N
    have hat := h.idle.update_at hle (Nat.le_refl _) hroom hown
    rwa [← hcur] at hat
  wire_eq := h.wire_eq
  pos := h.pos

/-- **Hand-over**: setting OWN on a filled descriptor moves it from the idle window to the
    flying one. -/
theorem TxRing.handOver {N : Nat} {s t : TxState P A} {d : DmaDesc P A} (h : TxRing N s)
    (hcur : s.cur = s.queued % N) (hroom : s.queued < s.wire.length + N)
    (hlink : d.Buffer2NextDescAddr = (s.ring s.cur).Buffer2NextDescAddr)
    (hbits : (s.ring s.cur).keepsInitBits = true → d.keepsInitBits = true)
    (hfly : Flies (entriesOf s.sent) s.queued d)
    (ht : t = { s with ring := Function.update s.ring s.cur d, queued := s.queued + 1 }) :
    TxRing N t := by
  subst ht
  constructor
  · exact Nat.le_succ_of_le h.wire_le
  · exact hroom
  · exact (List.getElem?_eq_some_iff.mp hfly.2).1
  · exact h.link.update hlink
  · intro i hi
    by_cases hic : i = s.cur
    · subst hic
      simpa using hbits (h.bits _ hi)
    · simpa [Function.update_of_ne hic] using h.bits i hi
  · rw [hcur]
    exact h.fly.push hroom hfly
  · rw [hcur]
    exact (h.idle.mono (Nat.le_succ _) (Nat.le_refl _)).update_off (.inr ⟨Nat.lt_succ_self _, by
      show s.wire.length + N ≤ s.queued + N
      have := h.wire_le
      omega⟩)
  · exact h.wire_eq
  · exact h.pos

/-- A newly submitted chain is behind everything on the ring. -/
theorem TxRing.submit {N : Nat} {s : TxState P A} (h : TxRing N s) (p : PbufChain P A)
    (c : Option (TxCall P A)) :
    TxRing N { s with call := c, sent := s.sent ++ [p] } := by
  constructor
  · exact h.wire_le
  · exact h.queued_le
  · rw [entriesOf_snoc, List.length_append]
    exact Nat.le_add_right_of_le h.submitted
  · exact h.link
  · exact h.bits
  · refine h.fly.imp fun k _ hk hflies => ⟨hflies.1, ?_⟩
    rw [entriesOf_snoc, List.getElem?_append_left (Nat.lt_of_lt_of_le hk h.submitted)]
    exact hflies.2
  · exact h.idle
  · rw [entriesOf_snoc, List.take_append_of_le_length (Nat.le_trans h.wire_le h.submitted)]
    exact h.wire_eq
  · exact h.pos

/-! ### The DMA -/

/-- What a step of the DMA can be: it consumes the oldest flying descriptor, or finds none and
    suspends. -/
theorem TxRing.dma_cases {N : Nat} {s t : TxState P A} {wb : BitVec 32} (h : TxRing N s)
    (hN : 0 < N) (hstep : s.dma wb = some t) :
    s.suspended = false ∧
      ((s.wire.length < s.queued ∧ t = s.transmit wb) ∨
        (s.wire.length = s.queued ∧ t = s.suspend)) := by
  obtain ⟨hsus, ⟨hown, ht⟩ | ⟨hown, ht⟩⟩ := txDma_cases hstep
  · refine ⟨hsus, .inl ⟨?_, ht⟩⟩
    rcases Nat.lt_or_ge s.wire.length s.queued with hlt | hge
    · exact hlt
    · have hidle := h.idle s.wire.length hge (by omega)
      rw [← h.pos] at hidle
      exact absurd (hown.symm.trans hidle) (by simp)
  · refine ⟨hsus, .inr ⟨?_, ht⟩⟩
    rcases Nat.lt_or_ge s.wire.length s.queued with hlt | hge
    · have hfly := (h.fly _ (Nat.le_refl _) hlt).1
      rw [← h.pos] at hfly
      exact absurd (hfly.symm.trans hown) (by simp)
    · exact Nat.le_antisymm h.wire_le hge

theorem keepsInitBits_writeBack {d : DmaDesc P A} (wb : BitVec 32)
    (h : d.keepsInitBits = true) :
    { d with Status := txWriteBack d.Status wb }.keepsInitBits = true := by
  rw [keepsInitBits_iff] at h ⊢
  refine ⟨?_, ?_, ?_⟩
  · rw [getLsbD_txWriteBack _ _ _ (by decide) (by decide)]; exact h.1
  · rw [getLsbD_txWriteBack _ _ _ (by decide) (by decide)]; exact h.2.1
  · rw [getLsbD_txWriteBack _ _ _ (by decide) (by decide)]; exact h.2.2

@[simp] theorem length_transmit_wire (s : TxState P A) (wb : BitVec 32) :
    (s.transmit wb).wire.length = s.wire.length + 1 := by simp [TxState.transmit]

/-- **Consumption** moves the oldest flying descriptor to the far end of the idle window. -/
theorem TxRing.transmit {N : Nat} {s : TxState P A} (h : TxRing N s) (hN : 0 < N)
    (wb : BitVec 32) (hlt : s.wire.length < s.queued) : TxRing N (s.transmit wb) := by
  have hentry := (h.fly _ (Nat.le_refl _) hlt).2
  have hqueued := h.queued_le
  have hring : (s.transmit wb).ring = Function.update s.ring (s.wire.length % N)
      { s.ring s.pos with Status := txWriteBack (s.ring s.pos).Status wb } := by
    rw [← h.pos]
    rfl
  constructor
  · rw [length_transmit_wire]
    exact hlt
  · rw [length_transmit_wire]
    exact Nat.le_trans hqueued (by omega)
  · exact h.submitted
  · exact h.link.update rfl
  · intro i hi
    by_cases hic : i = s.pos
    · subst hic
      simpa [TxState.transmit] using keepsInitBits_writeBack wb (h.bits _ hi)
    · simpa [TxState.transmit, Function.update_of_ne hic] using h.bits i hi
  · rw [hring, length_transmit_wire]
    exact (h.fly.mono (Nat.le_succ _) (Nat.le_refl _)).update_off
      (.inr ⟨Nat.lt_succ_self _, hqueued⟩)
  · rw [hring, length_transmit_wire, show s.wire.length + 1 + N = s.wire.length + N + 1 by omega]
    refine (h.idle.update_off (.inr ⟨hlt, Nat.le_refl _⟩)).snoc ?_
    rw [Nat.add_mod_right, Function.update_self, DmaDesc.own_eq_getLsbD]
    exact getLsbD_txWriteBack_own _ wb
  · rw [length_transmit_wire]
    show s.wire ++ [(s.ring s.pos).entry] = (entriesOf s.sent).take (s.wire.length + 1)
    rw [List.take_add_one, ← h.wire_eq, hentry, ← h.pos]
    rfl
  · show (s.ring s.pos).Buffer2NextDescAddr = _
    rw [length_transmit_wire, h.pos, h.link _ (Nat.mod_lt _ hN), succ_mod]

/-- Suspending touches neither the ring nor its counts. -/
theorem TxRing.suspend {N : Nat} {s : TxState P A} (h : TxRing N s) : TxRing N s.suspend :=
  h.congr rfl rfl rfl rfl rfl

end EthernetIf

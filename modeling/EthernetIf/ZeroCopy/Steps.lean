import EthernetIf.ZeroCopy.Account

/-!
# Every step keeps the books

One lemma a label of the machine, for lwIP's calls, the transmit side and the receive side in
turn, and `sysInv_step` over all of them.
-/

namespace EthernetIf

open Lts Ring RefCount

variable {P A : Type} [DecidableEq P] [Fintype P] [DecidableEq A]

/-! ## What a step must keep to -/

/-- A step that leaves the receive side alone must balance, raise no count of a receive
    descriptor's pbuf, and write neither those pbufs nor the running chain. -/
theorem SysInv.rxSame {N : Nat} {s : Sys P A} {tx : TxState P A} {heap : Heap P (PbufData A)}
    {lwip : P → Nat} (h : SysInv N s) (htx : TxInv N tx) (hrefs : TxRefs N tx)
    (hbal : Balanced heap (lwip + holders N tx.holds + holders N s.rx.holds))
    (href : ∀ p, 0 < holders N s.rx.holds p → (heap p).ref ≤ (s.heap p).ref)
    (hval : ∀ p, 0 < holders N s.rx.holds p → (heap p).val = (s.heap p).val)
    (hpin : ∀ c, tx.call = some c →
      0 < lwip c.p.head.addr ∧ linkedIn heap c.p.frags = true) :
    SysInv N { s with tx := tx, heap := heap, lwip := lwip } where
  tx := htx
  refs := hrefs
  rx := h.rx
  balanced := hbal
  excl := fun p hp => (href p hp).trans (h.excl p hp)
  distinct := h.distinct
  data := fun i hi q hq hold => (hval _ (holders_pos hi hold)).trans (h.data i hi q hq hold)
  pinned := hpin

/-- A call of lwIP's own. -/
theorem SysInv.lwipStep {N : Nat} {s : Sys P A} {heap : Heap P (PbufData A)} {lwip : P → Nat}
    (h : SysInv N s) (hbal : Balanced heap (lwip + holders N s.tx.holds + holders N s.rx.holds))
    (href : ∀ p, 0 < holders N s.rx.holds p → (heap p).ref ≤ (s.heap p).ref)
    (hval : ∀ p, 0 < holders N s.rx.holds p → (heap p).val = (s.heap p).val)
    (hhead : ∀ c, s.tx.call = some c → 0 < lwip c.p.head.addr)
    (hchain : ∀ c, s.tx.call = some c → ∀ q ∈ c.p.frags,
      (heap q.addr).next = (s.heap q.addr).next ∧ (heap q.addr).val = (s.heap q.addr).val) :
    SysInv N { s with heap := heap, lwip := lwip } := by
  refine h.rxSame h.tx h.refs hbal href hval fun c hc => ⟨hhead c hc, ?_⟩
  rw [linkedIn_congr (hchain c hc)]
  exact (h.pinned c hc).2

/-- A step of the receive side: the running chain is neither written nor let go, and every
    reference a descriptor gains is the only one to its pbuf. -/
theorem SysInv.txSame {N : Nat} {s : Sys P A} {rx : RxState P A} {heap : Heap P (PbufData A)}
    {lwip : P → Nat} (h : SysInv N s) (hrx : RxInv N rx)
    (hbal : Balanced heap (lwip + holders N s.tx.holds + holders N rx.holds))
    (hexcl : ∀ p, 0 < holders N rx.holds p → (heap p).ref ≤ 1)
    (hdistinct : ∀ i < N, ∀ j < N, i ≠ j → ∀ x, rx.ptr i = some x → rx.ptr j ≠ some x)
    (hdata : ∀ i < N, ∀ q, (rx.ring i).pbuf = some q → rx.holds i = some q.addr →
      (heap q.addr).val = q.data)
    (hlwip : ∀ x, s.lwip x ≤ lwip x)
    (hchain : ∀ x, 0 < s.lwip x + links s.heap x →
      (heap x).next = (s.heap x).next ∧ (heap x).val = (s.heap x).val) :
    SysInv N { s with rx := rx, heap := heap, lwip := lwip } where
  tx := h.tx
  refs := h.refs
  rx := hrx
  balanced := hbal
  excl := hexcl
  distinct := hdistinct
  data := hdata
  pinned := fun c hc => by
    obtain ⟨hhead, hlinked⟩ := h.pinned c hc
    refine ⟨hhead.trans_le (hlwip _), ?_⟩
    rw [linkedIn_congr fun q hq => hchain q.addr (h.chain_kept hc hq)]
    exact hlinked

/-! ## lwIP -/

theorem SysInv.ref_pos {N : Nat} {s : Sys P A} (h : SysInv N s) {x : P} (hx : 0 < s.lwip x) :
    0 < (s.heap x).ref :=
  h.balanced.ref_pos (by
    simp only [Sys.held, Pi.add_apply]
    omega)

theorem SysInv.ne_of_lwip {N : Nat} {s : Sys P A} (h : SysInv N s) {x p : P}
    (hx : 0 < s.lwip x + links s.heap x) (hp : 0 < holders N s.rx.holds p) : p ≠ x := by
  rintro rfl
  exact h.not_in_rx hx hp

theorem sysInv_alloc {N : Nat} {s t : Sys P A} {x : P} {v : PbufData A} (h : SysInv N s)
    (hstep : sysStep s (.alloc x v) = some t) : SysInv N t := by
  simp only [sysStep] at hstep
  split at hstep
  next hfree =>
    cases hstep
    -- `x` was free, so it is none of those a descriptor holds or a running chain has
    have hne : ∀ p, 0 < (s.heap p).ref → p ≠ x := by
      rintro p hp rfl
      omega
    have hrx : ∀ p, 0 < holders N s.rx.holds p → p ≠ x := fun p hp =>
      hne p (by rw [(h.exclusive hp).1]; exact Nat.one_pos)
    refine h.lwipStep ?_ (fun p hp => ?_) (fun p hp => ?_) (fun c hc => ?_)
      (fun c hc q hq => ?_)
    · rw [give_holders]
      exact h.balanced.alloc hfree v
    · rw [alloc_of_ne _ (hrx p hp)]
    · rw [alloc_of_ne _ (hrx p hp)]
    · exact (h.pinned c hc).1.trans_le (le_give ..)
    · rw [alloc_of_ne _ (hne _ (h.chain_live hc hq))]
      exact ⟨rfl, rfl⟩
  next => simp at hstep

/-- Taking one more reference to a pbuf lwIP can name. -/
theorem SysInv.retained {N : Nat} {s : Sys P A} (h : SysInv N s) {x : P}
    (hx : 0 < s.lwip x + links s.heap x) :
    SysInv N { s with heap := RefCount.retain s.heap x, lwip := give s.lwip (some x) } := by
  refine h.lwipStep ?_ (fun p hp => ?_) (fun p _ => ?_) (fun c hc => ?_)
    (fun c hc q hq => ?_)
  · rw [give_holders]
    apply h.balanced.retain
    -- a pbuf lwIP holds, or reaches by a link, is live
    have hbal := h.balanced x
    simp only [Sys.held, Pi.add_apply] at hbal
    omega
  · rw [retain_of_ne _ (h.ne_of_lwip hx hp)]
  · exact retain_val ..
  · exact (h.pinned c hc).1.trans_le (le_give ..)
  · exact ⟨retain_next .., retain_val ..⟩

theorem sysInv_ref {N : Nat} {s t : Sys P A} {x : P} (h : SysInv N s)
    (hstep : sysStep s (.ref x) = some t) : SysInv N t := by
  simp only [sysStep] at hstep
  split at hstep
  next hx =>
    cases hstep
    exact h.retained (by omega)
  next => simp at hstep

theorem sysInv_refNext {N : Nat} {s t : Sys P A} {x : P} (h : SysInv N s)
    (hstep : sysStep s (.refNext x) = some t) : SysInv N t := by
  simp only [sysStep] at hstep
  split at hstep
  next hx =>
    obtain ⟨y, hy, rfl⟩ := Option.map_eq_some_iff.mp hstep
    -- the link of `x` is what names `y`
    exact h.retained (by have := links_pos (h.ref_pos hx) hy; omega)
  next => simp at hstep

theorem sysInv_free {N : Nat} {s t : Sys P A} {x : P} (h : SysInv N s)
    (hstep : sysStep s (.free x) = some t) : SysInv N t := by
  simp only [sysStep] at hstep
  split at hstep
  next hx =>
    obtain ⟨hx, hkeep⟩ := hx
    cases hstep
    refine h.lwipStep ?_ (fun p _ => free_ref_le ..) (fun p _ => free_val ..)
      (fun c hc => ?_) (fun c hc q hq => ⟨free_next .., free_val ..⟩)
    · -- `pbuf_free` takes off the count what lwIP gives up
      apply Balanced.free
      rw [drop_holders N s hx]
      exact h.balanced
    · -- the caller of a running `ethernetif_output` keeps a reference to the head
      exact drop_pos (h.pinned c hc).1 fun heq => hkeep (passed_head hc heq)
  next => simp at hstep

theorem sysInv_chain {N : Nat} {s t : Sys P A} {x y : P} (h : SysInv N s)
    (hstep : sysStep s (.chain x y) = some t) : SysInv N t := by
  simp only [sysStep] at hstep
  split at hstep
  next hguard =>
    obtain ⟨hx, hy, hkeep, hnone, hbusy⟩ := hguard
    cases hstep
    refine h.lwipStep ?_ (fun p _ => by rw [setNext_ref]) (fun p _ => setNext_val ..)
      (fun c hc => ?_) (fun c hc q hq => ?_)
    · -- lwIP's reference to `y` is the link's from here on
      have hbal : Balanced s.heap (drop s.lwip (some y) + holders N s.tx.holds +
          holders N s.rx.holds + one (some y)) := by
        rw [drop_holders N s hy]
        exact h.balanced
      have hset := hbal.setNext (h.ref_pos hx)
      rw [hnone, one_none, add_zero] at hset
      exact hset
    · exact drop_pos (h.pinned c hc).1 fun heq => hkeep (passed_head hc heq)
    · rw [setNext_of_ne _ (not_mem_of_busy hc hbusy hq)]
      exact ⟨rfl, rfl⟩
  next => simp at hstep

theorem sysInv_dechain {N : Nat} {s t : Sys P A} {x : P} (h : SysInv N s)
    (hstep : sysStep s (.dechain x) = some t) : SysInv N t := by
  simp only [sysStep] at hstep
  split at hstep
  next hguard =>
    obtain ⟨hx, hbusy⟩ := hguard
    cases hstep
    refine h.lwipStep ?_ (fun p _ => by rw [setNext_ref]) (fun p _ => setNext_val ..)
      (fun c hc => ?_) (fun c hc q hq => ?_)
    · -- … and the other way round
      rw [give_holders]
      refine Balanced.setNext ?_ (h.ref_pos hx)
      rw [one_none, add_zero]
      exact h.balanced
    · exact (h.pinned c hc).1.trans_le (le_give ..)
    · rw [setNext_of_ne _ (not_mem_of_busy hc hbusy hq)]
      exact ⟨rfl, rfl⟩
  next => simp at hstep

theorem sysInv_write {N : Nat} {s t : Sys P A} {x : P} {v : PbufData A} (h : SysInv N s)
    (hstep : sysStep s (.write x v) = some t) : SysInv N t := by
  simp only [sysStep] at hstep
  split at hstep
  next hguard =>
    obtain ⟨hx, hbusy⟩ := hguard
    cases hstep
    refine h.lwipStep h.balanced.setVal (fun p _ => by rw [setVal_ref])
      (fun p hp => ?_) (fun c hc => (h.pinned c hc).1) (fun c hc q hq => ?_)
    · -- lwIP writes what it holds, and that is in no receive descriptor
      rw [setVal_of_ne _ (h.ne_of_lwip (by omega) hp)]
    · rw [setVal_of_ne _ (not_mem_of_busy hc hbusy hq)]
      exact ⟨rfl, rfl⟩
  next => simp at hstep

/-! ## The transmit side -/

theorem SysInv.txCur_lt {N : Nat} (hN : 0 < N) {s : Sys P A} (h : SysInv N s) {c : TxCall P A}
    (hc : s.tx.call = some c) : s.tx.cur < N := by
  obtain ⟨base, hat⟩ := h.tx.call c hc
  rw [hat.cur]
  exact Nat.mod_lt _ hN

theorem sysInv_output {N : Nat} (hN : 0 < N) {s t : Sys P A} {p : PbufChain P A}
    (h : SysInv N s) (hstep : sysStep s (.output p) = some t) : SysInv N t := by
  simp only [sysStep] at hstep
  split at hstep
  next hguard =>
    obtain ⟨tx, htx, rfl⟩ := Option.map_eq_some_iff.mp hstep
    have hi := txInv_step hN h.tx htx
    have hr := txRefs_step hN h.tx h.refs htx
    simp only [txStep] at htx
    cases hcall : s.tx.call with
    | some c => simp [hcall] at htx
    | none =>
      rw [hcall] at htx
      cases htx
      -- before the first statement every descriptor holds what it points to
      have hold : s.tx.holds = s.tx.ptr := TxState.holds_eq (by simp [hcall])
      refine h.rxSame hi hr ?_ (fun _ _ => Nat.le_refl _) (fun _ _ => rfl) fun c hc => ?_
      · have hbal := h.balanced
        rw [Sys.held, hold] at hbal
        exact hbal
      · cases hc
        exact hguard
  next => simp at hstep

theorem sysInv_txDma {N : Nat} (hN : 0 < N) {s t : Sys P A} {wb : BitVec 32}
    (h : SysInv N s) (hstep : sysStep s (.txDma wb) = some t) : SysInv N t := by
  obtain ⟨tx, htx, rfl⟩ := Option.map_eq_some_iff.mp hstep
  obtain ⟨hcall, hold⟩ := holds_txDma htx
  refine h.rxSame (txInv_step hN h.tx htx) (txRefs_step hN h.tx h.refs htx) ?_
    (fun _ _ => Nat.le_refl _) (fun _ _ => rfl) (by rw [hcall]; exact h.pinned)
  rw [hold]
  exact h.balanced

omit [DecidableEq A] in
/-- The statements that touch no pbuf. -/
theorem txHeap_eq {s : Sys P A} {c : TxCall P A} (hc : s.tx.call = some c)
    (hfree : c.stmt ≠ .frag .freeOld) (href : c.stmt ≠ .frag .ref) : s.txHeap = s.heap := by
  unfold Sys.txHeap
  rw [hc]
  dsimp only
  split
  next hstmt => exact absurd hstmt hfree
  next hstmt _ => exact absurd hstmt href
  next => rfl

theorem sysInv_txCpu {N : Nat} (hN : 0 < N) {s t : Sys P A} (h : SysInv N s)
    (hstep : sysStep s .txCpu = some t) : SysInv N t := by
  obtain ⟨tx, htx, rfl⟩ := Option.map_eq_some_iff.mp hstep
  have hi := txInv_step hN h.tx htx
  have hr := txRefs_step hN h.tx h.refs htx
  obtain ⟨c, hc, hp, hcases⟩ := holds_txCpu htx
  have hcur := h.txCur_lt hN hc
  have hbal := h.balanced
  -- the chain stays, as no statement writes a link or a payload
  have hpin : ∀ heap : Heap P (PbufData A), (∀ x, (heap x).next = (s.heap x).next) →
      (∀ x, (heap x).val = (s.heap x).val) → ∀ c', tx.call = some c' →
      0 < s.lwip c'.p.head.addr ∧ linkedIn heap c'.p.frags = true := by
    intro heap hnext hval c' hc'
    rw [hp c' hc', linkedIn_congr fun q _ => ⟨hnext q.addr, hval q.addr⟩]
    exact h.pinned c hc
  rcases hcases with ⟨hstmt, hold, hnew⟩ | ⟨q, hstmt, hq, hold, hnew⟩ | ⟨hfree, href, hsame⟩
  · -- `pbuf_free(tx_cur_dma_desc->pbuf)`: the reference of the cursor's descriptor goes
    have hheap : s.txHeap = RefCount.free s.heap (s.tx.ptr s.tx.cur) := by
      unfold Sys.txHeap
      rw [hc]
      dsimp only
      rw [hstmt]
    have hmove := holders_update hcur s.tx.ptr none
    rw [hheap]
    refine h.rxSame hi hr ?_ (fun p _ => free_ref_le ..) (fun p _ => free_val ..)
      (hpin _ (fun _ => free_next ..) fun _ => free_val ..)
    refine Balanced.free (hbal.congr fun p => ?_)
    have hmove := congrFun hmove p
    simp only [Sys.held, hold, hnew, Pi.add_apply, one_none, Pi.zero_apply] at hmove ⊢
    omega
  · -- `pbuf_ref(p)`: it holds the fragment, although the pointer is still the old one
    have hheap : s.txHeap = RefCount.retain s.heap q.addr := by
      unfold Sys.txHeap
      rw [hc]
      dsimp only
      rw [hstmt, hq]
    have hmem : q ∈ c.p.frags := List.mem_of_getElem? hq
    have hmove := holders_update hcur (Function.update s.tx.ptr s.tx.cur none) (some q.addr)
    rw [Function.update_idem, Function.update_self] at hmove
    rw [hheap]
    refine h.rxSame hi hr ?_ (fun p hp => ?_) (fun p _ => retain_val ..)
      (hpin _ (fun _ => retain_next ..) fun _ => retain_val ..)
    · refine (hbal.retain (h.chain_live hc hmem)).congr fun p => ?_
      have hmove := congrFun hmove p
      simp only [Sys.held, hold, hnew, Pi.add_apply, one_none, Pi.zero_apply] at hmove ⊢
      omega
    · rw [retain_of_ne _ (h.ne_of_lwip (h.chain_kept hc hmem) hp)]
  · rw [txHeap_eq hc hfree href]
    refine h.rxSame hi hr ?_ (fun _ _ => Nat.le_refl _) (fun _ _ => rfl)
      (hpin _ (fun _ => rfl) fun _ => rfl)
    rw [hsame]
    exact hbal

/-! ## The receive side -/

theorem SysInv.rxCur_lt {N : Nat} (hN : 0 < N) {s : Sys P A} (h : SysInv N s) {st : RxStmt}
    (hc : s.rx.call = some st) (hst : st.behind = false) : s.rx.cur < N := by
  rw [h.rx.cur (by simp [hc, hst])]
  exact Nat.mod_lt _ hN

/-- Nothing the books are about changes. -/
theorem SysInv.rxQuiet {N : Nat} {s : Sys P A} {rx : RxState P A} (h : SysInv N s)
    (hrx : RxInv N rx) (hpbuf : ∀ i, (rx.ring i).pbuf = (s.rx.ring i).pbuf)
    (hold : rx.holds = s.rx.holds) : SysInv N { s with rx := rx } := by
  refine h.txSame hrx ?_ ?_ ?_ (fun i hi q hq => ?_)
    (fun _ => Nat.le_refl _) fun _ _ => ⟨rfl, rfl⟩
  · rw [hold]
    exact h.balanced
  · rw [hold]
    exact h.excl
  · rw [RxState.ptr_congr hpbuf]
    exact h.distinct
  · rw [hpbuf] at hq
    rw [hold]
    exact h.data i hi q hq

/-- The descriptor at the cursor gives its pbuf away: to lwIP, or back to the pool. -/
theorem SysInv.rxGive {N : Nat} {s : Sys P A} {rx : RxState P A} {heap : Heap P (PbufData A)}
    {lwip : P → Nat} (h : SysInv N s) (hrx : RxInv N rx)
    (hpbuf : ∀ i, (rx.ring i).pbuf = (s.rx.ring i).pbuf)
    (hold : s.rx.holds = s.rx.ptr) (hnew : rx.holds = Function.update s.rx.ptr s.rx.cur none)
    (hbal : Balanced heap (lwip + holders N s.tx.holds + holders N rx.holds))
    (hlwip : ∀ x, s.lwip x ≤ lwip x)
    (hframe : ∀ x, (heap x).next = (s.heap x).next ∧ (heap x).val = (s.heap x).val ∧
      (heap x).ref ≤ (s.heap x).ref) :
    SysInv N { s with rx := rx, heap := heap, lwip := lwip } := by
  -- nothing is held that was not held before
  have hsub : ∀ i x, rx.holds i = some x → s.rx.holds i = some x := by
    intro i x hx
    rw [hnew] at hx
    by_cases hi : i = s.rx.cur
    · subst hi
      simp at hx
    · rw [Function.update_of_ne hi] at hx
      rw [hold]
      exact hx
  refine h.txSame hrx hbal (fun p hp => ?_) ?_ (fun i hi q hq hx => ?_) hlwip
    fun x _ => ⟨(hframe x).1, (hframe x).2.1⟩
  · obtain ⟨i, hi, hx⟩ := exists_of_holders_pos hp
    exact (hframe p).2.2.trans (h.excl p (holders_pos hi (hsub i p hx)))
  · rw [RxState.ptr_congr hpbuf]
    exact h.distinct
  · rw [hpbuf] at hq
    rw [(hframe _).2.1]
    exact h.data i hi q hq (hsub i _ hx)

theorem sysInv_rxCall {N : Nat} (hN : 0 < N) {s t : Sys P A} (h : SysInv N s)
    (hstep : sysStep s .rxCall = some t) : SysInv N t := by
  obtain ⟨rx, hrx, rfl⟩ := Option.map_eq_some_iff.mp hstep
  obtain ⟨hpbuf, hold⟩ := holds_rxCall hrx
  exact h.rxQuiet (rxInv_step hN h.rx hrx) hpbuf hold

theorem sysInv_rxDma {N : Nat} (hN : 0 < N) {s t : Sys P A} {w : BitVec 32} (h : SysInv N s)
    (hstep : sysStep s (.rxDma w) = some t) : SysInv N t := by
  obtain ⟨rx, hrx, rfl⟩ := Option.map_eq_some_iff.mp hstep
  obtain ⟨hpbuf, hold⟩ := holds_rxDma hrx
  exact h.rxQuiet (rxInv_step hN h.rx hrx) hpbuf hold

theorem sysInv_rxInput {N : Nat} (hN : 0 < N) {s t : Sys P A} {accept : Bool} (h : SysInv N s)
    (hstep : sysStep s (.rxInput accept) = some t) : SysInv N t := by
  obtain ⟨rx, hrx, rfl⟩ := Option.map_eq_some_iff.mp hstep
  have hi := rxInv_step hN h.rx hrx
  obtain ⟨hcall, hpbuf, hnew⟩ := holds_rxInput hrx
  have hold := RxState.holds_eq (s := s.rx) (by simp [hcall])
  cases accept with
  | false =>
    -- refused: the pbuf stays the descriptor's, until `pbuf_free`
    have hquiet := h.rxQuiet hi hpbuf (by rw [hnew, hold]; rfl)
    simpa [give] using hquiet
  | true =>
    -- accepted: no count changes, the reference is lwIP's now
    have hcur := h.rxCur_lt hN hcall rfl
    have hmove := holders_update hcur s.rx.ptr none
    refine h.rxGive hi hpbuf hold (by rw [hnew]; rfl) ?_ (le_give _ _)
      fun _ => ⟨rfl, rfl, Nat.le_refl _⟩
    apply h.balanced.congr
    intro p
    have hmove := congrFun hmove p
    have hptr : s.rx.desc.pbuf.map Pbuf.addr = s.rx.ptr s.rx.cur := rfl
    simp only [Sys.held, give, hold, hnew, hptr, if_true, Pi.add_apply, one_none,
      Pi.zero_apply] at hmove ⊢
    omega

/-- The lengths go into the pbuf of the descriptor at the cursor, which nobody else has. -/
theorem SysInv.rxSetLen {N : Nat} (hN : 0 < N) {s : Sys P A} (h : SysInv N s)
    (hcall : s.rx.call = some .setLen) (hi : RxInv N (s.rx.setLen.goto .input)) :
    SysInv N { s with rx := s.rx.setLen.goto .input, heap := s.rxHeap } := by
  have hb : s.rx.call.any RxStmt.behind = false := by simp [hcall, RxStmt.behind]
  have hhead := h.rx.head
  rw [hcall] at hhead
  obtain ⟨-, p, hp, -⟩ := hhead.2.2 hhead.1
  rw [← h.rx.desc_eq hb] at hp
  have hcur := h.rxCur_lt hN hcall rfl
  have hold := RxState.holds_eq (s := s.rx) (by simp [hcall])
  have hptrcur : s.rx.ptr s.rx.cur = some p.addr := by
    show s.rx.desc.pbuf.map Pbuf.addr = _
    rw [hp]
    rfl
  have hptr := s.rx.ptr_setLen
  have hnew : (s.rx.setLen.goto .input).holds = s.rx.ptr := by
    rw [RxState.holds_eq (by simp [RxState.goto]), hptr]
  have hpos : 0 < holders N s.rx.holds p.addr :=
    holders_pos hcur (by rw [hold]; exact hptrcur)
  have hheap : s.rxHeap = RefCount.setVal s.heap p.addr
      { p.data with
        tot_len := frameLength s.rx.desc.Status
        len := frameLength s.rx.desc.Status } := by
    unfold Sys.rxHeap
    rw [hcall, hp]
  rw [hheap]
  refine h.txSame hi ?_ (fun x hx => ?_) ?_ (fun i hiN q hq _ => ?_)
    (fun _ => Nat.le_refl _) fun x hx => ?_
  · rw [hnew, ← hold]
    exact h.balanced.setVal
  · rw [hnew, ← hold] at hx
    rw [setVal_ref]
    exact h.excl x hx
  · rw [hptr]
    exact h.distinct
  · by_cases hic : i = s.rx.cur
    · -- the heap and the descriptor's copy get the same two lengths
      subst hic
      have hq : (Function.update s.rx.ring s.rx.cur { s.rx.desc with
          pbuf := s.rx.desc.pbuf.map fun p =>
            { p with
              tot_len := frameLength s.rx.desc.Status
              len := frameLength s.rx.desc.Status } } s.rx.cur).pbuf = some q := hq
      rw [Function.update_self, hp] at hq
      cases hq
      rw [setVal_self_val]
      rfl
    · -- another descriptor has another pbuf
      have hq : (Function.update s.rx.ring s.rx.cur _ i).pbuf = some q := hq
      rw [Function.update_of_ne hic] at hq
      have hqi : s.rx.ptr i = some q.addr := by
        rw [RxState.ptr, hq]
        rfl
      have hne : q.addr ≠ p.addr := fun heq =>
        h.distinct i hiN _ hcur hic _ hqi (by rw [hptrcur, heq])
      rw [setVal_of_ne _ hne]
      exact h.data i hiN q hq (by rw [hold]; exact hqi)
  · rw [setVal_of_ne _ (h.ne_of_lwip hx hpos).symm]
    exact ⟨rfl, rfl⟩

theorem sysInv_rxCpu {N : Nat} (hN : 0 < N) {s t : Sys P A} (h : SysInv N s)
    (hstep : sysStep s .rxCpu = some t) : SysInv N t := by
  obtain ⟨rx, hrx, rfl⟩ := Option.map_eq_some_iff.mp hstep
  have hi := rxInv_step hN h.rx hrx
  rcases holds_rxCpu hrx with ⟨hcall, rfl⟩ | ⟨hcall, rfl⟩ | ⟨hlen, hfree, hpbuf, hold⟩
  · exact h.rxSetLen hN hcall hi
  · -- `pbuf_free` after a refused frame
    have hcur := h.rxCur_lt hN hcall rfl
    have hold := RxState.holds_eq (s := s.rx) (by simp [hcall])
    have hmove := holders_update hcur s.rx.ptr none
    have hheap : s.rxHeap = RefCount.free s.heap (s.rx.ptr s.rx.cur) := by
      unfold Sys.rxHeap
      rw [hcall]
      rfl
    rw [hheap]
    refine h.rxGive hi (fun _ => rfl) hold rfl ?_ (fun _ => Nat.le_refl _)
      fun x => ⟨free_next .., free_val .., free_ref_le ..⟩
    refine Balanced.free (h.balanced.congr fun p => ?_)
    have hmove := congrFun hmove p
    have hnew : (s.rx.freePbuf.goto .alloc).holds = Function.update s.rx.ptr s.rx.cur none := rfl
    simp only [Sys.held, hold, hnew, Pi.add_apply, one_none, Pi.zero_apply] at hmove ⊢
    omega
  · have hheap : s.rxHeap = s.heap := by
      unfold Sys.rxHeap
      split
      next hst _ => exact absurd hst hlen
      next hst => exact absurd hst hfree
      next => rfl
    rw [hheap]
    exact h.rxQuiet hi hpbuf hold

/-- While `pbuf_alloc` runs, the descriptors off the cursor hold what they point to. -/
theorem SysInv.rx_off {N : Nat} {s : Sys P A} (h : SysInv N s) (hcall : s.rx.call = some .alloc)
    {i : Nat} (hi : i < N) (hic : i ≠ s.rx.cur) {x : P} (hx : s.rx.ptr i = some x) :
    s.rx.holds i = some x ∧ (s.heap x).ref = 1 := by
  have hhold : s.rx.holds i = some x := by
    rw [RxState.holds_alloc hcall, Function.update_of_ne hic]
    exact hx
  exact ⟨hhold, (h.exclusive (holders_pos hi hhold)).1⟩

/-- The descriptor at the cursor gets a pbuf, or is left without one. -/
theorem SysInv.rxRefill {N : Nat} (hN : 0 < N) {s : Sys P A} {rx : RxState P A}
    {fresh : Option (Pbuf P A)} {heap : Heap P (PbufData A)} (h : SysInv N s)
    (hrx : rxStep s.rx (.alloc fresh) = some rx)
    (hbal : Balanced heap (s.held N + one (fresh.map Pbuf.addr)))
    (hfree : ∀ q, fresh = some q → (s.heap q.addr).ref = 0 ∧ (heap q.addr).ref = 1 ∧
      (heap q.addr).val = q.data)
    (hframe : ∀ x, 0 < (s.heap x).ref → heap x = s.heap x) :
    SysInv N { s with rx := rx, heap := heap } := by
  obtain ⟨hcall, hring, hnew, hptr⟩ := holds_rxAlloc hrx
  have hcur := h.rxCur_lt hN hcall rfl
  have hold := RxState.holds_alloc hcall
  -- what the other descriptors have is live: it is left alone, and is not what was free
  have hkept : ∀ i < N, i ≠ s.rx.cur → ∀ x, s.rx.ptr i = some x → heap x = s.heap x := by
    intro i hi hic x hx
    exact hframe x (by rw [(h.rx_off hcall hi hic hx).2]; exact Nat.one_pos)
  have hfresh : ∀ i < N, i ≠ s.rx.cur → ∀ x, s.rx.ptr i = some x →
      fresh.map Pbuf.addr ≠ some x := by
    intro i hi hic x hx hq
    obtain ⟨q, rfl, rfl⟩ := Option.map_eq_some_iff.mp hq
    have := (h.rx_off hcall hi hic hx).2
    have := (hfree q rfl).1
    omega
  refine h.txSame (rxInv_step hN h.rx hrx) ?_ (fun x hx => ?_)
    (fun i hi j hj hij x hx hx' => ?_) (fun i hi q hq _ => ?_) (fun _ => Nat.le_refl _)
    fun x hx => ?_
  · -- the reference that `pbuf_alloc` makes is the descriptor's
    have hmove := holders_update hcur (Function.update s.rx.ptr s.rx.cur none)
      (fresh.map Pbuf.addr)
    rw [Function.update_idem, Function.update_self] at hmove
    apply hbal.congr
    intro p
    have hmove := congrFun hmove p
    simp only [Sys.held, hold, hnew, hptr, Pi.add_apply, one_none, Pi.zero_apply] at hmove ⊢
    omega
  · obtain ⟨i, hi, hx⟩ := exists_of_holders_pos hx
    rw [hnew, hptr] at hx
    by_cases hic : i = s.rx.cur
    · subst hic
      rw [Function.update_self] at hx
      obtain ⟨q, rfl, rfl⟩ := Option.map_eq_some_iff.mp hx
      exact Nat.le_of_eq (hfree q rfl).2.1
    · rw [Function.update_of_ne hic] at hx
      rw [hkept i hi hic x hx]
      exact h.excl x (holders_pos hi (h.rx_off hcall hi hic hx).1)
  · -- a pbuf in two descriptors: one of the two is at the cursor, and the pbuf was free
    rw [hptr] at hx hx'
    by_cases hic : i = s.rx.cur
    · subst hic
      rw [Function.update_self] at hx
      rw [Function.update_of_ne hij.symm] at hx'
      exact hfresh j hj hij.symm x hx' hx
    · rw [Function.update_of_ne hic] at hx
      by_cases hjc : j = s.rx.cur
      · subst hjc
        rw [Function.update_self] at hx'
        exact hfresh i hi hic x hx hx'
      · rw [Function.update_of_ne hjc] at hx'
        exact h.distinct i hi j hj hij x hx hx'
  · rw [hring] at hq
    by_cases hic : i = s.rx.cur
    · subst hic
      rw [Function.update_self] at hq
      exact (hfree q hq).2.2
    · rw [Function.update_of_ne hic] at hq
      have hqi : s.rx.ptr i = some q.addr := by
        rw [RxState.ptr, hq]
        rfl
      rw [hkept i hi hic _ hqi]
      exact h.data i hi q hq (h.rx_off hcall hi hic hqi).1
  · -- a chain that runs is live, so `pbuf_alloc` did not take of it
    have hlive : 0 < (s.heap x).ref := by
      have hx' := h.balanced x
      simp only [Sys.held, Pi.add_apply] at hx'
      omega
    rw [hframe x hlive]
    exact ⟨rfl, rfl⟩

theorem sysInv_rxAlloc {N : Nat} (hN : 0 < N) {s t : Sys P A} {fresh : Option (Pbuf P A)}
    (h : SysInv N s) (hstep : sysStep s (.rxAlloc fresh) = some t) : SysInv N t := by
  cases fresh with
  | none =>
    obtain ⟨rx, hrx, rfl⟩ := Option.map_eq_some_iff.mp hstep
    refine h.rxRefill hN hrx ?_ (by simp) fun _ _ => rfl
    rw [Option.map_none, one_none, add_zero]
    exact h.balanced
  | some q =>
    simp only [sysStep] at hstep
    split at hstep
    next hfree =>
      obtain ⟨rx, hrx, rfl⟩ := Option.map_eq_some_iff.mp hstep
      refine h.rxRefill hN hrx (h.balanced.alloc hfree q.data) (fun q' hq' => ?_)
        fun x hx => alloc_of_ne _ (by rintro rfl; omega) _
      obtain rfl := Option.some.inj hq'
      exact ⟨hfree, by rw [alloc_self], by rw [alloc_self]⟩
    next => simp at hstep

/-! ## Every run -/

/-- **Every step keeps the books.** -/
theorem sysInv_step {N : Nat} (hN : 0 < N) {s t : Sys P A} {a : SysAct P A} (h : SysInv N s)
    (hstep : sysStep s a = some t) : SysInv N t := by
  cases a with
  | output p => exact sysInv_output hN h hstep
  | txCpu => exact sysInv_txCpu hN h hstep
  | txDma wb => exact sysInv_txDma hN h hstep
  | rxCall => exact sysInv_rxCall hN h hstep
  | rxCpu => exact sysInv_rxCpu hN h hstep
  | rxInput accept => exact sysInv_rxInput hN h hstep
  | rxAlloc fresh => exact sysInv_rxAlloc hN h hstep
  | rxDma w => exact sysInv_rxDma hN h hstep
  | alloc x v => exact sysInv_alloc h hstep
  | ref x => exact sysInv_ref h hstep
  | refNext x => exact sysInv_refNext h hstep
  | free x => exact sysInv_free h hstep
  | chain x y => exact sysInv_chain h hstep
  | dechain x => exact sysInv_dechain h hstep
  | write x v => exact sysInv_write h hstep

omit [DecidableEq A] in
/-- The initial allocations hand `N` different pbufs to the receive descriptors. -/
theorem initHeap_spec {n : Nat} {alloc : Nat → Option (Pbuf P A)}
    {pool heap : Heap P (PbufData A)} (hpool : ∀ p, (pool p).ref = 0)
    (h : initHeap n alloc pool = some heap) :
    Balanced heap (holders n fun i => (alloc i).map Pbuf.addr) ∧ (∀ p, (heap p).ref ≤ 1) ∧
      ∀ i < n, ∀ q, alloc i = some q → (heap q.addr).ref = 1 ∧ (heap q.addr).val = q.data := by
  induction n generalizing heap with
  | zero =>
    obtain rfl := Option.some.inj h
    refine ⟨fun p => ?_, fun p => by rw [hpool p]; exact Nat.zero_le 1, fun i hi => absurd hi
      (Nat.not_lt_zero i)⟩
    rw [hpool p, holders_zero, links, Finset.sum_eq_zero fun q _ => Cell.out_of_dead (hpool q) p]
    rfl
  | succ n ih =>
    rw [initHeap, List.range_succ, List.foldlM_append, Option.bind_eq_bind,
      Option.bind_eq_some_iff] at h
    obtain ⟨mid, hmid, hlast⟩ := h
    obtain ⟨hbal, hle, hdata⟩ := ih hmid
    rw [List.foldlM_cons, Option.bind_eq_bind, Option.bind_eq_some_iff] at hlast
    obtain ⟨heap', hlast, hnil⟩ := hlast
    cases hnil
    obtain ⟨q, hq, hlast⟩ := Option.bind_eq_some_iff.mp hlast
    split at hlast
    next hfree =>
      cases hlast
      -- the last allocation takes a pbuf that none of the others took
      have hne : ∀ x, (mid x).ref = 1 → x ≠ q.addr := by
        rintro x hx rfl
        omega
      refine ⟨?_, fun p => ?_, fun i hi q' hq' => ?_⟩
      · rw [holders_succ, hq]
        exact hbal.alloc hfree q.data
      · by_cases hp : p = q.addr
        · subst hp
          rw [alloc_self]
        · rw [alloc_of_ne _ hp]
          exact hle p
      · rcases Nat.lt_succ_iff_lt_or_eq.mp hi with hlt | rfl
        · obtain ⟨href, hval⟩ := hdata i hlt q' hq'
          rw [alloc_of_ne _ (hne _ href)]
          exact ⟨href, hval⟩
        · obtain rfl := Option.some.inj (hq.symm.trans hq')
          rw [alloc_self]
          exact ⟨rfl, rfl⟩
    next => simp at hlast

theorem SysInv.init {N B : Nat} (hN : 0 < N) {alloc : Nat → Option (Pbuf P A)}
    {pool : Heap P (PbufData A)} {s : Sys P A} (hpool : ∀ p, (pool p).ref = 0)
    (h : Sys.init N B alloc pool = some s) : SysInv N s := by
  obtain ⟨rx, hrx, hs⟩ := Option.bind_eq_some_iff.mp h
  obtain ⟨heap, hheap, rfl⟩ := Option.map_eq_some_iff.mp hs
  have hi := RxInv.init hN hrx
  obtain ⟨ring, hring, rfl⟩ := RxState.init_eq hrx
  obtain ⟨hbal, hle, hdata⟩ := initHeap_spec hpool hheap
  have hslot : ∀ i < N, (ring i).pbuf = alloc i := by
    intro i hiN
    obtain ⟨p, hp, hslot⟩ := initRxDmaDesc_apply hring hiN
    rw [hslot, hp]
  have hholds : holders N (fun i => (alloc i).map Pbuf.addr) =
      holders N fun i => (ring i).pbuf.map Pbuf.addr :=
    holders_congr fun i hiN => by rw [hslot i hiN]
  -- the transmit descriptors start out with NULL
  have htx : holders N (TxState.init P A N).holds = 0 := by
    have hnull : holders N (TxState.init P A N).holds = holders N fun _ => none :=
      holders_congr fun i hiN => by
        show (initTxDmaDesc N i : DmaDesc P A).pbuf.map Pbuf.addr = none
        rw [initTxDmaDesc_apply hiN]
        rfl
    rw [hnull]
    funext p
    exact Finset.sum_eq_zero fun _ _ => rfl
  refine ⟨TxInv.init hN, TxRefs.init, hi, ?_, fun p _ => hle p, fun i hiN j hjN hij x hx hx' => ?_,
    fun i hiN q hq _ => ?_, fun c hc => absurd hc (by simp [TxState.init])⟩
  · apply hbal.congr
    intro p
    simp only [Sys.held, htx, hholds, Pi.add_apply, Pi.zero_apply, Nat.zero_add]
    rfl
  · -- two slots with one pbuf would be two references to it
    have htwo : 2 ≤ holders N (fun i => (alloc i).map Pbuf.addr) x :=
      two_le_holders hiN hjN hij (by rw [← hslot i hiN]; exact hx)
        (by rw [← hslot j hjN]; exact hx')
    have := hbal x
    have := hle x
    omega
  · exact (hdata i hiN q ((hslot i hiN).symm.trans hq)).2

/-- **Every run keeps the books.** -/
theorem sysInv_exec {N B : Nat} (hN : 0 < N) {alloc : Nat → Option (Pbuf P A)}
    {pool : Heap P (PbufData A)} {s₀ s : Sys P A} (hpool : ∀ p, (pool p).ref = 0)
    (hinit : Sys.init N B alloc pool = some s₀) {as : List (SysAct P A)}
    (h : exec sysStep s₀ as = some s) : SysInv N s :=
  exec_invariant (SysInv.init hN hpool hinit) (fun _ _ _ hi hs => sysInv_step hN hi hs) h

end EthernetIf

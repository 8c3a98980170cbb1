import EthernetIf.ZeroCopy.Lifetime

/-!
# Who may touch a receive buffer

While the DMA owns a receive descriptor, the descriptor's reference to its pbuf is the only
one there is: the books (`SysInv.exclusive`) leave no room for another receive descriptor, for
a transmit descriptor, for lwIP or for a link, and a count of one is not a free pbuf.

The *pointer* of one other descriptor can still name it. `process_tx_descr` frees the old pbuf
of its descriptor before it stores the new pointer, and between the two the old pointer names
a pbuf that `pbuf_alloc` may hand to the receive ring (`rx_isolation_stale`). It holds no
reference, and the descriptor is the CPU's until long after the store.

The two DMAs know nothing of pbufs; they have the addresses in `Buffer1Addr`. On a transmit
descriptor that is the payload of the fragment it holds, as it was when the chain was passed to
`ethernetif_output`. So where different pbufs have their payloads in different memory, the two
never work on one buffer (`buffers_unshared`).
-/

namespace EthernetIf

open Lts Ring RefCount

variable {P A : Type}

/-- A descriptor the DMA owns holds what it points to. -/
theorem RxInv.own_holds {N : Nat} {s : RxState P A} (h : RxInv N s) {i : Nat}
    (hi : i < N) (hown : (s.ring i).own = true) :
    ∃ q, (s.ring i).pbuf = some q ∧ (s.ring i).Buffer1Addr = some q.payload ∧
      s.holds i = some q.addr := by
  obtain ⟨k, hge, hlt, hmod⟩ := h.ring.armed_of_own hi hown
  obtain ⟨-, q, hq, hbuf⟩ := h.ring.armed k hge hlt
  rw [hmod] at hq hbuf
  refine ⟨q, hq, hbuf, ?_⟩
  have hptr : s.ptr i = some q.addr := by
    rw [RxState.ptr, hq]
    rfl
  by_cases hcall : s.call = some .alloc
  · -- the cursor is at a descriptor the DMA closed
    have hhead := h.head
    rw [hcall] at hhead
    have hcur := h.cur (by simp [hcall, RxStmt.behind])
    have hne : i ≠ s.cur := by
      rintro rfl
      rw [hcur] at hown
      exact absurd (hown.symm.trans (h.ring.taken hhead.1.1)) (by simp)
    rw [RxState.holds_alloc hcall, Function.update_of_ne hne]
    exact hptr
  · rw [RxState.holds_eq hcall]
    exact hptr

variable [DecidableEq P]

/-- A transmit pointer to a pbuf no transmit descriptor holds is the one about to be
    overwritten. -/
theorem TxState.replacing_of_ptr {N : Nat} {s : TxState P A} {j : Nat} {x : P} (hj : j < N)
    (hnone : holders N s.holds x = 0) (hptr : s.ptr j = some x) :
    j = s.cur ∧ s.replacing = true := by
  have hholds : s.holds j ≠ s.ptr j := by
    intro heq
    have := holders_pos hj (heq.trans hptr)
    omega
  constructor
  · by_contra hne
    exact hholds (TxState.holds_of_ne hne)
  · cases hrep : s.replacing with
    | true => rfl
    | false => exact absurd (congrFun (TxState.holds_of_not_replacing hrep) j) hholds

/-! ## Buffer addresses -/

omit [DecidableEq P] in
/-- An entry is what was submitted of one fragment, and the two lists agree on which. -/
theorem exists_frag {sent : List (PbufChain P A)} {k : Nat} {e : TxEntry A}
    (h : (entriesOf sent)[k]? = some e) :
    ∃ c ∈ sent, ∃ q ∈ c.frags,
      e.payload = some q.payload ∧ (addrsOf sent)[k]? = some q.addr := by
  induction sent generalizing k with
  | nil => simp [entriesOf] at h
  | cons p sent ih =>
    have hentries : entriesOf (p :: sent) = p.entries ++ entriesOf sent := rfl
    have haddrs : addrsOf (p :: sent) = p.frags.map Pbuf.addr ++ addrsOf sent := rfl
    rw [hentries] at h
    rcases Nat.lt_or_ge k p.frags.length with hlt | hge
    · -- of the first chain
      rw [List.getElem?_append_left (by rwa [PbufChain.length_entries]), PbufChain.entries,
        List.getElem?_mapIdx, List.getElem?_eq_getElem hlt] at h
      cases h
      refine ⟨p, List.mem_cons_self, p.frags[k], List.getElem_mem hlt, rfl, ?_⟩
      rw [haddrs, List.getElem?_append_left (by rwa [List.length_map]), List.getElem?_map,
        List.getElem?_eq_getElem hlt]
      rfl
    · rw [List.getElem?_append_right (by rwa [PbufChain.length_entries]),
        PbufChain.length_entries] at h
      obtain ⟨c, hc, q, hq, hpay, haddr⟩ := ih h
      refine ⟨c, List.mem_cons_of_mem _ hc, q, hq, hpay, ?_⟩
      rw [haddrs, List.getElem?_append_right (by rwa [List.length_map]), List.length_map]
      exact haddr

/-- What the transmit DMA reads is the payload of a pbuf the descriptor holds. -/
theorem TxInv.own_buffer {N : Nat} {s : TxState P A} (h : TxInv N s) (hr : TxRefs N s) {j : Nat}
    (hj : j < N) (hown : (s.ring j).own = true) :
    ∃ c ∈ s.sent, ∃ q ∈ c.frags,
      (s.ring j).Buffer1Addr = some q.payload ∧ s.holds j = some q.addr := by
  obtain ⟨k, hentry, -, hptr, hholds⟩ := h.own_ptr hr hj hown
  obtain ⟨c, hc, q, hq, hpay, haddr⟩ := exists_frag hentry
  exact ⟨c, hc, q, hq, hpay, by rw [hholds, hptr, haddr]⟩

variable [Fintype P] [DecidableEq A]

/-- **The two DMAs share no buffer**: where every pbuf that the receive ring has, or that was
    ever passed to `ethernetif_output`, has its payload in memory of its own, the address in a
    receive descriptor the DMA owns is in no transmit descriptor the DMA owns. -/
theorem buffers_unshared (N B : Nat) (hN : 0 < N) (alloc : Nat → Option (Pbuf P A))
    (pool : Heap P (PbufData A)) (hpool : ∀ p, (pool p).ref = 0) (s₀ s : Sys P A)
    (hinit : Sys.init N B alloc pool = some s₀) (as : List (SysAct P A))
    (hrun : exec sysStep s₀ as = some s) (owner : A → P)
    (hrx : ∀ i < N, ∀ q, (s.rx.ring i).pbuf = some q → owner q.payload = q.addr)
    (htx : ∀ c ∈ s.tx.sent, ∀ q ∈ c.frags, owner q.payload = q.addr) (i j : Nat) (hi : i < N)
    (hj : j < N) (howni : (s.rx.ring i).own = true) (hownj : (s.tx.ring j).own = true) :
    (s.rx.ring i).Buffer1Addr ≠ (s.tx.ring j).Buffer1Addr := by
  have h := sysInv_exec hN hpool hinit hrun
  obtain ⟨q, hq, hbuf, hholds⟩ := h.rx.own_holds hi howni
  obtain ⟨c, hc, p, hp, hbuf', hholds'⟩ := h.tx.own_buffer h.refs hj hownj
  intro heq
  -- one address, so one pbuf, and two that hold it
  have hpay : q.payload = p.payload := Option.some.inj (hbuf.symm.trans (heq.trans hbuf'))
  have haddr : q.addr = p.addr := by
    rw [← hrx i hi q hq, ← htx c hc p hp, hpay]
  obtain ⟨-, -, hnone, -⟩ := h.exclusive (holders_pos hi hholds)
  have hsome := holders_pos hj hholds'
  rw [← haddr] at hsome
  omega

/-! ## Every descriptor -/

/-- **A buffer the receive DMA may write is nobody else's.** In every state any run reaches,
    of both rings and of lwIP holding, freeing and sending pbufs as its rules allow:

    * a receive descriptor the DMA owns has a pbuf and its payload address, and that pbuf is
      in no other receive descriptor, is not lwIP's, is linked from none, and is not free;
    * no transmit descriptor holds it, and at most one points to it: the one `process_tx_descr`
      is refilling, which is the CPU's, after `pbuf_free` and before the store;
    * `pbuf_free` after a refused frame drops the only reference there is;
    * the descriptor left without a pbuf by a failed allocation holds none, so nothing is
      lost: a pbuf is free exactly when nobody who can be named holds it. -/
theorem rx_isolation (N B : Nat) (hN : 0 < N) (alloc : Nat → Option (Pbuf P A))
    (pool : Heap P (PbufData A)) (hpool : ∀ p, (pool p).ref = 0) (s₀ s : Sys P A)
    (hinit : Sys.init N B alloc pool = some s₀) (as : List (SysAct P A))
    (hrun : exec sysStep s₀ as = some s) :
    (∀ i < N, (s.rx.ring i).own = true → ∃ q, (s.rx.ring i).pbuf = some q ∧
      (s.rx.ring i).Buffer1Addr = some (s.heap q.addr).val.payload ∧
      (∀ j < N, j ≠ i → s.rx.ptr j ≠ some q.addr) ∧
      (∀ j < N, s.tx.holds j ≠ some q.addr) ∧
      (∀ j < N, s.tx.ptr j = some q.addr →
        j = s.tx.cur ∧ s.tx.replacing = true ∧ (s.tx.ring j).own = false) ∧
      s.lwip q.addr = 0 ∧ links s.heap q.addr = 0 ∧ (s.heap q.addr).ref = 1) ∧
    (∀ old, s.rx.call = some .free → s.rx.desc.pbuf = some old →
      (s.heap old.addr).ref = 1 ∧ s.rx.holds s.rx.cur = some old.addr) ∧
    (∀ p, (s.heap p).ref = 0 ↔ s.lwip p = 0 ∧ (∀ i < N, s.rx.holds i ≠ some p) ∧
      (∀ i < N, s.tx.holds i ≠ some p) ∧ links s.heap p = 0) := by
  have h := sysInv_exec hN hpool hinit hrun
  refine ⟨fun i hi hown => ?_, fun old hcall hold => ?_, fun p => ?_⟩
  · obtain ⟨q, hq, hbuf, hholds⟩ := h.rx.own_holds hi hown
    obtain ⟨href, hlwip, htx, -, hlinks⟩ := h.exclusive (holders_pos hi hholds)
    have hptr : s.rx.ptr i = some q.addr := by
      rw [RxState.ptr, hq]
      rfl
    refine ⟨q, hq, ?_, fun j hj hji => h.distinct i hi j hj hji.symm _ hptr, fun j hj hx => ?_,
      fun j hj hx => ?_, hlwip, hlinks, href⟩
    · rw [hbuf, h.data i hi q hq hholds]
      rfl
    · have := holders_pos hj hx
      omega
    · obtain ⟨rfl, hrep⟩ := TxState.replacing_of_ptr hj htx hx
      exact ⟨rfl, hrep, h.tx.own_of_replacing hrep⟩
  · have hcur := h.rxCur_lt hN hcall rfl
    have hholds : s.rx.holds s.rx.cur = some old.addr := by
      rw [RxState.holds_eq (by simp [hcall]), RxState.ptr]
      show s.rx.desc.pbuf.map Pbuf.addr = _
      rw [hold]
      rfl
    exact ⟨(h.exclusive (holders_pos hcur hholds)).1, hholds⟩
  · have hbal := h.balanced p
    simp only [Sys.held, Pi.add_apply] at hbal
    rw [← holders_eq_zero, ← holders_eq_zero]
    omega

/-- A refused frame on a ring of one: its pbuf is freed, allocated again at once, and the
    descriptor's alone when the DMA gets it back. -/
theorem rx_isolation_refused :
    ∃ s₀ s : Sys (Fin 2) Nat,
      Sys.init (P := Fin 2) (A := Nat) 1 1536
        (fun _ => some { addr := 0, payload := 0, tot_len := 0, len := 0 })
        (fun _ => { ref := 0, next := none, val := { payload := 0, tot_len := 0, len := 0 } }) =
          some s₀ ∧
      exec sysStep s₀ [.rxDma 0x003c0300, .rxCall, .rxCpu, .rxCpu, .rxCpu, .rxCpu,
        .rxInput false, .rxCpu,
        .rxAlloc (some { addr := 0, payload := 0, tot_len := 1536, len := 1536 }),
        .rxCpu, .rxCpu, .rxCpu] = some s ∧
      s.rx.freed.length = 1 ∧ (s.rx.ring 0).own = true ∧
      ∃ q, (s.rx.ring 0).pbuf = some q ∧
        (s.rx.ring 0).Buffer1Addr = some (s.heap q.addr).val.payload ∧
        (∀ j < 1, j ≠ 0 → s.rx.ptr j ≠ some q.addr) ∧
        (∀ j < 1, s.tx.holds j ≠ some q.addr) ∧
        (∀ j < 1, s.tx.ptr j = some q.addr →
          j = s.tx.cur ∧ s.tx.replacing = true ∧ (s.tx.ring j).own = false) ∧
        s.lwip q.addr = 0 ∧ links s.heap q.addr = 0 ∧ (s.heap q.addr).ref = 1 := by
  refine exists_init_exec (fun s => s.rx.freed.length == 1 && (s.rx.ring 0).own)
    (by decide +kernel) fun s₀ s hinit hrun hs => ?_
  rw [Bool.and_eq_true, beq_iff_eq] at hs
  exact ⟨hs.1, hs.2,
    (rx_isolation 1 1536 (by decide) _ _ (fun _ => rfl) s₀ s hinit _ hrun).1 0 (by decide) hs.2⟩

/-- On rings of one, a received frame is replaced by a pbuf that `process_tx_descr` has just
    freed. -/
def staleRun : List (SysAct (Fin 3) Nat) :=
  -- pbuf 1 is sent and dropped
  [.alloc 1 { payload := 1, tot_len := 60, len := 60 },
    .output { head := { addr := 1, payload := 1, tot_len := 60, len := 60 },
              tail := [], nodup := by decide }] ++
  List.replicate 14 .txCpu ++ [.txDma 0, .free 1,
    -- pbuf 2 is queued, up to the call of pbuf_free
    .alloc 2 { payload := 2, tot_len := 60, len := 60 },
    .output { head := { addr := 2, payload := 2, tot_len := 60, len := 60 },
              tail := [], nodup := by decide },
    .txCpu, .txCpu, .txCpu,
    -- a frame is received, and pbuf 1 takes its place
    .rxDma 0x003c0300, .rxCall, .rxCpu, .rxCpu, .rxCpu, .rxCpu, .rxInput true,
    .rxAlloc (some { addr := 1, payload := 1, tot_len := 1536, len := 1536 }),
    .rxCpu, .rxCpu, .rxCpu]

/-- The stale pointer: the DMA owns a receive descriptor whose pbuf a transmit descriptor
    points to. -/
theorem rx_isolation_stale :
    ∃ s₀ s : Sys (Fin 3) Nat,
      Sys.init (P := Fin 3) (A := Nat) 1 1536
        (fun _ => some { addr := 0, payload := 0, tot_len := 0, len := 0 })
        (fun _ => { ref := 0, next := none, val := { payload := 0, tot_len := 0, len := 0 } }) =
          some s₀ ∧
      exec sysStep s₀ staleRun = some s ∧ (s.rx.ring 0).own = true ∧
      s.rx.ptr 0 = some 1 ∧ s.tx.ptr 0 = some 1 := by
  refine exists_init_exec
    (fun s => (s.rx.ring 0).own && s.rx.ptr 0 == some 1 && s.tx.ptr 0 == some 1)
    (by decide +kernel) fun s₀ s hinit hrun hs => ?_
  simp only [Bool.and_eq_true, beq_iff_eq] at hs
  exact ⟨hs.1.1, hs.1.2, hs.2⟩

end EthernetIf

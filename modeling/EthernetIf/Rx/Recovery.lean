import EthernetIf.Rx.Invariant
import EthernetIf.Rx.Call

/-!
# What a failed allocation does to reception

`process_rx_descr` gives the pbuf away before it knows whether there is another one. When
there is none it returns with `desc->pbuf == NULL`, and the second test at the top of the
function sends every later call home from the same descriptor: nothing ever allocates for it
again. One failure is remembered for good (`head_pbuf_exec`), and whether reception can go on
is a question about the allocations of the past only (`rx_rearms_iff`).
-/

namespace EthernetIf

open Lts Ring

variable {P A : Type}

/-- Whatever lwIP says, a call that is given a pbuf re-arms the descriptor at the cursor with
    it and moves on to the next. -/
def Rearms (N : Nat) (s : RxState P A) : Prop :=
  ∀ accept p, let t := s.processRxDescr accept (some p)
    ((t.ring s.cur).own = true ∧ (t.ring s.cur).pbuf = some p ∧
      (t.ring s.cur).Buffer1Addr = some p.payload) ∧
    t.cur = (s.cur + 1) % N ∧ t.ret = some 0

/-- Whatever lwIP and the allocator say, a call returns 1 and changes nothing. -/
def Absorbing (s : RxState P A) : Prop :=
  ∀ accept fresh, s.processRxDescr accept fresh = s.return 1

/-! ## The head remembers -/

/-- A head that nothing was done with has its pbuf. -/
theorem Resting.pbuf_ne {N : Nat} {s : RxState P A} (hr : RxRing N s) (hN : 0 < N)
    (h : Resting N s) : (s.head N).pbuf ≠ none := by
  rcases Nat.lt_or_eq_of_le hr.rearmed_le with hlt | heq
  · obtain ⟨-, p, hp, -⟩ := h.2 hlt
    simp [hp]
  · obtain ⟨-, p, hp, -⟩ := hr.armed s.rearmed (by omega) (by omega)
    show (s.ring (s.rearmed % N)).pbuf ≠ none
    simp [hp]

/-- No statement takes the pbuf of the head away or gives it one. -/
theorem head_pbuf_cpu {N : Nat} (hN : 0 < N) {s t : RxState P A} {st : RxStmt} (h : RxInv N s)
    (hcall : s.call = some st) (hstmt : s.stmt st .cpu = some t) :
    (t.head N).pbuf = none ↔ (s.head N).pbuf = none := by
  have hb : s.call.any RxStmt.behind = st.behind := by simp [hcall]
  have hhead := h.head
  rw [hcall] at hhead
  cases st with
  | input | alloc => simp [RxState.stmt] at hstmt
  | checkOwn | checkPbuf | checkFlags | checkAlloc =>
    cases hstmt
    split <;> rfl
  | free | testRbus | ackRbus | poll | advance =>
    cases hstmt
    rfl
  | setLen =>
    cases hstmt
    show (s.setLen.head N).pbuf = none ↔ _
    rw [RxState.setLen, h.head_store hb, Option.map_eq_none_iff]
  | setBuf =>
    cases hstmt
    show (s.setBuf.head N).pbuf = none ↔ _
    rw [RxState.setBuf, h.head_store hb]
  | setOwn =>
    -- the head moves on to a descriptor nothing was done with
    obtain ⟨-, p, hp, -⟩ := hhead
    have ht := rxInv_cpu hN h hcall hstmt
    cases hstmt
    have hrest : Resting N (s.setOwn.goto .testRbus) := ht.head
    simp [hrest.pbuf_ne ht.ring hN, hp]

/-- The one step that can leave the head without a pbuf is a failed allocation, and no step
    gives it one back. -/
theorem head_pbuf_step {N : Nat} (hN : 0 < N) {s t : RxState P A} {a : RxAct P A}
    (h : RxInv N s) (hstep : rxStep s a = some t) :
    (t.head N).pbuf = none ↔ (s.head N).pbuf = none ∨ a = .alloc none := by
  rcases rxStep_cases hstep with ⟨rfl, -, rfl⟩ | ⟨w, rfl, hdma⟩ | ⟨rfl, st, hcall, hstmt⟩ |
    ⟨accept, rfl, -, rfl⟩ | ⟨fresh, rfl, hcall, rfl⟩
  · simp [RxState.head, RxState.goto]
  · have hpbuf : (t.head N).pbuf = (s.head N).pbuf := by
      obtain ⟨-, ⟨-, rfl⟩ | ⟨-, rfl⟩⟩ := h.ring.dma_cases hN hdma
      · by_cases hpos : s.rearmed % N = s.pos
        · simp [RxState.head, RxState.receive, hpos]
        · simp [RxState.head, RxState.receive, Function.update_of_ne hpos]
      · rfl
    simp [hpbuf]
  · simp [head_pbuf_cpu hN h hcall hstmt]
  · simp [RxState.head, RxState.goto, RxState.offer]
  · have hhead := h.head
    rw [hcall] at hhead
    obtain ⟨-, p, hp⟩ := hhead
    have hfresh : (((s.setPbuf fresh).goto .checkAlloc).head N).pbuf = fresh := by
      show ((s.setPbuf fresh).head N).pbuf = fresh
      rw [RxState.setPbuf, h.head_store (by simp [hcall, RxStmt.behind])]
    simp [hfresh, hp]

/-- **The head has a pbuf exactly as long as no allocation failed.** -/
theorem head_pbuf_exec {N B : Nat} (hN : 0 < N) {alloc : Nat → Option (Pbuf P A)}
    {s₀ s : RxState P A} (hinit : RxState.init N B alloc = some s₀) {as : List (RxAct P A)}
    (hrun : exec rxStep s₀ as = some s) :
    (s.head N).pbuf = none ↔ RxAct.alloc none ∈ as := by
  have hi := RxInv.init hN hinit
  refine (exec_history (P := fun as s => RxInv N s ∧
    ((s.head N).pbuf = none ↔ RxAct.alloc none ∈ as)) ⟨hi, ?_⟩ ?_ hrun).2
  · have hrest : Resting N s₀ := by
      obtain ⟨ring, -, rfl⟩ := RxState.init_eq hinit
      exact ⟨rfl, fun hlt => absurd hlt (Nat.lt_irrefl 0)⟩
    simp [hrest.pbuf_ne hi.ring hN]
  · rintro as s a t - ⟨h, hiff⟩ hstep
    refine ⟨rxInv_step hN h hstep, ?_⟩
    rw [head_pbuf_step hN h hstep, hiff, List.mem_append, List.mem_singleton]
    exact or_congr_right eq_comm

/-! ## Recovery -/

/-- Between calls, a completed descriptor at the cursor that still has its pbuf holds the
    frame of its own completion. -/
theorem RxInv.holds_desc {N : Nat} {s : RxState P A} (h : RxInv N s) (hN : 0 < N)
    (hcall : s.call = none) (hcpu : s.desc.own = false) (hpbuf : (s.head N).pbuf ≠ none) :
    Holds s.done s.rearmed s.desc := by
  have hb : s.call.any RxStmt.behind = false := by simp [hcall]
  have hhead := h.head
  rw [hcall] at hhead
  rw [h.desc_eq hb] at hcpu ⊢
  have hlt : s.rearmed < s.done.length := by
    apply Nat.lt_of_le_of_ne h.ring.rearmed_le
    intro heq
    have hown := (h.ring.own_rearmed hN).mpr heq
    exact absurd (hown.symm.trans hcpu) (by simp)
  rcases hhead with hrest | ⟨-, hnone⟩
  · exact hrest.2 hlt
  · exact absurd hnone hpbuf

theorem Processable.rearms {N : Nat} {s : RxState P A} (h : RxInv N s) (hN : 0 < N)
    (hcall : s.call = none) (hs : Processable s.desc) : Rearms N s := by
  intro accept p
  obtain ⟨hring, hcur, -, hret, -⟩ := processRxDescr_some hs accept p
  refine ⟨?_, ?_, hret⟩
  · rw [hring, Function.update_self]
    exact ⟨show tst ETH_RDES0_OWN ETH_TDES0_OWN = true by decide, rfl, rfl⟩
  · have hat := h.cur (by simp [hcall])
    rw [hcur, RxState.desc, hat, h.ring.link _ (Nat.mod_lt _ hN)]

/-- Without a pbuf in the descriptor at the cursor there is nothing a call can do. -/
theorem Absorbing.of_pbuf_none {s : RxState P A} (h : s.desc.pbuf = none) : Absorbing s :=
  processRxDescr_of_not fun hs => absurd hs.pbuf (by simp [h])

/-- A call given the pbuf `p` cannot both return 0 and return 1. -/
theorem Absorbing.not_rearms {N : Nat} {s : RxState P A} (h : Absorbing s) (p : Pbuf P A) :
    ¬ Rearms N s := by
  intro hre
  have hret := (hre true p).2.2
  rw [h true (some p)] at hret
  exact absurd hret (by simp [RxState.return])

/-- **Reception survives exactly until the first failed allocation.** In any run in which
    every frame fills one descriptor, at any moment between two calls at which the CPU owns
    the descriptor at the cursor: if no allocation has failed, a call that is given a pbuf
    re-arms that descriptor and moves on; if one has, the state is absorbing. -/
theorem rx_rearms_iff (N B : Nat) (hN : 0 < N) (alloc : Nat → Option (Pbuf P A))
    (s₀ s : RxState P A) (hinit : RxState.init N B alloc = some s₀) (as : List (RxAct P A))
    (hrun : exec rxStep s₀ as = some s) (hwhole : ∀ f ∈ s.done, isWholeFrame f.status = true)
    (hcall : s.call = none) (hcpu : s.desc.own = false) :
    (Rearms N s ↔ RxAct.alloc none ∉ as) ∧ (Absorbing s ↔ RxAct.alloc none ∈ as) := by
  have h := rxInv_exec hN hinit hrun
  have hmem := head_pbuf_exec hN hinit hrun
  obtain ⟨p, -⟩ := initRxDmaDesc_apply (RxState.init_eq hinit).choose_spec.1 hN
  have hrearms : RxAct.alloc none ∉ as → Rearms N s := by
    intro hno
    obtain ⟨-, q, hq, hdone⟩ := h.holds_desc hN hcall hcpu (mt hmem.mp hno)
    exact Processable.rearms h hN hcall
      ⟨hcpu, by rw [hq]; rfl, hwhole _ (List.mem_of_getElem? hdone)⟩
  have habsorbs : RxAct.alloc none ∈ as → Absorbing s := by
    intro hfail
    refine .of_pbuf_none ?_
    rw [h.desc_eq (by simp [hcall])]
    exact hmem.mpr hfail
  refine ⟨⟨fun hre hfail => (habsorbs hfail).not_rearms p hre, hrearms⟩, fun habs => ?_,
    habsorbs⟩
  by_contra hno
  exact habs.not_rearms p (hrearms hno)

theorem rx_rearms_oneFrame :
    ∃ s₀ s : RxState Nat Nat,
      RxState.init 1 1536 (fun _ => some { addr := 0, payload := 0, tot_len := 0, len := 0 }) =
        some s₀ ∧
      exec rxStep s₀ [.dma 0x003c0300#32] = some s ∧ Rearms 1 s := by
  refine exists_init_exec
    (fun s => s.done.all (fun f => isWholeFrame f.status) && s.call.isNone && !s.desc.own)
    (by decide +kernel) fun s₀ s hinit hrun hs => ?_
  simp only [Bool.and_eq_true, List.all_eq_true, Option.isNone_iff_eq_none,
    Bool.not_eq_true'] at hs
  exact (rx_rearms_iff 1 1536 (by decide) _ s₀ s hinit _ hrun hs.1.1 hs.1.2
    hs.2).1.mpr (by simp)

/-- One frame of 60 bytes arrives and is taken by lwIP while the pool is empty, on the ring of
    `STIF_NUM_RX_DMA_DESC` slots. -/
theorem emptyPool_absorbs :
    ∃ s₀ s : RxState Nat Nat,
      RxState.init 10 1536 (fun i => some { addr := i, payload := i, tot_len := 0, len := 0 }) =
        some s₀ ∧
      exec rxStep s₀ [.dma 0x003c0300#32, .call, .cpu, .cpu, .cpu, .cpu, .input true,
        .alloc none, .cpu] = some s ∧
      (∀ f ∈ s.done, isWholeFrame f.status = true) ∧ s.call = none ∧ s.desc.own = false ∧
      ¬ Rearms 10 s ∧ Absorbing s := by
  refine exists_init_exec
    (fun s => s.done.all (fun f => isWholeFrame f.status) && s.call.isNone && !s.desc.own &&
      s.desc.pbuf.isNone) (by decide +kernel) fun s₀ s hinit hrun hs => ?_
  simp only [Bool.and_eq_true, List.all_eq_true, Option.isNone_iff_eq_none,
    Bool.not_eq_true'] at hs
  have habs := Absorbing.of_pbuf_none hs.2
  exact ⟨hs.1.1.1, hs.1.1.2, hs.1.2,
    habs.not_rearms { addr := 0, payload := 0, tot_len := 0, len := 0 }, habs⟩

end EthernetIf

import EthernetIf.Rx.Model

/-!
# The receive ring as two windows

Uses of the ring are counted from the start. With `r = rearmed` descriptors given back and
`c = done.length` completed by the DMA,

    [c, r + N)   armed    OWN set, a pbuf attached, Buffer1Addr its payload
    [r + 1, c)   held     a completed frame nobody has looked at yet

and use `r` is the descriptor `process_rx_descr` is at, whenever `r < c`. It is in neither
window: what it holds depends on how far the running call has come (`EthernetIf.Rx.Invariant`),
and all the ring says is that the DMA does not own it (`taken`).
-/

namespace EthernetIf

open Lts Ring

variable {P A : Type}

/-! ## What a slot holds -/

/-- Ready for the DMA to write into. -/
def Armed (d : DmaDesc P A) : Prop :=
  d.own = true ∧ ∃ p, d.pbuf = some p ∧ d.Buffer1Addr = some p.payload

/-- The frame of completion `k`, untouched since the DMA closed the descriptor. -/
def Holds (done : List (RxDone A)) (k : Nat) (d : DmaDesc P A) : Prop :=
  d.own = false ∧ ∃ p, d.pbuf = some p ∧
    done[k]? = some { buf := some p.payload, status := d.Status }

theorem Holds.snoc {done : List (RxDone A)} {k : Nat} {d : DmaDesc P A} (h : Holds done k d)
    (f : RxDone A) : Holds (done ++ [f]) k d := by
  obtain ⟨hown, p, hp, hdone⟩ := h
  refine ⟨hown, p, hp, ?_⟩
  rw [List.getElem?_append_left (List.getElem?_eq_some_iff.mp hdone).1]
  exact hdone

/-- The two windows, the slot between them, and the cursor of the DMA. -/
structure RxRing (N : Nat) (s : RxState P A) : Prop where
  rearmed_le : s.rearmed ≤ s.done.length
  done_le : s.done.length ≤ s.rearmed + N
  link : Linked N s.ring
  armed : Window N s.ring (fun _ d => Armed d) s.done.length (s.rearmed + N)
  held : Window N s.ring (Holds s.done) (s.rearmed + 1) s.done.length
  taken : s.rearmed < s.done.length → (s.ring (s.rearmed % N)).own = false
  pos : s.pos = s.done.length % N

/-- `RxRing` reads the ring, the DMA's cursor and two counts, nothing else. -/
theorem RxRing.congr {N : Nat} {s t : RxState P A} (h : RxRing N s) (hr : t.ring = s.ring)
    (hp : t.pos = s.pos) (hd : t.done = s.done) (hn : t.rearmed = s.rearmed) :
    RxRing N t := by
  constructor
  · rw [hn, hd]; exact h.rearmed_le
  · rw [hn, hd]; exact h.done_le
  · rw [hr]; exact h.link
  · rw [hr, hd, hn]; exact h.armed
  · rw [hr, hd, hn]; exact h.held
  · rw [hr, hd, hn]; exact h.taken
  · rw [hp, hd]; exact h.pos

/-! ## Initialisation -/

/-- What `init_rx_dma_desc` leaves in slot `i`: the loop's stores, and the link wrapped. -/
theorem initRxDmaDesc_apply {N B : Nat} {alloc : Nat → Option (Pbuf P A)}
    {ring : Nat → DmaDesc P A} (h : initRxDmaDesc N B alloc = some ring) {i : Nat}
    (hi : i < N) :
    ∃ p, alloc i = some p ∧ ring i =
      { Status := ETH_RDES0_OWN, ControlBufferSize := ETH_RDES1_RCH ||| BitVec.ofNat 32 B,
        pbuf := some p, Buffer1Addr := some p.payload,
        Buffer2NextDescAddr := (i + 1) % N } := by
  obtain ⟨ring', hloop, rfl⟩ := Option.map_eq_some_iff.mp h
  obtain ⟨p, hp, hslot⟩ := (foldlM_range_update alloc (fun j p (d : DmaDesc P A) =>
    { d with
      Status := ETH_RDES0_OWN
      ControlBufferSize := ETH_RDES1_RCH ||| BitVec.ofNat 32 B
      pbuf := some p
      Buffer1Addr := some p.payload
      Buffer2NextDescAddr := j + 1 }) hloop).1 i hi
  refine ⟨p, hp, ?_⟩
  by_cases hlast : i = N - 1
  · subst hlast
    rw [Function.update_self, hslot, Nat.sub_add_cancel (by omega), Nat.mod_self]
  · rw [Function.update_of_ne hlast, hslot, Nat.mod_eq_of_lt (by omega)]

theorem initRxDmaDesc_armed {N B : Nat} {alloc : Nat → Option (Pbuf P A)}
    {ring : Nat → DmaDesc P A} (h : initRxDmaDesc N B alloc = some ring) {i : Nat}
    (hi : i < N) : Armed (ring i) := by
  obtain ⟨p, -, hslot⟩ := initRxDmaDesc_apply h hi
  rw [hslot]
  exact ⟨show tst ETH_RDES0_OWN ETH_TDES0_OWN = true by decide, p, rfl, rfl⟩

theorem RxState.init_eq {N B : Nat} {alloc : Nat → Option (Pbuf P A)} {s : RxState P A}
    (h : RxState.init N B alloc = some s) :
    ∃ ring, initRxDmaDesc N B alloc = some ring ∧
      s = { ring := ring, cur := 0, call := none, ret := none, pos := 0, suspended := false,
            rbus := false } := by
  obtain ⟨ring, hring, rfl⟩ := Option.map_eq_some_iff.mp h
  exact ⟨ring, hring, rfl⟩

theorem RxRing.init {N B : Nat} {alloc : Nat → Option (Pbuf P A)} {s : RxState P A}
    (hN : 0 < N) (h : RxState.init N B alloc = some s) : RxRing N s := by
  obtain ⟨ring, hring, rfl⟩ := RxState.init_eq h
  constructor
  · exact Nat.le_refl 0
  · exact Nat.zero_le _
  · intro i hi
    obtain ⟨p, -, hslot⟩ := initRxDmaDesc_apply hring hi
    show (ring i).Buffer2NextDescAddr = _
    rw [hslot]
  · exact fun k _ _ => initRxDmaDesc_armed hring (Nat.mod_lt k hN)
  · exact Window.nil (Nat.zero_le _)
  · exact fun hlt => absurd hlt (Nat.lt_irrefl 0)
  · exact (Nat.zero_mod N).symm

/-! ## Ownership -/

/-- The DMA owns the descriptor `process_rx_descr` is at exactly when every completed
    descriptor was given back. -/
theorem RxRing.own_rearmed {N : Nat} {s : RxState P A} (h : RxRing N s) (hN : 0 < N) :
    (s.ring (s.rearmed % N)).own = true ↔ s.rearmed = s.done.length := by
  constructor
  · intro hown
    rcases Nat.lt_or_eq_of_le h.rearmed_le with hlt | heq
    · exact absurd (hown.symm.trans (h.taken hlt)) (by simp)
    · exact heq
  · intro heq
    exact (h.armed s.rearmed (by omega) (by omega)).1

theorem RxRing.own_done {N : Nat} {s : RxState P A} (h : RxRing N s) (hN : 0 < N) :
    (s.ring (s.done.length % N)).own = true ↔ s.done.length < s.rearmed + N := by
  constructor
  · intro hown
    rcases Nat.lt_or_eq_of_le h.done_le with hlt | heq
    · exact hlt
    · rw [heq, Nat.add_mod_right, h.own_rearmed hN] at hown
      omega
  · exact fun hlt => (h.armed _ (Nat.le_refl _) hlt).1

/-- A descriptor the DMA owns is in the armed window. -/
theorem RxRing.armed_of_own {N : Nat} {s : RxState P A} (h : RxRing N s) {i : Nat} (hi : i < N)
    (hown : (s.ring i).own = true) :
    ∃ k, s.done.length ≤ k ∧ k < s.rearmed + N ∧ k % N = i := by
  obtain ⟨k, hge, hlt, hmod⟩ := exists_use hi s.rearmed
  rcases Nat.lt_or_ge k s.done.length with hdone | harmed
  · have hno : (s.ring (k % N)).own = false := by
      rcases Nat.lt_or_eq_of_le hge with hgt | rfl
      · exact (h.held k hgt hdone).1
      · exact h.taken hdone
    rw [hmod] at hno
    exact absurd (hown.symm.trans hno) (by simp)
  · exact ⟨k, harmed, hlt, hmod⟩

/-! ## Stores of the CPU -/

/-- A store into the slot between the windows. -/
theorem RxRing.store {N : Nat} {s : RxState P A} {f : DmaDesc P A → DmaDesc P A}
    (h : RxRing N s) (hcur : s.cur = s.rearmed % N) (hlt : s.rearmed < s.done.length)
    (hlink : (f s.desc).Buffer2NextDescAddr = s.desc.Buffer2NextDescAddr)
    (hown : (f s.desc).own = s.desc.own) : RxRing N (s.store f) where
  rearmed_le := h.rearmed_le
  done_le := h.done_le
  link := h.link.update hlink
  armed := by
    have hoff := h.armed.update_off (d := f s.desc) (.inr ⟨hlt, Nat.le_refl _⟩)
    rwa [← hcur] at hoff
  held := by
    have hoff := h.held.update_off (d := f s.desc) (.inr ⟨Nat.lt_succ_self _, h.done_le⟩)
    rwa [← hcur] at hoff
  taken := fun _ => by
    show (Function.update s.ring s.cur (f s.desc) (s.rearmed % N)).own = false
    rw [← hcur, Function.update_self, hown, RxState.desc, hcur]
    exact h.taken hlt
  pos := h.pos

/-- **Re-arming**: setting OWN on a descriptor with a pbuf attached moves it to the far end
    of the armed window, and the next one comes between the windows. -/
theorem RxRing.setOwn {N : Nat} {s : RxState P A} (h : RxRing N s)
    (hcur : s.cur = s.rearmed % N) (hlt : s.rearmed < s.done.length)
    (hready : ∃ p, s.desc.pbuf = some p ∧ s.desc.Buffer1Addr = some p.payload) :
    RxRing N s.setOwn := by
  have harmed : Armed { s.desc with Status := ETH_RDES0_OWN } :=
    ⟨show tst ETH_RDES0_OWN ETH_TDES0_OWN = true by decide, hready⟩
  have hring : s.setOwn.ring = Function.update s.ring (s.rearmed % N)
      { s.desc with Status := ETH_RDES0_OWN } := by
    rw [← hcur]
    rfl
  have hdone := h.done_le
  constructor
  · exact hlt
  · show s.done.length ≤ s.rearmed + 1 + N
    omega
  · exact h.link.update rfl
  · rw [hring]
    show Window N _ _ s.done.length (s.rearmed + 1 + N)
    rw [Nat.add_right_comm, ← Nat.add_mod_right]
    exact h.armed.push (by omega) harmed
  · rw [hring]
    exact (h.held.mono (Nat.le_succ _) (Nat.le_refl _)).update_off
      (.inr ⟨by show s.rearmed < s.rearmed + 1 + 1; omega, hdone⟩)
  · intro hlt'
    have hnext : s.rearmed + 1 < s.done.length := hlt'
    rw [hring]
    show (Function.update s.ring _ _ ((s.rearmed + 1) % N)).own = false
    rw [Function.update_of_ne (mod_ne_of_lt (Nat.lt_succ_self _) (by omega)).symm]
    exact (h.held _ (Nat.le_refl _) hnext).1
  · exact h.pos

/-! ## The DMA -/

/-- What a step of the DMA can be: it completes the next armed descriptor, or finds none and
    suspends. -/
theorem RxRing.dma_cases {N : Nat} {s t : RxState P A} {w : BitVec 32} (h : RxRing N s)
    (hN : 0 < N) (hstep : s.dma w = some t) :
    s.suspended = false ∧
      ((s.done.length < s.rearmed + N ∧ t = s.receive w) ∨
        (s.done.length = s.rearmed + N ∧ t = s.suspend)) := by
  obtain ⟨hsus, hcases⟩ := rxDma_cases hstep
  rw [h.pos] at hcases
  refine ⟨hsus, ?_⟩
  rcases hcases with ⟨hown, ht⟩ | ⟨hown, ht⟩
  · exact .inl ⟨(h.own_done hN).mp hown, ht⟩
  · have hfull : ¬ s.done.length < s.rearmed + N := by
      rw [← h.own_done hN, hown]
      simp
    exact .inr ⟨Nat.le_antisymm h.done_le (Nat.le_of_not_lt hfull), ht⟩

@[simp] theorem length_receive_done (s : RxState P A) (w : BitVec 32) :
    (s.receive w).done.length = s.done.length + 1 := by simp [RxState.receive]

/-- The DMA closes a descriptor with OWN clear, whatever it reports. -/
theorem own_closed (d : DmaDesc P A) (w : BitVec 32) :
    { d with Status := w &&& ~~~ETH_RDES0_OWN }.own = false :=
  tst_clear_of_subset w (by decide)

/-- What the DMA leaves behind is the completion it recorded. -/
theorem RxRing.holds_receive {N : Nat} {s : RxState P A} (h : RxRing N s) (w : BitVec 32)
    (hlt : s.done.length < s.rearmed + N) :
    Holds (s.receive w).done s.done.length
      { s.ring s.pos with Status := w &&& ~~~ETH_RDES0_OWN } := by
  obtain ⟨-, p, hp, hbuf⟩ := h.armed _ (Nat.le_refl _) hlt
  rw [← h.pos] at hp hbuf
  refine ⟨own_closed _ w, p, hp, ?_⟩
  show (s.done ++ [_])[s.done.length]? = _
  rw [List.getElem?_concat_length, hbuf]

/-- **Reception** moves the oldest armed descriptor out of the armed window: behind the held
    ones, or between the windows when there are none. -/
theorem RxRing.receive {N : Nat} {s : RxState P A} (h : RxRing N s) (hN : 0 < N) (w : BitVec 32)
    (hlt : s.done.length < s.rearmed + N) : RxRing N (s.receive w) := by
  have hholds := h.holds_receive w hlt
  have hring : (s.receive w).ring = Function.update s.ring (s.done.length % N)
      { s.ring s.pos with Status := w &&& ~~~ETH_RDES0_OWN } := by
    rw [← h.pos]
    rfl
  have hle := h.rearmed_le
  constructor
  · rw [length_receive_done]
    exact Nat.le_succ_of_le hle
  · rw [length_receive_done]
    exact hlt
  · exact h.link.update rfl
  · rw [hring, length_receive_done]
    exact (h.armed.mono (Nat.le_succ _) (Nat.le_refl _)).update_off
      (.inr ⟨Nat.lt_succ_self _, by show s.rearmed + N ≤ _; omega⟩)
  · rw [hring, length_receive_done]
    show Window N _ _ (s.rearmed + 1) (s.done.length + 1)
    rcases Nat.lt_or_eq_of_le hle with hheld | hheld
    · exact (h.held.imp fun k _ _ hk => hk.snoc _).push (by omega) hholds
    · exact Window.nil (by omega)
  · intro _
    rw [hring]
    show (Function.update s.ring _ _ (s.rearmed % N)).own = false
    rcases Nat.lt_or_eq_of_le hle with hheld | hheld
    · rw [Function.update_of_ne (mod_ne_of_lt hheld (by omega))]
      exact h.taken hheld
    · rw [hheld, Function.update_self]
      exact own_closed _ w
  · show (s.ring s.pos).Buffer2NextDescAddr = _
    rw [length_receive_done, h.pos, h.link _ (Nat.mod_lt _ hN), succ_mod]

/-- Suspending touches neither the ring nor its counts. -/
theorem RxRing.suspend {N : Nat} {s : RxState P A} (h : RxRing N s) : RxRing N s.suspend :=
  h.congr rfl rfl rfl rfl

/-- A reception leaves the slot between the windows alone, if there is one. -/
theorem RxRing.receive_rearmed {N : Nat} {s : RxState P A} (h : RxRing N s) (w : BitVec 32)
    (hlt : s.done.length < s.rearmed + N) (htaken : s.rearmed < s.done.length) :
    (s.receive w).ring (s.rearmed % N) = s.ring (s.rearmed % N) := by
  refine Function.update_of_ne ?_ _ _
  rw [h.pos]
  exact mod_ne_of_lt htaken hlt

end EthernetIf

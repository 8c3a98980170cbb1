import EthernetIf.Rx.Ring

/-!
# The invariant of the receive machine

`RxRing` plus the one slot it says nothing about, the head: use `rearmed`, where
`process_rx_descr` works. `RxHead` says, statement by statement, what that slot holds. Between
calls there are two possibilities. Either the head is `Resting` — nothing has been done with
it — or it is `Stuck`: its frame was offered, and the allocation that should have replaced its
pbuf failed.

`rxInv_cpu` is the one place where the statements of `process_rx_descr` are gone through.
-/

namespace EthernetIf

open Lts Ring

variable {P A : Type}

/-! ## The head of the ring -/

/-- The descriptor between the windows. -/
def RxState.head (s : RxState P A) (N : Nat) : DmaDesc P A := s.ring (s.rearmed % N)

/-- Nothing was done with the head yet: if the DMA completed it, its frame is still there. -/
def Resting (N : Nat) (s : RxState P A) : Prop :=
  s.offered.length = s.rearmed ∧
    (s.rearmed < s.done.length → Holds s.done s.rearmed (s.head N))

/-- The frame of the head was offered, and the descriptor is not given back yet. -/
def Spent (s : RxState P A) : Prop :=
  s.rearmed < s.done.length ∧ s.offered.length = s.rearmed + 1

/-- … and it has no pbuf. -/
def Stuck (N : Nat) (s : RxState P A) : Prop := Spent s ∧ (s.head N).pbuf = none

/-- What the head holds while `process_rx_descr` is at a statement, or is not running. -/
def RxHead (N : Nat) (s : RxState P A) : Option RxStmt → Prop
  | none | some .checkOwn => Resting N s ∨ Stuck N s
  | some .checkPbuf => s.rearmed < s.done.length ∧ (Resting N s ∨ Stuck N s)
  | some .checkFlags | some .setLen => s.rearmed < s.done.length ∧ Resting N s
  | some .input =>
      s.offered.length = s.rearmed ∧ ∃ f p, s.done[s.rearmed]? = some f ∧
        (s.head N).pbuf = some p ∧ p.delivery = f.delivery
  | some .free | some .alloc | some .setBuf => Spent s ∧ ∃ p, (s.head N).pbuf = some p
  | some .checkAlloc => Spent s
  | some .setOwn =>
      Spent s ∧ ∃ p, (s.head N).pbuf = some p ∧ (s.head N).Buffer1Addr = some p.payload
  | some .testRbus | some .ackRbus | some .poll | some .advance => Resting N s

/-- The statements after the descriptor at the cursor was given back. -/
def RxStmt.behind : RxStmt → Bool
  | .testRbus | .ackRbus | .poll | .advance => true
  | _ => false

/-- **The invariant of the receive machine.** The cursor is at the head, or one behind it
    from the hand-over to the end of the call. -/
structure RxInv (N : Nat) (s : RxState P A) : Prop where
  ring : RxRing N s
  cur : s.call.any RxStmt.behind = false → s.cur = s.rearmed % N
  curBehind : s.call.any RxStmt.behind = true → ∃ m, s.rearmed = m + 1 ∧ s.cur = m % N
  head : RxHead N s s.call
  order : s.offered.map Pbuf.delivery = (s.done.take s.offered.length).map RxDone.delivery

theorem RxInv.init {N B : Nat} {alloc : Nat → Option (Pbuf P A)} {s : RxState P A}
    (hN : 0 < N) (h : RxState.init N B alloc = some s) : RxInv N s := by
  have hring := RxRing.init hN h
  obtain ⟨ring, -, rfl⟩ := RxState.init_eq h
  exact ⟨hring, fun _ => (Nat.zero_mod N).symm, fun hb => absurd hb (by simp),
    .inl ⟨rfl, fun hlt => absurd hlt (Nat.lt_irrefl 0)⟩, rfl⟩

/-! ## The statements of `process_rx_descr` -/

/-- The state after a statement that hands nothing over and offers nothing. -/
theorem RxInv.goto {N : Nat} {s t : RxState P A} {u : Option RxStmt} (h : RxInv N s)
    (hring : RxRing N t) (hcall : t.call = u) (hcur : t.cur = s.cur)
    (hn : t.rearmed = s.rearmed) (hd : t.done = s.done) (ho : t.offered = s.offered)
    (hb : u.any RxStmt.behind = s.call.any RxStmt.behind) (hhead : RxHead N t u) :
    RxInv N t where
  ring := hring
  cur := by rw [hcall, hb, hcur, hn]; exact h.cur
  curBehind := by rw [hcall, hb, hcur, hn]; exact h.curBehind
  head := by rw [hcall]; exact hhead
  order := by rw [ho, hd]; exact h.order

/-- The descriptor at the cursor is the head. -/
theorem RxInv.desc_eq {N : Nat} {s : RxState P A} (h : RxInv N s)
    (hb : s.call.any RxStmt.behind = false) : s.desc = s.head N := by
  rw [RxState.desc, RxState.head, h.cur hb]

/-- A store before the hand-over is a store into the head. -/
theorem RxInv.head_store {N : Nat} {s : RxState P A} (h : RxInv N s)
    (hb : s.call.any RxStmt.behind = false) (f : DmaDesc P A → DmaDesc P A) :
    (s.store f).head N = f (s.head N) := by
  rw [← h.desc_eq hb]
  show Function.update s.ring s.cur (f s.desc) (s.rearmed % N) = _
  rw [← h.cur hb, Function.update_self]

/-- A test that goes on to another statement. -/
theorem RxInv.jump {N : Nat} {s : RxState P A} {u : RxStmt} (h : RxInv N s)
    (hb : s.call.any RxStmt.behind = u.behind) (hhead : RxHead N s (some u)) :
    RxInv N (s.goto u) :=
  h.goto (h.ring.congr rfl rfl rfl rfl) rfl rfl rfl rfl rfl hb.symm hhead

/-- A test that ends the call. -/
theorem RxInv.leave {N r : Nat} {s : RxState P A} (h : RxInv N s)
    (hb : s.call.any RxStmt.behind = false) (hhead : Resting N s ∨ Stuck N s) :
    RxInv N (s.return r) :=
  h.goto (h.ring.congr rfl rfl rfl rfl) rfl rfl rfl rfl rfl hb.symm hhead

/-- A store into the descriptor at the cursor, before it is given back. -/
theorem RxInv.stored {N : Nat} {s : RxState P A} {f : DmaDesc P A → DmaDesc P A} {u : RxStmt}
    (h : RxInv N s) (hb : s.call.any RxStmt.behind = false) (hu : u.behind = false)
    (hlt : s.rearmed < s.done.length)
    (hlink : (f s.desc).Buffer2NextDescAddr = s.desc.Buffer2NextDescAddr)
    (hown : (f s.desc).own = s.desc.own) (hhead : RxHead N (s.store f) (some u)) :
    RxInv N ((s.store f).goto u) :=
  h.goto ((h.ring.store (h.cur hb) hlt hlink hown).congr rfl rfl rfl rfl) rfl rfl rfl rfl rfl
    (by rw [hb]; exact hu) hhead

/-- The hand-over: the slot joins the armed window, and the oldest held one is the head. -/
theorem RxInv.handOver {N : Nat} {s : RxState P A} (h : RxInv N s)
    (hb : s.call.any RxStmt.behind = false) (hhead : RxHead N s (some .setOwn)) :
    RxInv N (s.setOwn.goto .testRbus) := by
  obtain ⟨⟨hlt, hoff⟩, hready⟩ := hhead
  rw [← h.desc_eq hb] at hready
  have hring : RxRing N s.setOwn := h.ring.setOwn (h.cur hb) hlt hready
  refine ⟨hring.congr rfl rfl rfl rfl, fun hnb => absurd hnb (by simp [RxState.goto,
    RxStmt.behind]), fun _ => ⟨s.rearmed, rfl, h.cur hb⟩, ⟨hoff, fun hnext => ?_⟩, h.order⟩
  -- the new head is the oldest held descriptor, a slot away from the one just given back
  have hnext : s.rearmed + 1 < s.done.length := hnext
  have hslot : s.setOwn.head N = s.ring ((s.rearmed + 1) % N) := by
    refine Function.update_of_ne ?_ _ _
    rw [h.cur hb]
    exact (mod_ne_of_lt (Nat.lt_succ_self _) (by have := h.ring.done_le; omega)).symm
  show Holds s.done (s.rearmed + 1) (s.setOwn.head N)
  rw [hslot]
  exact h.ring.held _ (Nat.le_refl _) hnext

/-- The cursor follows the link to the head, and the call returns. -/
theorem RxInv.advance {N : Nat} (hN : 0 < N) {s : RxState P A} (h : RxInv N s)
    (hb : s.call.any RxStmt.behind = true) (hhead : Resting N s) :
    RxInv N (s.advance.return 0) := by
  obtain ⟨m, hm, hcur⟩ := h.curBehind hb
  refine ⟨h.ring.congr rfl rfl rfl rfl, fun _ => ?_, fun hbehind => absurd hbehind (by
    simp [RxState.return]), .inl hhead, h.order⟩
  show (s.ring s.cur).Buffer2NextDescAddr = s.rearmed % N
  rw [hcur, h.ring.link _ (Nat.mod_lt _ hN), succ_mod, hm]

theorem rxInv_cpu {N : Nat} (hN : 0 < N) {s t : RxState P A} {st : RxStmt} (h : RxInv N s)
    (hcall : s.call = some st) (hstep : s.stmt st .cpu = some t) : RxInv N t := by
  have hhead := h.head
  rw [hcall] at hhead
  have hb : s.call.any RxStmt.behind = st.behind := by simp [hcall]
  cases st with
  | input | alloc => simp [RxState.stmt] at hstep
  | checkOwn =>
    cases hstep
    split
    next => exact h.leave hb hhead
    next hown =>
      have hlt : s.rearmed < s.done.length := by
        rw [h.desc_eq hb, RxState.head, h.ring.own_rearmed hN] at hown
        exact Nat.lt_of_le_of_ne h.ring.rearmed_le hown
      exact h.jump hb ⟨hlt, hhead⟩
  | checkPbuf =>
    obtain ⟨hlt, hhead⟩ := hhead
    cases hstep
    split
    next => exact h.leave hb hhead
    next hpbuf =>
      rcases hhead with hrest | ⟨-, hnone⟩
      · exact h.jump hb ⟨hlt, hrest⟩
      · rw [h.desc_eq hb, hnone] at hpbuf
        exact absurd rfl hpbuf
  | checkFlags =>
    obtain ⟨hlt, hrest⟩ := hhead
    cases hstep
    split
    next => exact h.leave hb (.inl hrest)
    next => exact h.jump hb ⟨hlt, hrest⟩
  | setLen =>
    obtain ⟨hlt, hoff, hholds⟩ := hhead
    obtain ⟨-, p, hp, hdone⟩ := hholds hlt
    cases hstep
    refine h.stored hb rfl hlt rfl rfl
      ⟨hoff, _, { p with tot_len := frameLength (s.head N).Status,
                         len := frameLength (s.head N).Status }, hdone, ?_, rfl⟩
    rw [h.head_store hb, hp]
    rfl
  | free =>
    cases hstep
    exact h.goto (h.ring.congr rfl rfl rfl rfl) rfl rfl rfl rfl rfl hb.symm hhead
  | checkAlloc =>
    cases hstep
    split
    next hnone =>
      rw [h.desc_eq hb, Option.isNone_iff_eq_none] at hnone
      exact h.leave hb (.inr ⟨hhead, hnone⟩)
    next hsome =>
      rw [h.desc_eq hb, Option.isNone_iff_eq_none] at hsome
      exact h.jump hb ⟨hhead, Option.ne_none_iff_exists'.mp hsome⟩
  | setBuf =>
    obtain ⟨hspent, p, hp⟩ := hhead
    cases hstep
    refine h.stored hb rfl hspent.1 rfl rfl ⟨hspent, p, ?_, ?_⟩
    · rw [h.head_store hb]
      exact hp
    · rw [h.head_store hb, hp]
      rfl
  | setOwn =>
    cases hstep
    exact h.handOver hb hhead
  | testRbus =>
    cases hstep
    split <;> exact h.jump hb hhead
  | ackRbus | poll =>
    cases hstep
    exact h.goto (h.ring.congr rfl rfl rfl rfl) rfl rfl rfl rfl rfl hb.symm hhead
  | advance =>
    cases hstep
    exact h.advance hN hb hhead

/-- `netif->input` was called: the pbuf of the head is offered, once. -/
theorem rxInv_input {N : Nat} {s : RxState P A} (h : RxInv N s) (hcall : s.call = some .input)
    (accept : Bool) : RxInv N (s.offer.goto (if accept then .alloc else .free)) := by
  have hb : s.call.any RxStmt.behind = false := by simp [hcall, RxStmt.behind]
  have hhead := h.head
  rw [hcall] at hhead
  obtain ⟨hoff, f, p, hdone, hp, hdel⟩ := hhead
  have hlt : s.rearmed < s.done.length := (List.getElem?_eq_some_iff.mp hdone).1
  have hoffer : s.offer.offered = s.offered ++ [p] := by
    rw [RxState.offer, h.desc_eq hb, hp]
    rfl
  have hspent : Spent s.offer := ⟨hlt, by
    rw [hoffer, List.length_append, hoff]
    rfl⟩
  refine ⟨h.ring.congr rfl rfl rfl rfl, fun _ => h.cur hb, ?_, ?_, ?_⟩
  · intro hbehind
    cases accept <;> simp [RxState.goto, RxStmt.behind] at hbehind
  · cases accept <;> exact ⟨hspent, p, hp⟩
  · show s.offer.offered.map Pbuf.delivery =
      (s.done.take s.offer.offered.length).map RxDone.delivery
    rw [hoffer, List.length_append, List.length_singleton, List.map_append, h.order,
      List.take_add_one, hoff, hdone, List.map_append]
    simp [hdel]

/-- `pbuf_alloc` returned, with or without a pbuf. -/
theorem rxInv_alloc {N : Nat} {s : RxState P A} (h : RxInv N s) (hcall : s.call = some .alloc)
    (fresh : Option (Pbuf P A)) : RxInv N ((s.setPbuf fresh).goto .checkAlloc) := by
  have hhead := h.head
  rw [hcall] at hhead
  exact h.stored (by simp [hcall, RxStmt.behind]) rfl hhead.1.1 rfl rfl hhead.1

/-! ## The DMA -/

/-- A reception completes the head if it was armed, and leaves it alone if it was not. -/
theorem RxHead.receive {N : Nat} {s : RxState P A} (hr : RxRing N s) (w : BitVec 32)
    (hlt : s.done.length < s.rearmed + N) {u : Option RxStmt} (h : RxHead N s u) :
    RxHead N (s.receive w) u := by
  have hsame : s.rearmed < s.done.length → (s.receive w).head N = s.head N :=
    hr.receive_rearmed w hlt
  have hmore : s.done.length < (s.receive w).done.length := by simp
  have hresting : Resting N s → Resting N (s.receive w) := by
    rintro ⟨hoff, hholds⟩
    refine ⟨hoff, fun _ => ?_⟩
    rcases Nat.lt_or_eq_of_le hr.rearmed_le with htaken | hall
    · rw [hsame htaken]
      exact (hholds htaken).snoc _
    · have hhead : (s.receive w).head N =
          { s.ring s.pos with Status := w &&& ~~~ETH_RDES0_OWN } := by
        show Function.update s.ring s.pos _ (s.rearmed % N) = _
        rw [hall, ← hr.pos, Function.update_self]
      rw [hhead]
      show Holds _ s.rearmed _
      rw [hall]
      exact hr.holds_receive w hlt
  have hspent : Spent s → Spent (s.receive w) := fun hs => ⟨hs.1.trans hmore, hs.2⟩
  have hstuck : Stuck N s → Stuck N (s.receive w) := fun hs =>
    ⟨hspent hs.1, by rw [hsame hs.1.1]; exact hs.2⟩
  match u with
  | none | some .checkOwn => exact h.imp hresting hstuck
  | some .checkPbuf => exact ⟨h.1.trans hmore, h.2.imp hresting hstuck⟩
  | some .checkFlags | some .setLen => exact ⟨h.1.trans hmore, hresting h.2⟩
  | some .input =>
    obtain ⟨hoff, f, p, hdone, hp, hdel⟩ := h
    have htaken := (List.getElem?_eq_some_iff.mp hdone).1
    refine ⟨hoff, f, p, ?_, by rw [hsame htaken]; exact hp, hdel⟩
    show (s.done ++ [_])[s.rearmed]? = _
    rw [List.getElem?_append_left htaken]
    exact hdone
  | some .free | some .alloc | some .setBuf =>
    exact ⟨hspent h.1, by rw [hsame h.1.1]; exact h.2⟩
  | some .checkAlloc => exact hspent h
  | some .setOwn => exact ⟨hspent h.1, by rw [hsame h.1.1]; exact h.2⟩
  | some .testRbus | some .ackRbus | some .poll | some .advance => exact hresting h

/-- Offers never run ahead of completions. -/
theorem RxInv.offered_le {N : Nat} {s : RxState P A} (h : RxInv N s) :
    s.offered.length ≤ s.done.length := by
  have hlen := congrArg List.length h.order
  rw [List.length_map, List.length_map, List.length_take] at hlen
  omega

theorem rxInv_dma {N : Nat} (hN : 0 < N) {s t : RxState P A} {w : BitVec 32} (h : RxInv N s)
    (hstep : s.dma w = some t) : RxInv N t := by
  obtain ⟨-, ⟨hlt, rfl⟩ | ⟨-, rfl⟩⟩ := h.ring.dma_cases hN hstep
  · refine ⟨h.ring.receive hN w hlt, h.cur, h.curBehind, h.head.receive h.ring w hlt, ?_⟩
    show s.offered.map Pbuf.delivery =
      ((s.done ++ [_]).take s.offered.length).map RxDone.delivery
    rw [List.take_append_of_le_length h.offered_le]
    exact h.order
  · exact ⟨h.ring.suspend, h.cur, h.curBehind, by cases hc : s.call with
      | none => exact hc ▸ h.head
      | some st => exact hc ▸ h.head, h.order⟩

/-! ## Every step -/

/-- **Every step of the receive machine keeps the invariant.** -/
theorem rxInv_step {N : Nat} (hN : 0 < N) {s t : RxState P A} {a : RxAct P A}
    (h : RxInv N s) (hstep : rxStep s a = some t) : RxInv N t := by
  rcases rxStep_cases hstep with ⟨-, hcall, rfl⟩ | ⟨w, -, hdma⟩ | ⟨-, st, hcall, hstmt⟩ |
    ⟨accept, -, hcall, rfl⟩ | ⟨fresh, -, hcall, rfl⟩
  · have hhead := h.head
    rw [hcall] at hhead
    exact h.jump (by simp [hcall, RxStmt.behind]) hhead
  · exact rxInv_dma hN h hdma
  · exact rxInv_cpu hN h hcall hstmt
  · exact rxInv_input h hcall accept
  · exact rxInv_alloc h hcall fresh

/-- **Every run keeps the invariant.** -/
theorem rxInv_exec {N B : Nat} (hN : 0 < N) {alloc : Nat → Option (Pbuf P A)}
    {s₀ s : RxState P A} (hinit : RxState.init N B alloc = some s₀) {as : List (RxAct P A)}
    (h : exec rxStep s₀ as = some s) : RxInv N s :=
  exec_invariant (RxInv.init hN hinit) (fun _ _ _ hi hs => rxInv_step hN hi hs) h

end EthernetIf

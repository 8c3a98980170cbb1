import EthernetIf.Isr.Handshake
import EthernetIf.Isr.Lag
import EthernetIf.Lib.Progress
import EthernetIf.Rx.Health
import EthernetIf.Rx.Wake

/-!
# Reception goes on

`Isr/Lag` bounds what the task is behind by; here is what follows for traffic that does not end.
`reception_lasts_iff` takes any state that a run of the DMA, the interrupt and the task reaches,
and any schedule that gives each of them its turn again and again. As there, each give is to
find a valid handle; what the kernel would do with a NULL one is left open. Then lwIP is offered
frame after frame for ever, exactly if the ring stays healthy (`Rx/Health`): falling behind never
stops it.
(That a completed frame is all that raises the interrupt is how `mac_init` leaves it: `RBUIE`
takes effect only together with the abnormal summary, which is not enabled.)

Every step lowers `IsrState.left`: the frames still to be offered, the completions the DMA has
descriptors for, the rest of the interrupt, and the rest of the task's loop. A state that no
party can leave has the DMA asleep before a full ring and everybody else waiting, and then all
`N` descriptors are behind the task, which the lag rules out.

On a ring of one the assumption about the handle takes care of itself, once the task is
registered (`ready_of_give`).
-/

namespace EthernetIf

open Lts Ring

variable {P A : Type}

/-- Who has its turn. -/
inductive IsrParty
  | irq    -- the interrupt is taken
  | isr    -- eth_isr
  | task   -- ETH_input
  | input  -- lwIP, inside netif->input
  | alloc  -- lwIP, inside pbuf_alloc
  | dma
deriving DecidableEq, Repr

def IsrAct.turn : IsrAct P A → IsrParty → Prop
  | .irq, .irq | .isr, .isr | .cpu, .task | .input _, .input | .alloc _, .alloc
  | .dma _, .dma => True
  | _, _ => False

/-! ## What is left to do -/

/-- The statements of `process_rx_descr`, as far from the next `netif->input` as they are. That
    of a call behind its own is in the next call; giving the descriptor back counts for more,
    because the DMA can complete it again. -/
def RxStmt.left : RxStmt → Nat
  | .input => 1
  | .setLen => 2
  | .checkFlags => 3
  | .checkPbuf => 4
  | .checkOwn => 5
  | .advance => 9
  | .poll => 10
  | .ackRbus => 11
  | .testRbus => 12
  | .setOwn => 16
  | .setBuf => 17
  | .checkAlloc => 18
  | .alloc => 19
  | .free => 20

def RxState.callLeft (s : RxState P A) : Nat := (s.call.map RxStmt.left).getD 8

/-- What the ring and the running call have left. -/
def RxState.left (N : Nat) (s : RxState P A) : Nat :=
  7 * (N + s.rearmed - s.done.length) + 2 * s.callLeft + (!s.suspended).toNat

/-- The statements of `ethernetif_input` between two calls. -/
def IsrState.taskLeft (s : IsrState P A) : Nat :=
  match s.task with
  | .checkFirst => 10
  | .registerFirst => 9
  | .take => 8
  | .check => 7
  | .register => 6
  | .process => s.rx.callLeft

/-- The statements of the interrupt that is running, pending, or both. -/
def IsrState.isrLeft (s : IsrState P A) : Nat :=
  match s.isr with
  | none => if s.rs then 6 else 0
  | some .test => 5
  | some .give => 4
  | some .null => 3
  | some .clear => 2
  | some .nis => if s.rs then 7 else 1
  | some .hang => 0

/-- What is left until `k` frames have been offered and one more. -/
def IsrState.left (N k : Nat) (s : IsrState P A) : Nat :=
  40 * (k + 1 - s.rx.offered.length) + 7 * (N + s.rx.rearmed - s.rx.done.length) + s.isrLeft +
    2 * s.taskLeft + (!s.rx.suspended).toNat

/-! ## Every step lowers it -/

/-- A statement of the call: none of its tests ends it early. -/
theorem left_stmt {N : Nat} {s t : RxState P A} {st : RxStmt} (h : RxInv N s)
    (hpbuf : (s.head N).pbuf ≠ none) (hwhole : ∀ f ∈ s.done, isWholeFrame f.status = true)
    (hfull : s.unfinished = 1 → s.rearmed < s.done.length) (hcall : s.call = some st)
    (hstmt : s.stmt st .cpu = some t) :
    t.left N < s.left N := by
  obtain ⟨hprog, -⟩ := rx_progress_cpu h hpbuf hwhole hfull hcall hstmt
  -- a test that returned would have left a descriptor behind
  have hgoto : ∀ u, st.behind = false → t = s.goto u ∨ t = s.return 1 → t = s.goto u := by
    intro u hb ht
    refine ht.resolve_right ?_
    rintro rfl
    simp [RxState.unfinished, RxState.return, hcall, hb] at hprog
  have hjump : ∀ u, t = s.goto u → u.left < st.left → t.left N < s.left N := by
    rintro u rfl hlt
    simp only [RxState.left, RxState.callLeft, RxState.goto, hcall, Option.map_some,
      Option.getD_some]
    omega
  cases st with
  | input | alloc => simp [RxState.stmt] at hstmt
  | checkOwn =>
    refine hjump .checkPbuf (hgoto _ rfl ?_) (by decide)
    cases hstmt
    split <;> simp
  | checkPbuf =>
    refine hjump .checkFlags (hgoto _ rfl ?_) (by decide)
    cases hstmt
    split <;> simp
  | checkFlags =>
    refine hjump .setLen (hgoto _ rfl ?_) (by decide)
    cases hstmt
    split <;> simp
  | checkAlloc =>
    refine hjump .setBuf (hgoto _ rfl ?_) (by decide)
    cases hstmt
    split <;> simp
  | testRbus =>
    have ht : t = s.goto (if s.rbus then .ackRbus else .advance) := (Option.some.inj hstmt).symm
    cases hrbus : s.rbus with
    | true => exact hjump .ackRbus (by rw [ht, hrbus, if_pos rfl]) (by decide)
    | false => exact hjump .advance (by rw [ht, hrbus]; rfl) (by decide)
  | setLen | free | setBuf | ackRbus | advance =>
    cases hstmt
    simp only [RxState.left, RxState.callLeft, RxState.goto, RxState.return, RxState.setLen,
      RxState.freePbuf, RxState.setBuf, RxState.ackRbus, RxState.advance, RxState.store, hcall,
      Option.map_some, Option.map_none, Option.getD_some, Option.getD_none, RxStmt.left]
    omega
  | setOwn =>
    cases hstmt
    simp only [RxState.left, RxState.callLeft, RxState.goto, RxState.setOwn, RxState.store, hcall,
      Option.map_some, Option.getD_some, RxStmt.left]
    omega
  | poll =>
    cases hstmt
    simp only [RxState.left, RxState.callLeft, RxState.goto, RxState.poll, hcall,
      Option.map_some, Option.getD_some, RxStmt.left, Bool.not_false, Bool.toNat_true]
    omega

/-- A step of the running call lowers it too, but for the offer of the frame itself. -/
theorem left_call {N : Nat} {s t : RxState P A} {a : RxAct P A} (h : RxInv N s)
    (hpbuf : (s.head N).pbuf ≠ none) (hwhole : ∀ f ∈ s.done, isWholeFrame f.status = true)
    (hfull : s.unfinished = 1 → s.rearmed < s.done.length) (hcall : s.call ≠ none)
    (hdma : ∀ w, a ≠ .dma w) (hstep : rxStep s a = some t) :
    (t.offered.length = s.offered.length ∧ t.left N < s.left N) ∨
    (t.offered.length = s.offered.length + 1 ∧ t.left N ≤ s.left N + 38) := by
  rcases rxStep_cases hstep with ⟨-, hidle, -⟩ | ⟨w, ha, -⟩ | ⟨rfl, st, hst, hstmt⟩ |
    ⟨accept, rfl, hst, ht⟩ | ⟨fresh, rfl, hst, rfl⟩
  · exact absurd hidle hcall
  · exact absurd ha (hdma w)
  · have hkeep := (rxStep_keeps (by simp) hstep).1
    exact .inl ⟨by rw [hkeep], left_stmt h hpbuf hwhole hfull hst hstmt⟩
  · have hb : s.call.any RxStmt.behind = false := by simp [hst, RxStmt.behind]
    rw [← h.desc_eq hb] at hpbuf
    obtain ⟨p, hp⟩ := Option.ne_none_iff_exists'.mp hpbuf
    refine .inr ⟨by rw [(rxStep_offers hp hstep).1, List.length_append]; rfl, ?_⟩
    rw [ht]
    simp only [RxState.left, RxState.callLeft, RxState.goto, RxState.offer, hst, Option.map_some,
      Option.getD_some]
    cases accept <;> simp only [if_true, Bool.false_eq_true, if_false, RxStmt.left] <;> omega
  · refine .inl ⟨rfl, ?_⟩
    simp only [RxState.left, RxState.callLeft, RxState.goto, RxState.setPbuf, RxState.store, hst,
      Option.map_some, Option.getD_some, RxStmt.left]
    omega

/-- A statement of the interrupt. -/
theorem left_ethIsr {N k : Nat} {trust : Bool} {s t : IsrState P A} {st : IsrStmt}
    (h : LagInv N s) (hisr : s.isr = some st) (hstep : s.ethIsr trust st = some t) :
    t.fault = true ∨ t.left N k < s.left N k := by
  have hraised := h.sync.raised st hisr
  have hlower : ∀ t : IsrState P A, t.rx = s.rx → t.task = s.task → t.isrLeft < s.isrLeft →
      t.left N k < s.left N k := by
    intro t hrx htask hlt
    simp only [IsrState.left, IsrState.taskLeft, hrx, htask]
    omega
  cases st with
  | test =>
    obtain ⟨hrs, -⟩ := hraised (by simp)
    cases hstep
    refine .inr (hlower _ rfl rfl ?_)
    simp [IsrState.isrLeft, hisr, hrs]
  | give =>
    cases hstep
    unfold IsrState.notifyGive
    split
    · refine .inr (hlower _ rfl rfl ?_)
      simp [IsrState.isrLeft, hisr]
    · exact .inl rfl
  | null | clear =>
    cases hstep
    refine .inr (hlower _ rfl rfl ?_)
    simp [IsrState.isrLeft, hisr]
  | nis =>
    cases hstep
    refine .inr (hlower _ rfl rfl ?_)
    cases hrs : s.rs <;> simp [IsrState.isrLeft, hisr, hrs]
  | hang => simp [IsrState.ethIsr] at hstep

/-- A completion may raise the interrupt anew, and there are only so many descriptors. -/
theorem left_dma {N k : Nat} (hN : 0 < N) {s : IsrState P A} {w : BitVec 32} {rx : RxState P A}
    (h : LagInv N s) (hrx : s.rx.dma w = some rx) :
    ({ s with rx := rx, rs := s.rs || s.completes } : IsrState P A).left N k < s.left N k := by
  have htask : ∀ rx rs, rx.call = s.rx.call →
      ({ s with rx := rx, rs := rs } : IsrState P A).taskLeft = s.taskLeft := by
    intro rx rs hcall
    simp only [IsrState.taskLeft, RxState.callLeft, hcall]
  obtain ⟨hsus, ⟨hlt, rfl⟩ | ⟨-, rfl⟩⟩ := h.sync.rx.ring.dma_cases hN hrx
  · have hisr : ({ s with rx := s.rx.receive w, rs := s.rs || s.completes } :
        IsrState P A).isrLeft ≤ s.isrLeft + 6 := by
      cases hisr : s.isr with
      | none =>
        simp only [IsrState.isrLeft, hisr]
        split <;> omega
      | some st =>
        cases st with
        | nis =>
          simp only [IsrState.isrLeft, hisr]
          split <;> split <;> omega
        | test | give | null | clear | hang => simp [IsrState.isrLeft, hisr]
    simp only [IsrState.left, htask (s.rx.receive w) _ rfl, length_receive_done]
    have hsame : (s.rx.receive w).offered = s.rx.offered ∧
        (s.rx.receive w).rearmed = s.rx.rearmed ∧
        (s.rx.receive w).suspended = s.rx.suspended := ⟨rfl, rfl, rfl⟩
    rw [hsame.1, hsame.2.1, hsame.2.2]
    omega
  · have hcomp : s.completes = false := by
      obtain ⟨-, ⟨-, hrx⟩ | ⟨hown, -⟩⟩ := rxDma_cases hrx
      · have hno := congrArg RxState.suspended hrx
        simp [RxState.suspend, RxState.receive, hsus] at hno
      · rw [IsrState.completes, hown, Bool.and_false]
    have hisr : ({ s with rx := s.rx.suspend, rs := s.rs || s.completes } :
        IsrState P A).isrLeft = s.isrLeft := by
      simp only [IsrState.isrLeft, hcomp, Bool.or_false]
    simp only [IsrState.left, htask s.rx.suspend _ rfl, hisr]
    simp only [RxState.suspend, hsus, Bool.not_true, Bool.not_false, Bool.toNat_true,
      Bool.toNat_false]
    omega

/-- A statement of the task. -/
theorem left_ethernetifInput {N k : Nat} {s t : IsrState P A} {b : RxAct P A}
    (h : LagInv N s) (hk : s.rx.offered.length ≤ k) (hdma : ∀ w, b ≠ .dma w)
    (hstep : s.ethernetifInput s.task b = some t) : t.left N k < s.left N k := by
  have hmove : ∀ t : IsrState P A, t.rx = s.rx → t.isr = s.isr → t.rs = s.rs →
      t.taskLeft < s.taskLeft → t.left N k < s.left N k := by
    intro t hrx hisr hrs hlt
    simp only [IsrState.left, IsrState.isrLeft, hrx, hisr, hrs]
    omega
  have hcall := h.sync.call
  unfold IsrState.ethernetifInput at hstep
  split at hstep
  next htask =>
    cases hstep
    exact hmove _ rfl rfl rfl (by simp [IsrState.taskLeft, htask])
  next htask =>
    cases hstep
    exact hmove _ rfl rfl rfl (by simp [IsrState.taskLeft, htask])
  next htask =>
    obtain ⟨-, hstep⟩ := Option.ite_none_left_eq_some.mp hstep
    cases hstep
    exact hmove _ rfl rfl rfl (by simp [IsrState.taskLeft, htask])
  next htask =>
    cases hstep
    exact hmove _ rfl rfl rfl (by simp [IsrState.taskLeft, htask])
  next htask =>
    obtain ⟨rx, hrx, rfl⟩ := Option.map_eq_some_iff.mp hstep
    obtain ⟨-, rfl⟩ := rxStep_call hrx
    simp only [IsrState.left, IsrState.isrLeft, IsrState.taskLeft, htask, RxState.callLeft,
      RxState.goto, Option.map_some, Option.getD_some, RxStmt.left]
    omega
  next htask =>
    obtain ⟨rx, hrx, rfl⟩ := Option.map_eq_some_iff.mp hstep
    have hfull : s.rx.unfinished = 1 → s.rx.rearmed < s.rx.done.length := by
      intro hone
      have howed := h.sync.owed_le
      simp only [IsrState.owed, hone] at howed
      omega
    have hleft : ({ s with rx := rx, task := if rx.call.isNone then .take else .process } :
        IsrState P A).taskLeft = rx.callLeft := by
      cases hcall : rx.call <;> simp [IsrState.taskLeft, RxState.callLeft, hcall]
    have hnext := left_call h.sync.rx h.sync.pbuf h.sync.whole hfull
      (by rw [ne_eq, hcall]; simp [htask]) hdma hrx
    have hbefore : s.taskLeft = s.rx.callLeft := by simp only [IsrState.taskLeft, htask]
    simp only [RxState.left] at hnext
    simp only [IsrState.left, IsrState.isrLeft, hleft, hbefore]
    omega
  next => simp at hstep

/-- **Every step lowers what is left**, or gives a notification to a NULL handle. -/
theorem left_step {N k : Nat} (hN : 0 < N) {trust : Bool} {s t : IsrState P A} {a : IsrAct P A}
    (h : LagInv N s) (hk : s.rx.offered.length ≤ k) (hstep : isrStep trust s a = some t) :
    t.fault = true ∨ t.left N k < s.left N k := by
  rcases isrStep_cases hstep with ⟨rfl, hisr, hrs, rfl⟩ | ⟨rfl, st, hisr, hst⟩ |
    ⟨w, rx, rfl, hrx, rfl⟩ | ⟨b, hb, hisr, hin⟩
  · refine .inr ?_
    simp only [IsrState.left, IsrState.isrLeft, IsrState.taskLeft, hisr, hrs, if_true]
    omega
  · exact left_ethIsr h hisr hst
  · exact .inr (left_dma hN h hrx)
  · refine .inr (left_ethernetifInput h hk ?_ hin)
    rintro w rfl
    cases a <;> simp [IsrAct.rxAct] at hb

/-! ## Somebody always moves -/

/-- A turn of this party is a step. -/
def IsrState.CanMove (trust : Bool) (s : IsrState P A) (i : IsrParty) : Prop :=
  ∀ a : IsrAct P A, a.turn i → ∃ t, isrStep trust s a = some t

section CanMove

variable {N : Nat} {trust : Bool} {s : IsrState P A}

theorem canMove_isr {st : IsrStmt} (h : SyncInv N s) (hfault : s.fault = false)
    (hisr : s.isr = some st) : s.CanMove trust .isr := by
  intro a hturn
  cases a with
  | isr =>
    have hstmt : ∃ t, s.ethIsr trust st = some t := by
      cases st with
      | hang => exact absurd rfl (h.raised .hang hisr (by simp)).2
      | test | give | null | clear | nis => exact ⟨_, rfl⟩
    obtain ⟨t, ht⟩ := hstmt
    exact ⟨t, by simpa [isrStep, hfault, hisr] using ht⟩
  | irq | cpu | input | alloc | dma => cases hturn

theorem canMove_irq (hfault : s.fault = false) (hisr : s.isr = none) (hrs : s.rs = true) :
    s.CanMove trust .irq := by
  intro a hturn
  cases a with
  | irq => exact ⟨{ s with isr := some .test }, by simp [isrStep, hfault, hisr, hrs]⟩
  | isr | cpu | input | alloc | dma => cases hturn

theorem canMove_dma (hfault : s.fault = false) (hsus : s.rx.suspended = false) :
    s.CanMove trust .dma := by
  intro a hturn
  cases a with
  | dma w =>
    have hsome : (s.rx.dma w).isSome = true := by
      simp only [RxState.dma, hsus, Bool.false_eq_true, if_false]
      split <;> rfl
    obtain ⟨rx, hrx⟩ := Option.isSome_iff_exists.mp hsome
    exact ⟨{ s with rx := rx, rs := s.rs || s.completes }, by simp [isrStep, hfault, hrx]⟩
  | irq | isr | cpu | input | alloc => cases hturn

theorem isrStep_task {a : IsrAct P A} {b : RxAct P A} (hfault : s.fault = false)
    (hisr : s.isr = none) (hb : a.rxAct = some b) :
    isrStep trust s a = s.ethernetifInput s.task b := by
  cases a with
  | cpu | input | alloc =>
    cases hb
    simp [isrStep, hfault, hisr, IsrAct.rxAct]
  | irq | isr | dma => cases hb

theorem canMove_task (hfault : s.fault = false) (hisr : s.isr = none)
    (hstmt : (s.ethernetifInput s.task .cpu).isSome = true) : s.CanMove trust .task := by
  intro a hturn
  cases a with
  | cpu =>
    rw [isrStep_task hfault hisr rfl]
    exact Option.isSome_iff_exists.mp hstmt
  | irq | isr | input | alloc | dma => cases hturn

/-- Inside `process_rx_descr` it is the task that moves, or lwIP. -/
theorem canMove_process {st : RxStmt} (hfault : s.fault = false) (hisr : s.isr = none)
    (htask : s.task = .process) (hcall : s.rx.call = some st) : ∃ i, s.CanMove trust i := by
  cases st with
  | input =>
    refine ⟨.input, fun a hturn => ?_⟩
    cases a with
    | input accept =>
      rw [isrStep_task hfault hisr rfl]
      exact Option.isSome_iff_exists.mp
        (by simp [IsrState.ethernetifInput, htask, rxStep, hcall, RxState.stmt])
    | irq | isr | cpu | alloc | dma => cases hturn
  | alloc =>
    refine ⟨.alloc, fun a hturn => ?_⟩
    cases a with
    | alloc fresh =>
      rw [isrStep_task hfault hisr rfl]
      exact Option.isSome_iff_exists.mp
        (by simp [IsrState.ethernetifInput, htask, rxStep, hcall, RxState.stmt])
    | irq | isr | cpu | input | dma => cases hturn
  | checkOwn | checkPbuf | checkFlags | setLen | free | checkAlloc | setBuf | setOwn | testRbus
  | ackRbus | poll | advance =>
    exact ⟨.task, canMove_task hfault hisr
      (by simp [IsrState.ethernetifInput, htask, rxStep, hcall, RxState.stmt])⟩

end CanMove

/-- A DMA that sleeps between two calls of a task that is behind by fewer than `N` frames has
    something on its way to it. -/
theorem LagInv.not_asleep {N : Nat} (hN : 0 < N) {s : IsrState P A} (h : LagInv N s)
    (hwake : RxWake s.rx) (htask : s.task = .take) (hnotif : s.notif = 0) (hrs : s.rs = false) :
    s.rx.suspended = false := by
  by_contra hsus
  obtain ⟨hidle, howed⟩ := h.sync.owed_waiting htask hnotif hrs
  have hparked : ¬ (s.rx.ring s.rx.pos).own = true := by
    intro hown
    obtain ⟨st, hst, -⟩ := hwake.parked (by simpa using hsus) hown
    exact absurd (hidle.symm.trans hst) (by simp)
  rw [h.sync.rx.ring.pos, h.sync.rx.ring.own_done hN] at hparked
  have hlag := h.lag_lt
  omega

/-- **Somebody always moves.** -/
theorem someone_moves {N : Nat} (hN : 0 < N) (trust : Bool) {s : IsrState P A}
    (h : LagInv N s) (hwake : RxWake s.rx) (hfault : s.fault = false) :
    ∃ i, s.CanMove trust i := by
  have hcall := h.sync.call
  cases hisr : s.isr with
  | some st => exact ⟨.isr, canMove_isr h.sync hfault hisr⟩
  | none =>
    cases hrs : s.rs with
    | true => exact ⟨.irq, canMove_irq hfault hisr hrs⟩
    | false =>
      cases htask : s.task with
      | checkFirst | registerFirst | check =>
        exact ⟨.task, canMove_task hfault hisr (by rw [htask]; rfl)⟩
      | register =>
        have hidle : s.rx.call = none := hcall.mpr (by simp [htask])
        exact ⟨.task, canMove_task hfault hisr
          (by simp [IsrState.ethernetifInput, htask, rxStep, hidle])⟩
      | take =>
        by_cases hnotif : s.notif = 0
        · exact ⟨.dma, canMove_dma hfault (h.not_asleep hN hwake htask hnotif hrs)⟩
        · exact ⟨.task, canMove_task hfault hisr
            (by simp [IsrState.ethernetifInput, htask, hnotif])⟩
      | process =>
        have hrunning : s.rx.call ≠ none := fun hidle => hcall.mp hidle htask
        obtain ⟨st, hst⟩ := Option.ne_none_iff_exists'.mp hrunning
        exact canMove_process hfault hisr htask hst

/-! ## Frame after frame -/

/-- Nothing that was offered is taken back. -/
theorem length_offered_mono {trust : Bool} {s t : IsrState P A}
    (h : Reachable (isrStep trust) s t) : s.rx.offered.length ≤ t.rx.offered.length := by
  refine (IsrState.rx_reachable h).invariant
    (I := fun u => s.rx.offered.length ≤ u.offered.length) (Nat.le_refl _) ?_
  intro u a v hu hstep
  by_cases hinput : ∃ accept, a = .input accept
  · obtain ⟨accept, rfl⟩ := hinput
    obtain ⟨-, rfl⟩ := rxStep_input hstep
    refine hu.trans ?_
    simp [RxState.offer, RxState.goto]
  · rw [(rxStep_keeps (fun accept ha => hinput ⟨accept, ha⟩) hstep).1]
    exact hu

/-- A give that finds a valid handle is no fault. -/
theorem fault_of_valid {s t : IsrState P A} {a : IsrAct P A} (h : s.fault = false)
    (hvalid : ValidGive s a) (hstep : isrStep false s a = some t) : t.fault = false := by
  rcases isrStep_cases hstep with ⟨-, -, -, rfl⟩ | ⟨rfl, st, hisr, hst⟩ | ⟨w, rx, -, -, rfl⟩ |
    ⟨b, -, -, htask⟩
  · exact h
  · cases st with
    | hang => simp [IsrState.ethIsr] at hst
    | give =>
      have hhandle : s.ethTask = true := hvalid hisr
      cases hst
      simp [IsrState.notifyGive, hhandle, h]
    | test | null | clear | nis =>
      cases hst
      exact h
  · exact h
  · rw [(isr_ethernetifInput htask).2.2]
    exact h

/-- A label that is not `cpu` is one of the running call. -/
theorem rxStep_ethernetifInput {s t : IsrState P A} {st : InputStmt} {b : RxAct P A}
    (hb : b ≠ .cpu) (h : s.ethernetifInput st b = some t) : rxStep s.rx b = some t.rx := by
  unfold IsrState.ethernetifInput at h
  split at h
  · exact absurd rfl hb
  · exact absurd rfl hb
  · exact absurd rfl hb
  · exact absurd rfl hb
  · exact absurd rfl hb
  · obtain ⟨rx, hrx, rfl⟩ := Option.map_eq_some_iff.mp h
    exact hrx
  · simp at h

/-- A step to a healthy state is one of a pool that has a pbuf and of a frame that is whole. -/
theorem exists_benign {N : Nat} (hN : 0 < N) {trust : Bool} {s t : IsrState P A} {a : IsrAct P A}
    (h : RxInv N s.rx) (ht : t.rx.Healthy N) (hstep : isrStep trust s a = some t) :
    ∃ b : IsrAct P A, b.benign = true ∧ isrStep trust s b = some t := by
  rcases isrStep_cases hstep with ⟨rfl, -, -, -⟩ | ⟨rfl, -⟩ | ⟨w, rx, rfl, hrx, rfl⟩ |
    ⟨b, hb, -, hin⟩
  · exact ⟨.irq, rfl, hstep⟩
  · exact ⟨.isr, rfl, hstep⟩
  · obtain ⟨hsus, ⟨-, rfl⟩ | ⟨hown, -⟩⟩ := rxDma_cases hrx
    · refine ⟨.dma w, ?_, hstep⟩
      rw [IsrAct.benign, ← isWholeFrame_closed]
      exact ht.whole _ (List.mem_append_right _ (List.mem_singleton_self _))
    · -- a DMA that suspends has no status to report
      have hwhole : isWholeFrame (ETH_RDES0_LS ||| ETH_RDES0_FS) = true := by decide
      refine ⟨.dma (ETH_RDES0_LS ||| ETH_RDES0_FS), hwhole, ?_⟩
      have hsame : s.rx.dma (ETH_RDES0_LS ||| ETH_RDES0_FS) = s.rx.dma w := by
        simp only [RxState.dma, hsus, hown, Bool.false_eq_true, if_false]
      rw [← hstep]
      cases hfault : s.fault <;> simp only [isrStep, hfault, hsame]
  · cases a with
    | cpu | input accept => exact ⟨_, rfl, hstep⟩
    | alloc fresh =>
      refine ⟨.alloc fresh, ?_, hstep⟩
      cases hb
      have hrx := rxStep_ethernetifInput (by simp) hin
      cases fresh with
      | some p => rfl
      | none => exact absurd ((head_pbuf_step hN h hrx).mpr (.inr rfl)) ht.pbuf
    | irq | isr | dma => cases hb

/-- As long as the ring is healthy, the task is behind by fewer than `N` frames. -/
theorem LagInv.of_healthy {N B : Nat} (hN : 0 < N) {alloc : Nat → Option (Pbuf P A)}
    {rx : RxState P A} (hinit : RxState.init N B alloc = some rx) {trust : Bool}
    {s : IsrState P A} (hreach : Reachable (isrStep trust) (IsrState.init rx) s)
    (hs : s.rx.Healthy N) : LagInv N s := by
  refine (hreach.invariant (I := fun u => RxInv N u.rx ∧ (u.rx.Healthy N → LagInv N u))
    ⟨RxInv.init hN hinit, fun _ => LagInv.init hN hinit⟩ ?_).2 hs
  rintro u a v ⟨hi, hu⟩ hstep
  have hrx : Reachable rxStep u.rx v.rx :=
    IsrState.rx_reachable ⟨[a], by rw [exec_cons, hstep]; rfl⟩
  refine ⟨hi.of_reachable hN hrx, fun hv => ?_⟩
  obtain ⟨b, hb, hbstep⟩ := exists_benign hN hi hv hstep
  exact (lagInv_step hN hb (hu (hv.of_reachable hN hi hrx)) hbstep).1

/-- More is offered after a state only if no allocation has failed by then. -/
theorem pbuf_of_more {N : Nat} (hN : 0 < N) {trust : Bool} {s t : IsrState P A}
    (h : RxInv N s.rx) (hrun : Reachable (isrStep trust) s t)
    (hmore : s.rx.offered.length < t.rx.offered.length) : (s.rx.head N).pbuf ≠ none := by
  intro hnone
  rw [(pbuf_none_reachable hN h hnone (IsrState.rx_reachable hrun)).2] at hmore
  exact absurd hmore (Nat.lt_irrefl _)

/-- Reception that lasts has found the ring healthy all along. -/
theorem healthy_of_lasts {N B : Nat} (hN : 0 < N) {alloc : Nat → Option (Pbuf P A)}
    {rx : RxState P A} (hinit : RxState.init N B alloc = some rx) {trust : Bool}
    {s : IsrState P A} (hreach : Reachable (isrStep trust) (IsrState.init rx) s)
    (sched : Nat → IsrAct P A)
    (hall : ∀ k, ∃ n, k ≤ (follow (isrStep trust) s sched n).rx.offered.length) :
    s.rx.Healthy N := by
  have hi : RxInv N s.rx := (RxInv.init hN hinit).of_reachable hN (IsrState.rx_reachable hreach)
  obtain ⟨m, hm⟩ := hall (s.rx.offered.length + 1)
  refine ⟨pbuf_of_more hN hi (follow_reachable s sched m) hm, fun f hf => ?_⟩
  -- by the time as many frames have been offered as are completed now, `f` was one of them
  obtain ⟨n, hoffered⟩ := hall s.rx.done.length
  have hrest : Reachable rxStep s.rx (follow (isrStep trust) s sched n).rx :=
    IsrState.rx_reachable (follow_reachable s sched n)
  have hdone := done_reachable hrest
  rw [List.prefix_iff_eq_take] at hdone
  rw [hdone] at hf
  obtain ⟨as, has⟩ := IsrState.rx_reachable hreach
  obtain ⟨bs, hbs⟩ := hrest
  exact offered_whole hN hinit ⟨as ++ bs, exec_trans has hbs⟩ f
    ((List.take_prefix_take_left hoffered).subset hf)

/-- While the ring is healthy, the next frame is offered. -/
theorem offered_of_healthy {N B : Nat} (hN : 0 < N) {alloc : Nat → Option (Pbuf P A)}
    {rx : RxState P A} (hinit : RxState.init N B alloc = some rx) {trust : Bool}
    {s : IsrState P A} (hreach : Reachable (isrStep trust) (IsrState.init rx) s)
    {sched : Nat → IsrAct P A} (hfair : Fair IsrAct.turn sched)
    (hfault : ∀ n, (follow (isrStep trust) s sched n).fault = false)
    (hhealthy : ∀ n, (follow (isrStep trust) s sched n).rx.Healthy N) (k : Nat) :
    ∃ n, k < (follow (isrStep trust) s sched n).rx.offered.length := by
  have hmore : ∃ n, ((follow (isrStep trust) s sched n).fault = true ∨
      ¬ (follow (isrStep trust) s sched n).rx.Healthy N) ∨
      k < (follow (isrStep trust) s sched n).rx.offered.length := by
    refine eventually_of_lowers (I := Reachable (isrStep trust) (IsrState.init rx))
      (L := fun _ => True)
      (fun t : IsrState P A => (t.fault = true ∨ ¬ t.rx.Healthy N) ∨ k < t.rx.offered.length)
      (IsrState.left N k) ?_ ?_ hreach (fun _ => trivial) hfair
    · rintro t a u ⟨bs, hbs⟩ hgoal - hstep
      rw [not_or, not_or, not_not, Nat.not_lt] at hgoal
      have hlag := LagInv.of_healthy hN hinit ⟨bs, hbs⟩ hgoal.1.2
      rcases left_step hN hlag hgoal.2 hstep with hfault | hlt
      · exact .inl (.inl (.inl hfault))
      · exact .inr ⟨⟨bs ++ [a], exec_snoc.mpr ⟨t, hbs, hstep⟩⟩, hlt⟩
    · intro t hto hgoal
      obtain ⟨bs, hbs⟩ := IsrState.rx_reachable hto
      rw [not_or, not_or, not_not, Bool.not_eq_true] at hgoal
      have hlag := LagInv.of_healthy hN hinit hto hgoal.1.2
      obtain ⟨i, hi⟩ := someone_moves hN trust hlag (rxWake_exec hinit hbs) hgoal.1.1
      exact ⟨i, fun a _ hturn => hi a hturn⟩
  obtain ⟨n, hn⟩ := hmore
  exact ⟨n, hn.resolve_left (by simp [hfault n, hhealthy n])⟩

/-- **Reception lasts.** Whatever the kernel would do with a NULL handle: from every state that
    a run reaches, and under every schedule that lets the DMA, the interrupt, the task and lwIP
    have their turns again and again, where each give of the run and of the schedule finds a
    valid handle, and whatever the DMA reports and the pool has — frame after frame is offered to
    lwIP without end if and only if no allocation fails and each frame the DMA completes fills
    one descriptor. -/
theorem reception_lasts_iff (N B : Nat) (hN : 0 < N) (alloc : Nat → Option (Pbuf P A))
    (rx : RxState P A) (hinit : RxState.init N B alloc = some rx)
    (null : IsrState P A → Option (IsrState P A)) (as : List (IsrAct P A)) (s : IsrState P A)
    (hvalid : OnRun (isrStepNull null) ValidGive (IsrState.init rx) as)
    (hrun : exec (isrStepNull null) (IsrState.init rx) as = some s)
    (sched : Nat → IsrAct P A) (hfair : Fair IsrAct.turn sched)
    (hvalid' : ∀ n, ValidGive (follow (isrStepNull null) s sched n) (sched n)) :
    (∀ k, ∃ n, k ≤ (follow (isrStepNull null) s sched n).rx.offered.length) ↔
    ∀ n, (follow (isrStepNull null) s sched n).rx.Healthy N := by
  obtain ⟨hexec, hvalid⟩ := hvalid.congr (isrStepNull_eq null)
  rw [hexec] at hrun
  have hfollow := follow_congr hvalid' (isrStepNull_eq null)
  simp only [hfollow] at hvalid' ⊢
  have hreach : ∀ n, Reachable (isrStep false) (IsrState.init rx)
      (follow (isrStep false) s sched n) := by
    intro n
    have hrest : Reachable (isrStep false) s (follow (isrStep false) s sched n) :=
      follow_reachable s sched n
    obtain ⟨bs, hbs⟩ := hrest
    exact ⟨as ++ bs, exec_trans hrun hbs⟩
  constructor
  · intro hall n
    refine healthy_of_lasts hN hinit (hreach n) (fun m => sched (n + m)) fun k => ?_
    -- what is offered later than `n`
    obtain ⟨m, hm⟩ := hall k
    refine ⟨m, hm.trans ?_⟩
    rw [← follow_add, Nat.add_comm, follow_add]
    exact length_offered_mono (follow_reachable _ _ n)
  · intro hhealthy k
    have hs : s.fault = false := hvalid.invariant (I := fun t => t.fault = false) rfl
      (fun _ _ _ h hv hstep => fault_of_valid h hv hstep) hrun
    have hfault := follow_invariant_along (I := fun t : IsrState P A => t.fault = false) hs
      (fun _ _ _ h hv hstep => fault_of_valid h hv hstep) hvalid'
    obtain ⟨n, hn⟩ := offered_of_healthy hN hinit (hreach 0) hfair hfault hhealthy k
    exact ⟨n, hn.le⟩

/-! ## One schedule -/

/-- The DMA, the interrupt, the task and lwIP, by turns. -/
def isrByTurns (n : Nat) : IsrAct Nat Nat :=
  match n % 6 with
  | 0 => .dma 0x003c0300#32
  | 1 => .irq
  | 2 => .isr
  | 3 => .cpu
  | 4 => .input true
  | _ => .alloc (some { addr := n, payload := n, tot_len := 0, len := 0 })

theorem benign_isrByTurns (n : Nat) : (isrByTurns n).benign = true := by
  unfold isrByTurns
  split <;> rfl

theorem fair_isrByTurns : Fair IsrAct.turn isrByTurns := by
  have hslot : ∀ n k, k < 5 → isrByTurns (6 * n + k) = isrByTurns k := by
    intro n k hk
    unfold isrByTurns
    rw [Nat.mul_add_mod]
    have hcases : k = 0 ∨ k = 1 ∨ k = 2 ∨ k = 3 ∨ k = 4 := by omega
    rcases hcases with rfl | rfl | rfl | rfl | rfl <;> rfl
  intro i n
  cases i with
  | dma => exact ⟨6 * n + 0, by omega, by rw [hslot n 0 (by decide)]; trivial⟩
  | irq => exact ⟨6 * n + 1, by omega, by rw [hslot n 1 (by decide)]; trivial⟩
  | isr => exact ⟨6 * n + 2, by omega, by rw [hslot n 2 (by decide)]; trivial⟩
  | task => exact ⟨6 * n + 3, by omega, by rw [hslot n 3 (by decide)]; trivial⟩
  | input => exact ⟨6 * n + 4, by omega, by rw [hslot n 4 (by decide)]; trivial⟩
  | alloc =>
    refine ⟨6 * n + 5, by omega, ?_⟩
    unfold isrByTurns
    rw [Nat.mul_add_mod]
    trivial

/-- The task is past its first registration. -/
def InputStmt.started : InputStmt → Bool
  | .checkFirst | .registerFirst => false
  | .take | .check | .register | .process => true

theorem started_step {trust : Bool} {s t : IsrState P A} {a : IsrAct P A}
    (h : s.task.started = true) (hstep : isrStep trust s a = some t) :
    t.task.started = true := by
  rcases isrStep_cases hstep with ⟨-, -, -, rfl⟩ | ⟨-, st, -, hst⟩ | ⟨w, rx, -, -, rfl⟩ |
    ⟨b, -, -, hin⟩
  · exact h
  · rw [(ethIsr_frame hst).2]
    exact h
  · exact h
  · unfold IsrState.ethernetifInput at hin
    split at hin
    next htask => simp [htask, InputStmt.started] at h
    next htask => simp [htask, InputStmt.started] at h
    next =>
      obtain ⟨-, hin⟩ := Option.ite_none_left_eq_some.mp hin
      cases hin
      rfl
    next =>
      cases hin
      rfl
    next =>
      obtain ⟨rx, -, rfl⟩ := Option.map_eq_some_iff.mp hin
      rfl
    next =>
      obtain ⟨rx, -, rfl⟩ := Option.map_eq_some_iff.mp hin
      show (if rx.call.isNone then InputStmt.take else .process).started = true
      split <;> rfl
    next => simp at hin

/-- With a single descriptor no frame completes while the task has one to look after, so the
    interrupt finds it ready. -/
theorem ready_of_give {s : IsrState P A} (h : SyncInv 1 s) (hstarted : s.task.started = true)
    (hgive : s.isr = some .give) : Ready s := by
  obtain ⟨hrs, -⟩ := h.raised .give hgive (by simp)
  have hungiven : s.ungiven = 1 := if_pos ⟨hrs, by simp [hgive], by simp [hgive]⟩
  have howed := h.owed_le
  have hdone := h.rx.ring.done_le
  simp only [IsrState.owed, hungiven] at howed
  have htaken : ¬ (s.task = .check ∨ s.task = .register) := by
    intro htask
    have hone : s.taken = 1 := if_pos htask
    omega
  refine ⟨?_, by omega⟩
  cases htask : s.task with
  | take | process => rfl
  | checkFirst | registerFirst =>
    rw [htask] at hstarted
    exact absurd hstarted (by decide)
  | check | register => simp [htask] at htaken

/-- The invariant of the schedule on a ring of one. -/
structure OneInv (s : IsrState P A) : Prop where
  lag : LagInv 1 s
  hand : HandInv s
  started : s.task.started = true

theorem OneInv.validGive {s : IsrState P A} (h : OneInv s) (a : IsrAct P A) : ValidGive s a := by
  cases a with
  | isr =>
    intro hgive
    exact (h.hand.handle (by simp [hgive])).mpr (ready_of_give h.lag.sync h.started hgive)
  | irq | cpu | input | alloc | dma => trivial

theorem oneInv_step {s t : IsrState P A} {a : IsrAct P A} (ha : a.benign = true) (h : OneInv s)
    (hstep : isrStep false s a = some t) : OneInv t where
  lag := (lagInv_step (by decide) ha h.lag hstep).1
  hand := handInv_step h.hand hstep
  started := started_step h.started hstep

/-- On a ring of one, by turns once the task is registered: every give finds the handle, and
    reception lasts. -/
theorem reception_lasts_byTurns :
    ∃ (rx : RxState Nat Nat) (s : IsrState Nat Nat), RxState.init (P := Nat) (A := Nat) 1 1536
        (fun i => some { addr := i, payload := i, tot_len := 0, len := 0 }) = some rx ∧
      exec (isrStepNull ignoresNull) (IsrState.init rx) [.cpu, .cpu] = some s ∧
      ∀ k, ∃ n, k ≤ (follow (isrStepNull ignoresNull) s isrByTurns n).rx.offered.length := by
  obtain ⟨rx, hinit⟩ := Option.isSome_iff_exists.mp (show (RxState.init (P := Nat) (A := Nat) 1
    1536 fun i => some { addr := i, payload := i, tot_len := 0, len := 0 }).isSome = true from rfl)
  have hboot : exec (isrStep false) (IsrState.init rx) [.cpu, .cpu] =
      some { IsrState.init rx with ethTask := true, task := .take } := rfl
  have hone : OneInv { IsrState.init rx with ethTask := true, task := .take } :=
    ⟨(lagInv_exec (by decide) hinit (by decide) hboot).1,
      exec_invariant (HandInv.init rx) (fun _ _ _ h hs => handInv_step h hs) hboot, rfl⟩
  have hall : ∀ n, OneInv (follow (isrStepNull ignoresNull)
      { IsrState.init rx with ethTask := true, task := .take } isrByTurns n) := by
    refine follow_invariant (L := fun a => a.benign = true) hone ?_ benign_isrByTurns
    intro s a t h ha hstep
    rw [isrStepNull_eq _ _ _ (h.validGive a)] at hstep
    exact oneInv_step ha h hstep
  refine ⟨rx, _, hinit, hboot, ?_⟩
  exact (reception_lasts_iff 1 1536 (by decide) _ rx hinit ignoresNull [.cpu, .cpu] _
    ⟨trivial, fun _ _ => ⟨trivial, fun _ _ => trivial⟩⟩ hboot isrByTurns fair_isrByTurns
    fun n => (hall n).validGive _).mpr fun n => ⟨(hall n).lag.sync.pbuf, (hall n).lag.sync.whole⟩

end EthernetIf

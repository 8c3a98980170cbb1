import EthernetIf.Isr.Sync

/-!
# How far the input task falls behind

A frame that completes under a raised RS is a notification less (`Isr/Sync`), and nothing makes
up for it: from then on the task is one frame behind for good. `rx_lag` says how bad this gets,
as long as each give finds a valid handle — one to NULL is lost in another way, and what the
kernel does then is not known.
Behind the task there are exactly as many frames as have overlapped so far in the whole run, and
they are never all `N` descriptors. For a frame can complete only into a descriptor that the
task gave back, and while the last one of them is on its way the DMA has nothing to complete
that could overlap.

That takes one more fact than the synchronisation itself: between its give and its clear the
interrupt has a notification waiting (`given`), because the task does not run there.
-/

namespace EthernetIf

open Lts Ring

variable {P A : Type}

/-- A frame is about to complete while RS is up. -/
def IsrState.overlaps (s : IsrState P A) : IsrAct P A → Bool
  | .dma _ => s.completes && s.rs
  | .irq | .isr | .cpu | .input _ | .alloc _ => false

theorem overlaps_iff (s : IsrState P A) (a : IsrAct P A) :
    s.overlaps a = true ↔ ¬ NoOverlap s a := by
  cases a with
  | dma w => simp [IsrState.overlaps, NoOverlap]
  | irq | isr | cpu | input | alloc => simp [IsrState.overlaps, NoOverlap]

/-- **The invariant of the lag.** -/
structure LagInv (N : Nat) (s : IsrState P A) : Prop where
  sync : SyncInv N s
  given : s.isr = some .null ∨ s.isr = some .clear → 0 < s.notif
  lag_lt : s.rx.done.length < s.owed + N

/-- The task leaves the registers of the interrupt alone. -/
theorem isr_ethernetifInput {s t : IsrState P A} {st : InputStmt} {b : RxAct P A}
    (h : s.ethernetifInput st b = some t) :
    t.isr = s.isr ∧ t.rs = s.rs ∧ t.fault = s.fault := by
  unfold IsrState.ethernetifInput at h
  split at h
  · cases h
    exact ⟨rfl, rfl, rfl⟩
  · cases h
    exact ⟨rfl, rfl, rfl⟩
  · obtain ⟨-, h⟩ := Option.ite_none_left_eq_some.mp h
    cases h
    exact ⟨rfl, rfl, rfl⟩
  · cases h
    exact ⟨rfl, rfl, rfl⟩
  · obtain ⟨rx, -, rfl⟩ := Option.map_eq_some_iff.mp h
    exact ⟨rfl, rfl, rfl⟩
  · obtain ⟨rx, -, rfl⟩ := Option.map_eq_some_iff.mp h
    exact ⟨rfl, rfl, rfl⟩
  · simp at h

/-- The notification of the running interrupt waits until it is over. -/
theorem given_step {trust : Bool} {s t : IsrState P A} {a : IsrAct P A}
    (h : s.isr = some .null ∨ s.isr = some .clear → 0 < s.notif)
    (hstep : isrStep trust s a = some t) :
    t.isr = some .null ∨ t.isr = some .clear → 0 < t.notif := by
  rcases isrStep_cases hstep with ⟨-, -, -, rfl⟩ | ⟨-, st, hisr, hst⟩ | ⟨w, rx, -, -, rfl⟩ |
    ⟨b, -, hisr, htask⟩
  · simp
  · cases st with
    | test =>
      cases hst
      split <;> simp
    | give =>
      cases hst
      unfold IsrState.notifyGive
      split
      · exact fun _ => Nat.succ_pos _
      · simp [hisr]
    | null =>
      cases hst
      exact fun _ => h (.inl hisr)
    | clear | nis =>
      cases hst
      simp
    | hang => cases hst
  · exact h
  · rw [(isr_ethernetifInput htask).1, hisr]
    simp

/-- Under a raised flag somebody still has to look after a descriptor. -/
theorem LagInv.rearmed_lt {N : Nat} {s : IsrState P A} (h : LagInv N s) (hrs : s.rs = true) :
    s.rx.rearmed < s.owed := by
  by_cases hisr : s.isr = some .null ∨ s.isr = some .clear
  · have hnotif := h.given hisr
    simp only [IsrState.owed]
    omega
  · have hungiven : s.ungiven = 1 := if_pos ⟨hrs, not_or.mp hisr⟩
    simp only [IsrState.owed, hungiven]
    omega

theorem lagInv_step {N : Nat} (hN : 0 < N) {trust : Bool} {s t : IsrState P A} {a : IsrAct P A}
    (ha : a.benign = true) (h : LagInv N s) (hstep : isrStep trust s a = some t) :
    LagInv N t ∧ t.owed + s.rx.done.length + (if s.overlaps a then 1 else 0) =
      s.owed + t.rx.done.length := by
  obtain ⟨hsync, hacc⟩ := syncInv_step hN ha h.sync hstep
  have hlag := h.lag_lt
  by_cases hno : NoOverlap s a
  · have hkept := hacc.kept hno
    have hfalse : s.overlaps a = false := by
      rw [← Bool.not_eq_true, overlaps_iff]
      exact not_not.mpr hno
    refine ⟨⟨hsync, given_step h.given hstep, by omega⟩, ?_⟩
    rw [hfalse]
    simpa using hkept
  · obtain ⟨howed, hdone⟩ := hacc.lost hno
    have hover := (overlaps_iff s a).mpr hno
    refine ⟨⟨hsync, given_step h.given hstep, ?_⟩, by rw [hover, if_pos rfl]; omega⟩
    -- the descriptor it completes was given back, and another one will be
    cases a with
    | dma w =>
      obtain ⟨hcomp, hrs⟩ := Bool.and_eq_true_iff.mp hover
      have hown := (Bool.and_eq_true_iff.mp hcomp).2
      rw [h.sync.rx.ring.pos, h.sync.rx.ring.own_done hN] at hown
      have howed' := h.rearmed_lt hrs
      omega
    | irq | isr | cpu | input | alloc => cases hover

theorem LagInv.init {N B : Nat} (hN : 0 < N) {alloc : Nat → Option (Pbuf P A)}
    {rx : RxState P A} (hinit : RxState.init N B alloc = some rx) :
    LagInv N (IsrState.init rx) := by
  obtain ⟨hsync, howed⟩ := SyncInv.init hN hinit
  refine ⟨hsync, by simp [IsrState.init], ?_⟩
  rw [howed]
  show rx.done.length < rx.done.length + N
  omega

/-- **What is missing is what overlapped.** -/
theorem lagInv_exec {N B : Nat} (hN : 0 < N) {alloc : Nat → Option (Pbuf P A)} {rx : RxState P A}
    (hinit : RxState.init N B alloc = some rx) {trust : Bool} {as : List (IsrAct P A)}
    {s : IsrState P A} (hok : ∀ a ∈ as, a.benign = true)
    (hrun : exec (isrStep trust) (IsrState.init rx) as = some s) :
    LagInv N s ∧ s.owed + tally (isrStep trust) IsrState.overlaps (IsrState.init rx) as =
      s.rx.done.length := by
  refine exec_history (P := fun as s => (∀ a ∈ as, a.benign = true) → LagInv N s ∧
    s.owed + tally (isrStep trust) IsrState.overlaps (IsrState.init rx) as = s.rx.done.length)
    (fun _ => ⟨LagInv.init hN hinit, (SyncInv.init hN hinit).2⟩) ?_ hrun hok
  intro as s a t hs ih hstep hok
  obtain ⟨hi, htally⟩ := ih fun b hb => hok b (List.mem_append_left _ hb)
  obtain ⟨ht, hcount⟩ := lagInv_step hN (hok a (by simp)) hi hstep
  refine ⟨ht, ?_⟩
  rw [tally_snoc hs]
  omega

/-- Where everybody waits, nothing is owed but what was given back. -/
theorem SyncInv.owed_waiting {N : Nat} {s : IsrState P A} (h : SyncInv N s)
    (htask : s.task = .take) (hnotif : s.notif = 0) (hrs : s.rs = false) :
    s.rx.call = none ∧ s.owed = s.rx.rearmed := by
  have hidle : s.rx.call = none := h.call.mpr (by simp [htask])
  refine ⟨hidle, ?_⟩
  simp [IsrState.owed, RxState.unfinished, IsrState.taken, IsrState.ungiven, hidle, htask, hnotif,
    hrs]

/-- **The lag.** Whatever the kernel would do with a NULL handle: in any run whose gives find a
    valid one, with a pool that never runs dry and frames that fill one descriptor, fewer than
    `N` frames complete under a raised RS. And whenever the task is blocked without a
    notification and RS is down, what lwIP has been offered is all frames but the last so
    many. -/
theorem rx_lag (N B : Nat) (hN : 0 < N) (alloc : Nat → Option (Pbuf P A))
    (rx : RxState P A) (hinit : RxState.init N B alloc = some rx)
    (null : IsrState P A → Option (IsrState P A)) (as : List (IsrAct P A)) (s : IsrState P A)
    (hok : ∀ a ∈ as, a.benign = true)
    (hvalid : OnRun (isrStepNull null) ValidGive (IsrState.init rx) as)
    (hrun : exec (isrStepNull null) (IsrState.init rx) as = some s) :
    tally (isrStepNull null) IsrState.overlaps (IsrState.init rx) as < N ∧
    (s.task = .take → s.notif = 0 → s.rs = false →
      s.rx.offered.map Pbuf.delivery = (s.rx.done.take (s.rx.done.length -
        tally (isrStepNull null) IsrState.overlaps (IsrState.init rx) as)).map
          RxDone.delivery) := by
  rw [(hvalid.congr (isrStepNull_eq null)).1] at hrun
  rw [hvalid.tally_congr (isrStepNull_eq null)]
  obtain ⟨hi, htally⟩ := lagInv_exec hN hinit hok hrun
  have hlag := hi.lag_lt
  refine ⟨by omega, fun hblocked hnotif hrs => ?_⟩
  obtain ⟨hidle, howed⟩ := hi.sync.owed_waiting hblocked hnotif hrs
  have hhead := hi.sync.rx.head
  rw [hidle] at hhead
  rcases hhead with hrest | hstuck
  · rw [hi.sync.rx.order, hrest.1]
    congr 2
    omega
  · exact absurd hstuck.2 hi.sync.pbuf

/-- A kernel that takes no notice of a NULL handle: `eth_isr` goes on. -/
def ignoresNull (s : IsrState P A) : Option (IsrState P A) := some { s with isr := some .null }

/-- Two frames before the interrupt is taken, and one after the first of them. -/
def oneBehindRun : List (IsrAct Nat Nat) :=
  List.flatten [[.cpu, .cpu, .dma 0x003c0300#32, .dma 0x003d0300#32], oneWakeup,
    [.dma 0x003e0300#32], oneWakeup]

/-- They leave one behind; the next frame brings up the old one and is left behind in its
    turn. -/
theorem rx_lag_oneBehind :
    ∃ (rx : RxState Nat Nat) (s : IsrState Nat Nat), RxState.init (P := Nat) (A := Nat) 2 1536
        (fun i => some { addr := i, payload := i, tot_len := 0, len := 0 }) = some rx ∧
      exec (isrStepNull ignoresNull) (IsrState.init rx) oneBehindRun = some s ∧
      s.rx.done.length = 3 ∧
      s.rx.offered.map Pbuf.delivery = (s.rx.done.take 2).map RxDone.delivery := by
  refine exists_init_exec (fun s => s.task == .take && s.notif == 0 && !s.rs &&
    s.rx.done.length == 3) (by decide +kernel) fun rx s hinit hrun hs => ?_
  simp only [Bool.and_eq_true, beq_iff_eq, Bool.not_eq_true'] at hs
  have hrunning : (RxState.init (P := Nat) (A := Nat) 2 1536
      (fun i => some { addr := i, payload := i, tot_len := 0, len := 0 })).all (fun rx =>
        decide (OnRun (isrStepNull ignoresNull) ValidGive (IsrState.init rx) oneBehindRun) &&
          tally (isrStepNull ignoresNull) IsrState.overlaps (IsrState.init rx) oneBehindRun ==
            1) = true := by decide +kernel
  rw [hinit, Option.all_some, Bool.and_eq_true, beq_iff_eq] at hrunning
  obtain ⟨hvalid, hone⟩ := hrunning
  have hlag := (rx_lag 2 1536 (by decide) _ rx hinit ignoresNull _ s (by decide)
    (of_decide_eq_true hvalid) hrun).2 hs.1.1.1 hs.1.1.2 hs.1.2
  rw [hone, hs.2] at hlag
  exact ⟨hs.2, hlag⟩

end EthernetIf

import EthernetIf.Isr.Model

/-!
# Frames and notifications

The DMA raises a flag, not a counter: a frame that completes while RS is still up raises
nothing. From there on one descriptor fewer is promised to the task than the DMA completed,
and the task has no other source of work, so the deficit is never made up.

`IsrState.owed` counts the descriptors the task has given back or will give back without
another frame arriving: those behind it, the one in its hands, its notifications, and the one
the pending interrupt is about to give. `syncInv_step` says what a step does to it — exactly an
overlapping completion leaves it behind the DMA — and `rx_inSync_iff` reads the two counts off
a state in which everybody waits.
-/

namespace EthernetIf

open Lts Ring

variable {P A : Type}

/-! ## One call of `process_rx_descr` at a time -/

/-- 1 while a running `process_rx_descr` has not given its descriptor back. -/
def RxState.unfinished (s : RxState P A) : Nat :=
  if s.call.any fun st => !st.behind then 1 else 0

@[simp] theorem unfinished_receive (s : RxState P A) (w : BitVec 32) :
    (s.receive w).unfinished = s.unfinished := rfl

@[simp] theorem unfinished_suspend (s : RxState P A) : s.suspend.unfinished = s.unfinished := rfl

@[simp] theorem rearmed_receive (s : RxState P A) (w : BitVec 32) :
    (s.receive w).rearmed = s.rearmed := rfl

@[simp] theorem rearmed_suspend (s : RxState P A) : s.suspend.rearmed = s.rearmed := rfl

/-- With a whole frame at the cursor, each statement of a call leaves alone what is given back
    together with what will be: none of its tests ends the call early. -/
theorem rx_progress_cpu {N : Nat} {s t : RxState P A} {st : RxStmt} (h : RxInv N s)
    (hpbuf : (s.head N).pbuf ≠ none) (hwhole : ∀ f ∈ s.done, isWholeFrame f.status = true)
    (hfull : s.unfinished = 1 → s.rearmed < s.done.length) (hcall : s.call = some st)
    (hstmt : s.stmt st .cpu = some t) :
    t.rearmed + t.unfinished = s.rearmed + s.unfinished ∧ t.done = s.done := by
  have hhead := h.head
  rw [hcall] at hhead
  have hb : s.call.any RxStmt.behind = st.behind := by simp [hcall]
  cases st with
  | input | alloc => simp [RxState.stmt] at hstmt
  | checkOwn =>
    have hcpu : s.desc.own = false := by
      rw [h.desc_eq hb]
      exact h.ring.taken (hfull (by simp [RxState.unfinished, hcall, RxStmt.behind]))
    cases hstmt
    simp [RxState.unfinished, RxState.goto, hcall, hcpu, RxStmt.behind]
  | checkPbuf | checkAlloc =>
    rw [← h.desc_eq hb] at hpbuf
    cases hstmt
    simp [RxState.unfinished, RxState.goto, hcall, hpbuf, RxStmt.behind]
  | checkFlags =>
    obtain ⟨hlt, hrest⟩ := hhead
    obtain ⟨-, p, -, hdone⟩ := hrest.2 hlt
    have hw : isWholeFrame s.desc.Status = true := by
      rw [h.desc_eq hb]
      exact hwhole _ (List.mem_of_getElem? hdone)
    cases hstmt
    simp [RxState.unfinished, RxState.goto, hcall, hw, RxStmt.behind]
  | setLen | free | setBuf | setOwn | ackRbus | poll | advance =>
    cases hstmt
    simp [RxState.unfinished, RxState.goto, RxState.return, RxState.setLen, RxState.freePbuf,
      RxState.setBuf, RxState.setOwn, RxState.ackRbus, RxState.poll, RxState.advance,
      RxState.store, hcall, RxStmt.behind]
  | testRbus =>
    cases hstmt
    cases s.rbus <;> simp [RxState.unfinished, RxState.goto, hcall, RxStmt.behind]

/-- … and so do the returns of `netif->input` and `pbuf_alloc`. -/
theorem rx_progress {N : Nat} {s t : RxState P A} {a : RxAct P A} (h : RxInv N s)
    (hpbuf : (s.head N).pbuf ≠ none) (hwhole : ∀ f ∈ s.done, isWholeFrame f.status = true)
    (hfull : s.unfinished = 1 → s.rearmed < s.done.length) (hcall : s.call ≠ none)
    (hdma : ∀ w, a ≠ .dma w) (hstep : rxStep s a = some t) :
    t.rearmed + t.unfinished = s.rearmed + s.unfinished ∧ t.done = s.done := by
  rcases rxStep_cases hstep with ⟨-, hidle, -⟩ | ⟨w, ha, -⟩ | ⟨-, st, hst, hstmt⟩ |
    ⟨accept, -, hst, rfl⟩ | ⟨fresh, -, hst, rfl⟩
  · exact absurd hidle hcall
  · exact absurd ha (hdma w)
  · exact rx_progress_cpu h hpbuf hwhole hfull hst hstmt
  · cases accept <;>
      simp [RxState.unfinished, RxState.goto, RxState.offer, hst, RxStmt.behind]
  · simp [RxState.unfinished, RxState.goto, RxState.setPbuf, RxState.store, hst, RxStmt.behind]

/-! ## What is owed to the DMA -/

/-- A notification taken, and `process_rx_descr` not called for it yet. -/
def IsrState.taken (s : IsrState P A) : Nat :=
  if s.task = .check ∨ s.task = .register then 1 else 0

/-- RS is up, and the interrupt has not given for it yet. -/
def IsrState.ungiven (s : IsrState P A) : Nat :=
  if s.rs = true ∧ s.isr ≠ some .null ∧ s.isr ≠ some .clear then 1 else 0

/-- The descriptors the task has given back, or will without another frame. -/
def IsrState.owed (s : IsrState P A) : Nat :=
  s.rx.rearmed + s.rx.unfinished + s.taken + s.notif + s.ungiven

/-- **The invariant of the synchronisation.** -/
structure SyncInv (N : Nat) (s : IsrState P A) : Prop where
  rx : RxInv N s.rx
  pbuf : (s.rx.head N).pbuf ≠ none
  whole : ∀ f ∈ s.rx.done, isWholeFrame f.status = true
  raised : ∀ st, s.isr = some st → st ≠ .nis → s.rs = true ∧ st ≠ .hang
  call : s.rx.call = none ↔ s.task ≠ .process
  owed_le : s.owed ≤ s.rx.done.length

/-- The pool has a pbuf, and a completed frame fills one descriptor. -/
def IsrAct.benign : IsrAct P A → Bool
  | .alloc fresh => fresh.isSome
  | .dma w => isWholeFrame w
  | .irq | .isr | .cpu | .input _ => true

/-- No frame completes while RS is up. -/
def NoOverlap (s : IsrState P A) (a : IsrAct P A) : Prop :=
  (∃ w, a = .dma w) → s.completes = true → s.rs = false

/-- What a step does to the two counts. -/
structure Accounts (s : IsrState P A) (a : IsrAct P A) (t : IsrState P A) : Prop where
  kept : NoOverlap s a → t.owed + s.rx.done.length = s.owed + t.rx.done.length
  lost : ¬ NoOverlap s a → t.owed = s.owed ∧ t.rx.done.length = s.rx.done.length + 1

/-- A step that completes no frame and owes what was owed before. -/
theorem Accounts.of_eq {s t : IsrState P A} {a : IsrAct P A} (ha : ∀ w, a ≠ .dma w)
    (howed : t.owed = s.owed) (hdone : t.rx.done = s.rx.done) : Accounts s a t where
  kept := fun _ => by rw [howed, hdone]
  lost := fun hno => absurd (fun ⟨w, hw⟩ => absurd hw (ha w)) hno

theorem Accounts.owed_le {s t : IsrState P A} {a : IsrAct P A} (h : Accounts s a t)
    (hs : s.owed ≤ s.rx.done.length) : t.owed ≤ t.rx.done.length := by
  by_cases hno : NoOverlap s a
  · have := h.kept hno
    omega
  · have := h.lost hno
    omega

/-! ## The steps -/

/-- A statement of the interrupt turns the raised flag into a notification, once. -/
theorem SyncInv.ethIsr {N : Nat} {trust : Bool} {s t : IsrState P A} {st : IsrStmt}
    (h : SyncInv N s) (hisr : s.isr = some st) (hstep : s.ethIsr trust st = some t) :
    SyncInv N t ∧ t.owed = s.owed ∧ t.rx = s.rx := by
  have hraised := h.raised st hisr
  have hmk : ∀ {t : IsrState P A}, t.rx = s.rx → t.task = s.task →
      (∀ st, t.isr = some st → st ≠ .nis → t.rs = true ∧ st ≠ .hang) → t.owed = s.owed →
      SyncInv N t ∧ t.owed = s.owed ∧ t.rx = s.rx := by
    intro t hrx htask hr howed
    refine ⟨⟨hrx ▸ h.rx, hrx ▸ h.pbuf, hrx ▸ h.whole, hr, ?_, ?_⟩, howed, hrx⟩
    · rw [hrx, htask]
      exact h.call
    · rw [howed, hrx]
      exact h.owed_le
  cases st with
  | test =>
    obtain ⟨hrs, -⟩ := hraised (by simp)
    cases hstep
    refine hmk rfl rfl (fun st hst _ => ⟨hrs, ?_⟩) ?_
    · rintro rfl
      simp [hrs] at hst
    · simp [IsrState.owed, IsrState.taken, IsrState.ungiven, hrs, hisr]
  | give =>
    obtain ⟨hrs, -⟩ := hraised (by simp)
    cases hstep
    unfold IsrState.notifyGive
    split
    · refine hmk rfl rfl (fun st hst _ => ⟨hrs, by rintro rfl; simp at hst⟩) ?_
      simp [IsrState.owed, IsrState.taken, IsrState.ungiven, hrs, hisr]
      omega
    · exact hmk rfl rfl h.raised rfl
  | null =>
    obtain ⟨hrs, -⟩ := hraised (by simp)
    cases hstep
    refine hmk rfl rfl (fun st hst _ => ⟨hrs, by rintro rfl; simp at hst⟩) ?_
    simp [IsrState.owed, IsrState.taken, IsrState.ungiven, hisr]
  | clear =>
    cases hstep
    refine hmk rfl rfl (fun st hst hne => absurd (Option.some.inj hst).symm hne) ?_
    simp [IsrState.owed, IsrState.taken, IsrState.ungiven, hisr]
  | nis =>
    cases hstep
    refine hmk rfl rfl (fun st hst => absurd hst (by simp)) ?_
    simp [IsrState.owed, IsrState.taken, IsrState.ungiven, hisr]
  | hang => simp [IsrState.ethIsr] at hstep

/-- A statement of the task turns a notification into a descriptor given back. -/
theorem SyncInv.ethernetifInput {N : Nat} (hN : 0 < N) {s t : IsrState P A} {b : RxAct P A}
    (h : SyncInv N s) (hisr : s.isr = none) (hdma : ∀ w, b ≠ .dma w) (hpool : b ≠ .alloc none)
    (hstep : s.ethernetifInput s.task b = some t) :
    SyncInv N t ∧ t.owed = s.owed ∧ t.rx.done = s.rx.done := by
  have hmk : ∀ {t : IsrState P A}, RxInv N t.rx → (t.rx.head N).pbuf ≠ none →
      t.rx.done = s.rx.done → t.isr = none → (t.rx.call = none ↔ t.task ≠ .process) →
      t.owed = s.owed → SyncInv N t ∧ t.owed = s.owed ∧ t.rx.done = s.rx.done := by
    intro t hrx hpbuf hdone hisr' hcall howed
    refine ⟨⟨hrx, hpbuf, hdone ▸ h.whole, fun st hst => ?_, hcall, ?_⟩, howed, hdone⟩
    · exact absurd (hisr'.symm.trans hst) (by simp)
    · rw [howed, hdone]
      exact h.owed_le
  have hcall := h.call
  unfold IsrState.ethernetifInput at hstep
  split at hstep
  next htask =>
    cases hstep
    refine hmk h.rx h.pbuf rfl hisr (by simpa [htask] using hcall) ?_
    simp [IsrState.owed, IsrState.taken, IsrState.ungiven, htask]
  next htask =>
    cases hstep
    refine hmk h.rx h.pbuf rfl hisr (by simpa [htask] using hcall) ?_
    simp [IsrState.owed, IsrState.taken, IsrState.ungiven, htask]
  next htask =>
    split at hstep
    · simp at hstep
    next hnotif =>
      cases hstep
      refine hmk h.rx h.pbuf rfl hisr (by simpa [htask] using hcall) ?_
      simp only [IsrState.owed, IsrState.taken, IsrState.ungiven, htask]
      simp
      omega
  next htask =>
    cases hstep
    refine hmk h.rx h.pbuf rfl hisr (by simpa [htask] using hcall) ?_
    simp [IsrState.owed, IsrState.taken, IsrState.ungiven, htask]
  next htask =>
    obtain ⟨rx, hrx, rfl⟩ := Option.map_eq_some_iff.mp hstep
    have hidle : s.rx.call = none := hcall.mpr (by simp [htask])
    obtain rfl : s.rx.goto .checkOwn = rx := by simpa [rxStep, hidle] using hrx
    have hpbuf := mt (head_pbuf_step hN h.rx hrx).mp (by simp [h.pbuf])
    refine hmk (rxInv_step hN h.rx hrx) hpbuf rfl hisr (by simp [RxState.goto]) ?_
    simp [IsrState.owed, IsrState.taken, IsrState.ungiven, htask, RxState.unfinished, hidle,
      RxState.goto, RxStmt.behind]
  next htask =>
    obtain ⟨rx, hrx, rfl⟩ := Option.map_eq_some_iff.mp hstep
    have hfull : s.rx.unfinished = 1 → s.rx.rearmed < s.rx.done.length := by
      intro hone
      have howed := h.owed_le
      simp only [IsrState.owed, hone] at howed
      omega
    obtain ⟨hprog, hdone⟩ := rx_progress h.rx h.pbuf h.whole hfull
      (by rw [ne_eq, hcall]; simp [htask]) hdma hrx
    have hpbuf := mt (head_pbuf_step hN h.rx hrx).mp (by simp [h.pbuf, hpool])
    refine hmk (rxInv_step hN h.rx hrx) hpbuf hdone hisr ?_ ?_
    · cases rx.call <;> simp
    · have htaken : ∀ b : Bool, (if (if b then InputStmt.take else .process) = .check ∨
          (if b then InputStmt.take else .process) = .register then 1 else 0) = 0 := by decide
      simp only [IsrState.owed, IsrState.taken, IsrState.ungiven, htask, htaken]
      simp
      omega
  next => simp at hstep

/-- A frame that completes is owed unless the flag was up already. -/
theorem SyncInv.dma {N : Nat} (hN : 0 < N) {s : IsrState P A} {w : BitVec 32} {rx : RxState P A}
    (h : SyncInv N s) (hw : isWholeFrame w = true) (hrx : s.rx.dma w = some rx) :
    SyncInv N { s with rx := rx, rs := s.rs || s.completes } ∧
      Accounts s (.dma w) { s with rx := rx, rs := s.rs || s.completes } := by
  have hinv := rxInv_dma hN h.rx hrx
  have hpbuf := mt (head_pbuf_step hN h.rx (a := .dma w) hrx).mp (by simp [h.pbuf])
  have hraised : ∀ st, s.isr = some st → st ≠ .nis →
      (s.rs || s.completes) = true ∧ st ≠ .hang := fun st hst hne => by
    simp [h.raised st hst hne]
  obtain ⟨hsus, ⟨hlt, rfl⟩ | ⟨hfull, rfl⟩⟩ := h.rx.ring.dma_cases hN hrx
  · have hcomp : s.completes = true := by
      simp [IsrState.completes, hsus, h.rx.ring.pos, (h.rx.ring.own_done hN).mpr hlt]
    have howed : ({ s with rx := s.rx.receive w, rs := s.rs || s.completes } : IsrState P A).owed
        = s.owed + (if s.rs then 0 else 1) := by
      cases hrs : s.rs with
      | true => simp [IsrState.owed, IsrState.taken, IsrState.ungiven, hrs]
      | false =>
        -- the interrupt is between its give and its clear only while RS is up
        have hnull : s.isr ≠ some .null := fun hst => by
          exact absurd (hrs.symm.trans (h.raised .null hst (by simp)).1) (by simp)
        have hclear : s.isr ≠ some .clear := fun hst => by
          exact absurd (hrs.symm.trans (h.raised .clear hst (by simp)).1) (by simp)
        simp [IsrState.owed, IsrState.taken, IsrState.ungiven, hrs, hcomp, hnull, hclear]
    have hacc : Accounts s (.dma w)
        { s with rx := s.rx.receive w, rs := s.rs || s.completes } := by
      refine ⟨fun hno => ?_, fun hno => ?_⟩
      · rw [howed, hno ⟨w, rfl⟩ hcomp, if_neg (by simp), length_receive_done]
        omega
      · have hrs : s.rs = true := by
          by_contra hrs
          exact hno fun _ _ => by simpa using hrs
        rw [howed, hrs, if_pos rfl, length_receive_done]
        exact ⟨rfl, rfl⟩
    refine ⟨⟨hinv, hpbuf, fun f hf => ?_, hraised, h.call, hacc.owed_le h.owed_le⟩, hacc⟩
    rcases List.mem_append.mp hf with hold | hnew
    · exact h.whole f hold
    · obtain rfl := List.mem_singleton.mp hnew
      exact (isWholeFrame_closed w).trans hw
  · have hcomp : s.completes = false := by
      have hown := mt (h.rx.ring.own_done hN).mp (by omega)
      simpa [IsrState.completes, hsus, h.rx.ring.pos] using hown
    have howed : ({ s with rx := s.rx.suspend, rs := s.rs || s.completes } : IsrState P A).owed
        = s.owed := by
      simp [IsrState.owed, IsrState.taken, IsrState.ungiven, hcomp]
    refine ⟨⟨hinv, hpbuf, h.whole, hraised, h.call, ?_⟩, fun _ => ?_, fun hno => ?_⟩
    · rw [howed]
      exact h.owed_le
    · rw [howed]
      rfl
    · exact absurd (fun _ hc => absurd (hc.symm.trans hcomp) (by simp)) hno

/-- **What one step does to the invariant and the counts.** -/
theorem syncInv_step {N : Nat} (hN : 0 < N) {trust : Bool} {s t : IsrState P A} {a : IsrAct P A}
    (ha : a.benign = true) (h : SyncInv N s) (hstep : isrStep trust s a = some t) :
    SyncInv N t ∧ Accounts s a t := by
  rcases isrStep_cases hstep with ⟨rfl, hisr, hrs, rfl⟩ | ⟨rfl, st, hisr, hst⟩ |
    ⟨w, rx, rfl, hrx, rfl⟩ | ⟨b, hb, hisr, hin⟩
  · have howed : ({ s with isr := some .test } : IsrState P A).owed = s.owed := by
      simp [IsrState.owed, IsrState.taken, IsrState.ungiven, hisr]
    refine ⟨⟨h.rx, h.pbuf, h.whole, fun st hst _ => ⟨hrs, ?_⟩, h.call, ?_⟩,
      .of_eq (by simp) howed rfl⟩
    · rintro rfl
      simp at hst
    · rw [howed]
      exact h.owed_le
  · obtain ⟨ht, howed, hrx⟩ := h.ethIsr hisr hst
    exact ⟨ht, .of_eq (by simp) howed (by rw [hrx])⟩
  · exact h.dma hN ha hrx
  · have hdma : ∀ w, b ≠ .dma w := by
      rintro w rfl
      cases a <;> simp [IsrAct.rxAct] at hb
    have hpool : b ≠ .alloc none := by
      rintro rfl
      cases a with
      | alloc fresh =>
        obtain rfl : fresh = none := by simpa [IsrAct.rxAct] using hb
        exact absurd ha (by simp [IsrAct.benign])
      | _ => simp [IsrAct.rxAct] at hb
    have hno : ∀ w, a ≠ .dma w := by
      rintro w rfl
      simp [IsrAct.rxAct] at hb
    obtain ⟨ht, howed, hdone⟩ := h.ethernetifInput hN hisr hdma hpool hin
    exact ⟨ht, .of_eq hno howed hdone⟩

theorem SyncInv.init {N B : Nat} (hN : 0 < N) {alloc : Nat → Option (Pbuf P A)}
    {rx : RxState P A} (hinit : RxState.init N B alloc = some rx) :
    SyncInv N (IsrState.init rx) ∧ (IsrState.init rx).owed = rx.done.length := by
  have hi := RxInv.init hN hinit
  have hpbuf := mt (head_pbuf_exec hN hinit (exec_nil rx)).mp (by simp)
  obtain ⟨ring, -, rfl⟩ := RxState.init_eq hinit
  exact ⟨⟨hi, hpbuf, fun f hf => absurd hf (by simp [IsrState.init]), fun st hst => absurd hst
    (by simp [IsrState.init]), by simp [IsrState.init], Nat.le_refl 0⟩, rfl⟩

/-- **Nothing is owed but what overlapped**: over a run, the task keeps up with the DMA exactly
    as long as no frame completes while RS is up. -/
theorem owed_exec {N B : Nat} (hN : 0 < N) {alloc : Nat → Option (Pbuf P A)} {rx : RxState P A}
    (hinit : RxState.init N B alloc = some rx) {trust : Bool} {as : List (IsrAct P A)}
    {s : IsrState P A} (hok : ∀ a ∈ as, a.benign = true)
    (hrun : exec (isrStep trust) (IsrState.init rx) as = some s) :
    SyncInv N s ∧ (s.owed = s.rx.done.length ↔
      OnRun (isrStep trust) NoOverlap (IsrState.init rx) as) := by
  refine exec_history (P := fun as s => (∀ a ∈ as, a.benign = true) → SyncInv N s ∧
    (s.owed = s.rx.done.length ↔ OnRun (isrStep trust) NoOverlap (IsrState.init rx) as))
    (fun _ => ?_) ?_ hrun hok
  · obtain ⟨hi, howed⟩ := SyncInv.init hN hinit
    exact ⟨hi, iff_of_true howed trivial⟩
  · intro as s a t hs ih hstep hok
    obtain ⟨hi, hiff⟩ := ih fun b hb => hok b (List.mem_append_left _ hb)
    obtain ⟨ht, hacc⟩ := syncInv_step hN (hok a (by simp)) hi hstep
    refine ⟨ht, ?_⟩
    rw [onRun_snoc hs, ← hiff]
    by_cases hno : NoOverlap s a
    · have := hacc.kept hno
      simp only [hno, and_true]
      omega
    · have := hacc.lost hno
      have := hi.owed_le
      simp only [hno, and_false, iff_false]
      omega

/-! ## A state in which everybody waits -/

/-- **No frame is left behind exactly when none completed under a raised flag.** In any run
    with a pool that never runs dry and frames that fill one descriptor, whenever the task is
    blocked without a notification and RS is down: the descriptor at `rx_cur_dma_desc` is
    still the DMA's — equivalently, every completed frame was offered to lwIP — if and only if
    no frame of the run completed while RS was up for an earlier one. -/
theorem rx_inSync_iff (N B : Nat) (hN : 0 < N) (alloc : Nat → Option (Pbuf P A))
    (rx : RxState P A) (hinit : RxState.init N B alloc = some rx) (trust : Bool)
    (as : List (IsrAct P A)) (s : IsrState P A) (hok : ∀ a ∈ as, a.benign = true)
    (hrun : exec (isrStep trust) (IsrState.init rx) as = some s)
    (hblocked : s.task = .take) (hnotif : s.notif = 0) (hrs : s.rs = false) :
    (s.rx.desc.own = true ↔ OnRun (isrStep trust) NoOverlap (IsrState.init rx) as) ∧
    (s.rx.desc.own = true ↔ s.rx.offered.length = s.rx.done.length) := by
  obtain ⟨hi, hiff⟩ := owed_exec hN hinit hok hrun
  have hidle : s.rx.call = none := hi.call.mpr (by simp [hblocked])
  have howed : s.owed = s.rx.rearmed := by
    simp [IsrState.owed, RxState.unfinished, IsrState.taken, IsrState.ungiven, hidle, hblocked,
      hnotif, hrs]
  have hown : s.rx.desc.own = true ↔ s.rx.rearmed = s.rx.done.length := by
    rw [hi.rx.desc_eq (by simp [hidle])]
    exact hi.rx.ring.own_rearmed hN
  refine ⟨by rw [hown, ← howed, hiff], ?_⟩
  -- between calls nothing was offered but what was given back: no allocation failed
  have hhead := hi.rx.head
  rw [hidle] at hhead
  rcases hhead with hrest | hstuck
  · rw [hown, hrest.1]
  · exact absurd hstuck.2 hi.pbuf

/-- The labels of one interrupt, and of the task from its `take` to the next. -/
def oneWakeup : List (IsrAct Nat Nat) :=
  [.irq, .isr, .isr, .isr, .isr, .isr, .cpu, .cpu, .cpu, .cpu, .cpu, .cpu, .cpu, .input true,
    .alloc (some { addr := 10, payload := 10, tot_len := 0, len := 0 }), .cpu, .cpu, .cpu, .cpu,
    .cpu]

/-- One frame, one wake-up. -/
theorem rx_inSync_oneFrame :
    ∃ (rx : RxState Nat Nat) (s : IsrState Nat Nat), RxState.init (P := Nat) (A := Nat) 1 1536
        (fun i => some { addr := i, payload := i, tot_len := 0, len := 0 }) = some rx ∧
      exec (isrStep false) (IsrState.init rx)
        ([.cpu, .cpu, .dma 0x003c0300#32] ++ oneWakeup) = some s ∧
      s.rx.done.length = 1 ∧
      (s.rx.desc.own = true ↔ OnRun (isrStep false) NoOverlap (IsrState.init rx)
        ([.cpu, .cpu, .dma 0x003c0300#32] ++ oneWakeup)) := by
  refine exists_init_exec
    (fun s => s.task == .take && s.notif == 0 && !s.rs && s.rx.done.length == 1)
    (by decide +kernel) fun rx s hinit hrun hs => ?_
  simp only [Bool.and_eq_true, beq_iff_eq, Bool.not_eq_true'] at hs
  exact ⟨hs.2, (rx_inSync_iff 1 1536 (by decide) _ rx hinit false _ s (by decide) hrun
    hs.1.1.1 hs.1.1.2 hs.1.2).1⟩

/-- Two frames before the interrupt is taken, one wake-up: the second frame stays where it
    is, and everybody waits. -/
theorem twoFrames_oneLeft :
    ∃ (rx : RxState Nat Nat) (s : IsrState Nat Nat), RxState.init (P := Nat) (A := Nat) 10 1536
        (fun i => some { addr := i, payload := i, tot_len := 0, len := 0 }) = some rx ∧
      exec (isrStep false) (IsrState.init rx)
        ([.cpu, .cpu, .dma 0x003c0300#32, .dma 0x003c0300#32] ++ oneWakeup) = some s ∧
      (∀ a ∈ ([.cpu, .cpu, .dma 0x003c0300#32, .dma 0x003c0300#32] ++ oneWakeup :
        List (IsrAct Nat Nat)), a.benign = true) ∧ s.fault = false ∧
      s.task = .take ∧ s.notif = 0 ∧ s.rs = false ∧ s.rx.desc.own = false := by
  refine exists_init_exec
    (fun s => !s.fault && s.task == .take && s.notif == 0 && !s.rs && !s.rx.desc.own)
    (by decide +kernel) fun rx s hinit hrun hs => ?_
  simp only [Bool.and_eq_true, beq_iff_eq, Bool.not_eq_true'] at hs
  exact ⟨by decide, hs.1.1.1.1, hs.1.1.1.2, hs.1.1.2, hs.1.2, hs.2⟩

end EthernetIf

import EthernetIf.Isr.Model

/-!
# The handshake over `eth_task`

The task publishes its handle, the interrupt gives to it and takes it away. What keeps the
handle valid is not in the code: `HandInv` says that `eth_task` is non-NULL exactly while the
task is past its registration and owes nothing (`Ready`), and nothing keeps the interrupt from
being taken at any other time. So the hand-shake is safe in exactly the runs whose interrupts
all come when the task is ready (`handshake_safe_iff`); the task's own two checks never fail.
-/

namespace EthernetIf

open Lts

variable {P A : Type}

/-- Past the registration: blocked on the notification, or working on the frame of the one it
    took. -/
def InputStmt.registered : InputStmt → Bool
  | .take | .process => true
  | .checkFirst | .registerFirst | .check | .register => false

/-- The task is registered, and no notification is waiting for it. -/
def Ready (s : IsrState P A) : Prop := s.task.registered = true ∧ s.notif = 0

/-- The three places where the two sides rely on `eth_task`: the interrupt gives to a
    handle, and the task finds NULL where it checks for it. -/
def HandshakeSafe (s : IsrState P A) (a : IsrAct P A) : Prop :=
  (s.isr = some .give → a = .isr → s.ethTask = true) ∧
  (s.task = .checkFirst ∨ s.task = .check → s.isr = none → a = .cpu → s.ethTask = false)

/-- The interrupt gives only to a task that is ready. -/
def GivesWhenReady (s : IsrState P A) (a : IsrAct P A) : Prop :=
  s.isr = some .give → a = .isr → Ready s

instance (s : IsrState P A) : Decidable (Ready s) := inferInstanceAs (Decidable (_ ∧ _))

instance GivesWhenReady.decidable (s : IsrState P A) : ∀ a, Decidable (GivesWhenReady s a)
  | .isr => decidable_of_iff (s.isr = some .give → Ready s) (by simp [GivesWhenReady])
  | .irq | .cpu | .input _ | .alloc _ | .dma _ => .isTrue (by simp [GivesWhenReady])

/-- **The invariant of the handshake.** Between the give and `eth_task = NULL` the handle is
    still published and the notification is already there; at any other time the handle is
    published exactly to a task that is ready for it. -/
structure HandInv (s : IsrState P A) : Prop where
  handle : s.isr ≠ some .null → (s.ethTask = true ↔ Ready s)
  giving : s.isr = some .null → s.task.registered = true ∧ s.notif = 1
  unregistered : s.task.registered = false → s.notif = 0
  once : s.notif ≤ 1

theorem HandInv.init (rx : RxState P A) : HandInv (IsrState.init rx) where
  handle := fun _ => by simp [IsrState.init, Ready, InputStmt.registered]
  giving := fun h => absurd h (by simp [IsrState.init])
  unregistered := fun _ => rfl
  once := Nat.zero_le 1

/-- A statement of the interrupt. -/
theorem HandInv.ethIsr {s t : IsrState P A} {st : IsrStmt} (h : HandInv s)
    (hisr : s.isr = some st) (hstep : s.ethIsr false st = some t) : HandInv t := by
  cases st with
  | test =>
    cases hstep
    refine ⟨fun _ => h.handle (by simp [hisr]), fun hnull => ?_, h.unregistered, h.once⟩
    split at hnull <;> simp at hnull
  | give =>
    have hhandle := h.handle (by simp [hisr])
    cases hstep
    unfold IsrState.notifyGive
    split
    next hvalid =>
      obtain ⟨hreg, hnotif⟩ := hhandle.mp (by simpa using hvalid)
      refine ⟨fun hnull => absurd rfl hnull, fun _ => ⟨hreg, ?_⟩, fun hun => ?_, ?_⟩
      · show s.notif + 1 = 1
        rw [hnotif]
      · exact absurd (hreg.symm.trans hun) (by simp)
      · show s.notif + 1 ≤ 1
        rw [hnotif]
    next => exact ⟨h.handle, h.giving, h.unregistered, h.once⟩
  | null =>
    obtain ⟨hreg, hnotif⟩ := h.giving hisr
    cases hstep
    refine ⟨fun _ => ?_, fun hnull => absurd hnull (by simp), h.unregistered, h.once⟩
    simp [Ready, hnotif]
  | clear | nis =>
    cases hstep
    exact ⟨fun _ => h.handle (by simp [hisr]), fun hnull => absurd hnull (by simp),
      h.unregistered, h.once⟩
  | hang => simp [IsrState.ethIsr] at hstep

/-- A statement of the task; the interrupt is not running. -/
theorem HandInv.ethernetifInput {s t : IsrState P A} {b : RxAct P A} (h : HandInv s)
    (hisr : s.isr = none) (hstep : s.ethernetifInput s.task b = some t) : HandInv t := by
  have hhandle := h.handle (by simp [hisr])
  have hun := h.unregistered
  -- a statement after which the interrupt is still not running, and `eth_task` is as it was
  have hquiet : ∀ {t : IsrState P A}, t.isr = none → t.notif ≤ 1 →
      (t.task.registered = false → t.notif = 0) → (t.ethTask = true ↔ Ready t) → HandInv t :=
    fun hisr' honce hun' hh => ⟨fun _ => hh, fun hnull => absurd (hisr'.symm.trans hnull) (by
      simp), hun', honce⟩
  unfold IsrState.ethernetifInput at hstep
  split at hstep
  next htask =>
    cases hstep
    simp only [Ready, htask, InputStmt.registered] at hhandle hun
    exact hquiet hisr h.once (fun _ => hun trivial)
      (by simpa [Ready, InputStmt.registered] using hhandle)
  next htask =>
    cases hstep
    simp only [htask, InputStmt.registered] at hun
    exact hquiet hisr h.once (fun _ => hun trivial) (by simp [Ready, InputStmt.registered, hun])
  next htask =>
    split at hstep
    · simp at hstep
    next hnotif =>
      cases hstep
      have honce := h.once
      simp only [Ready, hnotif, and_false, iff_false] at hhandle
      exact hquiet hisr (by show s.notif - 1 ≤ 1; omega)
        (fun _ => by show s.notif - 1 = 0; omega)
        (by simpa [Ready, InputStmt.registered] using hhandle)
  next htask =>
    cases hstep
    simp only [Ready, htask, InputStmt.registered] at hhandle hun
    exact hquiet hisr h.once (fun _ => hun trivial)
      (by simpa [Ready, InputStmt.registered] using hhandle)
  next htask =>
    obtain ⟨rx, -, rfl⟩ := Option.map_eq_some_iff.mp hstep
    simp only [htask, InputStmt.registered] at hun
    exact hquiet hisr h.once (fun _ => hun trivial) (by simp [Ready, InputStmt.registered, hun])
  next htask =>
    obtain ⟨rx, -, rfl⟩ := Option.map_eq_some_iff.mp hstep
    have hreg : (if rx.call.isNone then InputStmt.take else .process).registered = true := by
      split <;> rfl
    refine hquiet hisr h.once (fun hno => absurd (hreg.symm.trans hno) (by simp)) ?_
    simp only [Ready, htask, InputStmt.registered, true_and] at hhandle
    simp only [Ready, hreg, true_and]
    exact hhandle
  next => simp at hstep

theorem handInv_step {s t : IsrState P A} {a : IsrAct P A} (h : HandInv s)
    (hstep : isrStep false s a = some t) : HandInv t := by
  rcases isrStep_cases hstep with ⟨-, hisr, -, rfl⟩ | ⟨-, st, hisr, hst⟩ | ⟨w, rx, -, -, rfl⟩ |
    ⟨b, -, hisr, hin⟩
  · exact ⟨fun _ => h.handle (by simp [hisr]), fun hnull => absurd hnull (by simp),
      h.unregistered, h.once⟩
  · exact h.ethIsr hisr hst
  · exact ⟨h.handle, h.giving, h.unregistered, h.once⟩
  · exact h.ethernetifInput hisr hin

/-- In a state with the invariant the two conditions on the next step are the same. -/
theorem HandInv.safe_iff {s : IsrState P A} (h : HandInv s) (a : IsrAct P A) :
    HandshakeSafe s a ↔ GivesWhenReady s a := by
  constructor
  · intro hs hisr ha
    exact (h.handle (by simp [hisr])).mp (hs.1 hisr ha)
  · refine fun hg => ⟨fun hisr ha => (h.handle (by simp [hisr])).mpr (hg hisr ha), ?_⟩
    intro htask hisr _
    have hhandle := h.handle (by simp [hisr])
    rw [Bool.eq_false_iff, ne_eq, hhandle]
    rintro ⟨hreg, -⟩
    rcases htask with htask | htask <;> simp [htask, InputStmt.registered] at hreg

/-- **The handshake is safe exactly when every notification is given to a ready task**: in
    any run, no NULL handle is given to the kernel and both of the task's checks hold if and
    only if each give finds the task registered and without a pending notification. -/
theorem handshake_safe_iff (rx : RxState P A) (as : List (IsrAct P A)) :
    OnRun (isrStep false) HandshakeSafe (IsrState.init rx) as ↔
      OnRun (isrStep false) GivesWhenReady (IsrState.init rx) as :=
  onRun_congr (HandInv.init rx) (fun _ _ _ hi hs => handInv_step hi hs)
    fun _ a hi => hi.safe_iff a

/-- One frame: the interrupt, and the task up to the call of `process_rx_descr`. -/
def oneFrame : List (IsrAct Nat Nat) :=
  [.cpu, .cpu, .dma 0x003c0300#32, .irq, .isr, .isr, .isr, .isr, .isr, .cpu, .cpu, .cpu]

theorem handshake_safe_oneFrame :
    ∃ (rx : RxState Nat Nat) (s : IsrState Nat Nat),
      RxState.init 10 1536 (fun i => some { addr := i, payload := i, tot_len := 0, len := 0 }) =
        some rx ∧
      exec (isrStep false) (IsrState.init rx) oneFrame = some s ∧ s.task = .process ∧
      OnRun (isrStep false) HandshakeSafe (IsrState.init rx) oneFrame := by
  refine exists_init_exec (fun s => s.task == .process) (by decide +kernel)
    fun rx s hinit hrun hs => ?_
  have hready : (RxState.init 10 1536 fun i => some
      ({ addr := i, payload := i, tot_len := 0, len := 0 } : Pbuf Nat Nat)).all (fun rx =>
        decide (OnRun (isrStep false) GivesWhenReady (IsrState.init rx) oneFrame)) = true := by
    decide +kernel
  rw [hinit, Option.all_some, decide_eq_true_eq] at hready
  exact ⟨beq_iff_eq.mp hs, (handshake_safe_iff rx _).mpr hready⟩

/-- Two frames, the second one before the task the first interrupt woke was scheduled. -/
theorem secondFrame_givesNull :
    ∃ rx : RxState Nat Nat,
      RxState.init 10 1536 (fun i => some { addr := i, payload := i, tot_len := 0, len := 0 }) =
        some rx ∧
      ¬ OnRun (isrStep false) HandshakeSafe (IsrState.init rx)
        [.cpu, .cpu, .dma 0x003c0300#32, .irq, .isr, .isr, .isr, .isr, .isr,
          .dma 0x003c0300#32, .irq, .isr, .isr] := by
  obtain ⟨rx, s, hinit, hrun, hgive, hnull⟩ :
      ∃ (rx : RxState Nat Nat) (s : IsrState Nat Nat),
        RxState.init 10 1536
          (fun i => some { addr := i, payload := i, tot_len := 0, len := 0 }) = some rx ∧
        exec (isrStep false) (IsrState.init rx) [.cpu, .cpu, .dma 0x003c0300#32, .irq, .isr,
          .isr, .isr, .isr, .isr, .dma 0x003c0300#32, .irq, .isr] = some s ∧
        s.isr = some .give ∧ s.ethTask = false := by
    refine exists_init_exec (fun s => s.isr == some .give && !s.ethTask) (by decide +kernel)
      fun _ s _ _ hs => ?_
    simpa using hs
  refine ⟨rx, hinit, fun hsafe => ?_⟩
  have hvalid := ((onRun_snoc hrun).mp hsafe).2.1 hgive rfl
  exact absurd (hvalid.symm.trans hnull) (by simp)

end EthernetIf

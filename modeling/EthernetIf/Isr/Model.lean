import EthernetIf.Rx.Recovery

/-!
# The interrupt and the input task

`eth_isr` and `ethernetif_input` around the receive machine. The DMA raises `ETH_DMASR.RS`
with every completion; the interrupt is taken while the flag is up, preempts the task, and
runs to its end before the task moves again; the DMA moves at any time.

The two halves share `eth_task` and the notification value of the task. `configASSERT` is
empty in this configuration, so a check is a statement without an effect, and a NULL handle goes
to the kernel, which is no part of the repository. `isrStep` knows two ways of going on from
there. Without `trust` it is `fault`, and nothing is assumed to go on. With it the kernel is
taken to find the task whatever handle it is given, which is what a question about the counting
alone assumes. A kernel that does something else — that ignores a NULL handle, say — is covered
by neither value; for it there is `isrStepNull`, which takes what the kernel does as a parameter,
and whose runs are those of `isrStep` as long as each give is valid (`isrStepNull_eq`).
-/

namespace EthernetIf

open Lts Ring

/-- The statements of `eth_isr`. -/
inductive IsrStmt
  | test   -- if ((ETH_DMASR & ETH_DMASR_RS) == ETH_DMASR_RS)
  | give   --   configASSERT(eth_task != NULL); vTaskNotifyGiveFromISR(eth_task, …);
  | null   --   eth_task = NULL;
  | clear  --   ETH_DMASR = ETH_DMASR_RS;
  | hang   -- else gdb_break();
  | nis    -- ETH_DMASR = ETH_DMAIER_NISE;
deriving DecidableEq, Repr

/-- The statements of `ethernetif_input`. -/
inductive InputStmt
  | checkFirst     -- configASSERT(eth_task == NULL);
  | registerFirst  -- eth_task = xTaskGetCurrentTaskHandle();
  | take           -- ulTaskNotifyTake(pdFALSE, portMAX_DELAY);
  | check          -- configASSERT(eth_task == NULL);
  | register       -- eth_task = xTaskGetCurrentTaskHandle();
  | process        -- process_rx_descr(netif)
deriving DecidableEq, Repr

structure IsrState (P A : Type) where
  rx : RxState P A          -- the ring, the DMA and the running process_rx_descr
  rs : Bool                 -- ETH_DMASR.RS
  isr : Option IsrStmt      -- the running eth_isr
  task : InputStmt          -- where ETH_input is
  ethTask : Bool            -- eth_task != NULL
  notif : Nat               -- the notification value of ETH_input
  fault : Bool              -- a NULL handle was given to the kernel

section Machine

variable {P A : Type}

/-- After `eth_start`, before the task first runs. -/
def IsrState.init (rx : RxState P A) : IsrState P A :=
  { rx := rx, rs := false, isr := none, task := .checkFirst, ethTask := false, notif := 0,
    fault := false }

/-- `vTaskNotifyGiveFromISR(eth_task, &task_yield)` -/
def IsrState.notifyGive (s : IsrState P A) (trust : Bool) : IsrState P A :=
  if s.ethTask || trust then { s with notif := s.notif + 1, isr := some .null }
  else { s with fault := true }

/-- `eth_isr` at one of its statements. -/
def IsrState.ethIsr (s : IsrState P A) (trust : Bool) : IsrStmt → Option (IsrState P A)
  | .test => some { s with isr := some (if s.rs then .give else .hang) }
  | .give => some (s.notifyGive trust)
  | .null => some { s with ethTask := false, isr := some .clear }
  | .clear => some { s with rs := false, isr := some .nis }
  | .hang => none
  | .nis => some { s with isr := none }

/-- `ethernetif_input` at one of its statements. Inside the call of `process_rx_descr` the
    label is that of the statement there. -/
def IsrState.ethernetifInput (s : IsrState P A) :
    InputStmt → RxAct P A → Option (IsrState P A)
  | .checkFirst, .cpu => some { s with task := .registerFirst }
  | .registerFirst, .cpu => some { s with ethTask := true, task := .take }
  | .take, .cpu =>
      if s.notif = 0 then none else some { s with notif := s.notif - 1, task := .check }
  | .check, .cpu => some { s with task := .register }
  | .register, .cpu =>
      (rxStep s.rx .call).map fun rx => { s with ethTask := true, rx := rx, task := .process }
  | .process, a =>
      (rxStep s.rx a).map fun rx =>
        { s with rx := rx, task := if rx.call.isNone then .take else .process }
  | _, _ => none

inductive IsrAct (P A : Type)
  | irq                                -- the interrupt is taken
  | isr                                -- eth_isr takes its next statement
  | cpu                                -- ETH_input takes its next statement
  | input (accept : Bool)              -- … its netif->input returns
  | alloc (fresh : Option (Pbuf P A))  -- … its pbuf_alloc returns
  | dma (w : BitVec 32)                -- the DMA takes a step

/-- The statement of `process_rx_descr` a label of the task stands for. -/
def IsrAct.rxAct : IsrAct P A → Option (RxAct P A)
  | .cpu => some .cpu
  | .input accept => some (.input accept)
  | .alloc fresh => some (.alloc fresh)
  | .irq | .isr | .dma _ => none

/-- The DMA is about to complete a frame: it raises RS. -/
def IsrState.completes (s : IsrState P A) : Bool :=
  !s.rx.suspended && (s.rx.ring s.rx.pos).own

def isrStep (trust : Bool) (s : IsrState P A) (a : IsrAct P A) : Option (IsrState P A) :=
  match s.fault, a with
  | true, _ => none
  | false, .irq => if s.isr.isNone && s.rs then some { s with isr := some .test } else none
  | false, .isr => s.isr.bind (s.ethIsr trust)
  | false, .dma w => (s.rx.dma w).map fun rx => { s with rx := rx, rs := s.rs || s.completes }
  | false, a =>
      -- the task runs only while the interrupt does not
      match s.isr, a.rxAct with
      | none, some a => s.ethernetifInput s.task a
      | _, _ => none

/-- Where `eth_isr` gives a notification, the handle is valid. -/
def ValidGive (s : IsrState P A) : IsrAct P A → Prop
  | .isr => s.isr = some .give → s.ethTask = true
  | .irq | .cpu | .input _ | .alloc _ | .dma _ => True

instance (s : IsrState P A) (a : IsrAct P A) : Decidable (ValidGive s a) :=
  match a with
  | .isr => inferInstanceAs (Decidable (_ → _))
  | .irq | .cpu | .input _ | .alloc _ | .dma _ => .isTrue trivial

/-- The machine on a kernel that does `null` when it is given a NULL handle. -/
def isrStepNull (null : IsrState P A → Option (IsrState P A)) (s : IsrState P A)
    (a : IsrAct P A) : Option (IsrState P A) :=
  if ValidGive s a then isrStep false s a else null s

theorem isrStepNull_eq (null : IsrState P A → Option (IsrState P A)) (s : IsrState P A)
    (a : IsrAct P A) (h : ValidGive s a) : isrStepNull null s a = isrStep false s a := if_pos h

/-- What a step can be: the interrupt is taken, one of its statements, a step of the DMA, or a
    statement of the task. -/
theorem isrStep_cases {trust : Bool} {s t : IsrState P A} {a : IsrAct P A}
    (h : isrStep trust s a = some t) :
    (a = .irq ∧ s.isr = none ∧ s.rs = true ∧ t = { s with isr := some .test }) ∨
    (a = .isr ∧ ∃ st, s.isr = some st ∧ s.ethIsr trust st = some t) ∨
    (∃ w rx, a = .dma w ∧ s.rx.dma w = some rx ∧
      t = { s with rx := rx, rs := s.rs || s.completes }) ∨
    (∃ b, a.rxAct = some b ∧ s.isr = none ∧ s.ethernetifInput s.task b = some t) := by
  unfold isrStep at h
  split at h
  next => simp at h
  next =>
    split at h
    next hirq =>
      rw [Bool.and_eq_true, Option.isNone_iff_eq_none] at hirq
      exact .inl ⟨rfl, hirq.1, hirq.2, (Option.some.inj h).symm⟩
    next => simp at h
  next =>
    obtain ⟨st, hst, hstep⟩ := Option.bind_eq_some_iff.mp h
    exact .inr (.inl ⟨rfl, st, hst, hstep⟩)
  next w _ =>
    obtain ⟨rx, hrx, rfl⟩ := Option.map_eq_some_iff.mp h
    exact .inr (.inr (.inl ⟨w, rx, rfl, hrx, rfl⟩))
  next =>
    split at h
    next b hisr hact => exact .inr (.inr (.inr ⟨b, hact, hisr, h⟩))
    next => simp at h

/-- The interrupt leaves the ring, and the task, where they are. -/
theorem ethIsr_frame {trust : Bool} {s t : IsrState P A} {st : IsrStmt}
    (h : s.ethIsr trust st = some t) : t.rx = s.rx ∧ t.task = s.task := by
  cases st with
  | hang => simp [IsrState.ethIsr] at h
  | give =>
    cases h
    unfold IsrState.notifyGive
    split <;> exact ⟨rfl, rfl⟩
  | test | null | clear | nis =>
    cases h
    exact ⟨rfl, rfl⟩

/-- **The ring under the interrupt and the task is the receive machine**: what a run does to
    it, the machine alone can do. -/
theorem IsrState.rx_reachable {trust : Bool} {s₀ s : IsrState P A}
    (h : Reachable (isrStep trust) s₀ s) : Reachable rxStep s₀.rx s.rx := by
  apply h.project
  intro s a t hstep
  rcases isrStep_cases hstep with ⟨-, -, -, rfl⟩ | ⟨-, st, -, hst⟩ | ⟨w, rx, -, hrx, rfl⟩ |
    ⟨b, -, -, htask⟩
  · exact .inl rfl
  · exact .inl (ethIsr_frame hst).1
  · exact .inr ⟨.dma w, hrx⟩
  · unfold IsrState.ethernetifInput at htask
    split at htask
    · cases htask
      exact .inl rfl
    · cases htask
      exact .inl rfl
    · obtain ⟨-, htask⟩ := Option.ite_none_left_eq_some.mp htask
      cases htask
      exact .inl rfl
    · cases htask
      exact .inl rfl
    · obtain ⟨rx, hrx, rfl⟩ := Option.map_eq_some_iff.mp htask
      exact .inr ⟨_, hrx⟩
    · obtain ⟨rx, hrx, rfl⟩ := Option.map_eq_some_iff.mp htask
      exact .inr ⟨_, hrx⟩
    · simp at htask

end Machine

end EthernetIf

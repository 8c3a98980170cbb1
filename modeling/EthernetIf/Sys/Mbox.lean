import EthernetIf.Lib.Fifo
import EthernetIf.Lib.Lts
import Mathlib.Data.BitVec

/-!
# Mailboxes

A mailbox of lwIP is a queue of FreeRTOS, and the `sys_mbox` functions turn what the queue
answers into what lwIP expects: an `err_t` for a message that is posted, and a time waited for
one that is fetched. A message is a pointer; `NULL` is `none`.

The queue itself is not part of the repository. It is a parameter here (`QueueApi`), and what is
used of its documentation is named (`QueueLaws`): first in, first out, never more items than it
was created for, no sender told of a place that was not there. A bounded list is such a queue
(`fifoQueue_laws`).

Whoever calls — any number of tasks, or an interrupt — a call of the queue takes effect in one
step. `posted` and `taken` are history: the messages whose senders were told that they are
posted, in the order in which the calls took effect, and those that were handed out.
-/

namespace EthernetIf

open Lts

/-! ## Queues of FreeRTOS -/

def portMAX_DELAY : BitVec 32 := 0xffffffff#32

/-- `configTICK_RATE_HZ` is 1000. -/
def portTICK_RATE_MS : BitVec 32 := 1000#32 / 1000#32

/-- The calls of the queue that `sys_arch.c` makes, on the queue that a handle stands for. `ε` is
    whatever else decides what a call does: who is waiting, and whether the ticks run out. A call
    that waits may not return (`none`); the flag is `pdTRUE`. -/
structure QueueApi (Q α ε : Type) where
  xQueueCreate : Nat → ε → Option Q
  xQueueSendToBack : Q → α → BitVec 32 → ε → Option (Bool × Q)
  xQueueSendToBackFromISR : Q → α → ε → Bool × Bool × Q   -- and pxHigherPriorityTaskWoken
  xQueueReceive : Q → BitVec 32 → ε → Option (Option α × Q)

/-- What FreeRTOS documents of a queue created for `n` items, `items` being those in it. -/
structure QueueLaws {Q α ε : Type} (k : QueueApi Q α ε) (items : Q → List α) (n : Nat) :
    Prop where
  created : ∀ {e q}, k.xQueueCreate n e = some q → items q = []
  sent : ∀ {q a ticks e q'}, k.xQueueSendToBack q a ticks e = some (true, q') →
    (items q).length < n ∧ items q' = items q ++ [a]
  notSent : ∀ {q a ticks e q'}, k.xQueueSendToBack q a ticks e = some (false, q') →
    ticks ≠ portMAX_DELAY ∧ n ≤ (items q).length ∧ items q' = items q
  sentFromISR : ∀ {q a e woken q'}, k.xQueueSendToBackFromISR q a e = (true, woken, q') →
    (items q).length < n ∧ items q' = items q ++ [a]
  notSentFromISR : ∀ {q a e woken q'}, k.xQueueSendToBackFromISR q a e = (false, woken, q') →
    n ≤ (items q).length ∧ items q' = items q
  received : ∀ {q ticks e a q'}, k.xQueueReceive q ticks e = some (some a, q') →
    items q = a :: items q'
  notReceived : ∀ {q ticks e q'}, k.xQueueReceive q ticks e = some (none, q') →
    ticks ≠ portMAX_DELAY ∧ items q = [] ∧ items q' = items q

section Fifo

/-- A call that waits for `ticks` may give up: the ticks are over, and they are a time at all. -/
def GivesUp (ticks : BitVec 32) (expired : Bool) : Prop :=
  ticks = 0#32 ∨ (ticks ≠ portMAX_DELAY ∧ expired = true)

instance (ticks : BitVec 32) (expired : Bool) : Decidable (GivesUp ticks expired) :=
  inferInstanceAs (Decidable (_ ∨ _))

theorem GivesUp.ne {ticks : BitVec 32} {expired : Bool} (h : GivesUp ticks expired) :
    ticks ≠ portMAX_DELAY := by
  rcases h with rfl | ⟨hne, -⟩
  · decide
  · exact hne

variable {α : Type} {n : Nat}

/-- A bounded list as a queue. The flag is whether the ticks run out, or a task is woken. -/
def fifoQueue (α : Type) (n : Nat) : QueueApi (Fifo α n) α Bool where
  xQueueCreate size _ := if size = n then some .empty else none
  xQueueSendToBack q item ticks expired :=
    match q.send item with
    | some q' => some (true, q')
    | none => if GivesUp ticks expired then some (false, q) else none
  xQueueSendToBackFromISR q item woken :=
    match q.send item with
    | some q' => (true, woken, q')
    | none => (false, false, q)
  xQueueReceive q ticks expired :=
    match q.receive with
    | some (item, q') => some (some item, q')
    | none => if GivesUp ticks expired then some (none, q) else none

theorem fifoQueue_laws : QueueLaws (fifoQueue α n) Fifo.items n where
  created := fun {e q} h => by
    obtain ⟨-, heq⟩ := Option.ite_none_right_eq_some.mp h
    cases heq
    rfl
  sent := fun {q a ticks e q'} h => by
    simp only [fifoQueue] at h
    split at h
    next r hsend =>
      cases h
      exact ⟨Fifo.lt_of_send hsend, Fifo.send_eq_some.mp hsend⟩
    next => simp at h
  notSent := fun {q a ticks e q'} h => by
    simp only [fifoQueue] at h
    split at h
    next => simp at h
    next hsend =>
      obtain ⟨hgive, heq⟩ := Option.ite_none_right_eq_some.mp h
      cases heq
      exact ⟨hgive.ne, Nat.le_of_eq (Fifo.send_eq_none.mp hsend).symm, rfl⟩
  sentFromISR := fun {q a e woken q'} h => by
    simp only [fifoQueue] at h
    split at h
    next r hsend =>
      cases h
      exact ⟨Fifo.lt_of_send hsend, Fifo.send_eq_some.mp hsend⟩
    next => cases h
  notSentFromISR := fun {q a e woken q'} h => by
    simp only [fifoQueue] at h
    split at h
    next => cases h
    next hsend =>
      cases h
      exact ⟨Nat.le_of_eq (Fifo.send_eq_none.mp hsend).symm, rfl⟩
  received := fun {q ticks e a q'} h => by
    simp only [fifoQueue] at h
    split at h
    next item r hreceive =>
      cases h
      exact Fifo.receive_eq_some.mp hreceive
    next => simp at h
  notReceived := fun {q ticks e q'} h => by
    simp only [fifoQueue] at h
    split at h
    next => cases h
    next hreceive =>
      obtain ⟨hgive, heq⟩ := Option.ite_none_right_eq_some.mp h
      cases heq
      exact ⟨hgive.ne, Fifo.receive_eq_none.mp hreceive, rfl⟩

end Fifo

/-! ## The functions -/

/-- What the functions that post return. -/
inductive MboxErr
  | ERR_OK
  | ERR_MEM
  | ERR_NEED_SCHED   -- posted, and a task of higher priority waits for it
deriving DecidableEq, Repr

def SYS_ARCH_TIMEOUT : BitVec 32 := 0xffffffff#32
def SYS_MBOX_EMPTY : BitVec 32 := SYS_ARCH_TIMEOUT

/-- What a fetch returns, and what it leaves in `*msg`. -/
structure Fetched (M : Type) where
  ret : BitVec 32
  msg : Option M
deriving DecidableEq, Repr

structure Mbox (Q M : Type) where
  queue : Q
  posted : List (Option M)
  taken : List (Option M)

namespace Mbox

variable {Q M ε : Type}

/-- The message is in the queue. -/
def enqueued (s : Mbox Q M) (q : Q) (msg : Option M) : Mbox Q M :=
  { s with queue := q, posted := s.posted ++ [msg] }

/-- It is out of it. -/
def dequeued (s : Mbox Q M) (msg : Option M) (q : Q) : Mbox Q M :=
  { s with queue := q, taken := s.taken ++ [msg] }

/-- The queue was called, and nothing came of it. -/
def unchanged (s : Mbox Q M) (q : Q) : Mbox Q M := { s with queue := q }

variable (k : QueueApi Q (Option M) ε)

/-- `sys_mbox_new`; without heap for the queue there is no mailbox (`ERR_MEM`). -/
def sysMboxNew (size : Nat) (e : ε) : Option (Mbox Q M) :=
  (k.xQueueCreate size e).map fun q => { queue := q, posted := [], taken := [] }

def sysMboxPost (s : Mbox Q M) (msg : Option M) (e : ε) : Option (Mbox Q M) :=
  (k.xQueueSendToBack s.queue msg portMAX_DELAY e).map fun
    | (true, q) => s.enqueued q msg
    | (false, q) => s.unchanged q   -- the assertion prints

def sysMboxTrypost (s : Mbox Q M) (msg : Option M) (e : ε) : Option (MboxErr × Mbox Q M) :=
  (k.xQueueSendToBack s.queue msg 0#32 e).map fun
    | (true, q) => (.ERR_OK, s.enqueued q msg)
    | (false, q) => (.ERR_MEM, s.unchanged q)

def sysMboxTrypostFromisr (s : Mbox Q M) (msg : Option M) (e : ε) : MboxErr × Mbox Q M :=
  match k.xQueueSendToBackFromISR s.queue msg e with
  | (true, woken, q) => (if woken then .ERR_NEED_SCHED else .ERR_OK, s.enqueued q msg)
  | (false, _, q) => (.ERR_MEM, s.unchanged q)

def sysArchMboxFetch (s : Mbox Q M) (timeout_ms : BitVec 32) (e : ε) :
    Option (Fetched M × Mbox Q M) :=
  if timeout_ms = 0#32 then
    (k.xQueueReceive s.queue portMAX_DELAY e).map fun
      | (some msg, q) => ({ ret := 1#32, msg := msg }, s.dequeued msg q)
      | (none, q) => ({ ret := 1#32, msg := none }, s.unchanged q)   -- the assertion prints
  else
    (k.xQueueReceive s.queue (timeout_ms / portTICK_RATE_MS) e).map fun
      | (some msg, q) => ({ ret := 1#32, msg := msg }, s.dequeued msg q)
      | (none, q) => ({ ret := SYS_ARCH_TIMEOUT, msg := none }, s.unchanged q)

def sysArchMboxTryfetch (s : Mbox Q M) (e : ε) : Option (Fetched M × Mbox Q M) :=
  (k.xQueueReceive s.queue 0#32 e).map fun
    | (some msg, q) => ({ ret := 0#32, msg := msg }, s.dequeued msg q)
    | (none, q) => ({ ret := SYS_MBOX_EMPTY, msg := none }, s.unchanged q)

end Mbox

/-- What any number of callers do. -/
inductive MboxAct (M ε : Type)
  | post (msg : Option M) (e : ε)
  | trypost (msg : Option M) (e : ε)
  | trypostFromisr (msg : Option M) (e : ε)
  | fetch (timeout_ms : BitVec 32) (e : ε)
  | tryfetch (e : ε)
deriving DecidableEq, Repr

/-- The message that a call is to post. -/
def MboxAct.message {M ε : Type} : MboxAct M ε → Option (Option M)
  | .post msg _ | .trypost msg _ | .trypostFromisr msg _ => some msg
  | .fetch _ _ | .tryfetch _ => none

/-- A call takes effect. -/
def Mbox.call {Q M ε : Type} (k : QueueApi Q (Option M) ε) (s : Mbox Q M) :
    MboxAct M ε → Option (Mbox Q M)
  | .post msg e => s.sysMboxPost k msg e
  | .trypost msg e => (s.sysMboxTrypost k msg e).map Prod.snd
  | .trypostFromisr msg e => some (s.sysMboxTrypostFromisr k msg e).2
  | .fetch timeout_ms e => (s.sysArchMboxFetch k timeout_ms e).map Prod.snd
  | .tryfetch e => (s.sysArchMboxTryfetch k e).map Prod.snd

/-! ## What a call does -/

namespace Mbox

section Rules

variable {Q M ε : Type} {k : QueueApi Q (Option M) ε} (items : Q → List (Option M)) {n : Nat}

/-- A message was put in, where there was room. -/
def Posts (n : Nat) (s t : Mbox Q M) (msg : Option M) : Prop :=
  (items s.queue).length < n ∧ items t.queue = items s.queue ++ [msg] ∧
    t.posted = s.posted ++ [msg] ∧ t.taken = s.taken

/-- One was taken out. -/
def Takes (s t : Mbox Q M) (msg : Option M) : Prop :=
  items s.queue = msg :: items t.queue ∧ t.posted = s.posted ∧ t.taken = s.taken ++ [msg]

/-- Nothing was. -/
def Keeps (s t : Mbox Q M) : Prop :=
  items t.queue = items s.queue ∧ t.posted = s.posted ∧ t.taken = s.taken

variable {items} (hk : QueueLaws k items n)
include hk

theorem sysMboxPost_posts {s t : Mbox Q M} {msg : Option M} {e : ε}
    (h : s.sysMboxPost k msg e = some t) : s.Posts items n t msg := by
  obtain ⟨⟨ret, q⟩, hsend, rfl⟩ := Option.map_eq_some_iff.mp h
  cases ret with
  | true =>
    obtain ⟨hroom, hitems⟩ := hk.sent hsend
    exact ⟨hroom, hitems, rfl, rfl⟩
  | false => exact absurd rfl (hk.notSent hsend).1

/-- The code says whether the message is in, and it is not only where there is no room. -/
theorem sysMboxTrypost_cases {s t : Mbox Q M} {msg : Option M} {e : ε} {err : MboxErr}
    (h : s.sysMboxTrypost k msg e = some (err, t)) :
    (err = .ERR_OK ∧ s.Posts items n t msg) ∨
      (err = .ERR_MEM ∧ n ≤ (items s.queue).length ∧ s.Keeps items t) := by
  obtain ⟨⟨ret, q⟩, hsend, heq⟩ := Option.map_eq_some_iff.mp h
  cases ret with
  | true =>
    cases heq
    obtain ⟨hroom, hitems⟩ := hk.sent hsend
    exact .inl ⟨rfl, hroom, hitems, rfl, rfl⟩
  | false =>
    cases heq
    obtain ⟨-, hfull, hitems⟩ := hk.notSent hsend
    exact .inr ⟨rfl, hfull, hitems, rfl, rfl⟩

theorem sysMboxTrypostFromisr_cases {s t : Mbox Q M} {msg : Option M} {e : ε} {err : MboxErr}
    (h : s.sysMboxTrypostFromisr k msg e = (err, t)) :
    (err ≠ .ERR_MEM ∧ s.Posts items n t msg) ∨
      (err = .ERR_MEM ∧ n ≤ (items s.queue).length ∧ s.Keeps items t) := by
  unfold sysMboxTrypostFromisr at h
  split at h
  next woken q hsend =>
    cases h
    obtain ⟨hroom, hitems⟩ := hk.sentFromISR hsend
    exact .inl ⟨by cases woken <;> simp, hroom, hitems, rfl, rfl⟩
  next woken q hsend =>
    cases h
    obtain ⟨hfull, hitems⟩ := hk.notSentFromISR hsend
    exact .inr ⟨rfl, hfull, hitems, rfl, rfl⟩

/-- A fetch that does not time out takes the oldest message. -/
theorem sysArchMboxFetch_cases {s t : Mbox Q M} {timeout_ms : BitVec 32} {e : ε}
    {r : Fetched M} (h : s.sysArchMboxFetch k timeout_ms e = some (r, t)) :
    (r.ret = 1#32 ∧ s.Takes items t r.msg) ∨
      (r = { ret := SYS_ARCH_TIMEOUT, msg := none } ∧ items s.queue = [] ∧ s.Keeps items t) := by
  unfold sysArchMboxFetch at h
  split at h
  · obtain ⟨⟨item, q⟩, hreceive, heq⟩ := Option.map_eq_some_iff.mp h
    cases item with
    | some msg =>
      cases heq
      exact .inl ⟨rfl, hk.received hreceive, rfl, rfl⟩
    | none => exact absurd rfl (hk.notReceived hreceive).1
  · obtain ⟨⟨item, q⟩, hreceive, heq⟩ := Option.map_eq_some_iff.mp h
    cases item with
    | some msg =>
      cases heq
      exact .inl ⟨rfl, hk.received hreceive, rfl, rfl⟩
    | none =>
      cases heq
      obtain ⟨-, hempty, hitems⟩ := hk.notReceived hreceive
      exact .inr ⟨rfl, hempty, hitems, rfl, rfl⟩

theorem sysArchMboxTryfetch_cases {s t : Mbox Q M} {e : ε} {r : Fetched M}
    (h : s.sysArchMboxTryfetch k e = some (r, t)) :
    (r.ret = 0#32 ∧ s.Takes items t r.msg) ∨
      (r = { ret := SYS_MBOX_EMPTY, msg := none } ∧ items s.queue = [] ∧ s.Keeps items t) := by
  obtain ⟨⟨item, q⟩, hreceive, heq⟩ := Option.map_eq_some_iff.mp h
  cases item with
  | some msg =>
    cases heq
    exact .inl ⟨rfl, hk.received hreceive, rfl, rfl⟩
  | none =>
    cases heq
    obtain ⟨-, hempty, hitems⟩ := hk.notReceived hreceive
    exact .inr ⟨rfl, hempty, hitems, rfl, rfl⟩

theorem call_cases {s t : Mbox Q M} {a : MboxAct M ε} (h : s.call k a = some t) :
    (∃ msg, a.message = some msg ∧ s.Posts items n t msg) ∨
      (∃ msg, s.Takes items t msg) ∨ s.Keeps items t := by
  cases a with
  | post msg e => exact .inl ⟨msg, rfl, sysMboxPost_posts hk h⟩
  | trypost msg e =>
    obtain ⟨⟨err, u⟩, hcall, rfl⟩ := Option.map_eq_some_iff.mp h
    obtain ⟨-, hposts⟩ | ⟨-, -, hkeeps⟩ := sysMboxTrypost_cases hk hcall
    · exact .inl ⟨msg, rfl, hposts⟩
    · exact .inr (.inr hkeeps)
  | trypostFromisr msg e =>
    cases h
    obtain ⟨-, hposts⟩ | ⟨-, -, hkeeps⟩ := sysMboxTrypostFromisr_cases (s := s) hk rfl
    · exact .inl ⟨msg, rfl, hposts⟩
    · exact .inr (.inr hkeeps)
  | fetch timeout_ms e =>
    obtain ⟨⟨r, u⟩, hcall, rfl⟩ := Option.map_eq_some_iff.mp h
    obtain ⟨-, htakes⟩ | ⟨-, -, hkeeps⟩ := sysArchMboxFetch_cases hk hcall
    · exact .inr (.inl ⟨r.msg, htakes⟩)
    · exact .inr (.inr hkeeps)
  | tryfetch e =>
    obtain ⟨⟨r, u⟩, hcall, rfl⟩ := Option.map_eq_some_iff.mp h
    obtain ⟨-, htakes⟩ | ⟨-, -, hkeeps⟩ := sysArchMboxTryfetch_cases hk hcall
    · exact .inr (.inl ⟨r.msg, htakes⟩)
    · exact .inr (.inr hkeeps)

end Rules

/-! ## The invariant -/

section Order

variable {Q M ε : Type} {k : QueueApi Q (Option M) ε} {items : Q → List (Option M)} {n : Nat}

/-- **First in, first out**: what was posted was taken, in this order, or is still there, and no
    more of it than the queue was created for. -/
structure InOrder (items : Q → List (Option M)) (n : Nat) (s : Mbox Q M) : Prop where
  order : s.posted = s.taken ++ items s.queue
  room : (items s.queue).length ≤ n

theorem InOrder.sysMboxNew (hk : QueueLaws k items n) {e : ε} {s : Mbox Q M}
    (h : Mbox.sysMboxNew k n e = some s) : s.InOrder items n := by
  obtain ⟨q, hq, rfl⟩ := Option.map_eq_some_iff.mp h
  have hnil : items q = [] := hk.created hq
  exact ⟨hnil.symm, by simp [hnil]⟩

theorem InOrder.posts {s t : Mbox Q M} {msg : Option M} (h : s.InOrder items n)
    (hp : s.Posts items n t msg) : t.InOrder items n := by
  obtain ⟨hroom, hitems, hposted, htaken⟩ := hp
  refine ⟨?_, ?_⟩
  · rw [hitems, hposted, htaken, h.order, List.append_assoc]
  · rw [hitems, List.length_append]
    exact hroom

theorem InOrder.takes {s t : Mbox Q M} {msg : Option M} (h : s.InOrder items n)
    (ht : s.Takes items t msg) : t.InOrder items n := by
  obtain ⟨hitems, hposted, htaken⟩ := ht
  refine ⟨?_, ?_⟩
  · rw [hposted, htaken, h.order, hitems, List.append_assoc]
    rfl
  · have hroom := h.room
    rw [hitems] at hroom
    exact Nat.le_of_succ_le hroom

theorem InOrder.keeps {s t : Mbox Q M} (h : s.InOrder items n) (ht : s.Keeps items t) :
    t.InOrder items n := by
  obtain ⟨hitems, hposted, htaken⟩ := ht
  refine ⟨?_, ?_⟩
  · rw [hposted, htaken, hitems]
    exact h.order
  · rw [hitems]
    exact h.room

theorem InOrder.call (hk : QueueLaws k items n) {s t : Mbox Q M} {a : MboxAct M ε}
    (h : s.InOrder items n) (hcall : s.call k a = some t) : t.InOrder items n := by
  obtain ⟨msg, -, hp⟩ | ⟨msg, ht⟩ | hkeeps := call_cases hk hcall
  · exact h.posts hp
  · exact h.takes ht
  · exact h.keeps hkeeps

end Order

end Mbox

end EthernetIf

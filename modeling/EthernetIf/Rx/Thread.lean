import EthernetIf.Rx.Order
import EthernetIf.Sys.Mbox
import Mathlib.Data.List.Perm.Basic

/-!
# From the DMA to lwIP's thread

`netif->input` is `tcpip_input`: it puts the pbuf into a message and the message into the
mailbox that lwIP's own thread fetches from, and refuses the pbuf where it cannot. So a received
frame passes two queues of bounded length, the ring and the mailbox, and `process_rx_descr` frees
it where the second one will not take it. Other tasks and interrupts use the same mailbox for
messages of their own, at any moment.

> the thread gets frames in the order in which the DMA completed them, none twice; each pbuf
> offered is in the mailbox or past it, or it is freed, and not both; and of the completed frames
> no more are under way than the mailbox and the ring have places.

Neither `tcpip_input` nor the queue of FreeRTOS is part of the repository. Both are parameters,
with what is relied on as a structure of its own: `TcpipInputLaws`, and `QueueLaws` of
`Sys/Mbox`.
-/

namespace EthernetIf

open Lts

/-! ## The machine -/

/-- The messages to lwIP's thread: a received packet, or another. -/
inductive TcpipMsg (P A M : Type)
  | packet (p : Pbuf P A)
  | other (m : M)
deriving DecidableEq, Repr

variable {P A M Q ε χ : Type}

/-- The packets among some messages. -/
def packets (l : List (Option (TcpipMsg P A M))) : List (Pbuf P A) :=
  l.filterMap fun
    | some (.packet p) => some p
    | some (.other _) | none => none

/-- The ring, the mailbox, and — no code reads it — the pbufs that `netif->input` refused. -/
structure ThreadState (P A M Q : Type) where
  rx : RxState P A
  mbox : Mbox Q (TcpipMsg P A M)
  refused : List (Pbuf P A)

/-- Somebody else uses the mailbox, and not for packets. -/
def MboxAct.other : MboxAct M ε → MboxAct (TcpipMsg P A M) ε
  | .post msg e => .post (msg.map .other) e
  | .trypost msg e => .trypost (msg.map .other) e
  | .trypostFromisr msg e => .trypostFromisr (msg.map .other) e
  | .fetch timeout_ms e => .fetch timeout_ms e
  | .tryfetch e => .tryfetch e

inductive ThreadAct (P A M ε χ : Type)
  | rx (a : RxAct P A)      -- anything in `process_rx_descr` or the DMA, but for the next:
  | input (x : χ)           -- netif->input(desc->pbuf, netif) != ERR_OK
  | mbox (a : MboxAct M ε)  -- lwIP's thread fetches, or another message is posted

section Machine

/-- `tcpip_input`, called with a pbuf. `χ` is whatever else decides what it does, such as whether
    lwIP has a message left. -/
abbrev TcpipInput (P A M Q χ : Type) :=
  Mbox Q (TcpipMsg P A M) → Pbuf P A → χ → Option (MboxErr × Mbox Q (TcpipMsg P A M))

/-- What lwIP documents of it: it returns `ERR_OK` where it has posted the packet with
    `sys_mbox_trypost`, and any other code where it has not. -/
structure TcpipInputLaws (k : QueueApi Q (Option (TcpipMsg P A M)) ε)
    (tcpip_input : TcpipInput P A M Q χ) : Prop where
  accepts : ∀ {mbox p x mbox'}, tcpip_input mbox p x = some (.ERR_OK, mbox') →
    ∃ e, mbox.sysMboxTrypost k (some (.packet p)) e = some (.ERR_OK, mbox')
  refuses : ∀ {mbox p x err mbox'}, tcpip_input mbox p x = some (err, mbox') → err ≠ .ERR_OK →
    mbox' = mbox ∨ ∃ e, mbox.sysMboxTrypost k (some (.packet p)) e = some (.ERR_MEM, mbox')

variable (k : QueueApi Q (Option (TcpipMsg P A M)) ε) (tcpip_input : TcpipInput P A M Q χ)

def threadStep (s : ThreadState P A M Q) : ThreadAct P A M ε χ → Option (ThreadState P A M Q)
  | .rx (.input _) => none
  | .rx a => (rxStep s.rx a).map fun rx => { s with rx := rx }
  | .input x =>
      s.rx.desc.pbuf.bind fun p => (tcpip_input s.mbox p x).bind fun r =>
        (rxStep s.rx (.input (r.1 = .ERR_OK))).map fun rx =>
          { rx := rx, mbox := r.2,
            refused := if r.1 = .ERR_OK then s.refused else s.refused ++ [p] }
  | .mbox a => (s.mbox.call k a.other).map fun mbox => { s with mbox := mbox }

/-- After `tcpip_init`, which makes a mailbox for `n` messages, and `init_rx_dma_desc`. -/
def ThreadState.init (n : Nat) (e : ε) (N B : Nat) (alloc : Nat → Option (Pbuf P A)) :
    Option (ThreadState P A M Q) :=
  (Mbox.sysMboxNew k n e).bind fun mbox =>
    (RxState.init N B alloc).map fun rx => { rx := rx, mbox := mbox, refused := [] }

end Machine

/-! ### What a step can be -/

section Steps

variable {k : QueueApi Q (Option (TcpipMsg P A M)) ε} {tcpip_input : TcpipInput P A M Q χ}
  {items : Q → List (Option (TcpipMsg P A M))} {n : Nat}

theorem TcpipInputLaws.cases (h : TcpipInputLaws k tcpip_input) (hk : QueueLaws k items n)
    {mbox mbox' : Mbox Q (TcpipMsg P A M)} {p : Pbuf P A} {x : χ} {err : MboxErr}
    (hinput : tcpip_input mbox p x = some (err, mbox')) :
    (err = .ERR_OK ∧ mbox.Posts items n mbox' (some (.packet p))) ∨
      (err ≠ .ERR_OK ∧ mbox.Keeps items mbox') := by
  by_cases herr : err = .ERR_OK
  · subst herr
    obtain ⟨e, hpost⟩ := h.accepts hinput
    obtain ⟨-, hposts⟩ | ⟨hmem, -⟩ := Mbox.sysMboxTrypost_cases hk hpost
    · exact .inl ⟨rfl, hposts⟩
    · cases hmem
  · refine .inr ⟨herr, ?_⟩
    rcases h.refuses hinput herr with rfl | ⟨e, hpost⟩
    · exact ⟨rfl, rfl, rfl⟩
    · obtain ⟨hok, -⟩ | ⟨-, -, hkeeps⟩ := Mbox.sysMboxTrypost_cases hk hpost
      · cases hok
      · exact hkeeps

/-- A step of the ring, `netif->input` of the pbuf at the cursor, or a use of the mailbox. -/
theorem threadStep_cases (hk : QueueLaws k items n) (hin : TcpipInputLaws k tcpip_input)
    {s t : ThreadState P A M Q} {a : ThreadAct P A M ε χ}
    (h : threadStep k tcpip_input s a = some t) :
    (∃ b, (∀ accept, b ≠ .input accept) ∧ rxStep s.rx b = some t.rx ∧
      t.mbox = s.mbox ∧ t.refused = s.refused) ∨
    (∃ p, s.rx.desc.pbuf = some p ∧
      ((rxStep s.rx (.input true) = some t.rx ∧
          s.mbox.Posts items n t.mbox (some (.packet p)) ∧ t.refused = s.refused) ∨
        (rxStep s.rx (.input false) = some t.rx ∧ s.mbox.Keeps items t.mbox ∧
          t.refused = s.refused ++ [p]))) ∨
    (∃ b, s.mbox.call k (MboxAct.other b) = some t.mbox ∧ t.rx = s.rx ∧
      t.refused = s.refused) := by
  cases a with
  | rx b =>
    refine .inl ⟨b, ?_⟩
    cases b with
    | input accept => simp [threadStep] at h
    | call | cpu | alloc | dma =>
      obtain ⟨rx, hrx, rfl⟩ := Option.map_eq_some_iff.mp h
      exact ⟨by simp, hrx, rfl, rfl⟩
  | input x =>
    obtain ⟨p, hp, h⟩ := Option.bind_eq_some_iff.mp h
    obtain ⟨⟨err, mbox⟩, hinput, h⟩ := Option.bind_eq_some_iff.mp h
    obtain ⟨rx, hrx, rfl⟩ := Option.map_eq_some_iff.mp h
    refine .inr (.inl ⟨p, hp, ?_⟩)
    obtain ⟨rfl, hposts⟩ | ⟨herr, hkeeps⟩ := hin.cases hk hinput
    · exact .inl ⟨hrx, hposts, rfl⟩
    · rw [decide_eq_false herr] at hrx
      exact .inr ⟨hrx, hkeeps, if_neg herr⟩
  | mbox b =>
    obtain ⟨mbox, hmbox, rfl⟩ := Option.map_eq_some_iff.mp h
    exact .inr (.inr ⟨b, hmbox, rfl, rfl⟩)

end Steps

/-! ## The pbufs on their way -/

/-- The pbuf that the running call is about to free. -/
def RxState.toFree (s : RxState P A) : List (Pbuf P A) :=
  if s.call = some .free then s.desc.pbuf.toList else []

theorem RxState.toFree_of_ne {s : RxState P A} (h : s.call ≠ some .free) : s.toFree = [] :=
  if_neg h

/-- The DMA moves no pbuf. -/
theorem pbuf_receive (s : RxState P A) (w : BitVec 32) (i : Nat) :
    ((s.receive w).ring i).pbuf = (s.ring i).pbuf := by
  show (Function.update s.ring s.pos _ i).pbuf = _
  by_cases hi : i = s.pos
  · subst hi
    rw [Function.update_self]
  · rw [Function.update_of_ne hi]

/-- A statement other than `pbuf_free` frees nothing, and offers nothing. -/
theorem stmt_keeps {s t : RxState P A} {st : RxStmt} (hst : st ≠ .free)
    (hstep : s.stmt st .cpu = some t) :
    t.offered = s.offered ∧ t.freed = s.freed ∧ t.call ≠ some .free := by
  cases st with
  | free => exact absurd rfl hst
  | input | alloc => simp [RxState.stmt] at hstep
  | checkOwn | checkPbuf | checkFlags | checkAlloc =>
    cases hstep
    split
    · exact ⟨rfl, rfl, by simp [RxState.return]⟩
    · exact ⟨rfl, rfl, by simp [RxState.goto]⟩
  | testRbus =>
    cases hstep
    refine ⟨rfl, rfl, ?_⟩
    split
    · simp [RxState.goto]
    · simp [RxState.goto]
  | setLen | setBuf | setOwn | ackRbus | poll =>
    cases hstep
    exact ⟨rfl, rfl, by simp [RxState.goto]⟩
  | advance =>
    cases hstep
    exact ⟨rfl, rfl, by simp [RxState.return]⟩

/-- Between two calls of `netif->input` nothing is offered, and what is to be freed is. -/
theorem rxStep_keeps {s t : RxState P A} {a : RxAct P A} (ha : ∀ accept, a ≠ .input accept)
    (hstep : rxStep s a = some t) :
    t.offered = s.offered ∧ t.freed ++ t.toFree = s.freed ++ s.toFree := by
  rcases rxStep_cases hstep with ⟨-, hcall, rfl⟩ | ⟨w, -, hdma⟩ | ⟨-, st, hcall, hstmt⟩ |
    ⟨accept, rfl, -, -⟩ | ⟨fresh, -, hcall, rfl⟩
  · have hs : s.toFree = [] := RxState.toFree_of_ne (by simp [hcall])
    have ht : (s.goto .checkOwn).toFree = [] := RxState.toFree_of_ne (by simp [RxState.goto])
    rw [hs, ht]
    exact ⟨rfl, rfl⟩
  · obtain ⟨-, ⟨-, rfl⟩ | ⟨-, rfl⟩⟩ := rxDma_cases hdma
    · have hfree : (s.receive w).toFree = s.toFree := by
        rw [RxState.toFree, RxState.toFree, RxState.desc, RxState.desc, ← pbuf_receive s w]
        rfl
      rw [hfree]
      exact ⟨rfl, rfl⟩
    · exact ⟨rfl, rfl⟩
  · by_cases hst : st = .free
    · subst hst
      cases hstmt
      have hs : s.toFree = s.desc.pbuf.toList := if_pos hcall
      have ht : (s.freePbuf.goto .alloc).toFree = [] :=
        RxState.toFree_of_ne (by simp [RxState.goto])
      rw [hs, ht, List.append_nil]
      exact ⟨rfl, rfl⟩
    · obtain ⟨hoffered, hfreed, hcall'⟩ := stmt_keeps hst hstmt
      have hs : s.toFree = [] := RxState.toFree_of_ne (by simpa [hcall] using hst)
      rw [hs, RxState.toFree_of_ne hcall', hfreed]
      exact ⟨hoffered, rfl⟩
  · exact absurd rfl (ha accept)
  · have hs : s.toFree = [] := RxState.toFree_of_ne (by simp [hcall])
    have ht : ((s.setPbuf fresh).goto .checkAlloc).toFree = [] :=
      RxState.toFree_of_ne (by simp [RxState.goto])
    rw [hs, ht]
    exact ⟨rfl, rfl⟩

/-- The call of `netif->input`. -/
theorem rxStep_offers {s t : RxState P A} {accept : Bool} {p : Pbuf P A}
    (hp : s.desc.pbuf = some p) (hstep : rxStep s (.input accept) = some t) :
    t.offered = s.offered ++ [p] ∧
      t.freed ++ t.toFree = s.freed ++ s.toFree ++ (if accept then [] else [p]) := by
  obtain ⟨hcall, rfl⟩ := rxStep_input hstep
  have hs : s.toFree = [] := RxState.toFree_of_ne (by simp [hcall])
  refine ⟨by simp [RxState.offer, RxState.goto, hp], ?_⟩
  rw [hs, List.append_nil]
  cases accept with
  | true =>
    have ht : (s.offer.goto .alloc).toFree = [] := RxState.toFree_of_ne (by simp [RxState.goto])
    show s.freed ++ (s.offer.goto .alloc).toFree = _
    rw [ht]
    rfl
  | false =>
    have ht : (s.offer.goto .free).toFree = s.desc.pbuf.toList := if_pos rfl
    show s.freed ++ (s.offer.goto .free).toFree = _
    rw [ht, hp]
    rfl

/-! ## Packets in the mailbox -/

theorem packets_append (l l' : List (Option (TcpipMsg P A M))) :
    packets (l ++ l') = packets l ++ packets l' := List.filterMap_append

/-- The others post no packets. -/
theorem packets_other {a : MboxAct M ε} {msg : Option (TcpipMsg P A M)}
    (h : (MboxAct.other (P := P) (A := A) a).message = some msg) : packets [msg] = [] := by
  cases a with
  | post m _ | trypost m _ | trypostFromisr m _ =>
    cases h
    cases m with
    | none => rfl
    | some m => rfl
  | fetch | tryfetch => cases h

section Run

variable {k : QueueApi Q (Option (TcpipMsg P A M)) ε} {tcpip_input : TcpipInput P A M Q χ}
  {items : Q → List (Option (TcpipMsg P A M))} {n : Nat}

/-- What they do leaves the packets as they are. -/
theorem packets_call (hk : QueueLaws k items n) {mbox mbox' : Mbox Q (TcpipMsg P A M)}
    {a : MboxAct M ε} (h : mbox.call k a.other = some mbox') :
    packets mbox'.posted = packets mbox.posted := by
  obtain ⟨msg, hmsg, -, -, hposted, -⟩ | ⟨msg, -, hposted, -⟩ | ⟨-, hposted, -⟩ :=
    Mbox.call_cases hk h
  · rw [hposted, packets_append, packets_other hmsg, List.append_nil]
  · rw [hposted]
  · rw [hposted]

/-! ## The invariant -/

structure ThreadInv (items : Q → List (Option (TcpipMsg P A M))) (n N : Nat)
    (s : ThreadState P A M Q) : Prop where
  rx : RxInv N s.rx
  fifo : s.mbox.InOrder items n
  order : (packets s.mbox.posted).Sublist s.rx.offered
  all : (packets s.mbox.posted ++ s.refused).Perm s.rx.offered
  freed : s.rx.freed ++ s.rx.toFree = s.refused

theorem ThreadInv.init (hk : QueueLaws k items n) {N B : Nat} (hN : 0 < N) {e : ε}
    {alloc : Nat → Option (Pbuf P A)} {s : ThreadState P A M Q}
    (h : ThreadState.init k n e N B alloc = some s) : ThreadInv items n N s := by
  obtain ⟨mbox, hmbox, h⟩ := Option.bind_eq_some_iff.mp h
  obtain ⟨rx, hrx, rfl⟩ := Option.map_eq_some_iff.mp h
  have hinv := RxInv.init hN hrx
  have hfifo := Mbox.InOrder.sysMboxNew hk hmbox
  obtain ⟨ring, -, rfl⟩ := RxState.init_eq hrx
  obtain ⟨q, -, rfl⟩ := Option.map_eq_some_iff.mp hmbox
  exact ⟨hinv, hfifo, List.Sublist.refl _, List.Perm.refl _, rfl⟩

theorem ThreadInv.step (hk : QueueLaws k items n) (hin : TcpipInputLaws k tcpip_input) {N : Nat}
    (hN : 0 < N) {s t : ThreadState P A M Q} {a : ThreadAct P A M ε χ}
    (h : ThreadInv items n N s) (hstep : threadStep k tcpip_input s a = some t) :
    ThreadInv items n N t := by
  rcases threadStep_cases hk hin hstep with ⟨b, hb, hrx, hmbox, href⟩ |
    ⟨p, hp, ⟨hrx, hposts, href⟩ | ⟨hrx, hkeeps, href⟩⟩ | ⟨b, hcall, hrx, href⟩
  · obtain ⟨hoffered, hfreed⟩ := rxStep_keeps hb hrx
    refine ⟨rxInv_step hN h.rx hrx, by rw [hmbox]; exact h.fifo, ?_, ?_, ?_⟩
    · rw [hmbox, hoffered]
      exact h.order
    · rw [hmbox, href, hoffered]
      exact h.all
    · rw [hfreed, href]
      exact h.freed
  · -- the pbuf goes into the mailbox
    obtain ⟨hoffered, hfreed⟩ := rxStep_offers hp hrx
    have hpackets : packets t.mbox.posted = packets s.mbox.posted ++ [p] := by
      rw [hposts.2.2.1, packets_append]
      rfl
    refine ⟨rxInv_step hN h.rx hrx, h.fifo.posts hposts, ?_, ?_, ?_⟩
    · rw [hpackets, hoffered]
      exact h.order.append (List.Sublist.refl _)
    · rw [hpackets, hoffered, href]
      have hswap : (packets s.mbox.posted ++ [p] ++ s.refused).Perm
          (packets s.mbox.posted ++ s.refused ++ [p]) := by
        rw [List.append_assoc, List.append_assoc]
        exact List.perm_append_comm.append_left _
      exact hswap.trans (h.all.append_right _)
    · rw [hfreed, href, h.freed]
      exact List.append_nil _
  · -- it is refused, and about to be freed
    obtain ⟨hoffered, hfreed⟩ := rxStep_offers hp hrx
    refine ⟨rxInv_step hN h.rx hrx, h.fifo.keeps hkeeps, ?_, ?_, ?_⟩
    · rw [hkeeps.2.1, hoffered]
      exact h.order.trans (List.sublist_append_left _ _)
    · rw [hkeeps.2.1, hoffered, href, ← List.append_assoc]
      exact h.all.append_right _
    · rw [hfreed, href, h.freed]
      rfl
  · refine ⟨by rw [hrx]; exact h.rx, h.fifo.call hk hcall, ?_, ?_, ?_⟩
    · rw [packets_call hk hcall, hrx]
      exact h.order
    · rw [packets_call hk hcall, hrx, href]
      exact h.all
    · rw [hrx, href]
      exact h.freed

/-- The ring holds at most `N` frames that were not offered. -/
theorem RxInv.done_le_offered {N : Nat} {s : RxState P A} (h : RxInv N s) :
    s.done.length ≤ s.offered.length + N := by
  have hdone := h.ring.done_le
  have hoffered := h.rearmed_le
  omega

/-- **The way of a frame**, in every state any run reaches, whatever the DMA reports and
    whoever uses the mailbox meanwhile. What lwIP's thread has taken are frames the DMA
    completed, with their buffers and their lengths, in order and none twice. Each pbuf offered
    to `netif->input` is in the mailbox or has been taken from it, or it is freed — or about to
    be — and not both. And of the frames completed at most `n`, in the mailbox, and `N`, in the
    ring, are neither taken nor freed. -/
theorem tcpip_thread_gets (hk : QueueLaws k items n) (hin : TcpipInputLaws k tcpip_input)
    (N B : Nat) (hN : 0 < N) (alloc : Nat → Option (Pbuf P A)) (e : ε)
    (s₀ s : ThreadState P A M Q) (hinit : ThreadState.init k n e N B alloc = some s₀)
    (as : List (ThreadAct P A M ε χ)) (hrun : exec (threadStep k tcpip_input) s₀ as = some s) :
    ((packets s.mbox.taken).map Pbuf.delivery).Sublist (s.rx.done.map RxDone.delivery) ∧
    (packets s.mbox.taken ++ packets (items s.mbox.queue) ++ (s.rx.freed ++ s.rx.toFree)).Perm
      s.rx.offered ∧
    s.rx.done.length ≤
      (packets s.mbox.taken).length + (s.rx.freed ++ s.rx.toFree).length + n + N := by
  have h : ThreadInv items n N s :=
    exec_invariant (ThreadInv.init hk hN hinit)
      (fun _ _ _ h hstep => h.step hk hin hN hstep) hrun
  have hposted : packets s.mbox.posted =
      packets s.mbox.taken ++ packets (items s.mbox.queue) := by
    rw [h.fifo.order, packets_append]
  have hall : (packets s.mbox.taken ++ packets (items s.mbox.queue) ++
      (s.rx.freed ++ s.rx.toFree)).Perm s.rx.offered := by
    rw [← hposted, h.freed]
    exact h.all
  refine ⟨?_, hall, ?_⟩
  · have htaken : (packets s.mbox.taken).Sublist s.rx.offered := by
      refine List.Sublist.trans ?_ h.order
      rw [hposted]
      exact List.sublist_append_left _ _
    refine (htaken.map Pbuf.delivery).trans ?_
    rw [h.rx.order]
    exact (List.take_sublist _ _).map _
  · have hring := h.rx.done_le_offered
    have hroom := h.fifo.room
    have hpackets : (packets (items s.mbox.queue)).length ≤ (items s.mbox.queue).length :=
      List.length_filterMap_le _ _
    have hlength := hall.length_eq
    rw [List.length_append, List.length_append] at hlength
    omega

end Run

/-- lwIP's `tcpip_input` where the flag is whether it has a message to put the pbuf into. -/
def inputWithMessage (k : QueueApi Q (Option (TcpipMsg P A M)) Bool) : TcpipInput P A M Q Bool :=
  fun mbox p hasMessage =>
    if hasMessage then mbox.sysMboxTrypost k (some (.packet p)) false else some (.ERR_MEM, mbox)

theorem inputWithMessage_laws {n : Nat} {items : Q → List (Option (TcpipMsg P A M))}
    {k : QueueApi Q (Option (TcpipMsg P A M)) Bool} (hk : QueueLaws k items n) :
    TcpipInputLaws k (inputWithMessage k) where
  accepts := fun {mbox p x mbox'} h => by
    obtain ⟨-, h⟩ | ⟨-, h⟩ := ite_eq_iff.mp h
    · exact ⟨false, h⟩
    · cases h
  refuses := fun {mbox p x err mbox'} h herr => by
    obtain ⟨-, h⟩ | ⟨-, h⟩ := ite_eq_iff.mp h
    · obtain ⟨hok, -⟩ | ⟨rfl, -⟩ := Mbox.sysMboxTrypost_cases hk h
      · exact absurd hok herr
      · exact .inr ⟨false, h⟩
    · cases h
      exact .inl rfl

/-- A mailbox with one place, and two frames before the thread comes to it. -/
def twoFrames : List (ThreadAct Nat Nat Nat Bool Bool) :=
  [.rx (.dma 0x003c0300#32), .rx .call, .rx .cpu, .rx .cpu, .rx .cpu, .rx .cpu, .input true,
   .rx (.alloc (some { addr := 1, payload := 1, tot_len := 0, len := 0 })),
   .rx .cpu, .rx .cpu, .rx .cpu, .rx .cpu, .rx .cpu,
   .rx (.dma 0x003c0300#32), .rx .call, .rx .cpu, .rx .cpu, .rx .cpu, .rx .cpu, .input true,
   .mbox (.fetch 0#32 false)]

theorem tcpip_thread_gets_first :
    ∃ s₀ s : ThreadState Nat Nat Nat (Fifo (Option (TcpipMsg Nat Nat Nat)) 1),
      ThreadState.init (fifoQueue _ 1) 1 false 1 1536
        (fun _ => some { addr := 0, payload := 0, tot_len := 0, len := 0 }) = some s₀ ∧
      exec (threadStep (fifoQueue _ 1) (inputWithMessage (fifoQueue _ 1))) s₀ twoFrames =
        some s ∧
      (packets s.mbox.taken).length = 1 ∧ s.rx.offered.length = 2 ∧
      (s.rx.freed ++ s.rx.toFree).length = 1 := by
  apply exists_init_exec (fun s => decide ((packets s.mbox.taken).length = 1 ∧
    packets s.mbox.queue.items = [] ∧ s.rx.offered.length = 2)) (by decide +kernel)
  intro s₀ s hinit hrun hlen
  obtain ⟨htaken, hqueue, hoffered⟩ := of_decide_eq_true hlen
  obtain ⟨-, hperm, -⟩ := tcpip_thread_gets fifoQueue_laws (inputWithMessage_laws fifoQueue_laws)
    1 1536 (by decide) _ false s₀ s hinit _ hrun
  have hlength := hperm.length_eq
  rw [hqueue, List.append_nil, List.length_append, htaken, hoffered] at hlength
  exact ⟨htaken, hoffered, Nat.add_left_cancel hlength⟩

end EthernetIf

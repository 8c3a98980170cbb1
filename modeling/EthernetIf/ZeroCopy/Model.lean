import EthernetIf.Lib.RefCount
import EthernetIf.Rx.Invariant
import EthernetIf.Tx.Refs

/-!
# Both rings and the pbufs between them

The two machines, the pbufs with their reference counts and links, and lwIP. The driver's
statements are `txStep` and `rxStep`; what is added here is what they do to the pbufs, at the
statements that call `pbuf_ref`, `pbuf_free`, `pbuf_alloc` and `netif->input`.

lwIP and its users are one party that keeps to lwIP's rules: it works on pbufs it holds a
reference to, and while it has a chain inside `ethernetif_output` it keeps its reference to
the head and leaves the chain alone. `lwip p` is the number of references it holds to `p`.
-/

namespace EthernetIf

open Lts Ring RefCount

/-! ## The pbufs -/

/-- The fields of `struct pbuf` besides its link and its count. -/
structure PbufData (A : Type) where
  payload : A
  tot_len : BitVec 16
  len : BitVec 16
deriving DecidableEq, Repr

section Machine

variable {P A : Type}

def Pbuf.data (q : Pbuf P A) : PbufData A :=
  { payload := q.payload, tot_len := q.tot_len, len := q.len }

/-- The pbufs of a list are what the store has at their addresses, linked in this order and
    ending in NULL. -/
def linkedIn [DecidableEq P] [DecidableEq A] (h : Heap P (PbufData A)) : List (Pbuf P A) → Bool
  | [] => true
  | q :: rest =>
      decide ((h q.addr).val = q.data) && decide ((h q.addr).next = rest.head?.map Pbuf.addr) &&
        linkedIn h rest

/-! ## References held by descriptors -/

/-- The pointer in a transmit descriptor. -/
def TxState.ptr (s : TxState P A) (i : Nat) : Option P := (s.ring i).pbuf.map Pbuf.addr

/-- The reference a transmit descriptor holds: its pointer, except at the cursor between
    `pbuf_free` and the store of the new pointer — there none, and from `pbuf_ref` on the new
    one. -/
def TxState.holds (s : TxState P A) : Nat → Option P :=
  match s.call with
  | none => s.ptr
  | some c => match c.stmt with
    | .frag .ref => Function.update s.ptr s.cur none
    | .frag .setPbuf => Function.update s.ptr s.cur (c.q.map Pbuf.addr)
    | _ => s.ptr

/-- The pointer in a receive descriptor. -/
def RxState.ptr (s : RxState P A) (i : Nat) : Option P := (s.ring i).pbuf.map Pbuf.addr

/-- The reference a receive descriptor holds: its pointer, except at the cursor once the pbuf
    was given away and before the next one is stored. -/
def RxState.holds (s : RxState P A) : Nat → Option P :=
  match s.call with
  | some .alloc => Function.update s.ptr s.cur none
  | _ => s.ptr

/-! ## State -/

structure Sys (P A : Type) where
  tx : TxState P A
  rx : RxState P A
  heap : Heap P (PbufData A)
  lwip : P → Nat

/-- The first chain of a running `ethernetif_output` includes the pbuf. -/
def Sys.busy [DecidableEq P] (s : Sys P A) (x : P) : Bool :=
  s.tx.call.any fun c => decide (x ∈ c.p.frags.map Pbuf.addr)

/-- The pbuf was passed to a running `ethernetif_output`. -/
def Sys.passed [DecidableEq P] (s : Sys P A) (x : P) : Bool :=
  s.tx.call.any fun c => decide (c.p.head.addr = x)

variable [DecidableEq P] [Fintype P] [DecidableEq A]

/-- The `N` allocations of `init_rx_dma_desc`: each takes a free pbuf. -/
def initHeap (N : Nat) (alloc : Nat → Option (Pbuf P A)) (pool : Heap P (PbufData A)) :
    Option (Heap P (PbufData A)) :=
  (List.range N).foldlM (fun h i => (alloc i).bind fun q =>
    if (h q.addr).ref = 0 then some (RefCount.alloc h q.addr q.data) else none) pool

/-- After `ethernetif_init`. -/
def Sys.init (N B : Nat) (alloc : Nat → Option (Pbuf P A)) (pool : Heap P (PbufData A)) :
    Option (Sys P A) :=
  (RxState.init N B alloc).bind fun rx => (initHeap N alloc pool).map fun heap =>
    { tx := TxState.init P A N, rx := rx, heap := heap, lwip := 0 }

/-! ## What the driver's statements do to the pbufs -/

/-- The statement of `ethernetif_output`. -/
def Sys.txHeap (s : Sys P A) : Heap P (PbufData A) :=
  match s.tx.call with
  | none => s.heap
  | some c => match c.stmt, c.q with
    | .frag .freeOld, _ => RefCount.free s.heap (s.tx.ptr s.tx.cur)
    | .frag .ref, some q => RefCount.retain s.heap q.addr
    | _, _ => s.heap

/-- The statement of `process_rx_descr`, other than its calls of lwIP. -/
def Sys.rxHeap (s : Sys P A) : Heap P (PbufData A) :=
  match s.rx.call, s.rx.desc.pbuf with
  | some .setLen, some q =>
      RefCount.setVal s.heap q.addr
        { q.data with
          tot_len := frameLength s.rx.desc.Status
          len := frameLength s.rx.desc.Status }
  | some .free, o => RefCount.free s.heap (o.map Pbuf.addr)
  | _, _ => s.heap

/-! ## The machine -/

inductive SysAct (P A : Type)
  -- ethernetif_output and its DMA
  | output (p : PbufChain P A)
  | txCpu
  | txDma (wb : BitVec 32)
  -- process_rx_descr and its DMA
  | rxCall
  | rxCpu
  | rxInput (accept : Bool)
  | rxAlloc (fresh : Option (Pbuf P A))
  | rxDma (w : BitVec 32)
  -- lwIP
  | alloc (x : P) (v : PbufData A)  -- x = pbuf_alloc(…)
  | ref (x : P)                     -- pbuf_ref(x)
  | refNext (x : P)                 -- pbuf_ref(x->next)
  | free (x : P)                    -- pbuf_free(x)
  | chain (x y : P)                 -- x->next = y, giving its reference to y away
  | dechain (x : P)                 -- x->next = NULL, keeping the reference to its successor
  | write (x : P) (v : PbufData A)  -- x->payload = …, x->len = …

/-- The reference to a pbuf changes hands without a call. -/
def give (lwip : P → Nat) (o : Option P) : P → Nat := lwip + one o

/-- … the other way. -/
def drop (lwip : P → Nat) (o : Option P) : P → Nat := lwip - one o

def sysStep (s : Sys P A) : SysAct P A → Option (Sys P A)
  | .output p =>
      if 0 < s.lwip p.head.addr ∧ linkedIn s.heap p.frags = true then
        (txStep s.tx (.output p)).map fun tx => { s with tx := tx }
      else none
  | .txCpu => (txStep s.tx .cpu).map fun tx => { s with tx := tx, heap := s.txHeap }
  | .txDma wb => (txStep s.tx (.dma wb)).map fun tx => { s with tx := tx }
  | .rxCall => (rxStep s.rx .call).map fun rx => { s with rx := rx }
  | .rxCpu => (rxStep s.rx .cpu).map fun rx => { s with rx := rx, heap := s.rxHeap }
  | .rxInput accept =>
      -- an accepted pbuf is lwIP's from here on
      (rxStep s.rx (.input accept)).map fun rx =>
        { s with
          rx := rx
          lwip := give s.lwip (if accept then s.rx.desc.pbuf.map Pbuf.addr else none) }
  | .rxAlloc none => (rxStep s.rx (.alloc none)).map fun rx => { s with rx := rx }
  | .rxAlloc (some q) =>
      if (s.heap q.addr).ref = 0 then
        (rxStep s.rx (.alloc (some q))).map fun rx =>
          { s with rx := rx, heap := RefCount.alloc s.heap q.addr q.data }
      else none
  | .rxDma w => (rxStep s.rx (.dma w)).map fun rx => { s with rx := rx }
  | .alloc x v =>
      if (s.heap x).ref = 0 then
        some { s with heap := RefCount.alloc s.heap x v, lwip := give s.lwip (some x) }
      else none
  | .ref x =>
      if 0 < s.lwip x then
        some { s with heap := RefCount.retain s.heap x, lwip := give s.lwip (some x) }
      else none
  | .refNext x =>
      if 0 < s.lwip x then
        (s.heap x).next.map fun y =>
          { s with heap := RefCount.retain s.heap y, lwip := give s.lwip (some y) }
      else none
  | .free x =>
      if 0 < s.lwip x ∧ (s.passed x = true → 1 < s.lwip x) then
        some { s with heap := RefCount.free s.heap (some x), lwip := drop s.lwip (some x) }
      else none
  | .chain x y =>
      if 0 < s.lwip x ∧ 0 < s.lwip y ∧ (s.passed y = true → 1 < s.lwip y) ∧
          (s.heap x).next = none ∧ s.busy x = false then
        some { s with heap := RefCount.setNext s.heap x (some y), lwip := drop s.lwip (some y) }
      else none
  | .dechain x =>
      if 0 < s.lwip x ∧ s.busy x = false then
        some { s with
          heap := RefCount.setNext s.heap x none
          lwip := give s.lwip (s.heap x).next }
      else none
  | .write x v =>
      if 0 < s.lwip x ∧ s.busy x = false then
        some { s with heap := RefCount.setVal s.heap x v }
      else none

/-! ## The two machines in it -/

/-- A step of the system is a step of one of its two machines, or of lwIP and of neither. -/
theorem sysStep_cases {s t : Sys P A} {a : SysAct P A} (hstep : sysStep s a = some t) :
    (∃ b, txStep s.tx b = some t.tx ∧ t.rx = s.rx) ∨
    (∃ b, rxStep s.rx b = some t.rx ∧ t.tx = s.tx) ∨ (t.tx = s.tx ∧ t.rx = s.rx) := by
  cases a with
  | output p =>
    obtain ⟨-, hstep⟩ := Option.ite_none_right_eq_some.mp hstep
    obtain ⟨tx, htx, rfl⟩ := Option.map_eq_some_iff.mp hstep
    exact .inl ⟨_, htx, rfl⟩
  | txCpu | txDma wb =>
    obtain ⟨tx, htx, rfl⟩ := Option.map_eq_some_iff.mp hstep
    exact .inl ⟨_, htx, rfl⟩
  | rxCall | rxCpu | rxInput accept | rxDma w =>
    obtain ⟨rx, hrx, rfl⟩ := Option.map_eq_some_iff.mp hstep
    exact .inr (.inl ⟨_, hrx, rfl⟩)
  | rxAlloc fresh =>
    cases fresh with
    | none =>
      obtain ⟨rx, hrx, rfl⟩ := Option.map_eq_some_iff.mp hstep
      exact .inr (.inl ⟨_, hrx, rfl⟩)
    | some q =>
      obtain ⟨-, hstep⟩ := Option.ite_none_right_eq_some.mp hstep
      obtain ⟨rx, hrx, rfl⟩ := Option.map_eq_some_iff.mp hstep
      exact .inr (.inl ⟨_, hrx, rfl⟩)
  | alloc x v | ref x | free x | chain x y | dechain x | write x v =>
    obtain ⟨-, hstep⟩ := Option.ite_none_right_eq_some.mp hstep
    cases hstep
    exact .inr (.inr ⟨rfl, rfl⟩)
  | refNext x =>
    obtain ⟨-, hstep⟩ := Option.ite_none_right_eq_some.mp hstep
    obtain ⟨y, -, rfl⟩ := Option.map_eq_some_iff.mp hstep
    exact .inr (.inr ⟨rfl, rfl⟩)

/-- **The transmit side of the system is the transmit machine**: what a run does to it, the
    machine alone can do. -/
theorem Sys.tx_reachable {s₀ s : Sys P A} (h : Reachable sysStep s₀ s) :
    Reachable txStep s₀.tx s.tx := by
  apply h.project
  intro s a t hstep
  rcases sysStep_cases hstep with ⟨b, htx, -⟩ | ⟨-, -, hsame⟩ | ⟨hsame, -⟩
  · exact .inr ⟨b, htx⟩
  · exact .inl hsame
  · exact .inl hsame

/-- **… and the receive side is the receive machine.** -/
theorem Sys.rx_reachable {s₀ s : Sys P A} (h : Reachable sysStep s₀ s) :
    Reachable rxStep s₀.rx s.rx := by
  apply h.project
  intro s a t hstep
  rcases sysStep_cases hstep with ⟨-, -, hsame⟩ | ⟨b, hrx, -⟩ | ⟨-, hsame⟩
  · exact .inl hsame
  · exact .inr ⟨b, hrx⟩
  · exact .inl hsame

end Machine

end EthernetIf

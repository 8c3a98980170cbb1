import EthernetIf.Desc
import EthernetIf.Lib.Lts
import EthernetIf.Lib.Ring

/-!
# The receive ring

`process_rx_descr` against the receive DMA, twice over the same text.

* `RxState.processRxDescr` is the function as one reads it: a call, run to its `return`,
  given what `netif->input` and `pbuf_alloc` answer.
* `rxStep` runs it one shared access at a time (`RxStmt`), so that the DMA can complete frames
  or suspend between any two statements.

Both are built from the same named stores, and the statements taken without interruption are
the function (`EthernetIf.Rx.Call`).

`done`, `offered`, `freed` and `rearmed` are history: the descriptors the DMA closed, the
pbufs given to `netif->input` and those given to `pbuf_free`, and how many descriptors were
given back. No branch reads them.
-/

namespace EthernetIf

open Lts Ring

/-! ## Receive descriptors -/

/-- `(desc->Status & ETH_RDES0_FL) >> ETH_RDES0_FL_SHIFT`, as the `u16_t` it is stored in. -/
def frameLength (status : BitVec 32) : BitVec 16 :=
  ((status &&& ETH_RDES0_FL) >>> ETH_RDES0_FL_SHIFT).setWidth 16

/-- `(LS | FS) == (desc->Status & (LS | FS))` -/
def isWholeFrame (status : BitVec 32) : Bool :=
  (ETH_RDES0_LS ||| ETH_RDES0_FS) == (status &&& (ETH_RDES0_LS ||| ETH_RDES0_FS))

/-- A descriptor the DMA closed: the buffer it wrote and the status it wrote back. -/
structure RxDone (A : Type) where
  buf : Option A
  status : BitVec 32
deriving DecidableEq, Repr

/-- What lwIP sees of a received pbuf: its data and its two lengths. -/
structure RxDelivery (A : Type) where
  buf : Option A
  len : BitVec 16
  tot_len : BitVec 16
deriving DecidableEq, Repr

def Pbuf.delivery {P A : Type} (p : Pbuf P A) : RxDelivery A :=
  { buf := some p.payload, len := p.len, tot_len := p.tot_len }

/-- **The specification of a delivery**: the buffer the DMA wrote, and twice the length field
    of that descriptor. -/
def RxDone.delivery {A : Type} (f : RxDone A) : RxDelivery A :=
  { buf := f.buf, len := frameLength f.status, tot_len := frameLength f.status }

/-! ## State -/

/-- The statements of `process_rx_descr`. -/
inductive RxStmt
  | checkOwn    -- if (desc->Status & OWN) return 1;
  | checkPbuf   -- if (desc->pbuf == NULL) return 1;
  | checkFlags  -- if (!((LS | FS) == (desc->Status & (LS | FS)))) return 1;
  | setLen      -- frame_length = …; pbuf->tot_len = frame_length; pbuf->len = frame_length;
  | input       -- if (netif->input(desc->pbuf, netif) != ERR_OK)
  | free        --   pbuf_free(desc->pbuf);
  | alloc       -- desc->pbuf = pbuf_alloc(PBUF_RAW, PBUF_POOL_BUFSIZE, PBUF_POOL);
  | checkAlloc  -- if (desc->pbuf == NULL) return 1;
  | setBuf      -- desc->Buffer1Addr = desc->pbuf->payload;
  | setOwn      -- desc->Status = ETH_RDES0_OWN;
  | testRbus    -- if (ETH_DMASR & ETH_DMASR_RBUS)
  | ackRbus     --   ETH_DMASR = ETH_DMASR_RBUS;
  | poll        --   ETH_DMARPDR = 0;
  | advance     -- rx_cur_dma_desc = desc->Buffer2NextDescAddr; return 0;
deriving DecidableEq, Repr

structure RxState (P A : Type) where
  ring : Nat → DmaDesc P A             -- rx_dma_desc
  cur : Nat                            -- rx_cur_dma_desc
  call : Option RxStmt                 -- the running process_rx_descr
  ret : Option Nat                     -- what the last call returned
  pos : Nat                            -- the descriptor the DMA is at
  suspended : Bool                     -- the DMA stopped at a CPU-owned descriptor
  rbus : Bool                          -- ETH_DMASR.RBUS
  done : List (RxDone A) := []         -- descriptors the DMA closed
  offered : List (Pbuf P A) := []      -- pbufs given to netif->input
  freed : List (Pbuf P A) := []        -- pbufs given to pbuf_free
  rearmed : Nat := 0                   -- descriptors given back to the DMA

section Machine

variable {P A : Type}

/-- `init_rx_dma_desc`, with the answers of its `pbuf_alloc` calls. The result of an
    allocation is dereferenced unchecked: there is no state after a failed one. -/
def initRxDmaDesc (N B : Nat) (alloc : Nat → Option (Pbuf P A)) :
    Option (Nat → DmaDesc P A) :=
  ((List.range N).foldlM (fun ring i => (alloc i).map fun p =>
    Function.update ring i { ring i with
      Status := ETH_RDES0_OWN
      ControlBufferSize := ETH_RDES1_RCH ||| BitVec.ofNat 32 B
      pbuf := some p
      Buffer1Addr := some p.payload
      Buffer2NextDescAddr := i + 1 }) fun _ => DmaDesc.zero).map fun ring =>
  Function.update ring (N - 1) { ring (N - 1) with Buffer2NextDescAddr := 0 }

/-- After `init_rx_dma_desc` and `eth_start`. -/
def RxState.init (N B : Nat) (alloc : Nat → Option (Pbuf P A)) : Option (RxState P A) :=
  (initRxDmaDesc N B alloc).map fun ring =>
    { ring := ring, cur := 0, call := none, ret := none, pos := 0, suspended := false,
      rbus := false }

/-! ## The stores of `process_rx_descr` -/

/-- The descriptor at `rx_cur_dma_desc`. -/
def RxState.desc (s : RxState P A) : DmaDesc P A := s.ring s.cur

/-- `rx_cur_dma_desc->… = …` -/
def RxState.store (s : RxState P A) (f : DmaDesc P A → DmaDesc P A) : RxState P A :=
  { s with ring := Function.update s.ring s.cur (f s.desc) }

def RxState.setLen (s : RxState P A) : RxState P A :=
  s.store fun d => { d with pbuf := d.pbuf.map fun p =>
    { p with tot_len := frameLength d.Status, len := frameLength d.Status } }

/-- `netif->input(desc->pbuf, netif)` -/
def RxState.offer (s : RxState P A) : RxState P A :=
  { s with offered := s.offered ++ s.desc.pbuf.toList }

/-- `pbuf_free(desc->pbuf)` -/
def RxState.freePbuf (s : RxState P A) : RxState P A :=
  { s with freed := s.freed ++ s.desc.pbuf.toList }

def RxState.setPbuf (s : RxState P A) (fresh : Option (Pbuf P A)) : RxState P A :=
  s.store fun d => { d with pbuf := fresh }

def RxState.setBuf (s : RxState P A) : RxState P A :=
  s.store fun d => { d with Buffer1Addr := d.pbuf.map Pbuf.payload }

def RxState.setOwn (s : RxState P A) : RxState P A :=
  { s.store fun d => { d with Status := ETH_RDES0_OWN } with rearmed := s.rearmed + 1 }

/-- `ETH_DMASR = ETH_DMASR_RBUS;` writes one to a bit that is cleared by it. -/
def RxState.ackRbus (s : RxState P A) : RxState P A := { s with rbus := false }

/-- `ETH_DMARPDR = 0;` wakes the DMA. -/
def RxState.poll (s : RxState P A) : RxState P A := { s with suspended := false }

def RxState.advance (s : RxState P A) : RxState P A :=
  { s with cur := s.desc.Buffer2NextDescAddr }

/-- `return r;` -/
def RxState.return (s : RxState P A) (r : Nat) : RxState P A :=
  { s with call := none, ret := some r }

/-- On to the statement `t`. -/
def RxState.goto (s : RxState P A) (t : RxStmt) : RxState P A := { s with call := some t }

/-! ## The function -/

/-- `process_rx_descr(netif)`: `accept` is whether `netif->input` returns `ERR_OK`, `fresh`
    what `pbuf_alloc` returns. -/
def RxState.processRxDescr (s : RxState P A) (accept : Bool) (fresh : Option (Pbuf P A)) :
    RxState P A :=
  if s.desc.own then s.return 1
  else if s.desc.pbuf.isNone then s.return 1
  else if !isWholeFrame s.desc.Status then s.return 1
  else
    let s := s.setLen.offer
    let s := if accept then s else s.freePbuf
    let s := s.setPbuf fresh
    if fresh.isNone then s.return 1
    else
      let s := s.setBuf.setOwn
      let s := if s.rbus then s.ackRbus.poll else s
      s.advance.return 0

/-! ## The machine -/

inductive RxAct (P A : Type)
  | call                               -- process_rx_descr(netif) is called
  | cpu                                -- it takes its next statement
  | input (accept : Bool)              -- its netif->input returns
  | alloc (fresh : Option (Pbuf P A))  -- its pbuf_alloc returns
  | dma (w : BitVec 32)                -- the DMA takes a step; `w` is the status it reports

/-- The running call at one of its statements. -/
def RxState.stmt (s : RxState P A) : RxStmt → RxAct P A → Option (RxState P A)
  | .checkOwn, .cpu => some (if s.desc.own then s.return 1 else s.goto .checkPbuf)
  | .checkPbuf, .cpu => some (if s.desc.pbuf.isNone then s.return 1 else s.goto .checkFlags)
  | .checkFlags, .cpu =>
      some (if !isWholeFrame s.desc.Status then s.return 1 else s.goto .setLen)
  | .setLen, .cpu => some (s.setLen.goto .input)
  | .input, .input accept => some (s.offer.goto (if accept then .alloc else .free))
  | .free, .cpu => some (s.freePbuf.goto .alloc)
  | .alloc, .alloc fresh => some ((s.setPbuf fresh).goto .checkAlloc)
  | .checkAlloc, .cpu => some (if s.desc.pbuf.isNone then s.return 1 else s.goto .setBuf)
  | .setBuf, .cpu => some (s.setBuf.goto .setOwn)
  | .setOwn, .cpu => some (s.setOwn.goto .testRbus)
  | .testRbus, .cpu => some (s.goto (if s.rbus then .ackRbus else .advance))
  | .ackRbus, .cpu => some (s.ackRbus.goto .poll)
  | .poll, .cpu => some (s.poll.goto .advance)
  | .advance, .cpu => some (s.advance.return 0)
  | _, _ => none

/-- The DMA stores a frame into the buffer of its descriptor, closes it with OWN clear and
    follows the link. -/
def RxState.receive (s : RxState P A) (w : BitVec 32) : RxState P A :=
  { s with
    ring := Function.update s.ring s.pos
      { s.ring s.pos with Status := w &&& ~~~ETH_RDES0_OWN }
    pos := (s.ring s.pos).Buffer2NextDescAddr
    done := s.done ++ [{ buf := (s.ring s.pos).Buffer1Addr, status := w &&& ~~~ETH_RDES0_OWN }] }

/-- The DMA fetched a descriptor it does not own. -/
def RxState.suspend (s : RxState P A) : RxState P A := { s with suspended := true, rbus := true }

def RxState.dma (s : RxState P A) (w : BitVec 32) : Option (RxState P A) :=
  if s.suspended then none
  else if (s.ring s.pos).own then some (s.receive w)
  else some s.suspend

def rxStep (s : RxState P A) : RxAct P A → Option (RxState P A)
  | .call =>
      match s.call with
      | some _ => none
      | none => some (s.goto .checkOwn)
  | .dma w => s.dma w
  | a => s.call.bind fun st => s.stmt st a

/-! ### What a step can be -/

/-- The DMA runs, and closes its descriptor or finds that it is not its own. -/
theorem rxDma_cases {s t : RxState P A} {w : BitVec 32} (h : s.dma w = some t) :
    s.suspended = false ∧
      (((s.ring s.pos).own = true ∧ t = s.receive w) ∨
        ((s.ring s.pos).own = false ∧ t = s.suspend)) := by
  unfold RxState.dma at h
  split at h
  · simp at h
  next hsus =>
    refine ⟨by simpa using hsus, ?_⟩
    split at h
    next hown => exact .inl ⟨hown, (Option.some.inj h).symm⟩
    next hown => exact .inr ⟨by simpa using hown, (Option.some.inj h).symm⟩

theorem rxStep_call {s t : RxState P A} (h : rxStep s .call = some t) :
    s.call = none ∧ t = s.goto .checkOwn := by
  simp only [rxStep] at h
  split at h
  · simp at h
  next hcall => exact ⟨hcall, (Option.some.inj h).symm⟩

theorem rxStep_input {s t : RxState P A} {accept : Bool}
    (h : rxStep s (.input accept) = some t) :
    s.call = some .input ∧ t = s.offer.goto (if accept then .alloc else .free) := by
  obtain ⟨st, hcall, hstmt⟩ := Option.bind_eq_some_iff.mp h
  cases st with
  | input => exact ⟨hcall, (Option.some.inj hstmt).symm⟩
  | _ => simp [RxState.stmt] at hstmt

theorem rxStep_alloc {s t : RxState P A} {fresh : Option (Pbuf P A)}
    (h : rxStep s (.alloc fresh) = some t) :
    s.call = some .alloc ∧ t = (s.setPbuf fresh).goto .checkAlloc := by
  obtain ⟨st, hcall, hstmt⟩ := Option.bind_eq_some_iff.mp h
  cases st with
  | alloc => exact ⟨hcall, (Option.some.inj hstmt).symm⟩
  | _ => simp [RxState.stmt] at hstmt

/-- A call, a step of the DMA, a statement of the running call, or the return of
    `netif->input` or of `pbuf_alloc` to it. -/
theorem rxStep_cases {s t : RxState P A} {a : RxAct P A} (h : rxStep s a = some t) :
    (a = .call ∧ s.call = none ∧ t = s.goto .checkOwn) ∨
    (∃ w, a = .dma w ∧ s.dma w = some t) ∨
    (a = .cpu ∧ ∃ st, s.call = some st ∧ s.stmt st .cpu = some t) ∨
    (∃ accept, a = .input accept ∧ s.call = some .input ∧
      t = s.offer.goto (if accept then .alloc else .free)) ∨
    (∃ fresh, a = .alloc fresh ∧ s.call = some .alloc ∧
      t = (s.setPbuf fresh).goto .checkAlloc) := by
  cases a with
  | call => exact .inl ⟨rfl, rxStep_call h⟩
  | dma w => exact .inr (.inl ⟨w, rfl, h⟩)
  | cpu => exact .inr (.inr (.inl ⟨rfl, Option.bind_eq_some_iff.mp h⟩))
  | input accept => exact .inr (.inr (.inr (.inl ⟨accept, rfl, rxStep_input h⟩)))
  | alloc fresh => exact .inr (.inr (.inr (.inr ⟨fresh, rfl, rxStep_alloc h⟩)))

end Machine

end EthernetIf

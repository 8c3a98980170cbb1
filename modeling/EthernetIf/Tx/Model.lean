import EthernetIf.Desc
import EthernetIf.Lib.Lts
import EthernetIf.Lib.Ring
import Mathlib.Data.List.Nodup

/-!
# The transmit ring

`ethernetif_output` and `process_tx_descr` against the transmit DMA, one access to shared
memory at a time. The caller of `ethernetif_output` and the DMA take turns in any order; the
calls themselves are serialised, as lwIP's core lock makes them.

The program counter (`TxStmt`, `FragStmt`) names every statement of the two functions that
reads or writes a descriptor, a pbuf's reference count or a DMA register, so the DMA may move
between any two of them. `TxState.ethernetifOutput` is the text of the C, statement by
statement.

The last five fields of `TxState` are history variables: what was submitted, handed over and
sent, and which references were taken and dropped. No branch reads them.
-/

namespace EthernetIf

open Lts

/-! ## What is sent -/

/-- A pbuf chain as `ethernetif_output` gets it: at least one pbuf, linked by `next` and
    ending in `NULL`, hence without a repetition. -/
structure PbufChain (P A : Type) where
  head : Pbuf P A
  tail : List (Pbuf P A)
  nodup : ((head :: tail).map Pbuf.addr).Nodup
deriving DecidableEq

/-- The pbufs of a chain in `next` order. -/
def PbufChain.frags {P A : Type} (c : PbufChain P A) : List (Pbuf P A) := c.head :: c.tail

/-- What the DMA reads from a descriptor it transmits. -/
structure TxEntry (A : Type) where
  payload : Option A
  len : BitVec 32
  first : Bool
  last : Bool
deriving DecidableEq, Repr

/-- **The specification of a frame on the ring**: one entry a fragment, in order, the first
    one tagged first and the last one tagged last. -/
def PbufChain.entries {P A : Type} (c : PbufChain P A) : List (TxEntry A) :=
  c.frags.mapIdx fun i q =>
    { payload := some q.payload, len := q.len.zeroExtend 32,
      first := i == 0, last := i + 1 == c.frags.length }

/-- The fragments of every chain submitted so far, chain after chain. -/
def entriesOf {P A : Type} (sent : List (PbufChain P A)) : List (TxEntry A) :=
  sent.flatMap PbufChain.entries

/-! ## Transmit descriptors -/

section Desc

variable {P A : Type}

/-- What the DMA reads from the descriptor. -/
def DmaDesc.entry (d : DmaDesc P A) : TxEntry A :=
  { payload := d.Buffer1Addr, len := d.ControlBufferSize,
    first := tst d.Status ETH_TDES0_FS, last := tst d.Status ETH_TDES0_LS }

/-- The control bits `init_tx_dma_desc` sets: chained, and checksums inserted. -/
def txInitBits : BitVec 32 := ETH_TDES0_TCH ||| ETH_TDES0_CIC_IPPLPH

/-- Every one of them is still set. -/
def DmaDesc.keepsInitBits (d : DmaDesc P A) : Bool := d.Status &&& txInitBits == txInitBits

/-- The bits of TDES0 the CPU owns (30 to 20); the DMA writes its report into the others. -/
def txControlBits : BitVec 32 := 0x7ff00000#32

/-- `Status` after the DMA closed the descriptor: control bits kept, OWN cleared, the report
    `wb` in the other bits. -/
def txWriteBack (status wb : BitVec 32) : BitVec 32 :=
  ((status &&& txControlBits) ||| (wb &&& ~~~txControlBits)) &&& ~~~ETH_TDES0_OWN

end Desc

/-- `init_tx_dma_desc`: the loop over the slots, then the last link turned back to slot 0. -/
def initTxDmaDesc {P A : Type} (N : Nat) : Nat → DmaDesc P A :=
  let ring := (List.range N).foldl (fun ring i =>
    Function.update ring i { ring i with
      Status := ETH_TDES0_TCH ||| ETH_TDES0_CIC_IPPLPH
      pbuf := none
      Buffer2NextDescAddr := i + 1 }) fun _ => DmaDesc.zero
  Function.update ring (N - 1) { ring (N - 1) with Buffer2NextDescAddr := 0 }

/-! ## State -/

/-- The statements of `process_tx_descr`. -/
inductive FragStmt
  | wait        -- while (desc->Status & OWN);
  | freeOld     -- if (desc->pbuf != NULL) pbuf_free(desc->pbuf);
  | ref         -- pbuf_ref(p);
  | setPbuf     -- desc->pbuf = p;
  | clearFrame  -- desc->Status &= ~(FS | LS);
  | setFirst    -- if (first) desc->Status |= FS;
  | setLast     -- if (last) desc->Status |= LS;
  | setBuf      -- desc->Buffer1Addr = p->payload;
  | setSize     -- desc->ControlBufferSize = p->len;
  | setOwn      -- desc->Status |= OWN;
  | advance     -- tx_cur_dma_desc = desc->Buffer2NextDescAddr;
deriving DecidableEq, Repr

/-- The statements of `ethernetif_output`. -/
inductive TxStmt
  | loop                -- for (q = p; q != NULL; q = q->next)
  | frag (f : FragStmt) --   process_tx_descr(q, q == p, q->next == NULL);
  | testTbus            -- if (ETH_DMASR & ETH_DMASR_TBUS)
  | ackTbus             --   ETH_DMASR = ETH_DMASR_TBUS;
  | poll                --   ETH_DMATPDR = 0;
deriving DecidableEq, Repr

/-- The activation record of a running `ethernetif_output`: its argument, how many times
    `q = q->next` was taken, and the next statement. -/
structure TxCall (P A : Type) where
  p : PbufChain P A
  k : Nat
  stmt : TxStmt

/-- The local `q`; `none` is `NULL`. -/
def TxCall.q {P A : Type} (c : TxCall P A) : Option (Pbuf P A) := c.p.frags[c.k]?

/-- `q == p`. -/
def TxCall.first {P A : Type} [DecidableEq P] (c : TxCall P A) (q : Pbuf P A) : Bool :=
  q.addr == c.p.head.addr

/-- `q->next == NULL`. -/
def TxCall.last {P A : Type} (c : TxCall P A) : Bool := c.p.frags[c.k + 1]?.isNone

structure TxState (P A : Type) where
  ring : Nat → DmaDesc P A            -- tx_dma_desc
  cur : Nat                           -- tx_cur_dma_desc
  call : Option (TxCall P A)          -- the running ethernetif_output
  pos : Nat                           -- the descriptor the DMA is at
  suspended : Bool                    -- the DMA stopped at a CPU-owned descriptor
  tbus : Bool                         -- ETH_DMASR.TBUS
  sent : List (PbufChain P A) := []   -- chains submitted
  queued : Nat := 0                   -- descriptors handed to the DMA
  wire : List (TxEntry A) := []       -- entries the DMA consumed
  refd : List P := []                 -- pbuf_ref calls
  freed : List P := []                -- pbuf_free calls

section Machine

variable {P A : Type}

/-- After `init_tx_dma_desc` and `eth_start`. -/
def TxState.init (P A : Type) (N : Nat) : TxState P A :=
  { ring := initTxDmaDesc N, cur := 0, call := none, pos := 0, suspended := false,
    tbus := false }

/-- `tx_cur_dma_desc->… = …` -/
def TxState.store (s : TxState P A) (f : DmaDesc P A → DmaDesc P A) : TxState P A :=
  { s with ring := Function.update s.ring s.cur (f (s.ring s.cur)) }

/-- On to the statement `t` of the same call. -/
def TxState.goto (s : TxState P A) (c : TxCall P A) (t : TxStmt) : TxState P A :=
  { s with call := some { c with stmt := t } }

/-! ## The CPU -/

/-- `process_tx_descr(q, first, last)` at one of its statements. -/
def TxState.processTxDescr [DecidableEq P] (s : TxState P A) (c : TxCall P A)
    (q : Pbuf P A) : FragStmt → TxState P A
  | .wait => if (s.ring s.cur).own then s else s.goto c (.frag .freeOld)
  | .freeOld =>
      match (s.ring s.cur).pbuf with
      | none => s.goto c (.frag .ref)
      | some old => { s with freed := s.freed ++ [old.addr] }.goto c (.frag .ref)
  | .ref => { s with refd := s.refd ++ [q.addr] }.goto c (.frag .setPbuf)
  | .setPbuf => (s.store fun d => { d with pbuf := some q }).goto c (.frag .clearFrame)
  | .clearFrame =>
      (s.store fun d =>
        { d with Status := d.Status &&& ~~~(ETH_TDES0_FS ||| ETH_TDES0_LS) }).goto c
        (.frag .setFirst)
  | .setFirst =>
      if c.first q then
        (s.store fun d => { d with Status := d.Status ||| ETH_TDES0_FS }).goto c (.frag .setLast)
      else s.goto c (.frag .setLast)
  | .setLast =>
      if c.last then
        (s.store fun d => { d with Status := d.Status ||| ETH_TDES0_LS }).goto c (.frag .setBuf)
      else s.goto c (.frag .setBuf)
  | .setBuf =>
      (s.store fun d => { d with Buffer1Addr := some q.payload }).goto c (.frag .setSize)
  | .setSize =>
      (s.store fun d => { d with ControlBufferSize := q.len.zeroExtend 32 }).goto c
        (.frag .setOwn)
  | .setOwn =>
      { s.store fun d => { d with Status := d.Status ||| ETH_TDES0_OWN } with
        queued := s.queued + 1 }.goto c (.frag .advance)
  | .advance =>
      { s with
        cur := (s.ring s.cur).Buffer2NextDescAddr
        call := some { c with k := c.k + 1, stmt := .loop } }

/-- The running `ethernetif_output` takes its next statement. -/
def TxState.ethernetifOutput [DecidableEq P] (s : TxState P A) : Option (TxState P A) :=
  match s.call with
  | none => none
  | some c =>
    match c.stmt with
    | .loop => some (s.goto c (if c.q.isSome then .frag .wait else .testTbus))
    | .frag f => c.q.map fun q => s.processTxDescr c q f
    | .testTbus => some (if s.tbus then s.goto c .ackTbus else { s with call := none })
    | .ackTbus => some ({ s with tbus := false }.goto c .poll)
    | .poll => some { s with suspended := false, call := none }

/-! ## The DMA -/

/-- The DMA transmits what its descriptor holds, closes it and follows the link. -/
def TxState.transmit (s : TxState P A) (wb : BitVec 32) : TxState P A :=
  { s with
    ring := Function.update s.ring s.pos
      { s.ring s.pos with Status := txWriteBack (s.ring s.pos).Status wb }
    pos := (s.ring s.pos).Buffer2NextDescAddr
    wire := s.wire ++ [(s.ring s.pos).entry] }

/-- The DMA fetched a descriptor it does not own. -/
def TxState.suspend (s : TxState P A) : TxState P A := { s with suspended := true, tbus := true }

/-- The DMA at its current descriptor: transmit it if it owns it, else suspend. `wb` is what
    it reports in the status bits. -/
def TxState.dma (s : TxState P A) (wb : BitVec 32) : Option (TxState P A) :=
  if s.suspended then none
  else if (s.ring s.pos).own then some (s.transmit wb)
  else some s.suspend

/-! ## The machine -/

inductive TxAct (P A : Type)
  | output (p : PbufChain P A)  -- ethernetif_output(netif, p) is called
  | cpu                         -- it takes its next statement
  | dma (wb : BitVec 32)        -- the DMA takes a step

def txStep [DecidableEq P] (s : TxState P A) : TxAct P A → Option (TxState P A)
  | .output p =>
      match s.call with
      | some _ => none
      | none => some { s with call := some { p, k := 0, stmt := .loop }, sent := s.sent ++ [p] }
  | .cpu => s.ethernetifOutput
  | .dma wb => s.dma wb

/-! ### What a step can be -/

/-- The DMA runs, and transmits its descriptor or finds that it is not its own. -/
theorem txDma_cases {s t : TxState P A} {wb : BitVec 32} (h : s.dma wb = some t) :
    s.suspended = false ∧
      (((s.ring s.pos).own = true ∧ t = s.transmit wb) ∨
        ((s.ring s.pos).own = false ∧ t = s.suspend)) := by
  unfold TxState.dma at h
  split at h
  · simp at h
  next hsus =>
    refine ⟨by simpa using hsus, ?_⟩
    split at h
    next hown => exact .inl ⟨hown, (Option.some.inj h).symm⟩
    next hown => exact .inr ⟨by simpa using hown, (Option.some.inj h).symm⟩

variable [DecidableEq P]

theorem txStep_output {s t : TxState P A} {p : PbufChain P A}
    (h : txStep s (.output p) = some t) :
    s.call = none ∧
      t = { s with call := some { p, k := 0, stmt := .loop }, sent := s.sent ++ [p] } := by
  simp only [txStep] at h
  split at h
  · simp at h
  next hcall => exact ⟨hcall, (Option.some.inj h).symm⟩

/-- A statement of the running `ethernetif_output`. -/
theorem ethernetifOutput_cases {s t : TxState P A} (h : s.ethernetifOutput = some t) :
    ∃ c, s.call = some c ∧
      ((c.stmt = .loop ∧ t = s.goto c (if c.q.isSome then .frag .wait else .testTbus)) ∨
        (∃ f q, c.stmt = .frag f ∧ c.q = some q ∧ t = s.processTxDescr c q f) ∨
        (c.stmt = .testTbus ∧ s.tbus = true ∧ t = s.goto c .ackTbus) ∨
        (c.stmt = .testTbus ∧ s.tbus = false ∧ t = { s with call := none }) ∨
        (c.stmt = .ackTbus ∧ t = { s with tbus := false }.goto c .poll) ∨
        (c.stmt = .poll ∧ t = { s with suspended := false, call := none })) := by
  unfold TxState.ethernetifOutput at h
  split at h
  · simp at h
  next c hcall =>
    refine ⟨c, hcall, ?_⟩
    split at h
    next hstmt => exact .inl ⟨hstmt, (Option.some.inj h).symm⟩
    next f hstmt =>
      obtain ⟨q, hq, rfl⟩ := Option.map_eq_some_iff.mp h
      exact .inr (.inl ⟨f, q, hstmt, hq, rfl⟩)
    next hstmt =>
      obtain rfl := Option.some.inj h
      split
      next htbus => exact .inr (.inr (.inl ⟨hstmt, htbus, rfl⟩))
      next htbus => exact .inr (.inr (.inr (.inl ⟨hstmt, by simpa using htbus, rfl⟩)))
    next hstmt =>
      exact .inr (.inr (.inr (.inr (.inl ⟨hstmt, (Option.some.inj h).symm⟩))))
    next hstmt =>
      exact .inr (.inr (.inr (.inr (.inr ⟨hstmt, (Option.some.inj h).symm⟩))))

end Machine

end EthernetIf

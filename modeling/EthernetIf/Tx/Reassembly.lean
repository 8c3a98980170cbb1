import EthernetIf.Lib.Framing
import EthernetIf.Tx.Invariant

/-!
# What the MAC makes of the wire

The MAC knows nothing of pbuf chains. It begins a frame where a descriptor has
`ETH_TDES0_FS`, appends the buffers that follow, and ends it at `ETH_TDES0_LS`. What it makes
of the descriptors it has been given, whatever the interleaving, is the submitted chains.
-/

namespace EthernetIf

open Lts

variable {P A : Type}

/-- What an entry brings to a frame: a buffer, and how much of it. -/
def TxEntry.tagged (e : TxEntry A) : Tagged (Option A × BitVec 32) :=
  { data := (e.payload, e.len), first := e.first, last := e.last }

/-- The buffers of a chain. -/
def PbufChain.buffers (c : PbufChain P A) : List (Option A × BitVec 32) :=
  c.frags.map fun q => (some q.payload, q.len.zeroExtend 32)

/-- The frames the MAC makes of what the DMA read from the ring. -/
def macFrames (wire : List (TxEntry A)) : Framer (Option A × BitVec 32) :=
  Framer.run {} (wire.map TxEntry.tagged)

theorem PbufChain.tagged_entries (c : PbufChain P A) :
    c.entries.map TxEntry.tagged = tag c.buffers := by
  apply List.ext_getElem?
  intro i
  simp only [PbufChain.entries, tag, PbufChain.buffers, List.getElem?_map, List.getElem?_mapIdx,
    List.length_map, Option.map_map]
  rfl

theorem PbufChain.buffers_ne_nil (c : PbufChain P A) : c.buffers ≠ [] := by
  simp [PbufChain.buffers, PbufChain.frags]

/-- What was submitted is a stream of the chains' messages. -/
theorem tagged_entriesOf (sent : List (PbufChain P A)) :
    (entriesOf sent).map TxEntry.tagged = (sent.map PbufChain.buffers).flatMap tag := by
  simp only [entriesOf, List.map_flatMap, PbufChain.tagged_entries, List.flatMap_map]

variable [DecidableEq P]

/-- **The MAC transmits the submitted chains**, each as one frame with its buffers in order.
    In every state any run reaches, the descriptors it has been given are all of what was
    submitted, and it has made each chain into a frame; or it has made a frame of each chain
    before some chain, and has begun that one with a proper part of its buffers. It never meets
    a first segment inside a frame, or one outside. -/
theorem tx_reassembles (N : Nat) (hN : 0 < N) (as : List (TxAct P A)) (s : TxState P A)
    (hrun : exec txStep (TxState.init P A N) as = some s) :
    (s.wire = entriesOf s.sent ∧
      macFrames s.wire = { frames := s.sent.map PbufChain.buffers }) ∨
    ∃ pre p post j, s.sent = pre ++ p :: post ∧ j < p.frags.length ∧
      s.wire = entriesOf pre ++ p.entries.take j ∧
      macFrames s.wire = { frames := pre.map PbufChain.buffers, part := p.buffers.take j } := by
  have hprefix : s.wire <+: entriesOf s.sent := by
    rw [(txInv_exec hN hrun).ring.wire_eq]
    exact List.take_prefix _ _
  have hne : ∀ sent : List (PbufChain P A), ∀ m ∈ sent.map PbufChain.buffers, m ≠ [] := by
    intro sent m hm
    obtain ⟨p, -, rfl⟩ := List.mem_map.mp hm
    exact p.buffers_ne_nil
  rcases prefix_flatMap hprefix with hall | ⟨pre, p, post, j, hsent, hj, hwire⟩
  · refine .inl ⟨hall, ?_⟩
    rw [hall]
    exact (congrArg (Framer.run {}) (tagged_entriesOf s.sent)).trans
      (Framer.run_flatMap_tag [] 0 (hne s.sent))
  · rw [PbufChain.length_entries] at hj
    refine .inr ⟨pre, p, post, j, hsent, hj, hwire, ?_⟩
    have htags : s.wire.map TxEntry.tagged =
        (pre.map PbufChain.buffers).flatMap tag ++ (tag p.buffers).take j := by
      rw [hwire, List.map_append, List.map_take, PbufChain.tagged_entries]
      exact congrArg (· ++ _) (tagged_entriesOf pre)
    rw [macFrames, htags]
    exact Framer.run_part (hne pre) (by simpa [PbufChain.buffers] using hj)

/-- A frame of two pbufs and one of a single pbuf on a ring of one slot: the DMA has been given
    the first frame. -/
theorem tx_reassembles_pair :
    ∃ s : TxState Nat Nat,
      exec txStep (TxState.init Nat Nat 1) (List.flatten
        [[.output
          { head := { addr := 0, payload := 0, tot_len := 2, len := 1 },
            tail := [{ addr := 1, payload := 1, tot_len := 1, len := 1 }],
            nodup := by decide }],
        List.replicate 13 .cpu, [.dma 0#32], List.replicate 13 .cpu,
        [.dma 0#32, .output
          { head := { addr := 2, payload := 2, tot_len := 1, len := 1 }, tail := [],
            nodup := by decide }]]) = some s ∧
      (macFrames s.wire).frames = [[(some 0, 1#32), (some 1, 1#32)]] ∧
      ∃ pre p post j, s.sent = pre ++ p :: post ∧ j < p.frags.length ∧
        s.wire = entriesOf pre ++ p.entries.take j ∧
        macFrames s.wire = { frames := pre.map PbufChain.buffers, part := p.buffers.take j } := by
  apply exists_exec (fun s => (macFrames s.wire).frames == [[(some 0, 1#32), (some 1, 1#32)]] &&
    s.wire.length != (entriesOf s.sent).length) (by decide +kernel)
  intro s hrun hs
  obtain ⟨hframes, hlen⟩ := Bool.and_eq_true_iff.mp hs
  refine ⟨by simpa using hframes, ?_⟩
  rcases tx_reassembles 1 (by decide) _ s hrun with ⟨hall, -⟩ | hpart
  · rw [hall] at hlen
    simp at hlen
  · exact hpart

end EthernetIf

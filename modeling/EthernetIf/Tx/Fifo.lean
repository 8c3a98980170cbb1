import EthernetIf.Tx.Invariant

/-!
# The transmit ring is a faithful FIFO

What the DMA consumed is a prefix of what was submitted; the CPU keeps its hands off a
descriptor the DMA owns; and the control bits set at initialisation survive every use of a
slot. All of it is read off `TxInv`.
-/

namespace EthernetIf

open Lts Ring

variable {P A : Type} [DecidableEq P]

/-- The statements that write a field of the descriptor at `tx_cur_dma_desc`. -/
def TxStmt.writesDesc : TxStmt → Bool
  | .frag .setPbuf | .frag .clearFrame | .frag .setFirst | .frag .setLast
  | .frag .setBuf | .frag .setSize | .frag .setOwn => true
  | _ => false

/-- **Frame rule of the CPU**: a statement changes no descriptor but the one at the cursor,
    and that one only where `writesDesc` says so. -/
theorem ethernetifOutput_frame {s t : TxState P A} (hstep : s.ethernetifOutput = some t)
    {i : Nat} (hi : t.ring i ≠ s.ring i) :
    i = s.cur ∧ ∃ c, s.call = some c ∧ c.stmt.writesDesc = true := by
  obtain ⟨c, hcall, ⟨-, rfl⟩ | ⟨f, q, hstmt, -, rfl⟩ | ⟨-, -, rfl⟩ | ⟨-, -, rfl⟩ | ⟨-, rfl⟩ |
    ⟨-, rfl⟩⟩ := ethernetifOutput_cases hstep
  · exact absurd rfl hi
  · have hstore : ∀ d, Function.update s.ring s.cur d i ≠ s.ring i → i = s.cur := by
      intro d hne
      by_contra hic
      exact hne (Function.update_of_ne hic _ _)
    cases f with
    | wait | freeOld =>
      simp only [TxState.processTxDescr] at hi
      split at hi <;> exact absurd rfl hi
    | ref | advance => exact absurd rfl hi
    | setPbuf | clearFrame | setBuf | setSize | setOwn =>
      exact ⟨hstore _ hi, c, hcall, by rw [hstmt]; rfl⟩
    | setFirst | setLast =>
      simp only [TxState.processTxDescr] at hi
      split at hi
      · exact ⟨hstore _ hi, c, hcall, by rw [hstmt]; rfl⟩
      · exact absurd rfl hi
  · exact absurd rfl hi
  · exact absurd rfl hi
  · exact absurd rfl hi
  · exact absurd rfl hi

/-- The CPU writes only into a descriptor it owns. -/
theorem TxInv.writes_unowned {N : Nat} {s : TxState P A} (h : TxInv N s) {c : TxCall P A}
    (hcall : s.call = some c) (hw : c.stmt.writesDesc = true) : (s.ring s.cur).own = false := by
  obtain ⟨base, hat⟩ := h.call c hcall
  cases hstmt : c.stmt with
  | frag f =>
    rw [hstmt] at hw
    obtain ⟨q, -, hfill⟩ := hat.frag f hstmt
    have hroom := hfill.room (by rintro rfl; simp [TxStmt.writesDesc] at hw)
      (by rintro rfl; simp [TxStmt.writesDesc] at hw)
    rw [hat.cur_eq (by rw [hstmt]; rintro h; simp [h, TxStmt.writesDesc] at hw)]
    exact h.ring.idle s.queued (Nat.le_refl _) hroom
  | loop | testTbus | ackTbus | poll => simp [hstmt, TxStmt.writesDesc] at hw

/-- **The transmit ring is a faithful FIFO.** In every state any run reaches: the consumed
    entries are a prefix of the submitted ones; the handed-over descriptors are submitted
    fragments, all of them once the call has returned, and at most `N` are not consumed yet; a
    statement that writes a descriptor finds OWN clear there, so no step of the CPU changes a
    descriptor the DMA owns; and every descriptor the DMA owns carries the chained and
    checksum-insertion bits. -/
theorem txRing_fifo (N : Nat) (hN : 0 < N) (as : List (TxAct P A)) (s : TxState P A)
    (hrun : exec txStep (TxState.init P A N) as = some s) :
    s.wire <+: entriesOf s.sent ∧
    s.queued ≤ (entriesOf s.sent).length ∧
    (s.call = none → s.queued = (entriesOf s.sent).length) ∧
    s.wire.length ≤ s.queued ∧ s.queued ≤ s.wire.length + N ∧
    (∀ c, s.call = some c → c.stmt.writesDesc = true → (s.ring s.cur).own = false) ∧
    (∀ t, txStep s .cpu = some t → ∀ i, (s.ring i).own = true → t.ring i = s.ring i) ∧
    (∀ i < N, (s.ring i).own = true → (s.ring i).keepsInitBits = true) := by
  have h := txInv_exec hN hrun
  refine ⟨?_, h.ring.submitted, fun hcall => (h.quiet hcall).1, h.ring.wire_le,
    h.ring.queued_le, fun c hc => h.writes_unowned hc, ?_, fun i hi _ => h.ring.bits i hi⟩
  · rw [h.ring.wire_eq]
    exact List.take_prefix _ _
  · intro t ht i hown
    by_contra hne
    obtain ⟨rfl, c, hc, hw⟩ := ethernetifOutput_frame ht hne
    exact absurd (hown.symm.trans (h.writes_unowned hc hw)) (by simp)

/-- A frame of two pbufs on a ring of one slot: the DMA has sent the first of them. -/
theorem txRing_fifo_pair :
    ∃ s : TxState Nat Nat,
      exec txStep (TxState.init Nat Nat 1) (.output
        { head := { addr := 0, payload := 0, tot_len := 2, len := 1 },
          tail := [{ addr := 1, payload := 1, tot_len := 1, len := 1 }],
          nodup := by decide } :: List.replicate 13 .cpu ++ [.dma 0#32]) = some s ∧
      s.wire.length = 1 ∧ s.wire <+: entriesOf s.sent ∧ s.queued ≤ s.wire.length + 1 := by
  apply exists_exec (fun s => s.wire.length == 1) (by decide +kernel)
  intro s hrun hwire
  have hfifo := txRing_fifo 1 (by decide) _ s hrun
  exact ⟨by simpa using hwire, hfifo.1, hfifo.2.2.2.2.1⟩

end EthernetIf

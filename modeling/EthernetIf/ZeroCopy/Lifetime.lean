import EthernetIf.ZeroCopy.Steps

/-!
# The lifetime of a transmit reference

Two halves. The log (`TxRefs`) says which reference is dropped when: that of fragment `k` by
the fragment `k + N`, in the slot they share, after the DMA gave the slot back. The books
(`SysInv`) say that this is what the counts are: a pbuf lives as long as somebody can be named
who holds it, and a descriptor the DMA owns is somebody.
-/

namespace EthernetIf

open Lts Ring RefCount

variable {P A : Type}

section Tx

variable [DecidableEq P]

/-- Past the wait there is room on the ring. -/
theorem TxInv.room_of_phase {N : Nat} {s : TxState P A} (h : TxInv N s)
    (hphase : s.phase FragStmt.pastStore ≠ 0) : s.queued < s.wire.length + N := by
  unfold TxState.phase at hphase
  split at hphase
  · exact absurd rfl hphase
  next c hc =>
    obtain ⟨base, hat⟩ := h.call c hc
    split at hphase
    next f hstmt =>
      obtain ⟨q, -, hfill⟩ := hat.frag f hstmt
      refine hfill.room ?_ ?_ <;>
        (rintro rfl; exact absurd rfl hphase)
    next => exact absurd rfl hphase

/-- Between `pbuf_free` and the store of the new pointer, in the descriptor at the cursor. -/
def TxState.replacing (s : TxState P A) : Bool :=
  s.call.any fun c => c.stmt = .frag .ref || c.stmt = .frag .setPbuf

omit [DecidableEq P] in
theorem TxState.holds_of_not_replacing {s : TxState P A} (h : s.replacing = false) :
    s.holds = s.ptr := by
  apply TxState.holds_eq
  intro c hc
  simpa [TxState.replacing, hc] using h

omit [DecidableEq P] in
theorem TxState.holds_of_ne {s : TxState P A} {i : Nat} (hi : i ≠ s.cur) :
    s.holds i = s.ptr i := by
  have hwrite : s.holds = s.ptr ∨ ∃ o, s.holds = Function.update s.ptr s.cur o := by
    unfold TxState.holds
    split
    · exact .inl rfl
    · split
      · exact .inr ⟨_, rfl⟩
      · exact .inr ⟨_, rfl⟩
      · exact .inl rfl
  rcases hwrite with hptr | ⟨o, hupd⟩
  · rw [hptr]
  · rw [hupd, Function.update_of_ne hi]

/-- The descriptor being refilled is the CPU's. -/
theorem TxInv.own_of_replacing {N : Nat} {s : TxState P A} (h : TxInv N s)
    (hrep : s.replacing = true) : (s.ring s.cur).own = false := by
  unfold TxState.replacing at hrep
  cases hc : s.call with
  | none => simp [hc] at hrep
  | some c =>
    obtain ⟨base, hat⟩ := h.call c hc
    have hstmt : ∃ f, c.stmt = .frag f ∧ f ≠ .wait ∧ f ≠ .advance := by
      simp only [hc, Option.any_some, Bool.or_eq_true, decide_eq_true_eq] at hrep
      rcases hrep with hstmt | hstmt <;> exact ⟨_, hstmt, by simp, by simp⟩
    obtain ⟨f, hstmt, hw, ha⟩ := hstmt
    obtain ⟨q, -, hfill⟩ := hat.frag f hstmt
    rw [hat.cur_eq (by simpa [hstmt] using ha)]
    exact h.ring.idle s.queued (Nat.le_refl _) (hfill.room hw ha)

/-- A descriptor the DMA owns points to the fragment of its use, and holds it. -/
theorem TxInv.own_ptr {N : Nat} {s : TxState P A} (h : TxInv N s) (hr : TxRefs N s) {i : Nat}
    (hi : i < N) (hown : (s.ring i).own = true) :
    ∃ k, (entriesOf s.sent)[k]? = some (s.ring i).entry ∧ k < (addrsOf s.sent).length ∧
      s.ptr i = (addrsOf s.sent)[k]? ∧ s.holds i = s.ptr i := by
  obtain ⟨k, hwire, hqueued, hmod⟩ := h.ring.flies_of_own hi hown
  have hphase : s.phase FragStmt.pastStore ≤ 1 := by
    unfold TxState.phase
    split
    · exact Nat.zero_le 1
    · split
      · split <;> omega
      · exact Nat.zero_le 1
  have hroom := h.room_of_phase
  -- the slot's next use is `k + N`, and what it holds for that use is fragment `k`
  have hslot := hr.slots (k + N)
    (by have := h.ring.queued_le; omega) (by omega)
  have hrefd := hr.refd_len
  rw [Nat.add_mod_right, hmod, previous, if_neg (by omega), Nat.add_sub_cancel] at hslot
  have hsent : s.refd[k]? = (addrsOf s.sent)[k]? := by
    rw [congrArg (fun l => l[k]?) hr.refd_eq]
    exact List.getElem?_take_of_lt (by omega)
  have hentry := (h.ring.fly k hwire hqueued).2
  rw [hmod] at hentry
  have hlen := h.ring.submitted
  refine ⟨k, hentry, by rw [length_addrsOf]; omega, hslot.trans hsent, ?_⟩
  cases hrep : s.replacing with
  | false => rw [TxState.holds_of_not_replacing hrep]
  | true =>
    have hne : i ≠ s.cur := by
      rintro rfl
      exact absurd (hown.symm.trans (h.own_of_replacing hrep)) (by simp)
    exact TxState.holds_of_ne hne

/-- **A descriptor the DMA owns holds a reference to its pbuf.** -/
theorem TxInv.own_holds {N : Nat} {s : TxState P A} (h : TxInv N s) (hr : TxRefs N s) {i : Nat}
    (hi : i < N) (hown : (s.ring i).own = true) :
    ∃ q, (s.ring i).pbuf = some q ∧ s.holds i = some q.addr := by
  obtain ⟨k, -, hlt, hptr, hholds⟩ := h.own_ptr hr hi hown
  rw [List.getElem?_eq_getElem hlt] at hptr
  obtain ⟨q, hq, hqa⟩ := Option.map_eq_some_iff.mp hptr
  refine ⟨q, hq, ?_⟩
  rw [hholds, hptr, hqa]

/-- What `pbuf_free` of the old pbuf finds. -/
theorem TxRefs.at_freeOld {N : Nat} (hN : 0 < N) {s : TxState P A} (h : TxInv N s)
    (hr : TxRefs N s) {c : TxCall P A} {old : Pbuf P A} (hc : s.call = some c)
    (hstmt : c.stmt = .frag .freeOld) (hold : (s.ring s.cur).pbuf = some old) :
    (s.ring s.cur).own = false ∧ s.queued = s.freed.length + N ∧
      s.refd[s.freed.length]? = some old.addr ∧ s.holds s.cur = some old.addr := by
  obtain ⟨base, hat⟩ := h.call c hc
  obtain ⟨q, -, hroom⟩ := hat.frag .freeOld hstmt
  have hcur := hat.cur_eq (by simp [hstmt])
  have hphase : ∀ f : FragStmt → Bool, f .freeOld = false → s.phase f = 0 := by
    intro f hf
    simp [TxState.phase, hc, hstmt, hf]
  have hslot := hr.slots s.queued (by rw [hphase _ rfl]; exact Nat.le_refl _) (by
    rw [hphase _ rfl]
    exact Nat.lt_add_of_pos_right hN)
  have hfreed := hr.freed_len
  rw [hphase _ rfl, Nat.add_zero] at hfreed
  rw [← hcur, hold, previous] at hslot
  split at hslot
  next => simp at hslot
  next hturn =>
    refine ⟨?_, by omega, ?_, ?_⟩
    · rw [hcur]
      exact h.ring.idle s.queued (Nat.le_refl _) hroom
    · rw [hfreed, ← hslot]
      rfl
    · rw [TxState.holds_of_not_replacing (by simp [TxState.replacing, hc, hstmt]),
        TxState.ptr, hold]
      rfl

end Tx

variable [DecidableEq P] [Fintype P] [DecidableEq A]

/-- **The lifetime of a transmit reference is exact.** In every state any run reaches, of both
    rings and of lwIP taking, dropping and relinking references as its rules allow:

    * the count of each pbuf is what is held outside the transmit ring, by lwIP and by receive
      descriptors, plus the transmit descriptors that hold it, plus the live pbufs linked to it;
    * a descriptor the DMA owns holds its pbuf, which is live;
    * references are taken for the submitted fragments in order and dropped in the same order,
      at most `N` of them are held, and between calls all but the last `N` are dropped;
    * `pbuf_free` drops the reference taken `N` fragments ago, for the descriptor at the
      cursor, when the DMA has released it, and finds the pbuf live. -/
theorem tx_references_exact (N B : Nat) (hN : 0 < N) (alloc : Nat → Option (Pbuf P A))
    (pool : Heap P (PbufData A)) (hpool : ∀ p, (pool p).ref = 0) (s₀ s : Sys P A)
    (hinit : Sys.init N B alloc pool = some s₀) (as : List (SysAct P A))
    (hrun : exec sysStep s₀ as = some s) :
    (∀ p, (s.heap p).ref =
      (s.lwip p + holders N s.rx.holds p) + holders N s.tx.holds p + links s.heap p) ∧
    (∀ i < N, (s.tx.ring i).own = true → ∃ q, (s.tx.ring i).pbuf = some q ∧
      s.tx.holds i = some q.addr ∧ 0 < (s.heap q.addr).ref) ∧
    s.tx.refd <+: addrsOf s.tx.sent ∧ s.tx.freed <+: s.tx.refd ∧
    s.tx.refd.length ≤ s.tx.freed.length + N ∧
    (s.tx.call = none →
      s.tx.refd.length = s.tx.queued ∧ s.tx.freed.length = s.tx.queued - N) ∧
    (∀ c old, s.tx.call = some c → c.stmt = .frag .freeOld →
      (s.tx.ring s.tx.cur).pbuf = some old →
      (s.tx.ring s.tx.cur).own = false ∧ s.tx.queued = s.tx.freed.length + N ∧
      s.tx.refd[s.tx.freed.length]? = some old.addr ∧ 0 < (s.heap old.addr).ref) := by
  have h := sysInv_exec hN hpool hinit hrun
  have hlive : ∀ i < N, ∀ x, s.tx.holds i = some x → 0 < (s.heap x).ref := by
    intro i hi x hx
    have hpos := holders_pos hi hx
    apply h.balanced.ref_pos
    simp only [Sys.held, Pi.add_apply]
    omega
  refine ⟨fun p => ?_, fun i hi hown => ?_, ?_, ?_, ?_, fun hc => ?_, fun c old hc hstmt hold => ?_⟩
  · have hbal := h.balanced p
    simp only [Sys.held, Pi.add_apply] at hbal
    omega
  · obtain ⟨q, hq, hx⟩ := h.tx.own_holds h.refs hi hown
    exact ⟨q, hq, hx, hlive i hi _ hx⟩
  · rw [h.refs.refd_eq]
    exact List.take_prefix _ _
  · rw [h.refs.freed_eq]
    exact List.take_prefix _ _
  · have hphase : s.tx.phase FragStmt.pastRef ≤ s.tx.phase FragStmt.pastFree := by
      unfold TxState.phase
      split
      · exact Nat.le_refl 0
      · split
        next f _ => cases f <;> decide
        next => exact Nat.le_refl 0
    have hrefd := h.refs.refd_len
    have hfreed := h.refs.freed_len
    omega
  · have hphase : ∀ f, s.tx.phase f = 0 := fun f => by simp [TxState.phase, hc]
    have hrefd := h.refs.refd_len
    have hfreed := h.refs.freed_len
    rw [hphase, Nat.add_zero] at hrefd hfreed
    exact ⟨hrefd, hfreed⟩
  · obtain ⟨hown, hq, hrefd, hx⟩ := TxRefs.at_freeOld hN h.tx h.refs hc hstmt hold
    exact ⟨hown, hq, hrefd, hlive _ (h.txCur_lt hN hc) _ hx⟩

/-- lwIP sends a pbuf twice over a ring of one slot and drops it: the second fragment frees the
    reference of the first, which is to the same pbuf. -/
theorem tx_references_sentTwice :
    ∃ s₀ s : Sys (Fin 2) Nat,
      Sys.init (P := Fin 2) (A := Nat) 1 1536
        (fun _ => some { addr := 0, payload := 0, tot_len := 0, len := 0 })
        (fun _ => { ref := 0, next := none, val := { payload := 0, tot_len := 0, len := 0 } }) =
          some s₀ ∧
      exec sysStep s₀ (.alloc 1 { payload := 1, tot_len := 60, len := 60 } ::
        .output { head := { addr := 1, payload := 1, tot_len := 60, len := 60 },
                  tail := [], nodup := by decide } ::
        List.replicate 14 .txCpu ++ .txDma 0 ::
        .output { head := { addr := 1, payload := 1, tot_len := 60, len := 60 },
                  tail := [], nodup := by decide } ::
        List.replicate 14 .txCpu ++ [.free 1]) = some s ∧
      s.tx.refd = [1, 1] ∧ s.tx.freed = [1] ∧
      (∀ p, (s.heap p).ref =
        (s.lwip p + holders 1 s.rx.holds p) + holders 1 s.tx.holds p + links s.heap p) := by
  refine exists_init_exec (fun s => s.tx.refd == [1, 1] && s.tx.freed == [1])
    (by decide +kernel) fun s₀ s hinit hrun hs => ?_
  rw [Bool.and_eq_true, beq_iff_eq, beq_iff_eq] at hs
  exact ⟨hs.1, hs.2,
    (tx_references_exact 1 1536 (by decide) _ _ (fun _ => rfl) s₀ s hinit _ hrun).1⟩

end EthernetIf

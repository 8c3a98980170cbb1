import EthernetIf.Rx.Model

/-!
# A call of `process_rx_descr`, undisturbed

`exec_processRxDescr`: the statements of a call taken one after the other are the function
`processRxDescr`. Then what the function does in each of its cases, which is all that the
later modules use of it.
-/

namespace EthernetIf

open Lts

variable {P A : Type}

/-! ## The statements are the function

The program counter is a field of the state like any other, so it commutes with every store:
`goto` moves to the outside of a state expression, where the next statement finds it. -/

@[simp] theorem goto_desc (s : RxState P A) (t : RxStmt) : (s.goto t).desc = s.desc := rfl

@[simp] theorem goto_rbus (s : RxState P A) (t : RxStmt) : (s.goto t).rbus = s.rbus := rfl

@[simp] theorem goto_goto (s : RxState P A) (t u : RxStmt) : (s.goto t).goto u = s.goto u := rfl

@[simp] theorem goto_return (s : RxState P A) (t : RxStmt) (r : Nat) :
    (s.goto t).return r = s.return r := rfl

@[simp] theorem goto_setLen (s : RxState P A) (t : RxStmt) :
    (s.goto t).setLen = s.setLen.goto t := rfl

@[simp] theorem goto_offer (s : RxState P A) (t : RxStmt) :
    (s.goto t).offer = s.offer.goto t := rfl

@[simp] theorem goto_freePbuf (s : RxState P A) (t : RxStmt) :
    (s.goto t).freePbuf = s.freePbuf.goto t := rfl

@[simp] theorem goto_setPbuf (s : RxState P A) (t : RxStmt) (fresh : Option (Pbuf P A)) :
    (s.goto t).setPbuf fresh = (s.setPbuf fresh).goto t := rfl

@[simp] theorem goto_setBuf (s : RxState P A) (t : RxStmt) :
    (s.goto t).setBuf = s.setBuf.goto t := rfl

@[simp] theorem goto_setOwn (s : RxState P A) (t : RxStmt) :
    (s.goto t).setOwn = s.setOwn.goto t := rfl

@[simp] theorem goto_ackRbus (s : RxState P A) (t : RxStmt) :
    (s.goto t).ackRbus = s.ackRbus.goto t := rfl

@[simp] theorem goto_poll (s : RxState P A) (t : RxStmt) :
    (s.goto t).poll = s.poll.goto t := rfl

@[simp] theorem goto_advance (s : RxState P A) (t : RxStmt) :
    (s.goto t).advance = s.advance.goto t := rfl

@[simp] theorem store_desc (s : RxState P A) (f : DmaDesc P A → DmaDesc P A) :
    (s.store f).desc = f s.desc := Function.update_self ..

@[simp] theorem setPbuf_desc (s : RxState P A) (fresh : Option (Pbuf P A)) :
    (s.setPbuf fresh).desc = { s.desc with pbuf := fresh } := store_desc ..

theorem rxStep_goto_cpu (s : RxState P A) (t : RxStmt) :
    rxStep (s.goto t) .cpu = (s.goto t).stmt t .cpu := rfl

theorem rxStep_goto_input (s : RxState P A) (t : RxStmt) (accept : Bool) :
    rxStep (s.goto t) (.input accept) = (s.goto t).stmt t (.input accept) := rfl

theorem rxStep_goto_alloc (s : RxState P A) (t : RxStmt) (fresh : Option (Pbuf P A)) :
    rxStep (s.goto t) (.alloc fresh) = (s.goto t).stmt t (.alloc fresh) := rfl

/-- The labels of one call whose `netif->input` and `pbuf_alloc` answer as given. -/
def IsCallLabel (accept : Bool) (fresh : Option (Pbuf P A)) (a : RxAct P A) : Prop :=
  a = .call ∨ a = .cpu ∨ a = .input accept ∨ a = .alloc fresh

/-- From the hand-over to the `return 0`. -/
theorem exec_rearm (s : RxState P A) :
    ∃ n, exec rxStep (s.goto .setBuf) (List.replicate n .cpu) =
      some ((if s.setBuf.setOwn.rbus then s.setBuf.setOwn.ackRbus.poll
        else s.setBuf.setOwn).advance.return 0) := by
  have hrbus : s.setBuf.setOwn.rbus = s.rbus := rfl
  cases h : s.rbus with
  | false =>
    refine ⟨4, ?_⟩
    simp [List.replicate, exec_cons, rxStep_goto_cpu, RxState.stmt, hrbus, h]
  | true =>
    refine ⟨6, ?_⟩
    simp [List.replicate, exec_cons, rxStep_goto_cpu, RxState.stmt, hrbus, h]

/-- From the allocation on. -/
theorem exec_refill (s : RxState P A) (accept : Bool) (fresh : Option (Pbuf P A)) :
    ∃ as, (∀ a ∈ as, IsCallLabel accept fresh a) ∧
      exec rxStep (s.goto .alloc) as =
        some (if fresh.isNone then (s.setPbuf fresh).return 1
          else (if (s.setPbuf fresh).setBuf.setOwn.rbus
            then (s.setPbuf fresh).setBuf.setOwn.ackRbus.poll
            else (s.setPbuf fresh).setBuf.setOwn).advance.return 0) := by
  cases fresh with
  | none =>
    refine ⟨[.alloc none, .cpu], by simp [IsCallLabel], ?_⟩
    simp [exec_cons, rxStep_goto_alloc, rxStep_goto_cpu, RxState.stmt]
  | some p =>
    obtain ⟨n, hrun⟩ := exec_rearm (s.setPbuf (some p))
    refine ⟨.alloc (some p) :: .cpu :: List.replicate n .cpu, ?_, ?_⟩
    · simp [IsCallLabel, List.mem_replicate]
    · simpa [exec_cons, rxStep_goto_alloc, rxStep_goto_cpu, RxState.stmt] using hrun

/-- **The statements of a call, taken without interruption, are `processRxDescr`.** -/
theorem exec_processRxDescr (s : RxState P A) (hidle : s.call = none) (accept : Bool)
    (fresh : Option (Pbuf P A)) :
    ∃ as, (∀ a ∈ as, IsCallLabel accept fresh a) ∧
      exec rxStep s as = some (s.processRxDescr accept fresh) := by
  have hcall : rxStep s .call = some (s.goto .checkOwn) := by simp [rxStep, hidle]
  unfold RxState.processRxDescr
  split
  next hown =>
    refine ⟨[.call, .cpu], by simp [IsCallLabel], ?_⟩
    simp [exec_cons, hcall, rxStep_goto_cpu, RxState.stmt, hown]
  next hown =>
  split
  next hpbuf =>
    refine ⟨[.call, .cpu, .cpu], by simp [IsCallLabel], ?_⟩
    simp [exec_cons, hcall, rxStep_goto_cpu, RxState.stmt, hown, hpbuf]
  next hpbuf =>
  split
  next hflags =>
    refine ⟨[.call, .cpu, .cpu, .cpu], by simp [IsCallLabel], ?_⟩
    simp [exec_cons, hcall, rxStep_goto_cpu, RxState.stmt, hown, hpbuf, hflags]
  next hflags =>
  cases accept with
  | true =>
    obtain ⟨as, has, hrun⟩ := exec_refill s.setLen.offer true fresh
    refine ⟨.call :: .cpu :: .cpu :: .cpu :: .cpu :: .input true :: as, ?_, ?_⟩
    · simpa [IsCallLabel] using has
    · simpa [exec_cons, hcall, rxStep_goto_cpu, rxStep_goto_input, RxState.stmt, hown, hpbuf,
        hflags] using hrun
  | false =>
    obtain ⟨as, has, hrun⟩ := exec_refill s.setLen.offer.freePbuf false fresh
    refine ⟨.call :: .cpu :: .cpu :: .cpu :: .cpu :: .input false :: .cpu :: as, ?_, ?_⟩
    · simpa [IsCallLabel] using has
    · simpa [exec_cons, hcall, rxStep_goto_cpu, rxStep_goto_input, RxState.stmt, hown, hpbuf,
        hflags] using hrun

/-! ## What a call does -/

/-- The third test reads two bits. -/
theorem isWholeFrame_eq (w : BitVec 32) :
    isWholeFrame w = (tst w ETH_RDES0_FS && tst w ETH_RDES0_LS) := by
  have hfs : tst w ETH_RDES0_FS = w.getLsbD 9 := tst_bit w (by decide)
  have hls : tst w ETH_RDES0_LS = w.getLsbD 8 := tst_bit w (by decide)
  rw [isWholeFrame, Bool.eq_iff_iff, beq_iff_eq, eq_comm, and_eq_mask_iff, hfs, hls,
    Bool.and_eq_true]
  constructor
  · exact fun h => ⟨h 9 (by decide) (by decide), h 8 (by decide) (by decide)⟩
  · rintro ⟨h9, h8⟩ i hi hm
    have hcase : ∀ i < 32, (ETH_RDES0_LS ||| ETH_RDES0_FS).getLsbD i = true → i = 9 ∨ i = 8 := by
      decide
    rcases hcase i hi hm with rfl | rfl
    · exact h9
    · exact h8

/-- The DMA's write-back clears neither of them. -/
theorem isWholeFrame_closed (w : BitVec 32) :
    isWholeFrame (w &&& ~~~ETH_RDES0_OWN) = isWholeFrame w := by
  rw [isWholeFrame_eq, isWholeFrame_eq, tst_clear_of_disjoint w (by decide),
    tst_clear_of_disjoint w (by decide)]

/-- The three tests at the top pass: the CPU owns the descriptor at the cursor, it has a pbuf,
    and it holds a whole frame. -/
structure Processable (d : DmaDesc P A) : Prop where
  cpu : d.own = false
  pbuf : d.pbuf.isSome = true
  whole : isWholeFrame d.Status = true

/-- Otherwise the call returns 1 and changes nothing. -/
theorem processRxDescr_of_not {s : RxState P A} (h : ¬ Processable s.desc) (accept : Bool)
    (fresh : Option (Pbuf P A)) : s.processRxDescr accept fresh = s.return 1 := by
  unfold RxState.processRxDescr
  split
  · rfl
  next hown =>
  split
  · rfl
  next hpbuf =>
  split
  · rfl
  next hflags =>
    exact absurd ⟨by simpa using hown, by simpa [Option.isSome_iff_ne_none] using hpbuf,
      by simpa using hflags⟩ h

/-- **A call that gets a fresh pbuf** re-arms the descriptor with it and moves on. -/
theorem processRxDescr_some {s : RxState P A} (h : Processable s.desc) (accept : Bool)
    (p : Pbuf P A) :
    (s.processRxDescr accept (some p)).ring = Function.update s.ring s.cur { s.desc with
        Status := ETH_RDES0_OWN, pbuf := some p, Buffer1Addr := some p.payload } ∧
    (s.processRxDescr accept (some p)).cur = s.desc.Buffer2NextDescAddr ∧
    (s.processRxDescr accept (some p)).call = none ∧
    (s.processRxDescr accept (some p)).ret = some 0 ∧
    (s.processRxDescr accept (some p)).pos = s.pos ∧
    (s.processRxDescr accept (some p)).done = s.done ∧
    (s.processRxDescr accept (some p)).rearmed = s.rearmed + 1 := by
  have hpbuf : s.desc.pbuf ≠ none := Option.isSome_iff_ne_none.mp h.pbuf
  unfold RxState.processRxDescr
  rw [if_neg (by simp [h.cpu]), if_neg (by simpa using hpbuf), if_neg (by simp [h.whole])]
  cases accept <;> cases hrbus : s.rbus <;>
    simp [RxState.setLen, RxState.offer, RxState.freePbuf, RxState.setPbuf, RxState.setBuf,
      RxState.setOwn, RxState.ackRbus, RxState.poll, RxState.advance, RxState.return,
      RxState.store, RxState.desc, hrbus]

end EthernetIf

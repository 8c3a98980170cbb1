import EthernetIf.Rx.Recovery
import EthernetIf.Rx.Order

/-!
# Frames that failed a hardware check

The DMA reports what it found wrong with a frame in the status word it closes the descriptor
with. `process_rx_descr` has that word before it, and tests OWN, FS and LS in it and none of the
error bits (`RxState.stmt`).

So it treats an errored frame as it treats any other: it passes it on, or, where FS and LS are
not both set, leaves it where it is. A descriptor is given back only after its frame was offered
(`RxInv.rearmed_le`), so an errored frame is never discarded, and the runs in which the receive
path does what it should with errored frames are the runs in which it finds none
(`rx_screened_iff_clean`). That the receive FIFO keeps frames with a wrong checksum for it
(`DTCEFD`), and that lwIP is compiled without checks of its own, is what makes this matter; it
is no part of the machine.

Which bits of the status word report an error depends on the descriptor format: with the
extended status, bits 7 and 0 are not the checksum errors. It makes no difference to the
driver, and the results are for any choice `errs` of them.
-/

namespace EthernetIf

open Lts Ring

variable {P A : Type}

/-! ## Error bits

In RDES0 as the DMA writes it back. -/

def ETH_RDES0_PCE : BitVec 32 := 1#32 <<< 0
def ETH_RDES0_IPHCE : BitVec 32 := 1#32 <<< 7
def ETH_RDES0_ES : BitVec 32 := 1#32 <<< 15

/-- Error summary, IP header checksum error, payload checksum error. -/
def rdes0Errors : BitVec 32 := ETH_RDES0_ES ||| ETH_RDES0_IPHCE ||| ETH_RDES0_PCE

/-! ## What a run should do with an errored frame -/

/-- The call reads OWN of a descriptor the DMA closed with an error in its status. -/
def FindsErrored (errs : BitVec 32) (s : RxState P A) : RxAct P A → Prop
  | .cpu => s.call = some .checkOwn ∧ s.desc.own = false ∧ tst s.desc.Status errs = true
  | .call | .input _ | .alloc _ | .dma _ => False

instance FindsErrored.decidable (errs : BitVec 32) (s : RxState P A) :
    ∀ a, Decidable (FindsErrored errs s a)
  | .cpu => inferInstanceAs (Decidable (_ ∧ _ ∧ _))
  | .call | .input _ | .alloc _ | .dma _ => inferInstanceAs (Decidable False)

/-- What `netif->input` is given has no error in its status. -/
def PassesClean (errs : BitVec 32) (s : RxState P A) (a : RxAct P A) : Prop :=
  ∀ accept, a = .input accept → s.call = some .input → tst s.desc.Status errs = false

/-- Between `s` and `t` the frame at the cursor was discarded: not offered, its descriptor
    given back, and the cursor moved to the next. -/
structure Discards (N : Nat) (s t : RxState P A) : Prop where
  offered : t.offered = s.offered
  rearmed : t.rearmed = s.rearmed + 1
  cur : t.cur = (s.cur + 1) % N

/-- **What should hold of a run**: only frames without an error are passed to lwIP, and a call
    that finds an errored frame has discarded it when it returns. -/
structure Screened (errs : BitVec 32) (N : Nat) (s₀ : RxState P A) (as : List (RxAct P A)) :
    Prop where
  passes : OnRun rxStep (PassesClean errs) s₀ as
  discards : ∀ pre body post s t, as = pre ++ .cpu :: body ++ post →
    exec rxStep s₀ pre = some s → FindsErrored errs s .cpu →
    RxAct.call ∉ body → exec rxStep s (.cpu :: body) = some t → t.call = none → Discards N s t

/-! ## Runs that find no errored frame -/

/-- The statements at which a frame that was found has not been offered yet. -/
def RxStmt.examines : RxStmt → Bool
  | .checkPbuf | .checkFlags | .setLen | .input => true
  | _ => false

/-- The frame the call is looking at has no error. -/
def Examined (errs : BitVec 32) (s : RxState P A) : Prop :=
  ∀ st, s.call = some st → st.examines = true →
    s.desc.own = false ∧ tst s.desc.Status errs = false

/-- No step of the DMA changes the call, or the descriptor it is looking at. -/
theorem dma_keeps {s t : RxState P A} {w : BitVec 32} (hstep : s.dma w = some t) :
    t.call = s.call ∧ (s.desc.own = false → t.desc = s.desc) := by
  obtain ⟨-, ⟨hown, rfl⟩ | ⟨-, rfl⟩⟩ := rxDma_cases hstep
  · refine ⟨rfl, fun hcpu => ?_⟩
    have hne : s.cur ≠ s.pos := by
      intro heq
      rw [← heq] at hown
      exact absurd (hown.symm.trans hcpu) (by simp)
    exact Function.update_of_ne hne _ _
  · exact ⟨rfl, fun _ => rfl⟩

/-- A statement that goes on to one that does not examine the frame. -/
theorem Examined.of_call {errs : BitVec 32} {s : RxState P A}
    (h : s.call.any RxStmt.examines = false) : Examined errs s := by
  intro st hst hex
  rw [hst, Option.any_some, hex] at h
  cases h

/-- The call goes on with the same frame. -/
theorem Examined.goto {errs : BitVec 32} {s : RxState P A} {st : RxStmt}
    (h : s.desc.own = false ∧ tst s.desc.Status errs = false) : Examined errs (s.goto st) := by
  intro _ _ _
  exact h

theorem examined_cpu {errs : BitVec 32} {s t : RxState P A} {st : RxStmt} (h : Examined errs s)
    (hcall : s.call = some st) (hclean : ¬ FindsErrored errs s .cpu)
    (hstep : s.stmt st .cpu = some t) : Examined errs t := by
  cases st with
  | input | alloc => simp [RxState.stmt] at hstep
  | checkOwn =>
    cases hstep
    split
    next => exact .of_call rfl
    next hown =>
      have hcpu : s.desc.own = false := by simpa using hown
      have hgood : tst s.desc.Status errs = false := by
        rw [Bool.eq_false_iff]
        intro hbad
        exact hclean ⟨hcall, hcpu, hbad⟩
      exact .goto ⟨hcpu, hgood⟩
  | checkPbuf | checkFlags =>
    have hat := h _ hcall rfl
    cases hstep
    split
    · exact .of_call rfl
    · exact .goto hat
  | setLen =>
    have hat := h _ hcall rfl
    cases hstep
    apply Examined.goto
    rw [RxState.setLen, store_desc]
    exact hat
  | testRbus =>
    cases hstep
    apply Examined.of_call
    split
    · rfl
    · rfl
  | checkAlloc =>
    cases hstep
    split
    · exact .of_call rfl
    · exact .of_call rfl
  | free | setBuf | setOwn | ackRbus | poll | advance =>
    cases hstep
    exact .of_call rfl

theorem examined_step {errs : BitVec 32} {s t : RxState P A} {a : RxAct P A}
    (h : Examined errs s) (hclean : ¬ FindsErrored errs s a) (hstep : rxStep s a = some t) :
    Examined errs t := by
  rcases rxStep_cases hstep with ⟨-, -, rfl⟩ | ⟨w, -, hdma⟩ | ⟨rfl, st, hcall, hstmt⟩ |
    ⟨accept, -, -, rfl⟩ | ⟨fresh, -, -, rfl⟩
  · exact .of_call rfl
  · intro st hst hex
    obtain ⟨hcall, hdesc⟩ := dma_keeps hdma
    rw [hcall] at hst
    have hat := h st hst hex
    rw [hdesc hat.1]
    exact hat
  · exact examined_cpu h hcall hclean hstmt
  · apply Examined.of_call
    cases accept with
    | true => rfl
    | false => rfl
  · exact .of_call rfl

/-- A run whose calls find no errored frame passes none on, and has none to discard. -/
theorem Screened.of_clean {errs : BitVec 32} {N : Nat} {s₀ : RxState P A}
    {as : List (RxAct P A)} (hidle : s₀.call = none)
    (h : OnRun rxStep (fun s a => ¬ FindsErrored errs s a) s₀ as) : Screened errs N s₀ as where
  passes := by
    apply h.of_invariant (I := Examined errs)
    · exact .of_call (by rw [hidle]; rfl)
    · intro s a t hi hclean hstep
      exact examined_step hi hclean hstep
    · intro s a hi _ accept _ hcall
      exact (hi _ hcall rfl).2
  discards := by
    intro pre body post s t has hpre hfinds _ _ _
    rw [has, List.append_assoc] at h
    exact absurd hfinds (h.at hpre)

/-! ## Runs that find one -/

/-- Outside the statements that work on a frame: as many frames were offered as descriptors
    given back, or one more, which left its descriptor without a pbuf. -/
theorem RxInv.offered_cases {N : Nat} {s : RxState P A} (h : RxInv N s) (hN : 0 < N)
    (hcall : s.call = none ∨ s.call = some .checkOwn) :
    ((s.head N).pbuf ≠ none ∧ s.offered.length = s.rearmed) ∨
    ((s.head N).pbuf = none ∧ s.offered.length = s.rearmed + 1) := by
  have hhead : Resting N s ∨ Stuck N s := by
    have hhead := h.head
    rcases hcall with hcall | hcall
    · rw [hcall] at hhead
      exact hhead
    · rw [hcall] at hhead
      exact hhead
  rcases hhead with hrest | ⟨⟨-, hoff⟩, hnone⟩
  · exact .inl ⟨hrest.pbuf_ne h.ring hN, hrest.1⟩
  · exact .inr ⟨hnone, hoff⟩

/-- **No frame is ever discarded**: a descriptor is not given back without its frame being
    offered. Only the one whose frame was offered before, and that has no pbuf since, could be
    given back so, and it never is. -/
theorem not_discards {N B : Nat} (hN : 0 < N) {alloc : Nat → Option (Pbuf P A)}
    {s₀ s t : RxState P A} (hinit : RxState.init N B alloc = some s₀)
    {pre body : List (RxAct P A)} (hpre : exec rxStep s₀ pre = some s)
    (hbody : exec rxStep s body = some t) (hs : s.call = some .checkOwn) (ht : t.call = none) :
    ¬ Discards N s t := by
  intro hd
  have hrun := exec_trans hpre hbody
  have hnone : (s.head N).pbuf = none → (t.head N).pbuf = none := by
    intro hsn
    rw [head_pbuf_exec hN hinit hpre] at hsn
    rw [head_pbuf_exec hN hinit hrun]
    exact List.mem_append_left _ hsn
  have hlen := congrArg List.length hd.offered
  rcases (rxInv_exec hN hinit hpre).offered_cases hN (.inr hs) with ⟨-, hoffs⟩ | ⟨hsn, hoffs⟩
  · have hle := (rxInv_exec hN hinit hrun).rearmed_le
    rw [hlen, hoffs, hd.rearmed] at hle
    exact absurd hle (Nat.not_succ_le_self _)
  · rcases (rxInv_exec hN hinit hrun).offered_cases hN (.inl ht) with ⟨htn, -⟩ | ⟨-, hofft⟩
    · exact htn (hnone hsn)
    · rw [hlen, hoffs, hd.rearmed] at hofft
      exact absurd hofft (Nat.succ_ne_self _).symm

/-- A call that was running returns before the next one, or before the run ends with no call
    running. -/
theorem exists_return {s t : RxState P A} {as : List (RxAct P A)}
    (hrun : exec rxStep s as = some t) (ht : t.call = none) :
    ∃ body post u, as = body ++ post ∧ RxAct.call ∉ body ∧ exec rxStep s body = some u ∧
      u.call = none := by
  by_cases hmem : RxAct.call ∈ as
  · obtain ⟨body, post, rfl, hbody⟩ := List.eq_append_cons_of_mem hmem
    rw [exec_append, Option.bind_eq_some_iff] at hrun
    obtain ⟨u, hu, hrest⟩ := hrun
    rw [exec_cons, Option.bind_eq_some_iff] at hrest
    obtain ⟨v, hv, -⟩ := hrest
    exact ⟨body, _, u, rfl, hbody, hu, (rxStep_call hv).1⟩
  · exact ⟨as, [], t, (List.append_nil _).symm, hmem, hrun, ht⟩

/-- **The receive path screens a run exactly when there is nothing to screen.** In any run,
    whatever the DMA reports and however lwIP and the allocator answer: if no call finds an
    errored frame, none is passed to lwIP and there is none to discard; and a run that ends
    between calls and keeps the rule is one in which no call finds an errored frame. -/
theorem rx_screened_iff_clean (errs : BitVec 32) (N B : Nat) (hN : 0 < N)
    (alloc : Nat → Option (Pbuf P A)) (s₀ s : RxState P A)
    (hinit : RxState.init N B alloc = some s₀) (as : List (RxAct P A))
    (hrun : exec rxStep s₀ as = some s) :
    (OnRun rxStep (fun s a => ¬ FindsErrored errs s a) s₀ as → Screened errs N s₀ as) ∧
    (s.call = none → Screened errs N s₀ as →
      OnRun rxStep (fun s a => ¬ FindsErrored errs s a) s₀ as) := by
  constructor
  · intro hclean
    obtain ⟨ring, -, rfl⟩ := RxState.init_eq hinit
    exact .of_clean rfl hclean
  · intro hcall hscreened
    by_contra hnot
    obtain ⟨pre, a, post, u, rfl, hpre, hfinds⟩ := exists_step_of_not_onRun hnot
    rw [not_not] at hfinds
    cases a with
    | cpu =>
      rw [exec_append, hpre, Option.bind_some, exec_cons, Option.bind_eq_some_iff] at hrun
      obtain ⟨v, hv, hrest⟩ := hrun
      obtain ⟨body, post', t, rfl, hbody, ht, hret⟩ := exists_return hrest hcall
      have hall : exec rxStep u (.cpu :: body) = some t := by
        rw [exec_cons, hv]
        exact ht
      have hd := hscreened.discards pre body post' u t (by simp) hpre hfinds hbody hall hret
      exact not_discards hN hinit hpre hall hfinds.1 hret hd
    | call | input _ | alloc _ | dma _ => exact hfinds.elim

/-- A frame of 60 bytes closed with the status `w`, taken by lwIP, and its descriptor given
    back with a fresh pbuf. -/
def receiveRun (w : BitVec 32) : List (RxAct Nat Nat) :=
  [.dma w, .call, .cpu, .cpu, .cpu, .cpu] ++
    .input true :: .alloc (some { addr := 10, payload := 10, tot_len := 0, len := 0 }) ::
      List.replicate 5 .cpu

theorem rx_screened_cleanFrame :
    ∃ s₀ s : RxState Nat Nat,
      RxState.init 1 1536 (fun _ => some { addr := 0, payload := 0, tot_len := 0, len := 0 }) =
        some s₀ ∧
      exec rxStep s₀ (receiveRun 0x003c0300#32) = some s ∧
      Screened rdes0Errors 1 s₀ (receiveRun 0x003c0300#32) := by
  apply exists_init_exec (fun _ => true) (by decide +kernel)
  intro s₀ s hinit hrun _
  have hclean : (RxState.init 1 1536 fun _ => some
      { addr := 0, payload := 0, tot_len := 0, len := 0 }).all (fun s₀ => decide (OnRun rxStep
        (fun s a => ¬ FindsErrored rdes0Errors s a) s₀ (receiveRun 0x003c0300#32))) = true := by
    decide +kernel
  rw [hinit, Option.all_some, decide_eq_true_eq] at hclean
  exact (rx_screened_iff_clean rdes0Errors 1 1536 (by decide) _ s₀ s hinit _ hrun).1 hclean

/-- A frame with a wrong payload checksum, on the ring of `STIF_NUM_RX_DMA_DESC` slots. -/
theorem payloadError_passed :
    ∃ s₀ s : RxState Nat Nat,
      RxState.init 10 1536 (fun i => some { addr := i, payload := i, tot_len := 0, len := 0 }) =
        some s₀ ∧
      exec rxStep s₀ (receiveRun 0x003c8301#32) = some s ∧ s.call = none ∧
      ¬ Screened rdes0Errors 10 s₀ (receiveRun 0x003c8301#32) := by
  apply exists_init_exec (fun s => s.call.isNone) (by decide +kernel)
  intro s₀ s hinit hrun hcall
  refine ⟨Option.isNone_iff_eq_none.mp hcall, fun hscreened => ?_⟩
  have hoffers : (RxState.init 10 1536 fun i => some
      { addr := i, payload := i, tot_len := 0, len := 0 }).all (fun s₀ =>
        (exec rxStep s₀ [.dma 0x003c8301#32, .call, .cpu, .cpu, .cpu, .cpu]).any fun u =>
          decide (u.call = some .input) && tst u.desc.Status rdes0Errors) = true := by
    decide +kernel
  rw [hinit, Option.all_some, Option.any_eq_true] at hoffers
  obtain ⟨u, hu, hat⟩ := hoffers
  rw [Bool.and_eq_true, decide_eq_true_eq] at hat
  have hpass := hscreened.passes.at hu true rfl hat.1
  rw [hpass] at hat
  simp at hat

end EthernetIf

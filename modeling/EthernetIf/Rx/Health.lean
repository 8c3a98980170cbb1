import EthernetIf.Rx.Recovery
import EthernetIf.Rx.Thread

/-!
# What reception does not get over

A failed `pbuf_alloc` leaves the head without a pbuf (`Rx/Recovery`); a descriptor that was not
closed with both FS and LS fails the third test of `process_rx_descr`, and the cursor never
leaves it. `Healthy` says that neither has happened. Nothing undoes the one or the other
(`Healthy.of_reachable`), and behind either nothing more is offered: not behind a head without a
pbuf (`offered_of_pbuf_none`), and not past a frame that is not whole (`offered_whole`).
-/

namespace EthernetIf

open Lts Ring

variable {P A : Type}

/-- No allocation has failed, and each completed frame fills one descriptor. -/
structure RxState.Healthy (N : Nat) (s : RxState P A) : Prop where
  pbuf : (s.head N).pbuf ≠ none
  whole : ∀ f ∈ s.done, isWholeFrame f.status = true

/-! ## Nothing heals -/

theorem rxStep_done {s t : RxState P A} {a : RxAct P A} (hstep : rxStep s a = some t) :
    s.done <+: t.done := by
  rcases rxStep_cases hstep with ⟨-, -, rfl⟩ | ⟨w, -, hdma⟩ | ⟨-, st, -, hstmt⟩ |
    ⟨accept, -, -, rfl⟩ | ⟨fresh, -, -, rfl⟩
  · exact List.prefix_rfl
  · obtain ⟨-, ⟨-, rfl⟩ | ⟨-, rfl⟩⟩ := rxDma_cases hdma
    · exact List.prefix_append _ _
    · exact List.prefix_rfl
  · cases st with
    | input | alloc => simp [RxState.stmt] at hstmt
    | checkOwn | checkPbuf | checkFlags | checkAlloc =>
      cases hstmt
      split
      · exact List.prefix_rfl
      · exact List.prefix_rfl
    | setLen | free | setBuf | setOwn | testRbus | ackRbus | poll | advance =>
      cases hstmt
      exact List.prefix_rfl
  · exact List.prefix_rfl
  · exact List.prefix_rfl

theorem done_reachable {s t : RxState P A} (h : Reachable rxStep s t) : s.done <+: t.done :=
  h.invariant (I := fun u => s.done <+: u.done) List.prefix_rfl
    fun _ _ _ hu hstep => hu.trans (rxStep_done hstep)

theorem RxInv.of_reachable {N : Nat} (hN : 0 < N) {s t : RxState P A} (h : RxInv N s)
    (hrun : Reachable rxStep s t) : RxInv N t :=
  hrun.invariant h fun _ _ _ hi hstep => rxInv_step hN hi hstep

theorem pbuf_none_reachable {N : Nat} (hN : 0 < N) {s t : RxState P A} (h : RxInv N s)
    (hnone : (s.head N).pbuf = none) (hrun : Reachable rxStep s t) :
    (t.head N).pbuf = none ∧ t.offered = s.offered := by
  refine (hrun.invariant (I := fun u => RxInv N u ∧ (u.head N).pbuf = none ∧
    u.offered = s.offered) ⟨h, hnone, rfl⟩ ?_).2
  rintro u a v ⟨hi, hu, hoff⟩ hstep
  refine ⟨rxInv_step hN hi hstep, (head_pbuf_step hN hi hstep).mpr (.inl hu), ?_⟩
  rw [← hoff]
  refine (rxStep_keeps ?_ hstep).1
  -- `netif->input` is called with the pbuf of the head
  rintro accept rfl
  have hhead := hi.head
  rw [(rxStep_input hstep).1] at hhead
  obtain ⟨-, f, p, -, hp, -⟩ := hhead
  exact absurd (hp.symm.trans hu) (by simp)

/-- What is healthy was healthy all along. -/
theorem RxState.Healthy.of_reachable {N : Nat} (hN : 0 < N) {s t : RxState P A} (h : RxInv N s)
    (hrun : Reachable rxStep s t) (ht : t.Healthy N) : s.Healthy N where
  pbuf := fun hnone => ht.pbuf (pbuf_none_reachable hN h hnone hrun).1
  whole := fun f hf => ht.whole f ((done_reachable hrun).subset hf)

/-! ## Nothing passes a frame that is not whole -/

/-- Between the third test and the call of `netif->input`. -/
def RxStmt.passed : RxStmt → Bool
  | .setLen | .input => true
  | _ => false

/-- The frames that passed the third test. -/
def RxState.screened (s : RxState P A) : Nat :=
  s.offered.length + (s.call.any RxStmt.passed).toNat

/-- … and are whole. -/
def Screens (s : RxState P A) : Prop :=
  s.screened ≤ s.done.length ∧ ∀ f ∈ s.done.take s.screened, isWholeFrame f.status = true

theorem Screens.of_le {s t : RxState P A} (h : Screens s) (hdone : t.done = s.done)
    (hle : t.screened ≤ s.screened) : Screens t := by
  refine ⟨by rw [hdone]; exact hle.trans h.1, fun f hf => h.2 f ?_⟩
  rw [hdone] at hf
  exact (List.take_prefix_take_left hle).subset hf

/-- The third test passes on a frame that the DMA closed with FS and LS. -/
theorem screens_checkFlags {N : Nat} {s : RxState P A} (hi : RxInv N s) (h : Screens s)
    (hcall : s.call = some .checkFlags) (hwhole : isWholeFrame s.desc.Status = true) :
    Screens (s.goto .setLen) := by
  have hhead := hi.head
  rw [hcall] at hhead
  obtain ⟨hlt, hoff, hholds⟩ := hhead
  obtain ⟨-, p, -, hdone⟩ := hholds hlt
  rw [hi.desc_eq (by simp [hcall, RxStmt.behind])] at hwhole
  have hbefore : s.screened = s.rearmed := by simp [RxState.screened, hcall, RxStmt.passed, hoff]
  have hafter : (s.goto .setLen).screened = s.rearmed + 1 := by
    simp [RxState.screened, RxState.goto, RxStmt.passed, hoff]
  refine ⟨by rw [hafter]; exact hlt, fun f hf => ?_⟩
  have hf : f ∈ s.done.take (s.rearmed + 1) := hafter ▸ hf
  rw [List.take_add_one, hdone, List.mem_append] at hf
  rcases hf with hold | hnew
  · exact h.2 f (hbefore ▸ hold)
  · obtain rfl := List.mem_singleton.mp hnew
    exact hwhole

theorem screens_cpu {N : Nat} {s t : RxState P A} {st : RxStmt} (hi : RxInv N s)
    (h : Screens s) (hcall : s.call = some st) (hstmt : s.stmt st .cpu = some t) :
    Screens t := by
  cases st with
  | input | alloc => simp [RxState.stmt] at hstmt
  | checkFlags =>
    cases hstmt
    split
    · exact h.of_le rfl (Nat.add_le_add_left (Nat.zero_le _) _)
    next hwhole => exact screens_checkFlags hi h hcall (by simpa using hwhole)
  | setLen =>
    cases hstmt
    refine h.of_le rfl ?_
    simp [RxState.screened, RxState.setLen, RxState.store, RxState.goto, hcall, RxStmt.passed]
  | checkOwn | checkPbuf | checkAlloc | testRbus =>
    cases hstmt
    split
    · exact h.of_le rfl (Nat.add_le_add_left (Nat.zero_le _) _)
    · exact h.of_le rfl (Nat.add_le_add_left (Nat.zero_le _) _)
  | free | setBuf | setOwn | ackRbus | poll | advance =>
    cases hstmt
    exact h.of_le rfl (Nat.add_le_add_left (Nat.zero_le _) _)

theorem screens_step {N : Nat} {s t : RxState P A} {a : RxAct P A} (hi : RxInv N s)
    (h : Screens s) (hstep : rxStep s a = some t) : Screens t := by
  rcases rxStep_cases hstep with ⟨-, -, rfl⟩ | ⟨w, -, hdma⟩ | ⟨-, st, hcall, hstmt⟩ |
    ⟨accept, -, hcall, rfl⟩ | ⟨fresh, -, -, rfl⟩
  · exact h.of_le rfl (Nat.add_le_add_left (Nat.zero_le _) _)
  · obtain ⟨-, ⟨-, rfl⟩ | ⟨-, rfl⟩⟩ := rxDma_cases hdma
    · have hsame : (s.receive w).done.take (s.receive w).screened = s.done.take s.screened :=
        List.take_append_of_le_length h.1
      refine ⟨?_, fun f hf => h.2 f (hsame ▸ hf)⟩
      rw [length_receive_done]
      exact Nat.le_succ_of_le h.1
    · exact h
  · exact screens_cpu hi h hcall hstmt
  · refine h.of_le rfl ?_
    have hpassed : (s.offer.goto (if accept then .alloc else .free)).call.any RxStmt.passed =
        false := by
      cases accept with
      | true => rfl
      | false => rfl
    rw [RxState.screened, RxState.screened, hpassed, hcall]
    cases hp : s.desc.pbuf <;> simp [RxState.offer, RxState.goto, RxStmt.passed, hp]
  · exact h.of_le rfl (Nat.add_le_add_left (Nat.zero_le _) _)

/-- **What was offered is whole.** -/
theorem offered_whole {N B : Nat} (hN : 0 < N) {alloc : Nat → Option (Pbuf P A)}
    {s₀ s : RxState P A} (hinit : RxState.init N B alloc = some s₀)
    (hrun : Reachable rxStep s₀ s) :
    ∀ f ∈ s.done.take s.offered.length, isWholeFrame f.status = true := by
  have hstart : Screens s₀ := by
    obtain ⟨ring, -, rfl⟩ := RxState.init_eq hinit
    exact ⟨Nat.le_refl 0, fun f hf => absurd hf (by simp)⟩
  obtain ⟨-, -, hwhole⟩ := hrun.invariant (I := fun u => RxInv N u ∧ Screens u)
    ⟨RxInv.init hN hinit, hstart⟩
    fun _ _ _ hu hstep => ⟨rxInv_step hN hu.1 hstep, screens_step hu.1 hu.2 hstep⟩
  intro f hf
  exact hwhole f ((List.take_prefix_take_left (Nat.le_add_right _ _)).subset hf)

end EthernetIf

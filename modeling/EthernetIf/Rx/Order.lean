import EthernetIf.Rx.Invariant

/-!
# Received frames are delivered in order, at most once

Read off `RxInv`: the frames given to `netif->input` are a prefix of the frames the DMA
completed, each with the buffer and the length of its own descriptor; and no descriptor goes
back to the DMA before its frame was offered.
-/

namespace EthernetIf

open Lts Ring

variable {P A : Type}

/-- Every descriptor given back was offered first. -/
theorem RxInv.rearmed_le {N : Nat} {s : RxState P A} (h : RxInv N s) :
    s.rearmed ≤ s.offered.length := by
  have hresting : Resting N s → s.rearmed ≤ s.offered.length := fun hr => Nat.le_of_eq hr.1.symm
  have hspent : Spent s → s.rearmed ≤ s.offered.length := fun hs => by
    rw [hs.2]
    exact Nat.le_succ _
  have hhead := h.head
  match hcall : s.call with
  | none | some .checkOwn =>
    rw [hcall] at hhead
    exact hhead.elim hresting fun hs => hspent hs.1
  | some .checkPbuf =>
    rw [hcall] at hhead
    exact hhead.2.elim hresting fun hs => hspent hs.1
  | some .checkFlags | some .setLen =>
    rw [hcall] at hhead
    exact hresting hhead.2
  | some .input =>
    rw [hcall] at hhead
    exact Nat.le_of_eq hhead.1.symm
  | some .free | some .alloc | some .setBuf | some .setOwn =>
    rw [hcall] at hhead
    exact hspent hhead.1
  | some .checkAlloc =>
    rw [hcall] at hhead
    exact hspent hhead
  | some .testRbus | some .ackRbus | some .poll | some .advance =>
    rw [hcall] at hhead
    exact hresting hhead

/-- **In order, at most once.** In every state any run reaches, whatever the DMA reports and
    however `netif->input` and `pbuf_alloc` answer: the offered pbufs are a prefix of the
    completed descriptors, with their buffers and their frame lengths; and where the DMA owns
    a descriptor again, every frame it ever completed there was offered. -/
theorem rxRing_inOrder (N B : Nat) (hN : 0 < N) (alloc : Nat → Option (Pbuf P A))
    (s₀ s : RxState P A) (hinit : RxState.init N B alloc = some s₀) (as : List (RxAct P A))
    (hrun : exec rxStep s₀ as = some s) :
    s.offered.map Pbuf.delivery <+: s.done.map RxDone.delivery ∧
    s.rearmed ≤ s.offered.length ∧
    ∀ k < s.done.length, (s.ring (k % N)).own = true → k < s.offered.length := by
  have h := rxInv_exec hN hinit hrun
  refine ⟨?_, h.rearmed_le, fun k hk hown => ?_⟩
  · rw [h.order]
    exact (List.take_prefix _ _).map _
  · obtain ⟨j, hge, hlt, hmod⟩ := h.ring.armed_of_own (Nat.mod_lt k hN) hown
    -- use `k` is an earlier use of the slot of the armed use `j`, hence a whole turn earlier
    have hturn : ¬ j < k + N := fun hj => mod_ne_of_lt (by omega) hj hmod.symm
    have hle := h.rearmed_le
    omega

/-- One slot, one frame of 60 bytes, taken by lwIP. -/
theorem rxRing_inOrder_one :
    ∃ s₀ s : RxState Nat Nat,
      RxState.init 1 1536 (fun _ => some { addr := 0, payload := 0, tot_len := 0, len := 0 }) =
        some s₀ ∧
      exec rxStep s₀ [.dma 0x003c0300#32, .call, .cpu, .cpu, .cpu, .cpu, .input true] =
        some s ∧
      s.offered.map Pbuf.delivery <+: s.done.map RxDone.delivery ∧
      s.rearmed ≤ s.offered.length ∧
      ∀ k < s.done.length, (s.ring (k % 1)).own = true → k < s.offered.length := by
  apply exists_init_exec (fun _ => true) (by decide +kernel)
  intro s₀ s hinit hrun _
  exact rxRing_inOrder 1 1536 (by decide) _ s₀ s hinit _ hrun

end EthernetIf

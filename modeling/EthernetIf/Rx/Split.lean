import EthernetIf.Rx.Recovery
import Mathlib.Data.List.Infix

/-!
# Frames longer than a buffer

The DMA stores a frame over as many descriptors as it needs, first-segment set on the first
and last-segment on the last (`splitFlags`). `process_rx_descr` wants both in one descriptor
and leaves anything else where it is, cursor included — so a frame of two buffers is not
dropped, it is never left (`rx_survives_iff`).
-/

namespace EthernetIf

open Lts Ring

variable {P A : Type}

/-! ## How the DMA splits a frame -/

/-- `⌈L / B⌉`, the descriptors a frame of `L` bytes takes up. -/
def descCount (B L : Nat) : Nat := (L + B - 1) / B

/-- FS and LS of each of them. -/
def splitFlags (B L : Nat) : List (Bool × Bool) :=
  (List.range (descCount B L)).map fun i => (i == 0, i + 1 == descCount B L)

/-- FS and LS of a completed descriptor. -/
def RxDone.flags (f : RxDone A) : Bool × Bool :=
  (tst f.status ETH_RDES0_FS, tst f.status ETH_RDES0_LS)

theorem descCount_pos {B L : Nat} (hB : 0 < B) (hL : 0 < L) : 0 < descCount B L :=
  Nat.div_pos (by omega) hB

theorem descCount_eq_one {B L : Nat} (hB : 0 < B) (hL : 0 < L) :
    descCount B L = 1 ↔ L ≤ B := by
  unfold descCount
  constructor
  · intro hone
    have hlt := Nat.lt_div_mul_add (a := L + B - 1) hB
    rw [hone] at hlt
    omega
  · intro hle
    exact Nat.div_eq_of_lt_le (by omega) (by omega)

/-- Where a frame starts, the completed descriptor has the flags of its first part. -/
theorem flags_of_split {B L : Nat} {pre post : List Nat} {done : List (RxDone A)}
    {f : RxDone A} {r : Nat} (hB : 0 < B) (hL : 0 < L)
    (hsplit : done.map RxDone.flags <+: (pre ++ L :: post).flatMap (splitFlags B))
    (hstart : (pre.flatMap (splitFlags B)).length = r) (hf : done[r]? = some f) :
    f.flags = (true, decide (L ≤ B)) := by
  have hat : (done.map RxDone.flags)[r]? = some f.flags := by rw [List.getElem?_map, hf]; rfl
  have hlt := (List.getElem?_eq_some_iff.mp hat).1
  have hpos := descCount_pos hB hL
  obtain ⟨rest, hrest⟩ := hsplit
  have hall : (done.map RxDone.flags ++ rest)[r]? = some f.flags := by
    rw [List.getElem?_append_left hlt]
    exact hat
  rw [hrest, List.flatMap_append, List.flatMap_cons, List.getElem?_append_right (by omega),
    hstart, Nat.sub_self, List.getElem?_append_left (by simpa [splitFlags] using hpos),
    splitFlags, List.getElem?_map, List.getElem?_range hpos] at hall
  rw [← Option.some.inj hall]
  simp only [beq_self_eq_true, Nat.zero_add, Prod.mk.injEq, true_and]
  rw [Bool.eq_iff_iff, beq_iff_eq, decide_eq_true_eq, eq_comm]
  exact descCount_eq_one hB hL

/-! ## As many calls as the frame has descriptors -/

/-- Consecutive calls for which lwIP takes the frame and the pool has a pbuf. -/
def RxState.calls (s : RxState P A) (fresh : List (Pbuf P A)) : RxState P A :=
  fresh.foldl (fun s p => s.processRxDescr true (some p)) s

/-- `k` calls give `k` descriptors back to the DMA, from the one at the cursor on, and leave
    the cursor behind them. -/
def Survives (N k : Nat) (s : RxState P A) : Prop :=
  ∀ fresh : List (Pbuf P A), fresh.length = k →
    (∀ i < k, ((s.calls fresh).ring ((s.cur + i) % N)).own = true) ∧
    (s.calls fresh).cur = (s.cur + k) % N

/-- Calls that fail a test at the top fail it again. -/
theorem calls_of_not {s : RxState P A} (h : ¬ Processable s.desc) (fresh : List (Pbuf P A)) :
    (s.calls fresh).ring = s.ring ∧ (s.calls fresh).cur = s.cur := by
  induction fresh generalizing s with
  | nil => exact ⟨rfl, rfl⟩
  | cons p fresh ih =>
    have hfirst : s.calls (p :: fresh) = (s.return 1).calls fresh := by
      rw [RxState.calls, List.foldl_cons, processRxDescr_of_not h]
      rfl
    rw [hfirst]
    exact ih (s := s.return 1) h

/-- One call is enough for a frame in one descriptor. -/
theorem Rearms.survives {N : Nat} {s : RxState P A} (h : Rearms N s)
    (hcur : s.cur < N) : Survives N 1 s := by
  intro fresh hlen
  obtain ⟨p, rfl⟩ := List.length_eq_one_iff.mp hlen
  obtain ⟨⟨hown, -⟩, hnext, -⟩ := h true p
  refine ⟨fun i hi => ?_, hnext⟩
  obtain rfl : i = 0 := by omega
  rw [Nat.add_zero, Nat.mod_eq_of_lt hcur]
  exact hown

/-- No number of calls is enough for a descriptor no call touches. -/
theorem not_survives {N k : Nat} {s : RxState P A} (h : ¬ Processable s.desc) (hk : 0 < k)
    (hcur : s.cur < N) (hcpu : s.desc.own = false) (p : Pbuf P A) : ¬ Survives N k s := by
  intro hs
  have hown := (hs (List.replicate k p) List.length_replicate).1 0 hk
  rw [(calls_of_not h _).1, Nat.add_zero, Nat.mod_eq_of_lt hcur] at hown
  exact absurd (hown.symm.trans hcpu) (by simp)

/-- **A frame is survived exactly when it fits one buffer.** In any run whose completions are
    the frames `pre ++ L :: post` split over buffers of `B` bytes, and in which no allocation
    failed: between two calls, once the frame of length `L` is complete at the cursor, as many
    calls as it has descriptors give them all back and move the cursor to the next frame if
    and only if `L ≤ B`; for a longer one the state is absorbing. -/
theorem rx_survives_iff (N B : Nat) (hN : 0 < N) (hB : 0 < B) (alloc : Nat → Option (Pbuf P A))
    (s₀ s : RxState P A) (hinit : RxState.init N B alloc = some s₀) (as : List (RxAct P A))
    (hrun : exec rxStep s₀ as = some s) (hpool : RxAct.alloc none ∉ as)
    (pre : List Nat) (L : Nat) (post : List Nat) (hL : 0 < L)
    (hsplit : s.done.map RxDone.flags <+: (pre ++ L :: post).flatMap (splitFlags B))
    (hcall : s.call = none) (hstart : (pre.flatMap (splitFlags B)).length = s.rearmed)
    (hcomplete : s.rearmed + descCount B L ≤ s.done.length) :
    (Survives N (descCount B L) s ↔ L ≤ B) ∧ (Absorbing s ↔ B < L) := by
  have h := rxInv_exec hN hinit hrun
  have hb : s.call.any RxStmt.behind = false := by simp [hcall]
  have hpos := descCount_pos hB hL
  have hcur : s.cur < N := by
    rw [h.cur hb]
    exact Nat.mod_lt _ hN
  have hcpu : s.desc.own = false := by
    rw [h.desc_eq hb]
    exact h.ring.taken (by omega)
  obtain ⟨p, -⟩ := initRxDmaDesc_apply (RxState.init_eq hinit).choose_spec.1 hN
  obtain ⟨-, q, hq, hdone⟩ :=
    h.holds_desc hN hcall hcpu (mt (head_pbuf_exec hN hinit hrun).mp hpool)
  have hflags := flags_of_split hB hL hsplit hstart hdone
  have hwhole : isWholeFrame s.desc.Status = decide (L ≤ B) := by
    rw [isWholeFrame_eq]
    simp only [RxDone.flags, Prod.mk.injEq] at hflags
    rw [hflags.1, hflags.2, Bool.true_and]
  rcases Nat.lt_or_ge B L with hlong | hfits
  · have hnot : ¬ Processable s.desc := fun hs => by
      have hw := hs.whole
      rw [hwhole, decide_eq_true_eq] at hw
      omega
    exact ⟨⟨fun hs => absurd hs (not_survives hnot hpos hcur hcpu p), fun hle => by omega⟩,
      ⟨fun _ => hlong, fun _ => processRxDescr_of_not hnot⟩⟩
  · have hre : Rearms N s := Processable.rearms h hN hcall
      ⟨hcpu, by rw [hq]; rfl, by rw [hwhole]; simpa using hfits⟩
    rw [(descCount_eq_one hB hL).mpr hfits]
    exact ⟨⟨fun _ => hfits, fun _ => hre.survives hcur⟩,
      ⟨fun habs => absurd hre (habs.not_rearms p), fun hlong => by omega⟩⟩

/-- A frame of 60 bytes in a buffer of 592. -/
theorem rx_survives_short :
    ∃ s₀ s : RxState Nat Nat,
      RxState.init 1 592 (fun _ => some { addr := 0, payload := 0, tot_len := 0, len := 0 }) =
        some s₀ ∧
      exec rxStep s₀ [.dma 0x003c0300#32] = some s ∧ Survives 1 (descCount 592 60) s := by
  refine exists_init_exec (fun s => s.done.map RxDone.flags == splitFlags 592 60 &&
      s.call.isNone && s.rearmed == 0 && s.done.length == 1)
    (by decide +kernel) fun s₀ s hinit hrun hs => ?_
  simp only [Bool.and_eq_true, beq_iff_eq, Option.isNone_iff_eq_none] at hs
  obtain ⟨⟨⟨hsplit, hcall⟩, hstart⟩, hlen⟩ := hs
  exact (rx_survives_iff 1 592 (by decide) (by decide) _ s₀ s hinit _ hrun (by simp) [] 60 []
    (by decide) (by simp [hsplit]) hcall hstart.symm (by rw [hstart, hlen]; decide)).1.mpr
    (by decide)

/-- A full-size frame in the three buffers of lwIP's default `PBUF_POOL_BUFSIZE`. -/
theorem fullFrame_stops :
    ∃ s₀ s : RxState Nat Nat,
      RxState.init 10 592 (fun i => some { addr := i, payload := i, tot_len := 0, len := 0 }) =
        some s₀ ∧
      exec rxStep s₀ [.dma 0x02500200#32, .dma 0x04a00000#32, .dma 0x05ee0100#32] = some s ∧
      s.done.map RxDone.flags = splitFlags 592 1518 ∧ s.call = none ∧
      s.done.length = s.rearmed + descCount 592 1518 ∧
      ¬ Survives 10 (descCount 592 1518) s ∧ Absorbing s := by
  refine exists_init_exec (fun s => s.done.map RxDone.flags == splitFlags 592 1518 &&
      s.call.isNone && s.done.length == s.rearmed + descCount 592 1518 && s.cur == 0 &&
      !s.desc.own && !isWholeFrame s.desc.Status)
    (by decide +kernel) fun s₀ s hinit hrun hs => ?_
  simp only [Bool.and_eq_true, beq_iff_eq, Option.isNone_iff_eq_none, Bool.not_eq_true'] at hs
  obtain ⟨⟨⟨⟨⟨hsplit, hcall⟩, hlen⟩, hcur⟩, hcpu⟩, hpart⟩ := hs
  have hnot : ¬ Processable s.desc := fun hp => absurd (hp.whole.symm.trans hpart) (by simp)
  exact ⟨hsplit, hcall, hlen,
    not_survives hnot (by decide) (by rw [hcur]; decide) hcpu
      { addr := 0, payload := 0, tot_len := 0, len := 0 }, processRxDescr_of_not hnot⟩

end EthernetIf

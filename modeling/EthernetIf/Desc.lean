import Mathlib.Logic.Function.Basic

/-!
# Descriptors and their status words

`struct dma_desc` and the bits of its `Status` word the driver reads or writes. The masks
carry libopencm3's names; their values are the bit positions the hardware fixes for the
enhanced descriptors of the STM32F7 MAC.

`tst x m` is what C means by `if (x & m)`: the words share a bit (`tst_iff`). A store that
clears some bits and sets others is read back by four laws of `tst`, and no proof downstream
looks at a status word as a number.
-/

namespace EthernetIf

/-! ## Status bits -/

/-- C's truth value of `x & m`. -/
def tst (x m : BitVec 32) : Bool := x &&& m != 0#32

-- TDES0, as the CPU writes it
def ETH_TDES0_TCH : BitVec 32 := 1#32 <<< 20
def ETH_TDES0_CIC_IPPLPH : BitVec 32 := 3#32 <<< 22
def ETH_TDES0_FS : BitVec 32 := 1#32 <<< 28
def ETH_TDES0_LS : BitVec 32 := 1#32 <<< 29
def ETH_TDES0_OWN : BitVec 32 := 1#32 <<< 31

-- RDES0, as the DMA writes it back, and the one RDES1 bit the driver sets
def ETH_RDES0_LS : BitVec 32 := 1#32 <<< 8
def ETH_RDES0_FS : BitVec 32 := 1#32 <<< 9
def ETH_RDES0_FL_SHIFT : Nat := 16
def ETH_RDES0_FL : BitVec 32 := 0x3fff#32 <<< ETH_RDES0_FL_SHIFT
def ETH_RDES0_OWN : BitVec 32 := 1#32 <<< 31
def ETH_RDES1_RCH : BitVec 32 := 1#32 <<< 14

/-- `x & m` is nonzero exactly when the two words share a bit. -/
theorem tst_iff (x m : BitVec 32) :
    tst x m = true ↔ ∃ i < 32, x.getLsbD i = true ∧ m.getLsbD i = true := by
  unfold tst
  rw [bne_iff_ne, ne_eq, BitVec.eq_of_getLsbD_eq_iff]
  simp

/-- A one-bit mask tests that bit. -/
theorem tst_bit (x : BitVec 32) {i : Nat} (hi : i < 32) : tst x (1#32 <<< i) = x.getLsbD i := by
  rw [Bool.eq_iff_iff, tst_iff]
  constructor
  · rintro ⟨j, hj, hx, hm⟩
    rw [← BitVec.twoPow_eq, BitVec.getLsbD_twoPow] at hm
    simp only [Bool.and_eq_true, decide_eq_true_eq] at hm
    exact hm.2 ▸ hx
  · intro hx
    refine ⟨i, hi, hx, ?_⟩
    rw [← BitVec.twoPow_eq, BitVec.getLsbD_twoPow]
    simp [hi]

/-- Setting bits. -/
theorem tst_or (x y m : BitVec 32) : tst (x ||| y) m = (tst x m || tst y m) := by
  rw [Bool.eq_iff_iff, Bool.or_eq_true, tst_iff, tst_iff, tst_iff]
  simp only [BitVec.getLsbD_or, Bool.or_eq_true]
  constructor
  · rintro ⟨i, hi, hx | hy, hm⟩
    · exact .inl ⟨i, hi, hx, hm⟩
    · exact .inr ⟨i, hi, hy, hm⟩
  · rintro (⟨i, hi, hx, hm⟩ | ⟨i, hi, hy, hm⟩)
    · exact ⟨i, hi, .inl hx, hm⟩
    · exact ⟨i, hi, .inr hy, hm⟩

/-- Clearing bits a test does not look at. -/
theorem tst_clear_of_disjoint (x : BitVec 32) {y m : BitVec 32} (h : tst y m = false) :
    tst (x &&& ~~~y) m = tst x m := by
  have hnone : ∀ i < 32, m.getLsbD i = true → y.getLsbD i = false := by
    intro i hi hm
    by_contra hy
    rw [Bool.not_eq_false] at hy
    exact absurd ((tst_iff y m).mpr ⟨i, hi, hy, hm⟩) (by simp [h])
  rw [Bool.eq_iff_iff, tst_iff, tst_iff]
  simp only [BitVec.getLsbD_and, BitVec.getLsbD_not, Bool.and_eq_true]
  constructor
  · rintro ⟨i, hi, ⟨hx, _⟩, hm⟩
    exact ⟨i, hi, hx, hm⟩
  · rintro ⟨i, hi, hx, hm⟩
    exact ⟨i, hi, ⟨hx, by rw [hnone i hi hm]; simpa using hi⟩, hm⟩

/-- Clearing every bit a test looks at. -/
theorem tst_clear_of_subset (x : BitVec 32) {y m : BitVec 32} (h : m &&& ~~~y = 0#32) :
    tst (x &&& ~~~y) m = false := by
  unfold tst
  rw [BitVec.and_assoc, BitVec.and_comm (~~~y) m, h]
  simp

/-- A word has every bit of a mask exactly when masking gives the mask back. -/
theorem and_eq_mask_iff (x m : BitVec 32) :
    x &&& m = m ↔ ∀ i < 32, m.getLsbD i = true → x.getLsbD i = true := by
  constructor
  · intro h i _ hm
    rw [← h, BitVec.getLsbD_and, Bool.and_eq_true] at hm
    exact hm.1
  · intro h
    apply BitVec.eq_of_getLsbD_eq
    intro i hi
    rw [BitVec.getLsbD_and]
    cases hm : m.getLsbD i with
    | false => simp
    | true => simp [h i hi hm]

/-! ## The descriptor -/

/-- `struct pbuf`, the fields the driver touches. `addr` is the pbuf's own address: two
    `struct pbuf *` are equal exactly when their `addr`s are. -/
structure Pbuf (P A : Type) where
  addr : P
  payload : A
  tot_len : BitVec 16
  len : BitVec 16
deriving DecidableEq, Repr

/-- `struct dma_desc`, without the words neither the driver nor its DMA model uses. A
    descriptor address is an index into its ring; `pbuf` is the pointer together with what the
    driver saw in the pbuf when it stored the pointer. -/
structure DmaDesc (P A : Type) where
  Status : BitVec 32
  ControlBufferSize : BitVec 32
  Buffer1Addr : Option A
  Buffer2NextDescAddr : Nat
  pbuf : Option (Pbuf P A)
deriving DecidableEq, Repr

/-- A descriptor in static storage before anything was stored in it. -/
def DmaDesc.zero {P A : Type} : DmaDesc P A :=
  { Status := 0#32, ControlBufferSize := 0#32, Buffer1Addr := none,
    Buffer2NextDescAddr := 0, pbuf := none }

variable {P A : Type}

/-- `desc->Status & OWN`: the descriptor belongs to the DMA. The bit is the same one in both
    rings. -/
def DmaDesc.own (d : DmaDesc P A) : Bool := tst d.Status ETH_TDES0_OWN

theorem DmaDesc.own_eq_getLsbD (d : DmaDesc P A) : d.own = d.Status.getLsbD 31 :=
  tst_bit d.Status (by decide)

/-- A store that leaves the pointer of its descriptor alone leaves all of them alone. -/
theorem update_pbuf {ring : Nat → DmaDesc P A} {j : Nat} {d : DmaDesc P A}
    (hd : d.pbuf = (ring j).pbuf) (i : Nat) :
    (Function.update ring j d i).pbuf = (ring i).pbuf := by
  by_cases hi : i = j
  · subst hi
    rw [Function.update_self, hd]
  · rw [Function.update_of_ne hi]

/-- The last statement of both init functions chains the ring: every descriptor names the
    next slot, and the last one the first. -/
def Linked (N : Nat) (ring : Nat → DmaDesc P A) : Prop :=
  ∀ i < N, (ring i).Buffer2NextDescAddr = (i + 1) % N

/-- A store that leaves the link word of a slot alone keeps the ring chained. -/
theorem Linked.update {N : Nat} {ring : Nat → DmaDesc P A} (h : Linked N ring) {j : Nat}
    {d : DmaDesc P A} (hd : d.Buffer2NextDescAddr = (ring j).Buffer2NextDescAddr) :
    Linked N (Function.update ring j d) := by
  intro i hi
  by_cases hij : i = j
  · subst hij
    rw [Function.update_self, hd]
    exact h i hi
  · rw [Function.update_of_ne hij]
    exact h i hi

end EthernetIf

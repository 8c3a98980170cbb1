import EthernetIf.Desc
import Mathlib.Tactic.Linarith

/-!
# The addend of the frequency correction

The MAC adds `ETH_PTPTSAR` to a 32-bit accumulator at every tick of its clock, so the addend
sets the speed of the PTP time. The base value the driver means to load is named by a macro,

```
#define ADJ_FREQ_BASE_ADDEND      2^32*50000000/SYSCLK_FREQ
```

and in C `^` is not a power. It is an exclusive or, it binds weaker than every operator around
it, and the macro has no parentheses: what is loaded is `2 ^ 16 = 18`, and what
`ADJ_FREQ_BASE_ADDEND>>24` computes is `2 ^ (16 >> 24) = 2`. So

> the addend is `18` and a small correction, at every frequency adjustment, where the law of
> the correction asks for about `2.2 * 10^9`.

The correction has the right sign all the same, and the addend grows with the adjustment until
the sum drops below zero and wraps — from `-537` ppb down.
-/

namespace EthernetIf

/-! ## The macro and the two functions that use it -/

def SYSCLK_FREQ : BitVec 32 := 96000000#32

/-- The text of the macro, pasted where an operator may follow it. `tail` is that operator: it
    reaches the last operand of `^` and no further. -/
def ADJ_FREQ_BASE_ADDEND (tail : BitVec 32 → BitVec 32) : BitVec 32 :=
  2#32 ^^^ tail ((32#32 * 50000000#32).sdiv SYSCLK_FREQ)

/-- What `ptp_init` loads into `ETH_PTPTSAR`. -/
def ptpInitAddend : BitVec 32 := ADJ_FREQ_BASE_ADDEND id

/-- The two limits at the head of `portPTPUpdateFine`, one after the other. -/
def clampAdj (adj : BitVec 32) : BitVec 32 :=
  let adj := if adj.toInt > 5120000 then 5120000#32 else adj
  if adj.toInt < -5120000 then BitVec.ofInt 32 (-5120000) else adj

/-- The addend `portPTPUpdateFine` computes, in 64 signed bits, and stores in 32 unsigned. -/
def updateFineAddend (adj : BitVec 32) : BitVec 32 :=
  let estimate := ((275#64 * (clampAdj adj).signExtend 64).sshiftRight 8) *
    (ADJ_FREQ_BASE_ADDEND (·.sshiftRight 24)).signExtend 64
  (estimate.sshiftRight 6 + (ADJ_FREQ_BASE_ADDEND id).signExtend 64).setWidth 32

/-! ## What they compute -/

theorem toInt_clampAdj (adj : BitVec 32) :
    (clampAdj adj).toInt = max (-5120000) (min 5120000 adj.toInt) := by
  have hlo : (BitVec.ofInt 32 (-5120000)).toInt = -5120000 := by decide
  have hhi : (5120000#32).toInt = 5120000 := by decide
  unfold clampAdj
  by_cases hgt : adj.toInt > 5120000
  · simp only [if_pos hgt]
    rw [if_neg (by decide), hhi]
    omega
  · simp only [if_neg hgt]
    split
    · rw [hlo]
      omega
    · omega

/-- The addend before the store, as the integer the 64-bit expression evaluates to. -/
def addendOf (a : ℤ) : ℤ := 275 * a / 2 ^ 8 * 2 / 2 ^ 6 + 18

theorem addendOf_mono {a b : ℤ} (h : a ≤ b) : addendOf a ≤ addendOf b := by
  unfold addendOf
  omega

/-- Within the limits the addend stays small, and it is negative from `-537` down. -/
theorem addendOf_bounds {a : ℤ} (hlo : -5120000 ≤ a) (hhi : a ≤ 5120000) :
    -171857 ≤ addendOf a ∧ addendOf a ≤ 171893 ∧ (addendOf a < 0 ↔ a ≤ -537) := by
  unfold addendOf
  omega

/-- Storing a 64-bit value in an unsigned 32-bit word wraps it. -/
theorem toNat_setWidth_eq_emod (x : BitVec 64) :
    ((x.setWidth 32).toNat : ℤ) = x.toInt % 2 ^ 32 := by
  have hlt := x.isLt
  rw [BitVec.toNat_setWidth, BitVec.toInt_eq_toNat_cond]
  split
  · omega
  · omega

theorem toInt_mul_eq {x y : BitVec 64} {m n : ℤ} (hx : x.toInt = m) (hy : y.toInt = n)
    (hlo : -2 ^ 62 ≤ m * n) (hhi : m * n < 2 ^ 62) : (x * y).toInt = m * n := by
  subst hx hy
  rw [BitVec.toInt_mul, Int.bmod_eq_of_le] <;> omega

theorem toInt_sshiftRight_eq {x : BitVec 64} {m : ℤ} (hx : x.toInt = m) (n : ℕ) :
    (x.sshiftRight n).toInt = m / 2 ^ n := by
  rw [BitVec.toInt_sshiftRight, hx, Int.shiftRight_eq_div_pow]
  norm_cast

/-- No step of the 64-bit expression overflows within the limits of the adjustment. -/
theorem toInt_estimate {x k base : BitVec 64} {a : ℤ} (hx : x.toInt = a) (hk : k.toInt = 2)
    (hbase : base.toInt = 18) (hlo : -5120000 ≤ a) (hhi : a ≤ 5120000) :
    ((((275#64 * x).sshiftRight 8) * k).sshiftRight 6 + base).toInt = addendOf a := by
  have h275 : (275#64).toInt = 275 := by decide
  have hmul := toInt_mul_eq h275 hx (by omega) (by omega)
  have hshr := toInt_sshiftRight_eq hmul 8
  have hmul2 := toInt_mul_eq hshr hk (by omega) (by omega)
  have hshr2 := toInt_sshiftRight_eq hmul2 6
  rw [BitVec.toInt_add, hshr2, hbase, addendOf, Int.bmod_eq_of_le] <;> omega

/-- **The addend in closed form.** Only the last store wraps. -/
theorem toNat_updateFineAddend (adj : BitVec 32) :
    ((updateFineAddend adj).toNat : ℤ) =
      addendOf (max (-5120000) (min 5120000 adj.toInt)) % 2 ^ 32 := by
  have hadj : ((clampAdj adj).signExtend 64).toInt = max (-5120000) (min 5120000 adj.toInt) := by
    rw [BitVec.toInt_signExtend_of_le (by decide), toInt_clampAdj]
  have hk : ((ADJ_FREQ_BASE_ADDEND (·.sshiftRight 24)).signExtend 64).toInt = 2 := by decide
  have hbase : ((ADJ_FREQ_BASE_ADDEND id).signExtend 64).toInt = 18 := by decide
  have hest := toInt_estimate hadj hk hbase (by omega) (by omega)
  rw [updateFineAddend, toNat_setWidth_eq_emod, hest]

/-! ## The law of the correction -/

/-- The base addend the macro names: `2^32 * 50000000 / SYSCLK_FREQ`, rounded down. -/
def baseAddend : ℤ := 2 ^ 32 * 50000000 / SYSCLK_FREQ.toNat

/-- The exact correction for `a` parts per billion is `a * baseAddend / 10^9`; the addend may
    miss it by one percent and four units. Both sides are multiplied by `100 * 10^9`. -/
def Corrects (adj : BitVec 32) : Prop :=
  let a := max (-5120000) (min 5120000 adj.toInt)
  let d := (updateFineAddend adj).toNat - baseAddend
  100 * |10 ^ 9 * d - a * baseAddend| ≤ |a * baseAddend| + 400 * 10 ^ 9

/-- Far from the base on either side of the wrap, the addend misses the law. -/
theorem not_corrects (adj : BitVec 32) : ¬Corrects adj := by
  intro hlaw
  have hB : baseAddend = 2236962133 := by decide
  have hword := toNat_updateFineAddend adj
  simp only [Corrects, hB, hword] at hlaw
  have hlo : -5120000 ≤ max (-5120000) (min 5120000 adj.toInt) := by omega
  have hhi : max (-5120000) (min 5120000 adj.toInt) ≤ 5120000 := by omega
  generalize max (-5120000) (min 5120000 adj.toInt) = a at hlaw hlo hhi
  obtain ⟨hmin, hmax, _⟩ := addendOf_bounds hlo hhi
  have hexact : |a * 2236962133| ≤ 5120000 * 2236962133 := by
    rw [abs_le]
    omega
  have hmiss := abs_le.mp (le_trans (le_mul_of_one_le_left (abs_nonneg _) (by decide)) hlaw)
  omega

/-- **The law holds for no adjustment, and the addend grows with the adjustment except where it
    wraps.** -/
theorem portPTPUpdateFine_addend (adj₁ adj₂ : BitVec 32) :
    ¬Corrects adj₁ ∧
      (adj₁.toInt ≤ adj₂.toInt →
        ((updateFineAddend adj₁).toNat ≤ (updateFineAddend adj₂).toNat ↔
          -536 ≤ adj₁.toInt ∨ adj₂.toInt ≤ -537)) := by
  refine ⟨not_corrects adj₁, ?_⟩
  intro hle
  have h₁ := toNat_updateFineAddend adj₁
  have h₂ := toNat_updateFineAddend adj₂
  have hmono := addendOf_mono (a := max (-5120000) (min 5120000 adj₁.toInt))
    (b := max (-5120000) (min 5120000 adj₂.toInt)) (by omega)
  obtain ⟨hmin₁, hmax₁, hneg₁⟩ := addendOf_bounds
    (a := max (-5120000) (min 5120000 adj₁.toInt)) (by omega) (by omega)
  obtain ⟨hmin₂, hmax₂, hneg₂⟩ := addendOf_bounds
    (a := max (-5120000) (min 5120000 adj₂.toInt)) (by omega) (by omega)
  generalize addendOf (max (-5120000) (min 5120000 adj₁.toInt)) = x₁ at *
  generalize addendOf (max (-5120000) (min 5120000 adj₂.toInt)) = x₂ at *
  omega

theorem portPTPUpdateFine_addend_one :
    (updateFineAddend 0#32).toNat ≤ (updateFineAddend 1#32).toNat :=
  ((portPTPUpdateFine_addend 0#32 1#32).2 (by decide)).mpr (.inl (by decide))

/-- Without an adjustment the clock runs on an addend of 18, the base it should run on being
    more than two thousand million. -/
theorem portPTPUpdateFine_addend_zero : ¬∀ adj : BitVec 32, Corrects adj := by
  intro h
  have hlaw := h 0#32
  unfold Corrects at hlaw
  exact absurd hlaw (by decide)

end EthernetIf

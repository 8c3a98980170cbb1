import EthernetIf.Desc
import EthernetIf.Lib.Scale

/-!
# PTP time and the registers that carry it

`struct ptptime_t` counts seconds and nanoseconds; the MAC counts seconds and units of
2^-31 s. The two macros that convert between them are C expressions with casts in the middle,
and the source itself asks for their validity to be checked. Here they are bit vectors, with
every cast where C has it, and the first section says what they compute:

> on the values the driver feeds them, each macro is the conversion of `Lib/Scale` between
> 10^9 and 2^31 units a second — no product overflows, no cast drops a bit.

The three statements by which both `portPTPSetTime` and `portPTPUpdateCoarse` fill the update
registers come next, and last what the hardware takes from those registers.
-/

namespace EthernetIf

open Scale

/-! ## The macros -/

/-- `struct ptptime_t`: both fields are `s32_t`. -/
structure PtpTime where
  tv_sec : BitVec 32
  tv_nsec : BitVec 32
deriving DecidableEq, Repr

/-- The time the two fields denote together, in nanoseconds. -/
def PtpTime.toNsec (t : PtpTime) : ℤ := t.tv_sec.toInt * 10 ^ 9 + t.tv_nsec.toInt

/-- The left factor of `SUBSEC * 1000000000ll`: a `uint32_t` is widened **without** sign. -/
def ptpToNsecArg (subsec : BitVec 32) : BitVec 64 := subsec.setWidth 64

/-- `PTP_TO_NSEC`. -/
def ptpToNsec (subsec : BitVec 32) : BitVec 32 :=
  ((ptpToNsecArg subsec * 1000000000#64) >>> 31).setWidth 32

/-- The left factor of `NSEC * 0x80000000ll`: an `int` is widened **with** its sign. -/
def ptpToSubsecArg (nsec : BitVec 32) : BitVec 64 := nsec.signExtend 64

/-- `PTP_TO_SUBSEC`. The product is a `uint64_t` by the time it is divided. -/
def ptpToSubsec (nsec : BitVec 32) : BitVec 32 :=
  ((ptpToSubsecArg nsec * 0x80000000#64) / 1000000000#64).setWidth 32

/-- A signed 64-bit product of two small factors is the product of their values. -/
theorem mul_of_lt {x k : BitVec 64} (hx : x.toNat < 2 ^ 63) (hk : k.toNat < 2 ^ 63)
    (h : x.toNat * k.toNat < 2 ^ 63) :
    BitVec.smulOverflow x k = false ∧ (x * k).toNat = x.toNat * k.toNat := by
  have hxi : x.toInt = x.toNat := BitVec.toInt_eq_toNat_of_lt (by omega)
  have hki : k.toInt = k.toNat := BitVec.toInt_eq_toNat_of_lt (by omega)
  constructor
  · rw [BitVec.smulOverflow, hxi, hki, ← Int.natCast_mul]
    simp only [Bool.or_eq_false_iff, decide_eq_false_iff_not]
    omega
  · rw [BitVec.toNat_mul]
    exact Nat.mod_eq_of_lt (h.trans (by decide))

theorem toNat_ptpToNsecArg (subsec : BitVec 32) :
    (ptpToNsecArg subsec).toNat = subsec.toNat := by
  have hlt := subsec.isLt
  rw [ptpToNsecArg, BitVec.toNat_setWidth]
  omega

theorem ptpToNsec_mul (subsec : BitVec 32) :
    BitVec.smulOverflow (ptpToNsecArg subsec) 1000000000#64 = false ∧
      (ptpToNsecArg subsec * 1000000000#64).toNat = subsec.toNat * 10 ^ 9 := by
  have hlt := subsec.isLt
  have harg := toNat_ptpToNsecArg subsec
  have h := mul_of_lt (x := ptpToNsecArg subsec) (k := 1000000000#64) (by omega) (by decide)
    (by rw [harg, BitVec.toNat_ofNat]; omega)
  rw [harg] at h
  exact h

/-- **`PTP_TO_NSEC` is a conversion**, from any 32-bit word. -/
theorem toNat_ptpToNsec (subsec : BitVec 32) :
    (ptpToNsec subsec).toNat = conv (2 ^ 31) (10 ^ 9) subsec.toNat := by
  have hlt := subsec.isLt
  rw [ptpToNsec, BitVec.toNat_setWidth, BitVec.toNat_ushiftRight, (ptpToNsec_mul subsec).2,
    Nat.shiftRight_eq_div_pow]
  apply Nat.mod_eq_of_lt
  omega

/-- The value of a nonnegative `int` is the value of its word. -/
theorem toInt_eq_toNat {x : BitVec 32} (h : 0 ≤ x.toInt) : x.toInt = x.toNat := by
  rw [BitVec.toInt_eq_toNat_cond] at h ⊢
  split
  · rfl
  · omega

theorem toNat_ptpToSubsecArg {nsec : BitVec 32} (h : nsec.toNat < 10 ^ 9) :
    (ptpToSubsecArg nsec).toNat = nsec.toNat := by
  have hmsb : nsec.msb = false := by
    rw [BitVec.msb_eq_false_iff_two_mul_lt]
    omega
  rw [ptpToSubsecArg, BitVec.signExtend_eq_setWidth_of_msb_false hmsb, BitVec.toNat_setWidth]
  omega

theorem ptpToSubsec_mul {nsec : BitVec 32} (h : nsec.toNat < 10 ^ 9) :
    BitVec.smulOverflow (ptpToSubsecArg nsec) 0x80000000#64 = false ∧
      (ptpToSubsecArg nsec * 0x80000000#64).toNat = nsec.toNat * 2 ^ 31 := by
  have harg := toNat_ptpToSubsecArg h
  have hmul := mul_of_lt (x := ptpToSubsecArg nsec) (k := 0x80000000#64) (by omega) (by decide)
    (by rw [harg, BitVec.toNat_ofNat]; omega)
  rw [harg] at hmul
  exact hmul

/-- **`PTP_TO_SUBSEC` is a conversion**, from any number of nanoseconds below a second. -/
theorem toNat_ptpToSubsec {nsec : BitVec 32} (h : nsec.toNat < 10 ^ 9) :
    (ptpToSubsec nsec).toNat = conv (10 ^ 9) (2 ^ 31) nsec.toNat := by
  rw [ptpToSubsec, BitVec.toNat_setWidth, BitVec.toNat_udiv, (ptpToSubsec_mul h).2]
  have hlt := conv_lt (a := 10 ^ 9) (b := 2 ^ 31) (by decide) h
  exact Nat.mod_eq_of_lt (hlt.trans (by decide))

theorem ptpToSubsec_lt {nsec : BitVec 32} (h : nsec.toNat < 10 ^ 9) :
    (ptpToSubsec nsec).toNat < 2 ^ 31 := by
  rw [toNat_ptpToSubsec h]
  exact conv_lt (by decide) h

/-- Later nanoseconds are later fractions. -/
theorem ptpToSubsec_strictMono {m n : BitVec 32} (hn : n.toNat < 10 ^ 9)
    (hmn : m.toNat < n.toNat) : (ptpToSubsec m).toNat < (ptpToSubsec n).toNat := by
  rw [toNat_ptpToSubsec hn, toNat_ptpToSubsec (hmn.trans hn)]
  exact conv_strictMono (by decide) (by decide) hmn

/-! ## The registers -/

-- PTPTSLUR: the sign of the update, and the fraction it carries
def ETH_PTPTSLUR_TSUPNS : BitVec 32 := 1#32 <<< 31
def ETH_PTPTSLUR_TSUSS : BitVec 32 := 0x7fffffff#32

/-- The registers of the MAC that the PTP functions write. -/
structure PtpRegs where
  ETH_MACIMR : BitVec 32
  ETH_PTPTSCR : BitVec 32
  ETH_PTPSSIR : BitVec 32
  ETH_PTPTSHUR : BitVec 32
  ETH_PTPTSLUR : BitVec 32
  ETH_PTPTSAR : BitVec 32
deriving DecidableEq, Repr

/-- Their values after a reset of the MAC. -/
def PtpRegs.reset : PtpRegs :=
  { ETH_MACIMR := 0#32, ETH_PTPTSCR := 0x2000#32, ETH_PTPSSIR := 0#32, ETH_PTPTSHUR := 0#32,
    ETH_PTPTSLUR := 0#32, ETH_PTPTSAR := 0#32 }

/-- The system time of the MAC, which software only reads. -/
structure PtpClock where
  ETH_PTPTSHR : BitVec 32
  ETH_PTPTSLR : BitVec 32
deriving DecidableEq, Repr

/-- The sign of an update: **one** bit for both fields of the time. -/
def PtpRegs.writeSign (t : PtpTime) (r : PtpRegs) : PtpRegs :=
  { r with
    ETH_PTPTSLUR :=
      if t.tv_sec.toInt < 0 ∨ t.tv_nsec.toInt < 0 then ETH_PTPTSLUR_TSUPNS else 0#32 }

/-- `ETH_PTPTSHUR = (u32_t)abs(timestamp->tv_sec)`. -/
def PtpRegs.writeSec (t : PtpTime) (r : PtpRegs) : PtpRegs :=
  { r with ETH_PTPTSHUR := t.tv_sec.abs }

/-- The subseconds, added to the word that already has the sign. -/
def PtpRegs.writeSubsec (t : PtpTime) (r : PtpRegs) : PtpRegs :=
  { r with
    ETH_PTPTSLUR := r.ETH_PTPTSLUR ||| (ptpToSubsec t.tv_nsec.abs &&& ETH_PTPTSLUR_TSUSS) }

/-- The statements in which `portPTPSetTime` and `portPTPUpdateCoarse` are alike. -/
def PtpRegs.writeTime (t : PtpTime) (r : PtpRegs) : PtpRegs :=
  ((r.writeSign t).writeSec t).writeSubsec t

/-- What the hardware does with the update registers when `TSSTI` completes. -/
def PtpRegs.initClock (r : PtpRegs) : PtpClock :=
  { ETH_PTPTSHR := r.ETH_PTPTSHUR, ETH_PTPTSLR := r.ETH_PTPTSLUR }

/-- `portPTPGetTime`, of the two words it reads one after the other. -/
def portPTPGetTime (tshr tslr : BitVec 32) : PtpTime :=
  { tv_sec := tshr, tv_nsec := ptpToNsec tslr }

/-! ## What the update registers hold

A fraction below a second fits the 31 bits it is given, so the mask takes nothing away from
it and the two halves of `ETH_PTPTSLUR` can be read back one by one. -/

theorem and_TSUSS {x : BitVec 32} (h : x.toNat < 2 ^ 31) : x &&& ETH_PTPTSLUR_TSUSS = x := by
  apply BitVec.eq_of_toNat_eq
  have hmask : ETH_PTPTSLUR_TSUSS.toNat = 2 ^ 31 - 1 := by decide
  rw [BitVec.toNat_and, hmask, Nat.and_two_pow_sub_one_eq_mod]
  exact Nat.mod_eq_of_lt h

theorem toNat_abs_eq_natAbs (x : BitVec 32) : x.abs.toNat = x.toInt.natAbs := by
  have hlt := x.isLt
  rw [BitVec.toNat_abs, BitVec.toInt_eq_msb_cond]
  cases hmsb : x.msb with
  | false => simp
  | true =>
    simp only [if_true]
    omega

/-- The sign bit and the fraction share a word without touching each other. -/
theorem sign_or_fraction {x : BitVec 32} (h : x.toNat < 2 ^ 31) (p : Prop) [Decidable p] :
    let w := (if p then ETH_PTPTSLUR_TSUPNS else 0#32) ||| x
    tst w ETH_PTPTSLUR_TSUPNS = decide p ∧ w &&& ETH_PTPTSLUR_TSUSS = x := by
  have hfrac : tst x ETH_PTPTSLUR_TSUPNS = false := by
    rw [← and_TSUSS h]
    exact tst_clear_of_subset x (y := ETH_PTPTSLUR_TSUPNS) (by decide)
  constructor
  · rw [tst_or, hfrac, Bool.or_false]
    by_cases hp : p
    · simp only [hp, decide_true]
      decide
    · simp only [hp, decide_false]
      decide
  · have hsign : (if p then ETH_PTPTSLUR_TSUPNS else 0#32) &&& ETH_PTPTSLUR_TSUSS = 0#32 := by
      split <;> decide
    calc ((if p then ETH_PTPTSLUR_TSUPNS else 0#32) ||| x) &&& ETH_PTPTSLUR_TSUSS
        = ((if p then ETH_PTPTSLUR_TSUPNS else 0#32) &&& ETH_PTPTSLUR_TSUSS) |||
            (x &&& ETH_PTPTSLUR_TSUSS) := by
          ext i hi
          simp only [BitVec.getElem_and, BitVec.getElem_or, Bool.and_or_distrib_right]
      _ = x := by rw [hsign, and_TSUSS h, BitVec.zero_or]

section
variable {t : PtpTime} (r : PtpRegs)

theorem writeTime_sec : (r.writeTime t).ETH_PTPTSHUR = t.tv_sec.abs := rfl

theorem writeTime_sign_subsec (hn : t.tv_nsec.toInt.natAbs < 10 ^ 9) :
    tst (r.writeTime t).ETH_PTPTSLUR ETH_PTPTSLUR_TSUPNS =
        decide (t.tv_sec.toInt < 0 ∨ t.tv_nsec.toInt < 0) ∧
      (r.writeTime t).ETH_PTPTSLUR &&& ETH_PTPTSLUR_TSUSS = ptpToSubsec t.tv_nsec.abs := by
  have hlt : (ptpToSubsec t.tv_nsec.abs).toNat < 2 ^ 31 :=
    ptpToSubsec_lt ((toNat_abs_eq_natAbs t.tv_nsec).trans_lt hn)
  have hword : (r.writeTime t).ETH_PTPTSLUR =
      (if t.tv_sec.toInt < 0 ∨ t.tv_nsec.toInt < 0 then ETH_PTPTSLUR_TSUPNS else 0#32) |||
        ptpToSubsec t.tv_nsec.abs := by
    rw [← and_TSUSS hlt]
    rfl
  rw [hword]
  exact sign_or_fraction hlt _

end

end EthernetIf

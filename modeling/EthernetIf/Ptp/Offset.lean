import EthernetIf.Ptp.Time

/-!
# Stepping the clock by a signed offset

`portPTPUpdateCoarse` is given an offset whose two fields are signed, and the MAC takes one
sign and one magnitude. The driver folds the two signs into one with an `or`, and takes the
absolute value of each field by itself:

> the registers denote the sum of the fields exactly when the fields do not have opposite
> signs.

With equal signs the two absolute values add up to the absolute value of the sum, and the one
conversion that rounds does so toward zero on either side. With opposite signs they add up to
more than it, so the step is too long, and it is backwards whatever the sum.
-/

namespace EthernetIf

open Scale

/-! ## What a step means -/

/-- The offset an update register pair denotes, in units of 2^-31 s. -/
def PtpRegs.offset (r : PtpRegs) : ℤ :=
  let magnitude : ℤ :=
    r.ETH_PTPTSHUR.toNat * 2 ^ 31 + (r.ETH_PTPTSLUR &&& ETH_PTPTSLUR_TSUSS).toNat
  if tst r.ETH_PTPTSLUR ETH_PTPTSLUR_TSUPNS then -magnitude else magnitude

/-- The clock — 32 bits of seconds over 31 of fraction — when `TSSTU` completes. -/
def PtpRegs.updateClock (r : PtpRegs) (c : ℤ) : ℤ := (c + r.offset) % 2 ^ 63

/-- The negated pair. -/
def PtpTime.neg (t : PtpTime) : PtpTime := { tv_sec := -t.tv_sec, tv_nsec := -t.tv_nsec }

/-- What a caller may pass: `abs` has a value for the seconds, and the nanoseconds are less
    than one second. Nothing is said about the signs. -/
structure PtpTime.InRange (t : PtpTime) : Prop where
  sec_ne : t.tv_sec.toInt ≠ -2 ^ 31
  nsec_lt : |t.tv_nsec.toInt| < 10 ^ 9

/-- The registers hold the offset asked for, and stepping back undoes the step. -/
structure StepsBy (r : PtpRegs) (t : PtpTime) : Prop where
  value : (r.writeTime t).offset = (t.toNsec * 2 ^ 31).tdiv (10 ^ 9)
  noOverflow : BitVec.smulOverflow (ptpToSubsecArg t.tv_nsec.abs) 0x80000000#64 = false
  noBitLost : ptpToSubsec t.tv_nsec.abs &&& ETH_PTPTSLUR_TSUSS = ptpToSubsec t.tv_nsec.abs ∧
    ((ptpToSubsec t.tv_nsec.abs).toNat : ℤ) = |t.tv_nsec.toInt| * 2 ^ 31 / 10 ^ 9
  restores : ∀ (r' : PtpRegs) (c : ℤ), 0 ≤ c → c < 2 ^ 63 →
    (r'.writeTime t.neg).updateClock ((r.writeTime t).updateClock c) = c

/-! ## The magnitude written -/

section
variable {t : PtpTime} (h : t.InRange)
include h

theorem PtpTime.InRange.natAbs_nsec : t.tv_nsec.toInt.natAbs < 10 ^ 9 := by
  have hlt := h.nsec_lt
  rw [Int.abs_eq_natAbs] at hlt
  omega

theorem PtpTime.InRange.toNat_abs_nsec : t.tv_nsec.abs.toNat < 10 ^ 9 := by
  rw [toNat_abs_eq_natAbs]
  exact h.natAbs_nsec

/-- The magnitude is the conversion of the **sum of the absolute values**. -/
theorem offset_writeTime (r : PtpRegs) :
    (r.writeTime t).offset =
      if t.tv_sec.toInt < 0 ∨ t.tv_nsec.toInt < 0 then
        -(conv (10 ^ 9) (2 ^ 31) (t.tv_sec.toInt.natAbs * 10 ^ 9 + t.tv_nsec.toInt.natAbs) : ℤ)
      else
        (conv (10 ^ 9) (2 ^ 31) (t.tv_sec.toInt.natAbs * 10 ^ 9 + t.tv_nsec.toInt.natAbs) : ℤ) := by
  obtain ⟨hsign, hsub⟩ := writeTime_sign_subsec r h.natAbs_nsec
  rw [PtpRegs.offset, hsign, hsub, writeTime_sec, toNat_abs_eq_natAbs,
    toNat_ptpToSubsec h.toNat_abs_nsec, toNat_abs_eq_natAbs, conv_add_seconds (by decide)]
  simp only [decide_eq_true_eq, Nat.cast_add, Nat.cast_mul]
  rfl

theorem PtpTime.InRange.neg_toInt :
    t.neg.tv_sec.toInt = -t.tv_sec.toInt ∧ t.neg.tv_nsec.toInt = -t.tv_nsec.toInt := by
  have hnsec := h.natAbs_nsec
  have hsec := h.sec_ne
  have hlo := BitVec.le_toInt t.tv_sec
  have hhi := BitVec.toInt_lt (x := t.tv_sec)
  simp only [PtpTime.neg, BitVec.toInt_neg]
  constructor
  · rw [Int.bmod_eq_of_le] <;> omega
  · rw [Int.bmod_eq_of_le] <;> omega

theorem PtpTime.InRange.neg : t.neg.InRange := by
  obtain ⟨hsec, hnsec⟩ := h.neg_toInt
  have hhi := BitVec.toInt_lt (x := t.tv_sec)
  constructor
  · rw [hsec]
    omega
  · rw [hnsec, abs_neg]
    exact h.nsec_lt

theorem PtpTime.InRange.neg_toNsec : t.neg.toNsec = -t.toNsec := by
  obtain ⟨hsec, hnsec⟩ := h.neg_toInt
  simp only [PtpTime.toNsec, hsec, hnsec]
  ring

end

/-! ## Equal signs -/

/-- Truncation toward zero is the conversion of the absolute value, with the sign put back. -/
theorem tdiv_eq_conv (x : ℤ) :
    (x * 2 ^ 31).tdiv (10 ^ 9) =
      if x < 0 then -(conv (10 ^ 9) (2 ^ 31) x.natAbs : ℤ)
      else conv (10 ^ 9) (2 ^ 31) x.natAbs := by
  have hnat (n : ℕ) :
      ((n : ℤ) * 2 ^ 31).tdiv (10 ^ 9) = (conv (10 ^ 9) (2 ^ 31) n : ℤ) := by
    rw [conv, Int.tdiv_eq_ediv_of_nonneg (by positivity)]
    push_cast
    rfl
  split
  case isTrue hneg =>
    have hx : x = -(x.natAbs : ℤ) := by omega
    calc (x * 2 ^ 31).tdiv (10 ^ 9) = (-((x.natAbs : ℤ) * 2 ^ 31)).tdiv (10 ^ 9) := by
          rw [← Int.neg_mul, ← hx]
      _ = -(conv (10 ^ 9) (2 ^ 31) x.natAbs : ℤ) := by rw [Int.neg_tdiv, hnat]
  case isFalse hnonneg =>
    have hx : x = (x.natAbs : ℤ) := by omega
    rw [hx, hnat, Int.natAbs_natCast]

/-- Fields without opposite signs: the sum has the sign of both, and its absolute value is the
    sum of theirs. -/
theorem toNsec_of_not_opposite {t : PtpTime} (h : 0 ≤ t.tv_sec.toInt * t.tv_nsec.toInt) :
    (t.toNsec < 0 ↔ t.tv_sec.toInt < 0 ∨ t.tv_nsec.toInt < 0) ∧
      t.toNsec.natAbs = t.tv_sec.toInt.natAbs * 10 ^ 9 + t.tv_nsec.toInt.natAbs := by
  unfold PtpTime.toNsec
  rcases mul_nonneg_iff.mp h with ⟨hs, hn⟩ | ⟨hs, hn⟩
  · omega
  · omega

/-- Fields with opposite signs: one of them is negative, and the sum is shorter. -/
theorem toNsec_of_opposite {t : PtpTime} (h : t.tv_sec.toInt * t.tv_nsec.toInt < 0) :
    (t.tv_sec.toInt < 0 ∨ t.tv_nsec.toInt < 0) ∧
      t.toNsec.natAbs < t.tv_sec.toInt.natAbs * 10 ^ 9 + t.tv_nsec.toInt.natAbs := by
  unfold PtpTime.toNsec
  rcases mul_neg_iff.mp h with ⟨hs, hn⟩ | ⟨hs, hn⟩
  · omega
  · omega

section
variable {t : PtpTime} (h : t.InRange)
include h

theorem value_iff (r : PtpRegs) :
    (r.writeTime t).offset = (t.toNsec * 2 ^ 31).tdiv (10 ^ 9) ↔
      0 ≤ t.tv_sec.toInt * t.tv_nsec.toInt := by
  rw [offset_writeTime h r, tdiv_eq_conv]
  constructor
  · intro heq
    by_contra hneg
    obtain ⟨hsign, hshort⟩ := toNsec_of_opposite (not_le.mp hneg)
    -- the step written is backwards, and longer than the one asked for
    have hlt := conv_strictMono (a := 10 ^ 9) (b := 2 ^ 31) (by decide) (by decide) hshort
    rw [if_pos hsign] at heq
    split at heq <;> omega
  · intro hnonneg
    obtain ⟨hsign, habs⟩ := toNsec_of_not_opposite hnonneg
    simp only [habs, hsign]

/-- **A signed step is encoded correctly exactly when its fields do not have opposite signs.** -/
theorem portPTPUpdateCoarse_stepsBy_iff (r : PtpRegs) :
    StepsBy r t ↔ 0 ≤ t.tv_sec.toInt * t.tv_nsec.toInt := by
  rw [← value_iff h r]
  constructor
  · intro hsteps
    exact hsteps.value
  · intro hvalue
    have hsigns := (value_iff h r).mp hvalue
    have hlt := ptpToSubsec_lt h.toNat_abs_nsec
    refine ⟨hvalue, (ptpToSubsec_mul h.toNat_abs_nsec).1, ⟨and_TSUSS hlt, ?_⟩, ?_⟩
    · rw [toNat_ptpToSubsec h.toNat_abs_nsec, toNat_abs_eq_natAbs, conv, Int.abs_eq_natAbs]
      push_cast
      rfl
    · intro r' c hc hc'
      obtain ⟨hsec, hnsec⟩ := h.neg_toInt
      have hback : (r'.writeTime t.neg).offset = -(r.writeTime t).offset := by
        have hneg : 0 ≤ t.neg.tv_sec.toInt * t.neg.tv_nsec.toInt := by
          rw [hsec, hnsec, neg_mul_neg]
          exact hsigns
        rw [(value_iff h.neg r').mpr hneg, h.neg_toNsec, hvalue, Int.neg_mul, Int.neg_tdiv]
      rw [PtpRegs.updateClock, PtpRegs.updateClock, hback]
      omega

end

theorem portPTPUpdateCoarse_stepsBy_back :
    StepsBy PtpRegs.reset { tv_sec := 0#32, tv_nsec := BitVec.ofInt 32 (-500000000) } :=
  (portPTPUpdateCoarse_stepsBy_iff ⟨by decide, by decide⟩ PtpRegs.reset).mpr (by decide)

/-- Half a second forward, written as one second less half a second, steps the clock back by one
    and a half. -/
theorem portPTPUpdateCoarse_opposite_signs :
    ¬∀ t : PtpTime, t.InRange → StepsBy PtpRegs.reset t := by
  intro h
  have hsteps := h { tv_sec := 1#32, tv_nsec := BitVec.ofInt 32 (-500000000) }
    ⟨by decide, by decide⟩
  exact absurd hsteps.value (by decide)

end EthernetIf

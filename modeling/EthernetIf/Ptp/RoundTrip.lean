import EthernetIf.Ptp.Time

/-!
# Setting the PTP time and reading it back

The two conversions of `Ptp/Time` run in opposite directions, and a time goes through both
when it is set and read. What comes back is settled by `Lib/Scale` and one number: 10^9 and
2^31 share the factor 2^9, so the finer scale has a nanosecond count on the nose exactly when
`10^9 / 2^9 = 1953125` divides it.
-/

namespace EthernetIf

open Scale

/-- A time the clock can be set to: the fields in their ranges, neither of them negative. -/
structure PtpTime.Valid (t : PtpTime) : Prop where
  sec_nonneg : 0 ≤ t.tv_sec.toInt
  nsec_nonneg : 0 ≤ t.tv_nsec.toInt
  nsec_lt : t.tv_nsec.toInt < 10 ^ 9

/-- `portPTPGetTime` after `portPTPSetTime`, on a clock that has not advanced in between. -/
def setThenGet (r : PtpRegs) (t : PtpTime) : PtpTime :=
  let c := (r.writeTime t).initClock
  portPTPGetTime c.ETH_PTPTSHR c.ETH_PTPTSLR

/-- `portPTPSetTime` of what `portPTPGetTime` has read. -/
def getThenSet (r : PtpRegs) (c : PtpClock) : PtpClock :=
  (r.writeTime (portPTPGetTime c.ETH_PTPTSHR c.ETH_PTPTSLR)).initClock

/-! ## A time in range has no sign to write -/

theorem abs_of_nonneg {x : BitVec 32} (h : 0 ≤ x.toInt) : x.abs = x := by
  apply BitVec.eq_of_toNat_eq
  rw [toNat_abs_eq_natAbs, toInt_eq_toNat h, Int.natAbs_natCast]

theorem PtpTime.Valid.toNat_nsec {t : PtpTime} (h : t.Valid) : t.tv_nsec.toNat < 10 ^ 9 := by
  have hlt := h.nsec_lt
  rw [toInt_eq_toNat h.nsec_nonneg] at hlt
  omega

theorem PtpTime.Valid.initClock {t : PtpTime} (h : t.Valid) (r : PtpRegs) :
    (r.writeTime t).initClock =
      { ETH_PTPTSHR := t.tv_sec, ETH_PTPTSLR := ptpToSubsec t.tv_nsec } := by
  have hsign : ¬(t.tv_sec.toInt < 0 ∨ t.tv_nsec.toInt < 0) := by
    rw [not_or, Int.not_lt, Int.not_lt]
    exact ⟨h.sec_nonneg, h.nsec_nonneg⟩
  simp only [PtpRegs.writeTime, PtpRegs.writeSign, PtpRegs.writeSec, PtpRegs.writeSubsec,
    PtpRegs.initClock, if_neg hsign, abs_of_nonneg h.sec_nonneg, abs_of_nonneg h.nsec_nonneg,
    and_TSUSS (ptpToSubsec_lt h.toNat_nsec), BitVec.zero_or]

/-! ## Set, then get -/

theorem setThenGet_nsec {t : PtpTime} (h : t.Valid) (r : PtpRegs) :
    (setThenGet r t).tv_nsec.toNat =
      conv (2 ^ 31) (10 ^ 9) (conv (10 ^ 9) (2 ^ 31) t.tv_nsec.toNat) := by
  simp only [setThenGet, portPTPGetTime, h.initClock r]
  rw [toNat_ptpToNsec, toNat_ptpToSubsec h.toNat_nsec]

/-- What comes back is never later than what was set. -/
theorem setThenGet_nsec_le {t : PtpTime} (h : t.Valid) (r : PtpRegs) :
    (setThenGet r t).tv_nsec.toNat ≤ t.tv_nsec.toNat := by
  rw [setThenGet_nsec h]
  exact conv_conv_le _ _ _

theorem setThenGet_toInt_nsec {t : PtpTime} (h : t.Valid) (r : PtpRegs) :
    (setThenGet r t).tv_nsec.toInt = (setThenGet r t).tv_nsec.toNat := by
  have hle := setThenGet_nsec_le h r
  have hlt := h.toNat_nsec
  exact BitVec.toInt_eq_toNat_of_lt (by omega)

/-- The nanoseconds that survive are the ones the finer scale has on the nose. -/
theorem setThenGet_nsec_eq_iff {t : PtpTime} (h : t.Valid) (r : PtpRegs) :
    (setThenGet r t).tv_nsec = t.tv_nsec ↔ 1953125 ∣ t.tv_nsec.toNat := by
  rw [← BitVec.toNat_inj, setThenGet_nsec h, conv_conv_eq_iff (by decide) (by decide)]
  exact dvd_mul_iff (g := 2 ^ 9) (p := 1953125) (q := 2 ^ 22) (by decide) (by decide) _

/-! ## Get, then set -/

/-- A clock whose seconds `s32_t` can hold, and whose fraction is one. -/
structure PtpClock.Valid (c : PtpClock) : Prop where
  sec_lt : c.ETH_PTPTSHR.toNat < 2 ^ 31
  subsec_lt : c.ETH_PTPTSLR.toNat < 2 ^ 31

theorem PtpClock.Valid.getTime {c : PtpClock} (h : c.Valid) :
    (portPTPGetTime c.ETH_PTPTSHR c.ETH_PTPTSLR).Valid := by
  have hsec : c.ETH_PTPTSHR.toInt = c.ETH_PTPTSHR.toNat :=
    BitVec.toInt_eq_toNat_of_lt (by have := h.sec_lt; omega)
  have hlt : (ptpToNsec c.ETH_PTPTSLR).toNat < 10 ^ 9 := by
    rw [toNat_ptpToNsec]
    exact conv_lt (by decide) h.subsec_lt
  have hnsec : (ptpToNsec c.ETH_PTPTSLR).toInt = (ptpToNsec c.ETH_PTPTSLR).toNat :=
    BitVec.toInt_eq_toNat_of_lt (by omega)
  constructor
  · rw [portPTPGetTime, hsec]
    omega
  · rw [portPTPGetTime, hnsec]
    omega
  · rw [portPTPGetTime, hnsec]
    omega

theorem getThenSet_subsec {c : PtpClock} (h : c.Valid) (r : PtpRegs) :
    (getThenSet r c).ETH_PTPTSLR.toNat =
      conv (10 ^ 9) (2 ^ 31) (conv (2 ^ 31) (10 ^ 9) c.ETH_PTPTSLR.toNat) := by
  rw [getThenSet, h.getTime.initClock r, toNat_ptpToSubsec h.getTime.toNat_nsec]
  simp only [portPTPGetTime, toNat_ptpToNsec]

theorem getThenSet_loss {c : PtpClock} (h : c.Valid) (r : PtpRegs) :
    (getThenSet r c).ETH_PTPTSLR.toNat ≤ c.ETH_PTPTSLR.toNat ∧
      c.ETH_PTPTSLR.toNat ≤ (getThenSet r c).ETH_PTPTSLR.toNat + 3 := by
  rw [getThenSet_subsec h]
  have hloss := conv_conv_loss (a := 10 ^ 9) (b := 2 ^ 31) (by decide) (by decide)
    c.ETH_PTPTSLR.toNat
  exact ⟨conv_conv_le _ _ _, by omega⟩

/-! ## The round trip -/

/-- The laws of setting and getting the time, `r` being the registers before. -/
structure SetGetLaws (r : PtpRegs) : Prop where
  sec : ∀ t : PtpTime, t.Valid → (setThenGet r t).tv_sec = t.tv_sec
  nsec : ∀ t : PtpTime, t.Valid →
    t.tv_nsec.toInt - 1 ≤ (setThenGet r t).tv_nsec.toInt ∧
      (setThenGet r t).tv_nsec.toInt ≤ t.tv_nsec.toInt
  exact : ∀ t : PtpTime, t.Valid →
    ((setThenGet r t).tv_nsec = t.tv_nsec ↔ 1953125 ∣ t.tv_nsec.toInt)
  increasing : ∀ t u : PtpTime, t.Valid → u.Valid → t.tv_nsec.toInt < u.tv_nsec.toInt →
    (ptpToSubsec t.tv_nsec).toNat < (ptpToSubsec u.tv_nsec).toNat
  noCarry : ∀ t : PtpTime, t.Valid → (ptpToSubsec t.tv_nsec).toNat < 2 ^ 31 ∧
    (r.writeTime t).initClock =
      { ETH_PTPTSHR := t.tv_sec, ETH_PTPTSLR := ptpToSubsec t.tv_nsec }
  getSet : ∀ c : PtpClock, c.Valid →
    (getThenSet r c).ETH_PTPTSHR = c.ETH_PTPTSHR ∧
      (getThenSet r c).ETH_PTPTSLR.toNat ≤ c.ETH_PTPTSLR.toNat ∧
      c.ETH_PTPTSLR.toNat ≤ (getThenSet r c).ETH_PTPTSLR.toNat + 3
  setNoOverflow : ∀ t : PtpTime, t.Valid →
    t.tv_sec.abs.toInt = t.tv_sec.toInt ∧ t.tv_nsec.abs.toInt = t.tv_nsec.toInt ∧
      BitVec.smulOverflow (ptpToSubsecArg t.tv_nsec) 0x80000000#64 = false ∧
      ((ptpToSubsec t.tv_nsec).toNat : ℤ) = t.tv_nsec.toInt * 2 ^ 31 / 10 ^ 9
  getNoOverflow : ∀ c : PtpClock, c.Valid →
    BitVec.smulOverflow (ptpToNsecArg c.ETH_PTPTSLR) 1000000000#64 = false ∧
      (portPTPGetTime c.ETH_PTPTSHR c.ETH_PTPTSLR).tv_sec.toInt = c.ETH_PTPTSHR.toNat ∧
      (portPTPGetTime c.ETH_PTPTSHR c.ETH_PTPTSLR).tv_nsec.toInt =
        c.ETH_PTPTSLR.toNat * 10 ^ 9 / 2 ^ 31

/-- **Set and get** obey their laws, whatever the registers held before. -/
theorem portPTPSetTime_portPTPGetTime (r : PtpRegs) : SetGetLaws r := by
  constructor
  case sec =>
    intro t ht
    simp only [setThenGet, portPTPGetTime, ht.initClock r]
  case nsec =>
    intro t ht
    have hle := setThenGet_nsec_le ht r
    have hge := le_conv_conv (a := 10 ^ 9) (b := 2 ^ 31) (by decide) (by decide) t.tv_nsec.toNat
    rw [← setThenGet_nsec ht r] at hge
    rw [setThenGet_toInt_nsec ht r, toInt_eq_toNat ht.nsec_nonneg]
    omega
  case exact =>
    intro t ht
    rw [setThenGet_nsec_eq_iff ht r, toInt_eq_toNat ht.nsec_nonneg]
    omega
  case increasing =>
    intro t u ht hu hlt
    rw [toInt_eq_toNat ht.nsec_nonneg, toInt_eq_toNat hu.nsec_nonneg] at hlt
    exact ptpToSubsec_strictMono hu.toNat_nsec (by omega)
  case noCarry =>
    intro t ht
    exact ⟨ptpToSubsec_lt ht.toNat_nsec, ht.initClock r⟩
  case getSet =>
    intro c hc
    refine ⟨?_, getThenSet_loss hc r⟩
    rw [getThenSet, hc.getTime.initClock r]
    rfl
  case setNoOverflow =>
    intro t ht
    rw [abs_of_nonneg ht.sec_nonneg, abs_of_nonneg ht.nsec_nonneg,
      toNat_ptpToSubsec ht.toNat_nsec, toInt_eq_toNat ht.nsec_nonneg]
    refine ⟨rfl, rfl, (ptpToSubsec_mul ht.toNat_nsec).1, ?_⟩
    simp only [conv]
    omega
  case getNoOverflow =>
    intro c hc
    have ht := hc.getTime
    rw [toInt_eq_toNat ht.sec_nonneg, toInt_eq_toNat ht.nsec_nonneg]
    refine ⟨(ptpToNsec_mul c.ETH_PTPTSLR).1, rfl, ?_⟩
    simp only [portPTPGetTime, toNat_ptpToNsec, conv]
    omega

theorem portPTPSetTime_portPTPGetTime_exact :
    (setThenGet PtpRegs.reset { tv_sec := 1#32, tv_nsec := 1953125#32 }).tv_nsec = 1953125#32 :=
  ((portPTPSetTime_portPTPGetTime PtpRegs.reset).exact { tv_sec := 1#32, tv_nsec := 1953125#32 }
    ⟨by decide, by decide, by decide⟩).mpr (by decide)

end EthernetIf

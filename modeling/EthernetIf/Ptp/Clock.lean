import EthernetIf.Ptp.Time

/-!
# Reading a clock that does not stand still

`portPTPGetTime` reads the seconds and then the fraction, two registers at two instants. The
clock is a count of 2^-31 s that never goes back, and a call is four instants of it: where the
call starts, where each register is read, where it returns.

> the result lies between the clock at the start and at the return unless the clock crosses a
> second between the two reads — then it is a second short — or its seconds have outgrown
> `s32_t`.

The crossing is harmless in one case only, when another second has begun between the start and
the first read or the fraction has come round to where it was: the result is then still no
earlier than the start, and the condition of the theorem says so.
-/

namespace EthernetIf

open Scale

/-- The two time registers, when the clock stands at `c`. -/
def clockAt (c : ℕ) : PtpClock :=
  { ETH_PTPTSHR := BitVec.ofNat 32 (c / 2 ^ 31), ETH_PTPTSLR := BitVec.ofNat 32 (c % 2 ^ 31) }

/-- One call of `portPTPGetTime`, by the instants of the clock it meets: it advances by any
    amount between two of them, and does not overflow. -/
structure GetTimeCall where
  start : ℕ
  readSec : ℕ
  readSubsec : ℕ
  finish : ℕ
  start_le : start ≤ readSec
  readSec_le : readSec ≤ readSubsec
  readSubsec_le : readSubsec ≤ finish
  finish_lt : finish < 2 ^ 63

namespace GetTimeCall

variable (g : GetTimeCall)

/-- What the call returns. -/
def result : PtpTime :=
  portPTPGetTime (clockAt g.readSec).ETH_PTPTSHR (clockAt g.readSubsec).ETH_PTPTSLR

/-- The result lies between the clock at the start, less the nanosecond that rounding takes,
    and the clock at the return. A nanosecond is 2^31 and a tick 10^9 of the unit compared in. -/
def Linearizable : Prop :=
  g.start * 10 ^ 9 < (g.result.toNsec + 1) * 2 ^ 31 ∧ g.result.toNsec * 2 ^ 31 ≤ g.finish * 10 ^ 9

/-- **A torn read**: a second begins between the two reads, none between the start and the
    first of them, and the fraction read is of an earlier nanosecond than the one of the start. -/
def Torn : Prop :=
  g.start / 2 ^ 31 = g.readSec / 2 ^ 31 ∧ g.readSec / 2 ^ 31 < g.readSubsec / 2 ^ 31 ∧
    conv (2 ^ 31) (10 ^ 9) (g.readSubsec % 2 ^ 31) < conv (2 ^ 31) (10 ^ 9) (g.start % 2 ^ 31)

/-! ## The result in nanoseconds -/

theorem tv_sec_result : g.result.tv_sec.toNat = g.readSec / 2 ^ 31 := by
  have hlt := g.finish_lt
  have hle := g.readSec_le.trans g.readSubsec_le
  simp only [result, portPTPGetTime, clockAt, BitVec.toNat_ofNat]
  omega

theorem tv_nsec_result :
    g.result.tv_nsec.toInt = (conv (2 ^ 31) (10 ^ 9) (g.readSubsec % 2 ^ 31) : ℕ) := by
  have hfrac : g.readSubsec % 2 ^ 31 < 2 ^ 31 := Nat.mod_lt _ (by decide)
  have hword : (clockAt g.readSubsec).ETH_PTPTSLR.toNat = g.readSubsec % 2 ^ 31 := by
    simp only [clockAt, BitVec.toNat_ofNat]
    omega
  have hnat : g.result.tv_nsec.toNat = conv (2 ^ 31) (10 ^ 9) (g.readSubsec % 2 ^ 31) := by
    simp only [result, portPTPGetTime, toNat_ptpToNsec, hword]
  have hlt := conv_lt (a := 2 ^ 31) (b := 10 ^ 9) (by decide) hfrac
  rw [BitVec.toInt_eq_toNat_of_lt (by omega), hnat]

theorem toNsec_eq (h : g.readSec / 2 ^ 31 < 2 ^ 31) :
    g.result.toNsec =
      (g.readSec / 2 ^ 31 * 10 ^ 9 + conv (2 ^ 31) (10 ^ 9) (g.readSubsec % 2 ^ 31) : ℕ) := by
  have hsec : g.result.tv_sec.toInt = (g.readSec / 2 ^ 31 : ℕ) := by
    rw [BitVec.toInt_eq_toNat_of_lt (by rw [tv_sec_result]; omega), tv_sec_result]
  rw [PtpTime.toNsec, hsec, tv_nsec_result]
  push_cast
  rfl

/-- Seconds that `s32_t` cannot hold read as a time before the clock began. -/
theorem toNsec_neg (h : ¬g.readSec / 2 ^ 31 < 2 ^ 31) : g.result.toNsec < 0 := by
  have hword := g.tv_sec_result
  have hlt := g.result.tv_sec.isLt
  have hnsec := conv_lt (a := 2 ^ 31) (b := 10 ^ 9) (by decide)
    (Nat.mod_lt g.readSubsec (by decide))
  have hsec : g.result.tv_sec.toInt ≤ -1 := by
    rw [BitVec.toInt_eq_toNat_cond, if_neg (by omega)]
    omega
  rw [PtpTime.toNsec, tv_nsec_result]
  omega

/-! ## Between start and return -/

theorem lt_succ_mul_iff (n : ℕ) :
    g.start * 10 ^ 9 < (n + 1) * 2 ^ 31 ↔ conv (2 ^ 31) (10 ^ 9) g.start ≤ n := by
  rw [conv, ← Nat.lt_succ_iff, Nat.div_lt_iff_lt_mul (by decide)]

theorem mul_le_iff (n : ℕ) :
    n * 2 ^ 31 ≤ g.finish * 10 ^ 9 ↔ n ≤ conv (2 ^ 31) (10 ^ 9) g.finish := by
  rw [conv, Nat.le_div_iff_mul_le (by decide)]

/-- The first read cannot be too late: the fraction read belongs to a later instant. -/
theorem toNsec_le_finish (h : g.readSec / 2 ^ 31 < 2 ^ 31) :
    g.result.toNsec ≤ (conv (2 ^ 31) (10 ^ 9) g.finish : ℕ) := by
  rw [toNsec_eq g h, Int.ofNat_le]
  calc g.readSec / 2 ^ 31 * 10 ^ 9 + conv (2 ^ 31) (10 ^ 9) (g.readSubsec % 2 ^ 31)
      ≤ g.readSubsec / 2 ^ 31 * 10 ^ 9 + conv (2 ^ 31) (10 ^ 9) (g.readSubsec % 2 ^ 31) := by
        have hsec := Nat.div_le_div_right (c := 2 ^ 31) g.readSec_le
        exact Nat.add_le_add_right (Nat.mul_le_mul_right _ hsec) _
    _ = conv (2 ^ 31) (10 ^ 9) g.readSubsec := (conv_split (by decide) _ _).symm
    _ ≤ conv (2 ^ 31) (10 ^ 9) g.finish := conv_mono g.readSubsec_le

/-- It can be too early, and is where the read is torn. -/
theorem start_le_toNsec_iff (h : g.readSec / 2 ^ 31 < 2 ^ 31) :
    ((conv (2 ^ 31) (10 ^ 9) g.start : ℕ) : ℤ) ≤ g.result.toNsec ↔ ¬g.Torn := by
  have hsec₁ := Nat.div_le_div_right (c := 2 ^ 31) g.start_le
  have hsec₂ := Nat.div_le_div_right (c := 2 ^ 31) g.readSec_le
  have hstart := conv_lt (a := 2 ^ 31) (b := 10 ^ 9) (by decide) (Nat.mod_lt g.start (by decide))
  have hfrac : g.start / 2 ^ 31 = g.readSubsec / 2 ^ 31 →
      conv (2 ^ 31) (10 ^ 9) (g.start % 2 ^ 31) ≤
        conv (2 ^ 31) (10 ^ 9) (g.readSubsec % 2 ^ 31) := by
    intro hsame
    have hle := g.start_le.trans g.readSec_le
    exact conv_mono (by omega)
  rw [toNsec_eq g h, Int.ofNat_le, conv_split (by decide) (10 ^ 9) g.start, Torn]
  omega

theorem linearizable_iff : g.Linearizable ↔ g.readSec / 2 ^ 31 < 2 ^ 31 ∧ ¬g.Torn := by
  by_cases h : g.readSec / 2 ^ 31 < 2 ^ 31
  · have hfinish := g.toNsec_le_finish h
    obtain ⟨n, hn⟩ : ∃ n : ℕ, g.result.toNsec = n := ⟨_, toNsec_eq g h⟩
    rw [← start_le_toNsec_iff g h, Linearizable]
    rw [hn] at hfinish ⊢
    have hlo := g.lt_succ_mul_iff n
    have hhi := g.mul_le_iff n
    rw [Int.ofNat_le] at hfinish ⊢
    constructor
    · rintro ⟨hlt, _⟩
      exact ⟨h, hlo.mp (by exact_mod_cast hlt)⟩
    · rintro ⟨_, hle⟩
      exact ⟨by exact_mod_cast hlo.mpr hle, by exact_mod_cast hhi.mpr hfinish⟩
  · have hneg := g.toNsec_neg h
    constructor
    · rintro ⟨hlt, _⟩
      omega
    · rintro ⟨hlt, _⟩
      exact absurd hlt h

end GetTimeCall

/-- A call that takes no time. -/
def GetTimeCall.instant (c : ℕ) (h : c < 2 ^ 63) : GetTimeCall :=
  { start := c, readSec := c, readSubsec := c, finish := c, start_le := le_rfl,
    readSec_le := le_rfl, readSubsec_le := le_rfl, finish_lt := h }

theorem GetTimeCall.toNsec_instant {c : ℕ} (h : c < 2 ^ 63) (hfits : c / 2 ^ 31 < 2 ^ 31) :
    (instant c h).result.toNsec = (conv (2 ^ 31) (10 ^ 9) c : ℕ) := by
  rw [(instant c h).toNsec_eq hfits, conv_split (by decide) (10 ^ 9) c]
  rfl

/-- A call whose seconds fit is no earlier than the calls before it exactly if it is not torn. -/
theorem GetTimeCall.not_torn_iff (g : GetTimeCall) (h : g.readSec / 2 ^ 31 < 2 ^ 31) :
    ¬g.Torn ↔ ∀ g₀ : GetTimeCall, g₀.finish ≤ g.start → g₀.result.toNsec ≤ g.result.toNsec := by
  rw [← g.start_le_toNsec_iff h]
  constructor
  · intro hstart g₀ hnext
    have hfits : g₀.readSec / 2 ^ 31 < 2 ^ 31 := by
      have hle := (g₀.readSec_le.trans g₀.readSubsec_le).trans (hnext.trans g.start_le)
      exact (Nat.div_le_div_right hle).trans_lt h
    calc g₀.result.toNsec ≤ (conv (2 ^ 31) (10 ^ 9) g₀.finish : ℕ) := g₀.toNsec_le_finish hfits
      _ ≤ (conv (2 ^ 31) (10 ^ 9) g.start : ℕ) := Int.ofNat_le.mpr (conv_mono hnext)
      _ ≤ g.result.toNsec := hstart
  · intro hall
    -- the clock at the start is what a call there returns
    have hle := g.start_le.trans (g.readSec_le.trans g.readSubsec_le)
    have hfits : g.start / 2 ^ 31 < 2 ^ 31 := (Nat.div_le_div_right g.start_le).trans_lt h
    rw [← GetTimeCall.toNsec_instant (hle.trans_lt g.finish_lt) hfits]
    exact hall _ le_rfl

/-- **Reading the clock is linearizable exactly where the read is not torn** and the seconds
    fit. And of the calls whose seconds fit, those that are not torn are the ones that return no
    earlier a time than any call before them. -/
theorem portPTPGetTime_linearizable_iff (g : GetTimeCall) :
    (g.Linearizable ↔ g.readSec / 2 ^ 31 < 2 ^ 31 ∧ ¬g.Torn) ∧
      (g.readSec / 2 ^ 31 < 2 ^ 31 →
        (¬g.Torn ↔ ∀ g₀ : GetTimeCall, g₀.finish ≤ g.start →
          g₀.result.toNsec ≤ g.result.toNsec)) :=
  ⟨g.linearizable_iff, g.not_torn_iff⟩

/-- A call in the last ticks before the second, and one in which the second begins. -/
def beforeSecond : GetTimeCall :=
  { start := 2 ^ 31 - 4, readSec := 2 ^ 31 - 3, readSubsec := 2 ^ 31 - 2, finish := 2 ^ 31 - 1,
    start_le := by decide, readSec_le := by decide, readSubsec_le := by decide,
    finish_lt := by decide }

def acrossSecond : GetTimeCall :=
  { start := 2 ^ 31 - 1, readSec := 2 ^ 31 - 1, readSubsec := 2 ^ 31, finish := 2 ^ 31,
    start_le := le_rfl, readSec_le := by decide, readSubsec_le := le_rfl, finish_lt := by decide }

theorem portPTPGetTime_linearizable_before :
    beforeSecond.Linearizable ∧ ∀ g₀ : GetTimeCall, g₀.finish ≤ beforeSecond.start →
      g₀.result.toNsec ≤ beforeSecond.result.toNsec := by
  obtain ⟨hlin, hlater⟩ := portPTPGetTime_linearizable_iff beforeSecond
  have hwhole : ¬beforeSecond.Torn := fun htorn => absurd htorn.2.1 (by decide)
  exact ⟨hlin.mpr ⟨by decide, hwhole⟩, (hlater (by decide)).mp hwhole⟩

/-- The call across the second returns a time a second short — before its own start, and
    before what the call before it returned. -/
theorem portPTPGetTime_torn :
    (¬∀ g : GetTimeCall, g.Linearizable) ∧
      ¬∀ g g' : GetTimeCall, g.finish ≤ g'.start → g.result.toNsec ≤ g'.result.toNsec := by
  constructor
  · intro h
    have hlo := (h acrossSecond).1
    exact absurd hlo (by decide)
  · intro h
    have hle := h beforeSecond acrossSecond le_rfl
    exact absurd hle (by decide)

end EthernetIf

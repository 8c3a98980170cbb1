import Mathlib.Data.Nat.GCD.Basic
import Mathlib.Tactic.Linarith
import Mathlib.Tactic.Ring

/-!
# Conversions between two scales

A duration counted in units of `1/a` of a second is converted to units of `1/b` by `conv a b`,
which rounds down. Nothing here is about a particular clock: `a` and `b` are any two positive
scales, and

> a conversion to the finer scale and back loses at most one unit, and loses none exactly
> where the first conversion was exact.

The other order — to the coarser scale and back — loses up to `b / a` units and one more
(`conv_conv_loss`).
-/

namespace Scale

/-- `n` units of `1/a` in units of `1/b`, rounded **down**. -/
def conv (a b n : ℕ) : ℕ := n * b / a

variable {a b : ℕ}

/-! ## One conversion -/

theorem conv_mul_le (a b n : ℕ) : conv a b n * a ≤ n * b := Nat.div_mul_le_self _ _

theorem lt_conv_succ_mul (ha : 0 < a) (b n : ℕ) : n * b < (conv a b n + 1) * a := by
  rw [Nat.mul_comm (conv a b n + 1) a]
  exact Nat.lt_mul_div_succ (n * b) ha

theorem conv_mono {m n : ℕ} (h : m ≤ n) : conv a b m ≤ conv a b n :=
  Nat.div_le_div_right (Nat.mul_le_mul_right b h)

/-- To a scale at least as fine, no two counts become one. -/
theorem conv_strictMono (ha : 0 < a) (hab : a ≤ b) : StrictMono (conv a b) := by
  intro m n hmn
  have hm := conv_mul_le a b m
  have hn := lt_conv_succ_mul ha b n
  have hstep : (m + 1) * b ≤ n * b := Nat.mul_le_mul_right b hmn
  have hlt : (conv a b m + 1) * a < (conv a b n + 1) * a := by
    rw [Nat.add_mul, Nat.one_mul] at hstep ⊢
    omega
  exact Nat.lt_of_succ_lt_succ (Nat.lt_of_mul_lt_mul_right hlt)

/-- Less than a second stays less than a second. -/
theorem conv_lt (hb : 0 < b) {n : ℕ} (hn : n < a) : conv a b n < b :=
  Nat.div_lt_of_lt_mul (Nat.mul_lt_mul_of_pos_right hn hb)

/-- Whole seconds convert exactly, beside any fraction. -/
theorem conv_add_seconds (ha : 0 < a) (s n : ℕ) :
    conv a b (s * a + n) = s * b + conv a b n := by
  have hsplit : (s * a + n) * b = n * b + s * b * a := by ring
  rw [conv, hsplit, Nat.add_mul_div_right _ _ ha, Nat.add_comm]
  rfl

/-- A count split at the second. -/
theorem conv_split (ha : 0 < a) (b c : ℕ) :
    conv a b c = c / a * b + conv a b (c % a) := by
  rw [← conv_add_seconds ha, Nat.mul_comm, Nat.div_add_mod]

/-! ## There and back -/

theorem conv_conv_le (a b n : ℕ) : conv b a (conv a b n) ≤ n :=
  Nat.div_le_of_le_mul ((conv_mul_le a b n).trans (Nat.mul_comm n b).le)

/-- To the finer scale and back loses at most one unit. -/
theorem le_conv_conv (ha : 0 < a) (hab : a ≤ b) (n : ℕ) : n ≤ conv b a (conv a b n) + 1 := by
  have hb : 0 < b := ha.trans_le hab
  have hforth := lt_conv_succ_mul ha b n
  have hback := lt_conv_succ_mul hb a (conv a b n)
  have hlt : n * b < (conv b a (conv a b n) + 2) * b := by
    rw [Nat.add_mul] at hforth hback ⊢
    omega
  exact Nat.lt_succ_iff.mp (Nat.lt_of_mul_lt_mul_right hlt)

/-- **Exactness**: nothing is lost exactly where the finer scale has the count on the nose. -/
theorem conv_conv_eq_iff (ha : 0 < a) (hab : a ≤ b) (n : ℕ) :
    conv b a (conv a b n) = n ↔ a ∣ n * b := by
  have hb : 0 < b := ha.trans_le hab
  constructor
  · intro h
    have hback : n * b ≤ conv a b n * a := by
      calc n * b = conv b a (conv a b n) * b := by rw [h]
        _ ≤ conv a b n * a := conv_mul_le b a _
    refine ⟨conv a b n, ?_⟩
    rw [Nat.mul_comm a]
    exact hback.antisymm (conv_mul_le a b n)
  · intro h
    rw [conv, conv, Nat.div_mul_cancel h, Nat.mul_div_cancel _ hb]

/-- What divides, once the common factor of the two scales is taken out. -/
theorem dvd_mul_iff {g p q : ℕ} (hg : 0 < g) (hco : Nat.Coprime p q) (n : ℕ) :
    g * p ∣ n * (g * q) ↔ p ∣ n := by
  have hswap : n * (g * q) = g * (n * q) := by ring
  rw [hswap, Nat.mul_dvd_mul_iff_left hg]
  exact hco.dvd_mul_right

/-- To the coarser scale and back loses less than one unit of each scale together. -/
theorem conv_conv_loss (ha : 0 < a) (hb : 0 < b) (f : ℕ) :
    f * a < conv a b (conv b a f) * a + (a + b) := by
  have hforth := lt_conv_succ_mul hb a f
  have hback := lt_conv_succ_mul ha b (conv b a f)
  rw [Nat.add_mul] at hforth hback
  omega

end Scale

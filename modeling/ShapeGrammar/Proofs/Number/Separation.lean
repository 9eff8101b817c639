import Mathlib.Algebra.Order.Field.Power
import Mathlib.Algebra.Order.Ring.Abs
import Mathlib.Algebra.Order.Ring.Rat
import Mathlib.Tactic.FieldSimp
import Mathlib.Tactic.LinearCombination
import Mathlib.Tactic.Linarith
import Mathlib.Tactic.Positivity
import Mathlib.Tactic.Ring

/-!
# Decimals and binary fractions stay apart

A decimal of few digits and a binary fraction of few bits are the same number or differ by more than
the roundings of the way a decimal is read, with one exception. For great powers of ten their
quotient is a fraction of small numbers beside a power of two over a power of five. Of the fractions
of small denominator the two next to such a power are found by bisecting with mediants; the others
are out of reach. Main statements: `Beside.eq`, `Beside.exceptional`.
-/
namespace ShapeGrammar

/-- Two fractions, the lower one first. -/
structure Neighbours where
  lowNum : ℕ
  lowDen : ℕ
  highNum : ℕ
  highDen : ℕ
  deriving DecidableEq, Repr

namespace Neighbours

/-- Whether a fraction lies between two that no fraction of a denominator up to the limit lies
between. -/
def Enclose (n : Neighbours) (num den limit : ℕ) : Prop :=
  n.lowNum * den < num * n.lowDen ∧ num * n.highDen < n.highNum * den ∧
    n.highNum * n.lowDen = n.lowNum * n.highDen + 1 ∧ limit < n.lowDen + n.highDen ∧
    n.lowDen ≤ limit ∧ n.highDen ≤ limit

instance (n : Neighbours) (num den limit : ℕ) : Decidable (n.Enclose num den limit) :=
  inferInstanceAs (Decidable (_ ∧ _))

/-- Moves the lower fraction up towards the higher one, then the higher one down, each as far as
the fraction in between and the limit allow. -/
def approach (num den limit : ℕ) : ℕ → Neighbours → Neighbours
  | 0, n => n
  | rounds + 1, n =>
    let up := min ((num * n.lowDen - n.lowNum * den - 1) / (n.highNum * den - num * n.highDen))
      ((limit - n.lowDen) / n.highDen)
    let lowNum := n.lowNum + up * n.highNum
    let lowDen := n.lowDen + up * n.highDen
    let down := min ((n.highNum * den - num * n.highDen - 1) / (num * lowDen - lowNum * den))
      ((limit - n.highDen) / lowDen)
    approach num den limit rounds
      ⟨lowNum, lowDen, n.highNum + down * lowNum, n.highDen + down * lowDen⟩

/-- The fractions next to one between one and two. -/
def of (num den limit : ℕ) : Neighbours :=
  approach num den limit 40 ⟨1, 1, 2, 1⟩

end Neighbours

/-- The power of two above `5 ^ k`. -/
def powerAbove (k : ℕ) : ℕ :=
  2 ^ (Nat.log2 (5 ^ k) + 1)

/-- Whether `a / b` differs from `num / den` by more than eleven tenths of `2 ^ -52` of it. -/
def Far (num den a b : ℕ) : Prop :=
  11 * (num * b) < 10 * 2 ^ 52 * ((a * den : ℤ) - num * b).natAbs

/-- Whether a fraction is no quotient, times a power of two, of digits below `2 ^ 24` by a mantissa
below `2 ^ 25`, nor of such a mantissa by such digits but for one case. -/
def Barred (k a b : ℕ) : Prop :=
  a % 2 = 1 ∧ 2 ^ 24 < a ∧
    (2 ^ 25 ≤ a ∨ b % 2 = 1 ∧ 2 ^ 24 < b ∨ k = 32 ∧ a = 22841339 ∧ b = 14077062)

/-- Whether the neighbours of the power of two over `5 ^ k` among the fractions in question are far
from it or barred. -/
def Certified (k : ℕ) (n : Neighbours) : Prop :=
  n.Enclose (powerAbove k) (5 ^ k) (2 ^ 25) ∧
    (Far (powerAbove k) (5 ^ k) n.lowNum n.lowDen ∨ Barred k n.lowNum n.lowDen) ∧
    (Far (powerAbove k) (5 ^ k) n.highNum n.highDen ∨ Barred k n.highNum n.highDen)

instance (k : ℕ) (n : Neighbours) : Decidable (Certified k n) :=
  inferInstanceAs (Decidable (_ ∧ (_ < _ ∨ _ ∧ _) ∧ (_ < _ ∨ _ ∧ _)))

theorem certified : ∀ k < 54, 12 ≤ k → Certified k (.of (powerAbove k) (5 ^ k) (2 ^ 25)) := by
  decide +kernel

namespace Neighbours

variable {n : Neighbours} {num den limit a b : ℕ}

/-- A fraction of a denominator up to the limit lies outside of the neighbours. -/
theorem Enclose.outside (h : n.Enclose num den limit) (hb : b ≤ limit) :
    a * n.lowDen ≤ n.lowNum * b ∨ n.highNum * b ≤ a * n.highDen := by
  obtain ⟨_, _, hunimodular, hlimit, _⟩ := h
  by_contra hbetween
  rw [not_or, not_le, not_le] at hbetween
  obtain ⟨habove, hbelow⟩ := hbetween
  -- the determinant splits the denominator into positive multiples of the two others
  have hsplit : (b : ℤ) = n.lowDen * (n.highNum * b - a * n.highDen) +
      n.highDen * (a * n.lowDen - n.lowNum * b) := by
    have hunimodular' : (n.highNum : ℤ) * n.lowDen = n.lowNum * n.highDen + 1 := by
      exact_mod_cast hunimodular
    linear_combination -(b : ℤ) * hunimodular'
  have habove' : (1 : ℤ) ≤ a * n.lowDen - n.lowNum * b := by
    have : (n.lowNum * b : ℤ) < a * n.lowDen := by exact_mod_cast habove
    omega
  have hbelow' : (1 : ℤ) ≤ n.highNum * b - a * n.highDen := by
    have : (a * n.highDen : ℤ) < n.highNum * b := by exact_mod_cast hbelow
    omega
  have hlow := mul_le_mul_of_nonneg_left hbelow' (Int.natCast_nonneg n.lowDen)
  have hhigh := mul_le_mul_of_nonneg_left habove' (Int.natCast_nonneg n.highDen)
  have hlimit' : (limit : ℤ) < n.lowDen + n.highDen := by exact_mod_cast hlimit
  have hb' : (b : ℤ) ≤ limit := by exact_mod_cast hb
  linarith

/-- A distance of at least `1 / 2 ^ 50`, over the denominators `b` and `c`, is far. -/
theorem far_of_le {num den a b c : ℕ} (hden : 0 < den) (hratio : num ≤ 2 * den) (hb : b ≤ 2 ^ 25)
    (hc : c ≤ 2 ^ 25) (hle : (den : ℤ) ≤ c * |(a * den : ℤ) - num * b|) : Far num den a b := by
  rw [Far]
  by_contra hnear
  rw [not_lt] at hnear
  have hnear' : (10 * 2 ^ 52 * |(a * den : ℤ) - num * b|) ≤ 11 * (num * b) := by
    rw [← Int.natCast_natAbs]
    exact_mod_cast hnear
  have hbc : (c : ℤ) * b ≤ 2 ^ 50 := by
    exact_mod_cast Nat.mul_le_mul hc hb
  have hden' : (0 : ℤ) < den := by exact_mod_cast hden
  have hratio' : (num : ℤ) ≤ 2 * den := by exact_mod_cast hratio
  have hless : (10 * 2 ^ 52 * den : ℤ) ≤ 22 * 2 ^ 50 * den :=
    calc (10 * 2 ^ 52 * den : ℤ) ≤ 10 * 2 ^ 52 * (c * |(a * den : ℤ) - num * b|) := by gcongr
      _ = c * (10 * 2 ^ 52 * |(a * den : ℤ) - num * b|) := by ring
      _ ≤ c * (11 * (num * b)) := by gcongr
      _ = 11 * num * (c * b) := by ring
      _ ≤ 11 * (2 * den) * 2 ^ 50 := by gcongr
      _ = _ := by ring
  linarith

/-- Only the neighbours themselves are not far. -/
theorem Enclose.eq_of_near (h : n.Enclose num den (2 ^ 25)) (hratio : num ≤ 2 * den)
    (hb : b ≤ 2 ^ 25) (hnear : ¬Far num den a b) :
    a * n.lowDen = n.lowNum * b ∨ a * n.highDen = n.highNum * b := by
  have houtside := h.outside (a := a) hb
  obtain ⟨hlow, hhigh, _, _, hlowDen, hhighDen⟩ := h
  have hden : 0 < den := Nat.pos_of_ne_zero fun hzero => by simp [hzero] at hhigh
  have hlow' : (0 : ℤ) ≤ num * n.lowDen - n.lowNum * den := by
    have : (n.lowNum * den : ℤ) < num * n.lowDen := by exact_mod_cast hlow
    omega
  have hhigh' : (0 : ℤ) ≤ n.highNum * den - num * n.highDen := by
    have : (num * n.highDen : ℤ) < n.highNum * den := by exact_mod_cast hhigh
    omega
  have hden' : (0 : ℤ) ≤ den := Int.natCast_nonneg den
  have hb' : (0 : ℤ) ≤ b := Int.natCast_nonneg b
  rcases houtside with hbelow | habove
  · refine .inl (hbelow.antisymm (not_lt.mp fun hlt => hnear (far_of_le hden hratio hb hlowDen ?_)))
    have hstep : (1 : ℤ) ≤ n.lowNum * b - a * n.lowDen := by
      have : (a * n.lowDen : ℤ) < n.lowNum * b := by exact_mod_cast hlt
      omega
    calc (den : ℤ)
        ≤ den * (n.lowNum * b - a * n.lowDen) + b * (num * n.lowDen - n.lowNum * den) := by
          nlinarith [mul_nonneg hb' hlow']
      _ = n.lowDen * -((a * den : ℤ) - num * b) := by ring
      _ ≤ n.lowDen * |(a * den : ℤ) - num * b| := by
          gcongr
          exact neg_le_abs _
  · refine .inr (Nat.le_antisymm (not_lt.mp fun hlt =>
      hnear (far_of_le hden hratio hb hhighDen ?_)) habove)
    have hstep : (1 : ℤ) ≤ a * n.highDen - n.highNum * b := by
      have : (n.highNum * b : ℤ) < a * n.highDen := by exact_mod_cast hlt
      omega
    calc (den : ℤ) ≤ den * (a * n.highDen - n.highNum * b) +
          b * (n.highNum * den - num * n.highDen) := by
          nlinarith [mul_nonneg hb' hhigh']
      _ = n.highDen * ((a * den : ℤ) - num * b) := by ring
      _ ≤ n.highDen * |(a * den : ℤ) - num * b| := by
          gcongr
          exact le_abs_self _

end Neighbours

/-- Whether a fraction is far depends on its value alone. -/
theorem far_of_eq {num den a b c d : ℕ} (hb : 0 < b) (h : a * d = c * b)
    (hfar : Far num den c d) : Far num den a b := by
  have hdist : ((a * den : ℤ) - num * b).natAbs * d = ((c * den : ℤ) - num * d).natAbs * b := by
    have hcross : ((a * den : ℤ) - num * b) * d = (c * den - num * d) * b := by
      have h' : (a * d : ℤ) = c * b := by exact_mod_cast h
      linear_combination (den : ℤ) * h'
    have := congrArg Int.natAbs hcross
    rwa [Int.natAbs_mul, Int.natAbs_mul, Int.natAbs_natCast, Int.natAbs_natCast] at this
  rw [Far] at hfar ⊢
  apply Nat.lt_of_mul_lt_mul_right (a := d)
  calc 11 * (num * b) * d = 11 * (num * d) * b := by ring
    _ < 10 * 2 ^ 52 * ((c * den : ℤ) - num * d).natAbs * b := Nat.mul_lt_mul_of_pos_right hfar hb
    _ = 10 * 2 ^ 52 * ((a * den : ℤ) - num * b).natAbs * d := by
      rw [Nat.mul_assoc (10 * 2 ^ 52), ← hdist, Nat.mul_assoc (10 * 2 ^ 52)]

theorem coprime_of_unimodular {a b c d : ℕ} (h : c * b = a * d + 1) : Nat.Coprime a b := by
  have hleft : Nat.gcd a b ∣ a * d := Dvd.dvd.mul_right (Nat.gcd_dvd_left a b) d
  have hright : Nat.gcd a b ∣ a * d + 1 := h ▸ Dvd.dvd.mul_left (Nat.gcd_dvd_right a b) c
  exact Nat.dvd_one.mp ((Nat.dvd_add_right hleft).mp hright)

/-! ## Quotients -/

theorem powerAbove_spec (k : ℕ) : 5 ^ k < powerAbove k ∧ powerAbove k ≤ 2 * 5 ^ k := by
  have hne : 5 ^ k ≠ 0 := by positivity
  refine ⟨Nat.lt_log2_self, ?_⟩
  rw [powerAbove, Nat.pow_succ, Nat.mul_comm]
  exact Nat.mul_le_mul_left 2 (Nat.log2_self_le hne)

/-- A quotient of whole numbers that is next to a power of two over a great power of five comes
from a barred fraction. -/
theorem barred_of_near {k : ℕ} (hk : 12 ≤ k) (hk' : k < 54) {a b : ℕ} (hb : 0 < b)
    (hb' : b ≤ 2 ^ 25) (hnear : ¬Far (powerAbove k) (5 ^ k) a b) :
    ∃ c d, Nat.Coprime c d ∧ Barred k c d ∧ a * d = c * b := by
  obtain ⟨henclose, hlow, hhigh⟩ := certified k hk' hk
  generalize Neighbours.of (powerAbove k) (5 ^ k) (2 ^ 25) = n at henclose hlow hhigh
  obtain ⟨hlowLt, hhighLt, hunimodular, hlimit, hlowDen, hhighDen⟩ := id henclose
  rcases henclose.eq_of_near (powerAbove_spec k).2 hb' hnear with heq | heq
  · refine ⟨n.lowNum, n.lowDen, coprime_of_unimodular hunimodular,
      hlow.resolve_left fun hfar => hnear ?_, heq⟩
    exact far_of_eq hb heq hfar
  · have hcoprime : Nat.Coprime n.highDen n.highNum := by
      rw [Nat.mul_comm, Nat.mul_comm n.lowNum] at hunimodular
      exact coprime_of_unimodular hunimodular
    refine ⟨n.highNum, n.highDen, hcoprime.symm, hhigh.resolve_left fun hfar => hnear ?_, heq⟩
    exact far_of_eq hb heq hfar

theorem coprime_two_of_odd {a : ℕ} (h : a % 2 = 1) : Nat.Coprime a 2 := by
  rw [Nat.coprime_comm, Nat.Coprime, Nat.gcd_rec, h]
  rfl

theorem not_far_iff {num den a b : ℕ} :
    ¬Far num den a b ↔ |(a * den : ℚ) - num * b| ≤ 11 / 10 / 2 ^ 52 * (num * b) := by
  have hcast : |(a * den : ℚ) - num * b| = (((a * den : ℤ) - num * b).natAbs : ℕ) := by
    rw [Nat.cast_natAbs]
    push_cast
    rfl
  rw [Far, not_lt, hcast, div_div, div_mul_eq_mul_div, le_div_iff₀ (by positivity), mul_comm]
  exact_mod_cast Iff.rfl

/-- Whether `x * 5 ^ k` and `y * 2 ^ z` are closer than the roundings of a decimal may bring
them. -/
def Close (k : ℕ) (z : ℤ) (x y : ℕ) : Prop :=
  |(x : ℚ) * 5 ^ k - y * 2 ^ z| ≤ 11 / 10 / 2 ^ 52 * (y * 2 ^ z)

/-- What is close to a quotient is close to its numerator after scaling. -/
theorem abs_sub_le_of_div {u v p c : ℚ} (hp : 0 < p) (h : |u - v / p| ≤ c * (v / p)) :
    |u * p - v| ≤ c * v := by
  have hscaled := mul_le_mul_of_nonneg_right h hp.le
  rwa [← abs_of_pos hp, ← abs_mul, abs_of_pos hp, sub_mul, mul_assoc c,
    div_mul_cancel₀ _ hp.ne'] at hscaled

/-- A number of 25 bits is not close to a greater multiple of something greater. -/
theorem lt_of_close {x w a b : ℚ} (hx : 0 ≤ x) (hx' : x ≤ 33554431) (hab : a ≤ b) (hb : 0 < b)
    (h : |x * a - w * b| ≤ 11 / 10 / 2 ^ 52 * (w * b)) : w < 33554433 := by
  have hcancel : w * (1 - 11 / 10 / 2 ^ 52) * b ≤ x * b :=
    calc w * (1 - 11 / 10 / 2 ^ 52) * b ≤ x * a := by linarith [(abs_le.mp h).1]
      _ ≤ x * b := by gcongr
  by_contra hmore
  linarith [le_of_mul_le_mul_right hcancel hb]

/-- Whole numbers that are close are equal, unless they are very large. -/
theorem eq_of_close {a b : ℕ} (h : |(a : ℚ) - b| ≤ 11 / 10 / 2 ^ 52 * b)
    (hsmall : a < 2 ^ 51 ∨ b < 2 ^ 51) : a = b := by
  obtain ⟨hlow, hhigh⟩ := abs_le.mp h
  have hb : (b : ℚ) ≤ 2 ^ 51 + 2 := by
    rcases hsmall with ha | hb
    · have ha' : (a : ℚ) ≤ 2 ^ 51 := by exact_mod_cast ha.le
      linarith
    · have hb' : (b : ℚ) ≤ 2 ^ 51 := by exact_mod_cast hb.le
      linarith
  rcases Nat.lt_trichotomy a b with hlt | heq | hlt
  · have : (a : ℚ) + 1 ≤ b := by exact_mod_cast hlt
    linarith
  · exact heq
  · have : (b : ℚ) + 1 ≤ a := by exact_mod_cast hlt
    linarith

/-- For small powers of five what is close is equal. -/
theorem Close.eq {k : ℕ} (hk : k < 12) {z : ℤ} {x y : ℕ} (hx : x < 2 ^ 25) (hy : y < 2 ^ 25)
    (h : Close k z x y) : (x : ℚ) * 5 ^ k = y * 2 ^ z := by
  have hx' : x * 5 ^ k < 2 ^ 51 :=
    calc x * 5 ^ k
        ≤ x * 5 ^ 11 := Nat.mul_le_mul_left x (Nat.pow_le_pow_right (by decide) (by omega))
      _ < 2 ^ 51 := by omega
  rw [Close] at h
  cases z with
  | ofNat j =>
    rw [Int.ofNat_eq_natCast, zpow_natCast] at h ⊢
    have heq := eq_of_close (a := x * 5 ^ k) (b := y * 2 ^ j) (by push_cast; exact h) (.inl hx')
    exact_mod_cast heq
  | negSucc j =>
    have hpower : (0 : ℚ) < 2 ^ (j + 1) := by positivity
    rw [zpow_negSucc, ← div_eq_mul_inv] at h ⊢
    have hclose : |((x * 5 ^ k * 2 ^ (j + 1) : ℕ) : ℚ) - y| ≤ 11 / 10 / 2 ^ 52 * y := by
      push_cast
      exact abs_sub_le_of_div hpower h
    have heq := eq_of_close hclose (.inr (by omega))
    rw [eq_div_iff hpower.ne']
    exact_mod_cast heq

/-- For great powers of five what is close comes from a barred fraction. -/
theorem Close.barred {k : ℕ} (hk : 12 ≤ k) (hk' : k < 54) {z : ℤ} {x y : ℕ}
    (hx : x < 2 ^ 25) (hy : 0 < y) (hy' : y < 2 ^ 25) (h : Close k z x y) :
    ∃ c d, Barred k c d ∧ c ∣ x ∧ ∃ j, d ∣ y * 2 ^ j := by
  obtain ⟨c, hc⟩ : ∃ c, powerAbove k = 2 ^ c := ⟨_, rfl⟩
  have habove := (powerAbove_spec k).1
  rw [hc] at habove
  rw [Close] at h
  rcases le_or_gt (c : ℤ) z with hle | hlt
  · obtain ⟨j, rfl⟩ := Int.le.dest hle
    rw [zpow_add₀ two_ne_zero, zpow_natCast, zpow_natCast] at h
    have hnear : ¬Far (powerAbove k) (5 ^ k) x (y * 2 ^ j) := by
      rw [not_far_iff, hc]
      push_cast
      rwa [mul_left_comm (2 ^ c : ℚ)]
    have hreach : y * 2 ^ j ≤ 2 ^ 25 := by
      have hx' : (x : ℚ) ≤ 33554431 := by
        have : x ≤ 33554431 := by omega
        exact_mod_cast this
      have hless : (y * 2 ^ j : ℚ) < 33554433 := by
        refine lt_of_close x.cast_nonneg hx' (b := 2 ^ c) ?_ (by positivity)
          (by rwa [mul_right_comm, mul_assoc])
        exact_mod_cast habove.le
      have : y * 2 ^ j < 33554433 := by exact_mod_cast hless
      omega
    obtain ⟨a, b, hcoprime, hbarred, heq⟩ := barred_of_near hk hk' (by positivity) hreach hnear
    refine ⟨a, b, hbarred, ?_, j, ?_⟩
    · exact hcoprime.dvd_of_dvd_mul_right (heq ▸ Nat.dvd_mul_right a _)
    · exact hcoprime.symm.dvd_of_dvd_mul_left (heq ▸ Nat.dvd_mul_left b x)
  · obtain ⟨i, rfl⟩ : ∃ i : ℕ, z = c - i := ⟨(c - z).toNat, by omega⟩
    have hpower : (0 : ℚ) < 2 ^ i := by positivity
    have hnear : ¬Far (powerAbove k) (5 ^ k) (x * 2 ^ i) y := by
      rw [zpow_sub₀ two_ne_zero, zpow_natCast, zpow_natCast, ← mul_div_assoc] at h
      have hscaled := abs_sub_le_of_div hpower h
      rw [not_far_iff, hc]
      push_cast
      rwa [mul_right_comm, mul_comm (2 ^ c : ℚ)]
    obtain ⟨a, b, hcoprime, hbarred, heq⟩ := barred_of_near hk hk' hy hy'.le hnear
    refine ⟨a, b, hbarred, ?_, 0, ?_⟩
    · have hdvd : a ∣ x * 2 ^ i :=
        hcoprime.dvd_of_dvd_mul_right (heq ▸ Nat.dvd_mul_right a _)
      exact ((coprime_two_of_odd hbarred.1).pow_right i).dvd_of_dvd_mul_right hdvd
    · rw [pow_zero, mul_one]
      exact hcoprime.symm.dvd_of_dvd_mul_left (heq ▸ Nat.dvd_mul_left b _)

/-! ## Decimals and binary fractions -/

/-- Whether a decimal of at most eight digits and a mantissa of at most 25 bits could be the same
number but for the roundings of reading a decimal. -/
structure Beside (s : ℕ) (t : ℤ) (n : ℕ) (p : ℤ) : Prop where
  digits_pos : 0 < s
  digits_le : s ≤ 2 ^ 24
  mantissa_pos : 0 < n
  mantissa_lt : n < 2 ^ 25
  near : |(s : ℚ) * 10 ^ t - n * 2 ^ p| ≤ 17 / 16 / 2 ^ 52 * (s * 10 ^ t)

theorem ten_zpow (k : ℤ) : (10 : ℚ) ^ k = 2 ^ k * 5 ^ k := by
  rw [← mul_zpow]
  norm_num

theorem decimal_neg (s : ℚ) (k : ℕ) (p : ℤ) :
    s * 10 ^ (-k : ℤ) * (5 ^ k * 2 ^ (-p)) = s * 2 ^ (-k - p) := by
  rw [ten_zpow, sub_eq_add_neg, zpow_add₀ two_ne_zero, zpow_neg 5, zpow_natCast]
  field_simp

theorem binary_neg (n : ℚ) (k : ℕ) (p : ℤ) :
    n * 2 ^ p * (5 ^ k * 2 ^ (-p)) = n * 5 ^ k := by
  rw [zpow_neg]
  field_simp

theorem decimal_pos (s : ℚ) (k : ℕ) : s * 10 ^ (k : ℤ) * 2 ^ (-k : ℤ) = s * 5 ^ k := by
  rw [ten_zpow, zpow_neg, zpow_natCast, zpow_natCast]
  field_simp

theorem binary_pos (n : ℚ) (k : ℕ) (p : ℤ) : n * 2 ^ p * 2 ^ (-k : ℤ) = n * 2 ^ (p - k) := by
  rw [sub_eq_add_neg, zpow_add₀ two_ne_zero, mul_assoc]

theorem abs_sub_mul_le {a b c ε : ℚ} (hc : 0 < c) (h : |a - b| ≤ ε * a) :
    |a * c - b * c| ≤ ε * (a * c) := by
  rw [← sub_mul, abs_mul, abs_of_pos hc, ← mul_assoc]
  exact mul_le_mul_of_nonneg_right h hc.le

namespace Beside

variable {s n k : ℕ} {t p : ℤ}

/-- Below one, the mantissa takes the power of five. -/
theorem close_neg (h : Beside s (-k) n p) : Close k (-k - p) n s := by
  have hnear := abs_sub_mul_le (c := 5 ^ k * 2 ^ (-p)) (by positivity) h.near
  rw [decimal_neg, binary_neg, abs_sub_comm] at hnear
  have hpos : (0 : ℚ) ≤ s * 2 ^ (-k - p) := by positivity
  rw [Close]
  linarith

/-- Above one, the digits take it. -/
theorem close (h : Beside s k n p) : Close k (p - k) s n := by
  have hnear := abs_sub_mul_le (c := 2 ^ (-k : ℤ)) (by positivity) h.near
  rw [decimal_pos, binary_pos] at hnear
  have hpos : (0 : ℚ) ≤ n * 2 ^ (p - k) := by positivity
  rw [Close]
  linarith [(abs_le.mp hnear).2]

/-- A decimal beside a binary fraction is equal to it if the power of ten is small. -/
theorem eq (h : Beside s t n p) (ht : -12 < t) (ht' : t < 12) : (s : ℚ) * 10 ^ t = n * 2 ^ p := by
  have hs : s < 2 ^ 25 := lt_of_le_of_lt h.digits_le (by decide)
  rcases Int.eq_nat_or_neg t with ⟨k, rfl | rfl⟩
  · have heq := h.close.eq (by omega) hs h.mantissa_lt
    rw [← decimal_pos, ← binary_pos] at heq
    exact mul_right_cancel₀ (by positivity) heq
  · have heq := h.close_neg.eq (by omega) h.mantissa_lt hs
    rw [← decimal_neg, ← binary_neg n k p] at heq
    exact (mul_right_cancel₀ (by positivity) heq).symm

/-- No decimal lies beside a binary fraction if the power of ten is great, but for one case. -/
theorem exceptional (h : Beside s t n p) (ht : -54 < t) (ht' : t < 54)
    (hgreat : t ≤ -12 ∨ 12 ≤ t) : t = -32 ∧ (s = 7038531 ∨ s = 14077062) := by
  obtain ⟨hpos, hdigits, hmantissa, hmantissa', _⟩ := id h
  have hs : s < 2 ^ 25 := lt_of_le_of_lt hdigits (by decide)
  rcases Int.eq_nat_or_neg t with ⟨k, rfl | rfl⟩
  · obtain ⟨c, d, hbarred, hc, _⟩ :=
      h.close.barred (by omega) (by omega) hs hmantissa hmantissa'
    have := Nat.le_of_dvd hpos hc
    exact absurd hbarred.2.1 (by omega)
  · obtain ⟨c, d, ⟨_, _, hcases⟩, hc, j, hd⟩ :=
      h.close_neg.barred (by omega) (by omega) hmantissa' hpos hs
    have hcle := Nat.le_of_dvd hmantissa hc
    rcases hcases with hlarge | ⟨hodd, hlarge⟩ | ⟨rfl, rfl, rfl⟩
    · omega
    · have hds := ((coprime_two_of_odd hodd).pow_right j).dvd_of_dvd_mul_right hd
      have := Nat.le_of_dvd hpos hds
      omega
    · have hodd : (7038531 : ℕ) ∣ s * 2 ^ j := Dvd.dvd.trans (by decide) hd
      obtain ⟨w, rfl⟩ :=
        ((coprime_two_of_odd (by decide)).pow_right j).dvd_of_dvd_mul_right hodd
      omega

end Beside

end ShapeGrammar

import Mathlib.Algebra.Order.Archimedean.Basic
import Mathlib.Algebra.Order.Field.Power
import Mathlib.Data.Int.Log
import Mathlib.Data.Rat.Floor
import Mathlib.Tactic.FieldSimp
import Mathlib.Tactic.Linarith
import Mathlib.Tactic.Positivity
import Mathlib.Tactic.Ring
import ShapeGrammar.Number.Binary

/-!
# Rounding as a function

A number is rounded to a whole number of units. The unit is a power of two, never below the least
one, in which the number has a mantissa of full width. Rounding keeps the order of numbers, and it
keeps the values of the format. Main statements: `round_mono`, `round_eq_self`,
`abs_round_sub_le`.
-/
namespace ShapeGrammar

/-! ## Whole numbers -/

/-- The nearest whole number, a half going to the even neighbour. -/
def halfEven (x : ℚ) : ℤ :=
  if x - ⌊x⌋ < 1 / 2 then ⌊x⌋ else if 1 / 2 < x - ⌊x⌋ then ⌊x⌋ + 1 else ⌊x⌋ + ⌊x⌋ % 2

theorem halfEven_spec (x : ℚ) :
    |(halfEven x : ℚ) - x| ≤ 1 / 2 ∧ (halfEven x % 2 = 0 ∨ |(halfEven x : ℚ) - x| < 1 / 2) := by
  have hlow := Int.floor_le x
  have hhigh := Int.lt_floor_add_one x
  unfold halfEven
  split_ifs with hbelow habove
  · have : |(⌊x⌋ : ℚ) - x| < 1 / 2 := by
      rw [abs_lt]
      constructor <;> linarith
    exact ⟨this.le, .inr this⟩
  · have : |((⌊x⌋ + 1 : ℤ) : ℚ) - x| < 1 / 2 := by
      rw [abs_lt]
      push_cast
      constructor <;> linarith
    exact ⟨this.le, .inr this⟩
  · refine ⟨?_, .inl (by omega)⟩
    have hparity : (⌊x⌋ % 2 = 0) ∨ ⌊x⌋ % 2 = 1 := by omega
    rw [abs_le]
    rcases hparity with h | h <;> rw [h] <;> push_cast <;> constructor <;> linarith

theorem abs_halfEven_sub_le (x : ℚ) : |(halfEven x : ℚ) - x| ≤ 1 / 2 :=
  (halfEven_spec x).1

/-- Half a unit away there are two whole numbers, and one of them is odd. -/
theorem halfEven_eq {x : ℚ} {k : ℤ} (hnear : |(k : ℚ) - x| ≤ 1 / 2)
    (htie : k % 2 = 0 ∨ |(k : ℚ) - x| < 1 / 2) : halfEven x = k := by
  obtain ⟨hnear', htie'⟩ := halfEven_spec x
  generalize halfEven x = n at *
  rw [abs_le] at hnear hnear'
  rw [abs_lt] at htie htie'
  have hle : n ≤ k + 1 := by
    have : (n : ℚ) ≤ k + 1 := by linarith
    exact_mod_cast this
  have hge : k ≤ n + 1 := by
    have : (k : ℚ) ≤ n + 1 := by linarith
    exact_mod_cast this
  have hnext : n ≠ k + 1 := by
    rintro rfl
    push_cast at *
    rcases htie with heven | hless
    · rcases htie' with heven' | hless'
      · omega
      · linarith
    · linarith
  have hprevious : k ≠ n + 1 := by
    rintro rfl
    push_cast at *
    rcases htie with heven | hless
    · rcases htie' with heven' | hless'
      · omega
      · linarith
    · linarith
  omega

theorem halfEven_eq_of_lt {x : ℚ} {k : ℤ} (hlow : (k : ℚ) - 1 / 2 < x)
    (hhigh : x < (k : ℚ) + 1 / 2) : halfEven x = k := by
  have hnear : |(k : ℚ) - x| < 1 / 2 := by
    rw [abs_lt]
    constructor <;> linarith
  exact halfEven_eq hnear.le (.inr hnear)

@[simp] theorem halfEven_intCast (n : ℤ) : halfEven n = n :=
  halfEven_eq_of_lt (by linarith) (by linarith)

@[simp] theorem halfEven_neg (x : ℚ) : halfEven (-x) = -halfEven x := by
  obtain ⟨hnear, htie⟩ := halfEven_spec x
  have hflip : |((-halfEven x : ℤ) : ℚ) - -x| = |(halfEven x : ℚ) - x| := by
    rw [← abs_neg]
    congr 1
    push_cast
    ring
  refine halfEven_eq (hflip ▸ hnear) ?_
  rw [hflip]
  exact htie.imp_left fun h => by omega

theorem halfEven_mono {x y : ℚ} (h : x ≤ y) : halfEven x ≤ halfEven y := by
  by_contra hlt
  have hx := abs_le.mp (abs_halfEven_sub_le x)
  have hy := abs_le.mp (abs_halfEven_sub_le y)
  have hgap : (halfEven y : ℚ) + 1 ≤ halfEven x := by exact_mod_cast not_le.mp hlt
  have heq : x = y := by linarith
  exact hlt (heq ▸ le_refl _)

namespace BinaryFormat

/-! ## Units -/

variable (f : BinaryFormat) {v w : ℚ}

/-- The exponent of the unit that a number is rounded in. -/
def roundExponent (v : ℚ) : ℤ :=
  max (Int.log 2 |v| - f.fractionBits) f.leastExponent

/-- The value nearest to a number, in a format whose exponents have no upper end. -/
def round (v : ℚ) : ℚ :=
  halfEven (v / 2 ^ f.roundExponent v) * 2 ^ f.roundExponent v

theorem leastExponent_le_roundExponent (v : ℚ) : f.leastExponent ≤ f.roundExponent v :=
  le_max_right _ _

theorem abs_lt_zpow (v : ℚ) : |v| < 2 ^ (f.roundExponent v + f.fractionBits + 1) := by
  refine (Int.lt_zpow_succ_log_self one_lt_two |v|).trans_le ?_
  have hexponent := le_max_left (Int.log 2 |v| - f.fractionBits) f.leastExponent
  exact zpow_le_zpow_right₀ one_le_two (by rw [roundExponent]; omega)

/-- A mantissa has full width unless its unit is the least. -/
theorem zpow_le_abs (hv : v ≠ 0) : f.roundExponent v = f.leastExponent ∨
    (2 : ℚ) ^ (f.roundExponent v + f.fractionBits) ≤ |v| := by
  rcases le_total (Int.log 2 |v| - f.fractionBits) f.leastExponent with hle | hge
  · exact .inl (max_eq_right hle)
  · rw [roundExponent, max_eq_left hge, sub_add_cancel]
    exact .inr (Int.zpow_log_le_self one_lt_two (abs_pos.mpr hv))

theorem roundExponent_eq (hv : v ≠ 0) {e : ℤ} (hleast : f.leastExponent ≤ e)
    (hhigh : |v| < 2 ^ (e + f.fractionBits + 1))
    (hlow : e = f.leastExponent ∨ (2 : ℚ) ^ (e + f.fractionBits) ≤ |v|) :
    f.roundExponent v = e := by
  have hbelow := (Int.lt_zpow_iff_log_lt one_lt_two (abs_pos.mpr hv)).mp hhigh
  rw [roundExponent]
  rcases hlow with rfl | hlow
  · omega
  · have habove := (Int.zpow_le_iff_le_log one_lt_two (abs_pos.mpr hv)).mp hlow
    omega

theorem roundExponent_mono (hv : 0 < v) (h : v ≤ w) : f.roundExponent v ≤ f.roundExponent w := by
  have hlog := Int.log_mono_right (b := 2) (abs_pos_of_pos hv)
    (by rwa [abs_of_pos hv, abs_of_pos (hv.trans_le h)] : |v| ≤ |w|)
  exact max_le_max_right _ (by omega)

@[simp] theorem roundExponent_neg (v : ℚ) : f.roundExponent (-v) = f.roundExponent v := by
  rw [roundExponent, abs_neg, roundExponent]

/-! ## Rounding -/

@[simp] theorem round_zero : f.round 0 = 0 := by
  have := halfEven_intCast 0
  rw [Int.cast_zero] at this
  rw [round, zero_div, this, Int.cast_zero, zero_mul]

@[simp] theorem round_neg (v : ℚ) : f.round (-v) = -f.round v := by
  rw [round, roundExponent_neg, neg_div, halfEven_neg, Int.cast_neg, neg_mul, round]

theorem round_nonneg (hv : 0 ≤ v) : 0 ≤ f.round v := by
  have hquotient : ((0 : ℤ) : ℚ) ≤ v / 2 ^ f.roundExponent v := by
    rw [Int.cast_zero]
    positivity
  have hround := halfEven_mono hquotient
  rw [halfEven_intCast] at hround
  have : (0 : ℚ) ≤ halfEven (v / 2 ^ f.roundExponent v) := by exact_mod_cast hround
  unfold round
  positivity

theorem zpow_add_natCast (e : ℤ) (n : ℕ) : (2 : ℚ) ^ (e + n) = ((2 ^ n : ℤ) : ℚ) * 2 ^ e := by
  rw [zpow_add₀ two_ne_zero, zpow_natCast, mul_comm]
  push_cast
  rfl

/-- A power of two is a whole number of units of smaller numbers, so none is rounded past it. -/
theorem round_le_zpow {i : ℤ} (hi : f.roundExponent v ≤ i) (hv : v ≤ 2 ^ i) :
    f.round v ≤ 2 ^ i := by
  obtain ⟨n, rfl⟩ := Int.le.dest hi
  have hunit : (0 : ℚ) < 2 ^ f.roundExponent v := by positivity
  rw [zpow_add_natCast] at hv ⊢
  have hround := halfEven_mono ((div_le_iff₀ hunit).mpr hv)
  rw [halfEven_intCast] at hround
  unfold round
  gcongr

theorem zpow_le_round {i : ℤ} (hi : f.roundExponent v ≤ i) (hv : 2 ^ i ≤ v) :
    2 ^ i ≤ f.round v := by
  obtain ⟨n, rfl⟩ := Int.le.dest hi
  have hunit : (0 : ℚ) < 2 ^ f.roundExponent v := by positivity
  rw [zpow_add_natCast] at hv ⊢
  have hround := halfEven_mono ((le_div_iff₀ hunit).mpr hv)
  rw [halfEven_intCast] at hround
  unfold round
  gcongr

theorem round_mono_of_nonneg (hv : 0 ≤ v) (h : v ≤ w) : f.round v ≤ f.round w := by
  rcases hv.eq_or_lt with rfl | hv
  · rw [round_zero]
    exact f.round_nonneg h
  rcases (f.roundExponent_mono hv h).lt_or_eq with hless | hsame
  · -- the least number with the larger unit lies between them
    have hleast := f.leastExponent_le_roundExponent v
    have hlow := (f.zpow_le_abs (hv.trans_le h).ne').resolve_left (by omega)
    have hhigh := f.abs_lt_zpow v
    rw [abs_of_pos (hv.trans_le h)] at hlow
    rw [abs_of_pos hv] at hhigh
    have hbetween : (2 : ℚ) ^ (f.roundExponent v + f.fractionBits + 1) ≤
        2 ^ (f.roundExponent w + f.fractionBits) :=
      zpow_le_zpow_right₀ one_le_two (by omega)
    calc f.round v ≤ 2 ^ (f.roundExponent w + f.fractionBits) :=
          f.round_le_zpow (by omega) (hhigh.le.trans hbetween)
      _ ≤ f.round w := f.zpow_le_round (by omega) hlow
  · rw [round, round, hsame]
    have hround := halfEven_mono (by gcongr : v / 2 ^ f.roundExponent w ≤ w / 2 ^ f.roundExponent w)
    gcongr

theorem round_mono (h : v ≤ w) : f.round v ≤ f.round w := by
  rcases le_total 0 v with hv | hv
  · exact f.round_mono_of_nonneg hv h
  rcases le_total 0 w with hw | hw
  · have hv' := f.round_nonneg (neg_nonneg.mpr hv)
    rw [round_neg] at hv'
    linarith [f.round_nonneg hw]
  · have hneg := f.round_mono_of_nonneg (neg_nonneg.mpr hw) (neg_le_neg h)
    rwa [round_neg, round_neg, neg_le_neg_iff] at hneg

/-- A number with a mantissa of the format is a value already. -/
theorem round_eq_self {n e : ℤ} (hn : |n| < 2 * (Nat.pow 2 f.fractionBits : ℕ))
    (he : f.leastExponent ≤ e) : f.round (n * 2 ^ e) = n * 2 ^ e := by
  rcases eq_or_ne n 0 with rfl | hzero
  · rw [Int.cast_zero, zero_mul, round_zero]
  have hunit : (0 : ℚ) < 2 ^ e := by positivity
  have hnonzero : (n : ℚ) * 2 ^ e ≠ 0 := mul_ne_zero (by exact_mod_cast hzero) hunit.ne'
  have hhigh : |(n : ℚ) * 2 ^ e| < 2 ^ (e + f.fractionBits + 1) := by
    have hwidth : |(n : ℚ)| < 2 * 2 ^ f.fractionBits := by exact_mod_cast hn
    rw [abs_mul, abs_of_pos hunit, zpow_add₀ two_ne_zero, zpow_add₀ two_ne_zero, zpow_natCast,
      zpow_one]
    calc |(n : ℚ)| * 2 ^ e < 2 * 2 ^ f.fractionBits * 2 ^ e := by gcongr
      _ = _ := by ring
  have hlog := (Int.lt_zpow_iff_log_lt one_lt_two (abs_pos.mpr hnonzero)).mp hhigh
  have hle : f.roundExponent (n * 2 ^ e) ≤ e := max_le (by omega) he
  rw [round]
  generalize f.roundExponent (n * 2 ^ e) = i at hle ⊢
  obtain ⟨j, rfl⟩ := Int.le.dest hle
  rw [zpow_add_natCast, ← mul_assoc, ← Int.cast_mul,
    mul_div_cancel_right₀ _ (zpow_ne_zero i two_ne_zero), halfEven_intCast]

/-- A number is off by at most half a unit, which is small against the number unless it is half of
the least unit. -/
theorem abs_round_sub_le (v : ℚ) :
    |f.round v - v| ≤ |v| / 2 ^ (f.fractionBits + 1) + 2 ^ (f.leastExponent - 1) := by
  rcases eq_or_ne v 0 with rfl | hv
  · rw [round_zero, sub_zero, abs_zero, zero_div, zero_add]
    positivity
  have hunit : (0 : ℚ) < 2 ^ f.roundExponent v := by positivity
  have hoff : |f.round v - v| ≤ 1 / 2 * 2 ^ f.roundExponent v := by
    have hnear := abs_halfEven_sub_le (v / 2 ^ f.roundExponent v)
    calc |f.round v - v| = |(halfEven (v / 2 ^ f.roundExponent v) : ℚ) - v / 2 ^ f.roundExponent v|
          * 2 ^ f.roundExponent v := by
          rw [← abs_of_pos hunit, ← abs_mul, abs_of_pos hunit, sub_mul, div_mul_cancel₀ _ hunit.ne',
            round]
      _ ≤ _ := by gcongr
  have hsmall : (0 : ℚ) ≤ 2 ^ (f.leastExponent - 1) := by positivity
  have hrelative : (0 : ℚ) ≤ |v| / 2 ^ (f.fractionBits + 1) := by positivity
  rcases f.zpow_le_abs hv with hleast | hlow
  · rw [hleast] at hoff
    rw [zpow_sub₀ two_ne_zero, zpow_one]
    linarith
  · rw [zpow_add₀ two_ne_zero, zpow_natCast] at hlow
    have : 1 / 2 * 2 ^ f.roundExponent v ≤ |v| / 2 ^ (f.fractionBits + 1) := by
      rw [le_div_iff₀ (by positivity), pow_succ]
      linarith
    linarith

/-! ## Overflow -/

/-- The power of two past all finite values. -/
def limit : ℚ :=
  2 ^ (f.leastExponent + f.fractionBits + Nat.pow 2 f.exponentBits - 2)

/-- The value nearest to a number, where the limit and its opposite stand for the infinities. -/
def nearest (v : ℚ) : ℚ :=
  max (-f.limit) (min f.limit (f.round v))

theorem limit_pos : 0 < f.limit := by
  unfold limit
  positivity

theorem nearest_mono (h : v ≤ w) : f.nearest v ≤ f.nearest w :=
  max_le_max_left _ (min_le_min_left _ (f.round_mono h))

theorem nearest_eq_round (h : |f.nearest v| < f.limit) : f.nearest v = f.round v := by
  rw [abs_lt] at h
  unfold nearest at h ⊢
  rcases le_total f.limit (f.round v) with hhigh | hhigh
  · rw [min_eq_left hhigh, max_eq_right (by linarith [f.limit_pos])] at h
    exact absurd h.2 (lt_irrefl _)
  · rw [min_eq_right hhigh] at h ⊢
    rcases le_total (f.round v) (-f.limit) with hlow | hlow
    · rw [max_eq_left hlow] at h
      exact absurd h.1 (lt_irrefl _)
    · exact max_eq_right hlow

theorem nearest_of_abs_le (h : |f.round v| ≤ f.limit) : f.nearest v = f.round v := by
  obtain ⟨hlow, hhigh⟩ := abs_le.mp h
  rw [nearest, min_eq_right hhigh, max_eq_right hlow]

theorem nearest_of_limit_le (h : f.limit ≤ f.round v) : f.nearest v = f.limit := by
  rw [nearest, min_eq_left h, max_eq_right (by linarith [f.limit_pos])]

theorem nearest_of_le_neg_limit (h : f.round v ≤ -f.limit) : f.nearest v = -f.limit := by
  rw [nearest, min_eq_right (by linarith [f.limit_pos]), max_eq_left h]

end BinaryFormat

end ShapeGrammar

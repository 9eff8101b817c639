import ShapeGrammar.Json.Rounding
import ShapeGrammar.Proofs.Number.Nearest

/-!
# How far from its value a numeral is read

A numeral of at most 53 bits of digits is read with two roundings, that of a power of ten and that
of the result, and with none if the power of ten is small and the value is one of double precision.
Main statement: `magnitudeBits?_spec`.
-/
namespace ShapeGrammar

namespace BinaryFormat

variable (f : BinaryFormat) {a b : ℕ}

/-- A product is rounded once. -/
theorem product_eq (a b : ℕ) : ∃ num den, f.product a b = f.nearestBits num den ∧ 0 < den ∧
    (num : ℚ) / den = f.magnitude a * f.magnitude b := by
  refine ⟨_, _, rfl, Nat.mul_pos (f.fraction_den_pos a) (f.fraction_den_pos b), ?_⟩
  rw [magnitude, magnitude, div_mul_div_comm]
  push_cast
  rfl

/-- A quotient is rounded once. -/
theorem quotient_eq (a : ℕ) (hb : 0 < f.magnitude b) :
    ∃ num den, f.quotient a b = f.nearestBits num den ∧ 0 < den ∧
      (num : ℚ) / den = f.magnitude a / f.magnitude b := by
  have hpos : 0 < (f.fraction b).1 := by
    refine Nat.pos_of_ne_zero fun hzero => ?_
    rw [magnitude, hzero, Nat.cast_zero, zero_div] at hb
    exact lt_irrefl 0 hb
  refine ⟨_, _, rfl, Nat.mul_pos (f.fraction_den_pos a) hpos, ?_⟩
  rw [magnitude, magnitude, div_div_div_eq]
  push_cast
  rfl

theorem double_normal {v : ℚ} (hlow : 1 / 2 ^ 255 ≤ v) (hhigh : v ≤ 2 ^ 255) :
    double.Normal v := by
  have hleast : double.leastExponent + double.fractionBits = -1022 := by decide
  have hgreatest : (Nat.pow 2 double.exponentBits : ℤ) = 2048 := by decide
  refine ⟨le_trans ?_ hlow, lt_of_le_of_lt hhigh ?_⟩
  · rw [hleast, one_div, ← zpow_natCast, ← zpow_neg]
    exact zpow_le_zpow_right₀ one_le_two (by decide)
  · rw [hleast, hgreatest, ← zpow_natCast]
    exact zpow_lt_zpow_right₀ one_lt_two (by decide)

/-- What rounding to double precision does to a number that is not extreme. -/
theorem double_nearestBits (num : ℕ) {den : ℕ} (hden : 0 < den)
    (hlow : 1 / 2 ^ 255 ≤ (num : ℚ) / den) (hhigh : (num : ℚ) / den ≤ 2 ^ 255) :
    double.nearestBits num den < double.infinityBits ∧
      |double.magnitude (double.nearestBits num den) - num / den| ≤ 1 / 2 ^ 53 * (num / den) ∧
      ∀ (m : ℕ) (i : ℤ), m < 2 ^ 53 → (num : ℚ) / den = m * 2 ^ i →
        double.magnitude (double.nearestBits num den) = num / den := by
  have hnum : 0 < num := by
    refine Nat.pos_of_ne_zero fun hzero => ?_
    rw [hzero, Nat.cast_zero, zero_div] at hlow
    exact absurd hlow (not_le.mpr (by positivity))
  have hnormal := double_normal hlow hhigh
  have hwidth : 2 * Nat.pow 2 double.fractionBits = 2 ^ 53 := by decide
  obtain ⟨_, _, hfinite, _⟩ := nearestBits_normal hnum hden hnormal
  refine ⟨hfinite, ?_, fun m i hm heq => magnitude_eq hnum hden hnormal (hwidth ▸ hm) heq⟩
  have hoff := abs_magnitude_sub_le hnum hden hnormal
  have hwidth' : 2 * ((Nat.pow 2 double.fractionBits : ℕ) : ℚ) = 2 ^ 53 := by exact_mod_cast hwidth
  rw [hwidth'] at hoff
  linarith

end BinaryFormat

namespace Numeral

open BinaryFormat

/-! ## Powers of ten -/

theorem powerBits_eq {k : ℕ} (hk : k ≤ 2000) : powerBits k = double.nearestBits (10 ^ k) 1 := by
  have hsmall : ¬(1 = 0 ∨ (Int.ofNat k) + ((Nat.log2 1 : ℤ) / 3 + 1) < -2000) := by
    have hlog : Nat.log2 1 = 0 := by decide
    rw [hlog, Int.ofNat_eq_natCast]
    omega
  have hlarge : ¬2000 < k := by omega
  show double.ofDecimal false 1 (Int.ofNat k) = _
  rw [BinaryFormat.ofDecimal, if_neg hsmall, if_neg hlarge, encode, if_neg Bool.false_ne_true,
    Nat.zero_add, Nat.one_mul]
  rfl

theorem ten_pow_bounds {k : ℕ} (hk : k ≤ 60) :
    (1 : ℚ) ≤ 10 ^ k ∧ (10 : ℚ) ^ k ≤ 2 ^ 200 := by
  refine ⟨one_le_pow₀ (by norm_num), (pow_le_pow_right₀ (by norm_num) hk).trans ?_⟩
  norm_num

/-- A power of ten at double precision, exact if it is small. -/
theorem magnitude_powerBits {k : ℕ} (hk : k ≤ 60) :
    |double.magnitude (powerBits k) - 10 ^ k| ≤ 1 / 2 ^ 53 * 10 ^ k ∧
      (k ≤ 22 → double.magnitude (powerBits k) = 10 ^ k) := by
  obtain ⟨hlow, hhigh⟩ := ten_pow_bounds hk
  have hcast : ((10 ^ k : ℕ) : ℚ) / (1 : ℕ) = 10 ^ k := by push_cast; rw [div_one]
  rw [powerBits_eq (by omega)]
  obtain ⟨_, hoff, hexact⟩ := double_nearestBits (10 ^ k) Nat.one_pos
    (by rw [hcast]; linarith) (by rw [hcast]; linarith)
  rw [hcast] at hoff hexact
  refine ⟨hoff, fun hk' => hexact (5 ^ k) k ?_ ?_⟩
  · exact lt_of_le_of_lt (Nat.pow_le_pow_right (by decide) hk') (by decide)
  · rw [zpow_natCast]
    push_cast
    rw [← mul_pow]
    norm_num

/-! ## Two roundings -/

theorem half_le_of_off {p v : ℚ} (hv : 0 < v) (hp : |p - v| ≤ 1 / 2 ^ 53 * v) :
    v / 2 ≤ p ∧ p ≤ 2 * v := by
  obtain ⟨hlow, hhigh⟩ := abs_le.mp hp
  constructor <;> linarith

theorem off_of_product {y w p v : ℚ} (hw : 0 < w) (hv : 0 < v) (hp : |p - v| ≤ 1 / 2 ^ 53 * v)
    (hy : |y - w * p| ≤ 1 / 2 ^ 53 * (w * p)) : |y - w * v| ≤ 17 / 16 / 2 ^ 52 * (w * v) := by
  have hwv : 0 < w * v := mul_pos hw hv
  have hfactor : |w * p - w * v| ≤ 1 / 2 ^ 53 * (w * v) := by
    rw [← mul_sub, abs_mul, abs_of_pos hw, mul_left_comm]
    gcongr
  rw [abs_le] at *
  constructor <;> linarith

theorem off_of_quotient {y w p v : ℚ} (hw : 0 < w) (hv : 0 < v) (hp : |p - v| ≤ 1 / 2 ^ 53 * v)
    (hy : |y - w / p| ≤ 1 / 2 ^ 53 * (w / p)) : |y - w / v| ≤ 17 / 16 / 2 ^ 52 * (w / v) := by
  have hp' : 0 < p := lt_of_lt_of_le (by positivity) (half_le_of_off hv hp).1
  have hquotient : 0 < w / p := div_pos hw hp'
  have hback : w / v = w / p * (p / v) := by
    field_simp
  have hratio : |p / v - 1| ≤ 1 / 2 ^ 53 := by
    have hsub : p / v - 1 = (p - v) / v := by rw [sub_div, div_self hv.ne']
    rwa [hsub, abs_div, abs_of_pos hv, div_le_iff₀ hv]
  have hfactor : |w / p - w / v| ≤ 1 / 2 ^ 53 * (w / p) := by
    rw [hback, ← mul_one_sub, abs_mul, abs_of_pos hquotient, abs_sub_comm, mul_comm]
    gcongr
  rw [abs_le] at *
  constructor <;> linarith

theorem magnitude_nearestBits_nat {w : ℕ} (hw : 0 < w) (hw' : w < 2 ^ 53) :
    double.magnitude (double.nearestBits w 1) = w := by
  have hcast : (w : ℚ) / (1 : ℕ) = w := by rw [Nat.cast_one, div_one]
  have hone : (1 : ℚ) ≤ w := by exact_mod_cast hw
  have hle : (w : ℚ) ≤ 2 ^ 53 := by exact_mod_cast hw'.le
  obtain ⟨_, _, hexact⟩ := double_nearestBits w Nat.one_pos
    (by rw [hcast]; linarith) (by rw [hcast]; linarith)
  rw [hcast] at hexact
  exact hexact w 0 hw' (by rw [zpow_zero, mul_one])

/-- What the digits `w` and the power of ten `j` are read as. -/
structure ReadAs (w : ℕ) (j : ℤ) (bits : ℕ) : Prop where
  finite : bits < double.infinityBits
  near : |double.magnitude bits - w * 10 ^ j| ≤ 17 / 16 / 2 ^ 52 * (w * 10 ^ j)
  exact : -22 ≤ j → j ≤ 22 → ∀ (m : ℕ) (i : ℤ), m < 2 ^ 53 → (w : ℚ) * 10 ^ j = m * 2 ^ i →
    double.magnitude bits = w * 10 ^ j

theorem enlarge_spec {w k : ℕ} (hw : 0 < w) (hw' : w < 2 ^ 53) (hk : k ≤ 60) :
    ∃ bits, enlarge (double.nearestBits w 1) k = some bits ∧ ReadAs w k bits := by
  obtain ⟨hoff, hexact⟩ := magnitude_powerBits hk
  obtain ⟨hlow, hhigh⟩ := ten_pow_bounds hk
  obtain ⟨num, den, hproduct, hden, hratio⟩ :=
    double.product_eq (double.nearestBits w 1) (powerBits k)
  rw [magnitude_nearestBits_nat hw hw'] at hratio
  have hten : (0 : ℚ) < 10 ^ k := by positivity
  have hpos : (0 : ℚ) < w := by exact_mod_cast hw
  have hone : (1 : ℚ) ≤ w := by exact_mod_cast hw
  have hle : (w : ℚ) ≤ 2 ^ 53 := by exact_mod_cast hw'.le
  obtain ⟨hhalf, htwice⟩ := half_le_of_off hten hoff
  obtain ⟨hfinite, hround, hround'⟩ := double_nearestBits num hden
    (by rw [hratio]; nlinarith) (by rw [hratio]; nlinarith)
  rw [hratio] at hround hround'
  refine ⟨double.nearestBits num den, ?_, hfinite, ?_, ?_⟩
  · rw [enlarge, if_pos (by rw [greatestPower]; omega), hproduct]
    exact if_pos hfinite
  · rw [zpow_natCast]
    exact off_of_product hpos hten hoff hround
  · intro _ hsmall m i hm heq
    rw [zpow_natCast] at heq ⊢
    rw [hexact (by omega)] at hround'
    exact hround' m i hm heq

theorem shrink_spec {w k : ℕ} (hw : 0 < w) (hw' : w < 2 ^ 53) (hk : k ≤ 60) :
    ReadAs w (-k) (shrink (double.nearestBits w 1) k) := by
  obtain ⟨hoff, hexact⟩ := magnitude_powerBits hk
  obtain ⟨hlow, hhigh⟩ := ten_pow_bounds hk
  have hten : (0 : ℚ) < 10 ^ k := by positivity
  have hpos : (0 : ℚ) < w := by exact_mod_cast hw
  have hone : (1 : ℚ) ≤ w := by exact_mod_cast hw
  have hle : (w : ℚ) ≤ 2 ^ 53 := by exact_mod_cast hw'.le
  obtain ⟨hhalf, htwice⟩ := half_le_of_off hten hoff
  have hpower : 0 < double.magnitude (powerBits k) := by linarith
  obtain ⟨num, den, hquotient, hden, hratio⟩ :=
    double.quotient_eq (double.nearestBits w 1) hpower
  rw [magnitude_nearestBits_nat hw hw'] at hratio
  obtain ⟨hfinite, hround, hround'⟩ := double_nearestBits num hden
    (by rw [hratio, le_div_iff₀ hpower]; linarith) (by rw [hratio, div_le_iff₀ hpower]; linarith)
  rw [hratio] at hround hround'
  have hvalue : (w : ℚ) * 10 ^ (-k : ℤ) = w / 10 ^ k := by
    rw [zpow_neg, zpow_natCast, div_eq_mul_inv]
  rw [shrink, if_pos (by rw [greatestPower]; omega), hquotient]
  refine ⟨hfinite, ?_, ?_⟩
  · rw [hvalue]
    exact off_of_quotient hpos hten hoff hround
  · intro hsmall _ m i hm heq
    rw [hvalue] at heq ⊢
    rw [hexact (by omega)] at hround'
    exact hround' m i hm heq

/-- A numeral of at most 53 bits of digits is read as a number next to its value, and as the value
itself if that is a number and the power of ten is small. -/
theorem magnitudeBits?_spec {n : Numeral} {w : ℕ} {j : ℤ} (hsignificant : n.significant = (w, j))
    (hw : 0 < w) (hw' : w < 2 ^ 53) (hj : -60 ≤ j) (hj' : j ≤ 60) :
    ∃ bits, n.magnitudeBits? = some bits ∧ ReadAs w j bits := by
  rw [magnitudeBits?, hsignificant]
  cases j with
  | ofNat k => exact enlarge_spec hw hw' (Int.ofNat_le.mp hj')
  | negSucc k =>
    have h := shrink_spec hw hw' (k := k + 1) (by omega)
    exact ⟨_, rfl, by rwa [Int.negSucc_eq, ← Nat.cast_add_one]⟩

end Numeral

end ShapeGrammar

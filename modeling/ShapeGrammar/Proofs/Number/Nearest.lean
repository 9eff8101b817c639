import Mathlib.Algebra.Order.Field.Power
import Mathlib.Algebra.Order.Ring.Rat
import Mathlib.Algebra.Order.Ring.Abs
import Mathlib.Tactic.FieldSimp
import Mathlib.Tactic.Linarith
import Mathlib.Tactic.Positivity
import Mathlib.Tactic.Ring
import ShapeGrammar.Number.Binary

/-!
# What the nearest machine number is

The pattern that a fraction is rounded to, said with rational numbers: its unit is the power of two
that leaves a mantissa of full width, and the fraction lies within half a unit of what the pattern
stands for. Main statements: `decode_pattern`, `nearestBits_eq_pattern`.
-/
namespace ShapeGrammar

namespace BinaryFormat

/-! ## Fractions -/

theorem scale_den_pos (num : ℕ) {den : ℕ} (hden : 0 < den) (e : ℤ) : 0 < (scale num den e).2 := by
  cases e with
  | ofNat e => exact hden
  | negSucc e => exact Nat.mul_pos hden (Nat.two_pow_pos _)

theorem scale_ratio (num den : ℕ) (e : ℤ) :
    ((scale num den e).1 : ℚ) / (scale num den e).2 = num / den * 2 ^ e := by
  cases e with
  | ofNat e =>
    simp only [scale, Int.ofNat_eq_natCast, zpow_natCast]
    push_cast [Nat.pow_eq]
    ring
  | negSucc e =>
    simp only [scale, zpow_negSucc]
    push_cast [Nat.pow_eq]
    rw [div_mul_eq_div_div, div_eq_mul_inv]

theorem roundHalfEven_eq_of_nat {n d k : ℕ} (hd : 0 < d) (hlow : 2 * (k * d) ≤ 2 * n + d)
    (hhigh : 2 * n ≤ 2 * (k * d) + d)
    (htie : k % 2 = 0 ∨ 2 * (k * d) < 2 * n + d ∧ 2 * n < 2 * (k * d) + d) :
    roundHalfEven n d = k := by
  have hn : d * (n / d) + n % d = n := Nat.div_add_mod n d
  have hr : n % d < d := Nat.mod_lt n hd
  have hk : k = n / d ∨ k = n / d + 1 := by
    rcases Nat.lt_trichotomy k (n / d) with h | h | h
    · have := Nat.mul_le_mul_left d (Nat.succ_le_of_lt h)
      rw [Nat.mul_succ, Nat.mul_comm d k] at this
      omega
    · exact .inl h
    · rcases Nat.eq_or_lt_of_le (Nat.succ_le_of_lt h) with h | h
      · exact .inr h.symm
      · have := Nat.mul_le_mul_left d (Nat.succ_le_of_lt h)
        rw [Nat.mul_succ, Nat.mul_succ, Nat.mul_comm d k] at this
        omega
  unfold roundHalfEven
  rcases hk with rfl | rfl
  · rw [Nat.mul_comm (n / d) d] at *
    dsimp only
    split_ifs <;> omega
  · rw [Nat.add_mul, Nat.mul_comm (n / d) d] at *
    dsimp only
    split_ifs <;> omega

/-- A number within half a unit of a whole number is rounded to it, at half a unit only if it is
even. -/
theorem roundHalfEven_eq {n d k : ℕ} (hd : 0 < d) (hlow : (k : ℚ) - 1 / 2 ≤ n / d)
    (hhigh : (n : ℚ) / d ≤ k + 1 / 2)
    (htie : k % 2 = 0 ∨ (k : ℚ) - 1 / 2 < n / d ∧ (n : ℚ) / d < k + 1 / 2) :
    roundHalfEven n d = k := by
  have hd' : (0 : ℚ) < d := Nat.cast_pos.mpr hd
  rw [le_div_iff₀ hd', lt_div_iff₀ hd'] at *
  rw [div_le_iff₀ hd', div_lt_iff₀ hd'] at *
  refine roundHalfEven_eq_of_nat hd ?_ ?_ (htie.imp_right fun h => ⟨?_, ?_⟩)
  · have : (2 * (k * d) : ℚ) ≤ 2 * n + d := by linarith
    exact_mod_cast this
  · have : (2 * n : ℚ) ≤ 2 * (k * d) + d := by linarith
    exact_mod_cast this
  · have : (2 * (k * d) : ℚ) < 2 * n + d := by linarith [h.1]
    exact_mod_cast this
  · have : (2 * n : ℚ) < 2 * (k * d) + d := by linarith [h.2]
    exact_mod_cast this

theorem roundHalfEven_bounds {n d : ℕ} (hd : 0 < d) :
    2 * (roundHalfEven n d * d) ≤ 2 * n + d ∧ 2 * n ≤ 2 * (roundHalfEven n d * d) + d := by
  have hn : n / d * d + n % d = n := Nat.div_add_mod' n d
  have hnext : (n / d + 1) * d = n / d * d + d := Nat.succ_mul (n / d) d
  have hr : n % d < d := Nat.mod_lt n hd
  unfold roundHalfEven
  dsimp only
  split_ifs <;> constructor <;> omega

theorem abs_roundHalfEven_sub_le {n d : ℕ} (hd : 0 < d) :
    |(roundHalfEven n d : ℚ) - n / d| ≤ 1 / 2 := by
  obtain ⟨hlow, hhigh⟩ := roundHalfEven_bounds (n := n) hd
  have hd' : (0 : ℚ) < d := Nat.cast_pos.mpr hd
  have hlow' : (2 * (roundHalfEven n d * d) : ℚ) ≤ 2 * n + d := by exact_mod_cast hlow
  have hhigh' : (2 * n : ℚ) ≤ 2 * (roundHalfEven n d * d) + d := by exact_mod_cast hhigh
  rw [abs_le]
  constructor
  · rw [neg_le_sub_iff_le_add, div_le_iff₀ hd']
    linarith
  · rw [sub_le_iff_le_add, ← sub_le_iff_le_add', le_div_iff₀ hd']
    linarith

/-! ## The unit of a fraction -/

section Unit

/-- The power of a base just below a fraction: it is guessed from the powers just below the two
parts, and one comparison with the scaled fraction tells whether the guess is too high. -/
theorem power_of_guess {b : ℚ} (hb : 1 < b) {num den : ℕ} {p q : ℤ}
    (hnumLow : b ^ p ≤ num) (hnumHigh : (num : ℚ) < b ^ (p + 1))
    (hdenLow : b ^ q ≤ den) (hdenHigh : (den : ℚ) < b ^ (q + 1))
    {n d : ℕ} (hd : 0 < d) (hscaled : (n : ℚ) / d = num / den / b ^ (p - q)) :
    b ^ (if n < d then p - q - 1 else p - q) ≤ (num : ℚ) / den ∧
      (num : ℚ) / den < b ^ ((if n < d then p - q - 1 else p - q) + 1) := by
  have hb' : 0 < b := zero_lt_one.trans hb
  have hden : (0 : ℚ) < den := (zpow_pos hb' q).trans_le hdenLow
  have hd' : (0 : ℚ) < d := Nat.cast_pos.mpr hd
  have hpower : 0 < b ^ (p - q) := zpow_pos hb' _
  split_ifs with h
  · constructor
    · rw [le_div_iff₀ hden]
      calc b ^ (p - q - 1) * den ≤ b ^ (p - q - 1) * b ^ (q + 1) := by gcongr
        _ = b ^ p := by
          rw [← zpow_add₀ hb'.ne']
          congr 1
          ring
        _ ≤ num := hnumLow
    · have hless : (n : ℚ) / d < 1 := by
        rw [div_lt_one hd']
        exact_mod_cast h
      rwa [hscaled, div_lt_one hpower, ← sub_add_cancel (p - q) 1] at hless
  · constructor
    · have hmore : 1 ≤ (n : ℚ) / d := by
        rw [one_le_div hd']
        exact_mod_cast Nat.le_of_not_lt h
      rwa [hscaled, one_le_div hpower] at hmore
    · rw [div_lt_iff₀ hden]
      calc (num : ℚ) < b ^ (p + 1) := hnumHigh
        _ = b ^ (p - q + 1) * b ^ q := by
          rw [← zpow_add₀ hb'.ne']
          congr 1
          ring
        _ ≤ b ^ (p - q + 1) * den := by gcongr

variable (f : BinaryFormat) {num den : ℕ}

theorem log2_spec {n : ℕ} (hn : 0 < n) :
    (2 : ℚ) ^ (Nat.log2 n : ℤ) ≤ n ∧ (n : ℚ) < 2 ^ ((Nat.log2 n : ℤ) + 1) := by
  constructor
  · rw [zpow_natCast]
    exact_mod_cast Nat.log2_self_le hn.ne'
  · have := Nat.lt_log2_self (n := n)
    exact_mod_cast this

/-- The power of two just below a fraction. -/
theorem leadingPower (hnum : 0 < num) (hden : 0 < den) :
    ∃ lead : ℤ, f.unitExponent num den = max (lead - f.fractionBits) f.leastExponent ∧
      (2 : ℚ) ^ lead ≤ num / den ∧ (num : ℚ) / den < 2 ^ (lead + 1) := by
  have hscaled := scale_ratio num den (-((Nat.log2 num : ℤ) - Nat.log2 den))
  rw [zpow_neg, ← div_eq_mul_inv] at hscaled
  obtain ⟨hnumLow, hnumHigh⟩ := log2_spec hnum
  obtain ⟨hdenLow, hdenHigh⟩ := log2_spec hden
  exact ⟨_, rfl, power_of_guess one_lt_two hnumLow hnumHigh hdenLow hdenHigh
    (scale_den_pos num hden _) hscaled⟩

/-- The unit of a fraction is the one power of two, not below the least, in which its mantissa has
full width, or the least one if it is too small for that. -/
theorem unitExponent_eq (hnum : 0 < num) (hden : 0 < den) {e : ℤ}
    (hleast : f.leastExponent ≤ e) (hhigh : (num : ℚ) / den < 2 ^ (e + f.fractionBits + 1))
    (hlow : e = f.leastExponent ∨ (2 : ℚ) ^ (e + f.fractionBits) ≤ num / den) :
    f.unitExponent num den = e := by
  obtain ⟨lead, hunit, hlead, hlead'⟩ := f.leadingPower hnum hden
  have hbelow : lead < e + f.fractionBits + 1 :=
    (zpow_lt_zpow_iff_right₀ one_lt_two).mp (hlead.trans_lt hhigh)
  rw [hunit]
  rcases hlow with rfl | hlow
  · omega
  · have habove : e + f.fractionBits < lead + 1 :=
      (zpow_lt_zpow_iff_right₀ one_lt_two).mp (hlow.trans_lt hlead')
    omega

end Unit

/-! ## Patterns -/

/-- A mantissa and an exponent as a bit pattern stands for them: the mantissa has full width unless
the exponent is the least. -/
structure Canonical (f : BinaryFormat) (mantissa : ℕ) (exponent : ℤ) : Prop where
  least : f.leastExponent ≤ exponent
  width : mantissa < 2 * Nat.pow 2 f.fractionBits
  full : exponent = f.leastExponent ∨ Nat.pow 2 f.fractionBits ≤ mantissa

/-- The magnitude bits of `mantissa * 2 ^ exponent`. -/
def pattern (f : BinaryFormat) (mantissa : ℕ) (exponent : ℤ) : ℕ :=
  if mantissa < Nat.pow 2 f.fractionBits then mantissa
  else (exponent - f.leastExponent + 1).toNat * Nat.pow 2 f.fractionBits
    + (mantissa - Nat.pow 2 f.fractionBits)

theorem infinityBits_lt_signBit (f : BinaryFormat) : f.infinityBits < f.signBit := by
  have hfraction : 0 < Nat.pow 2 f.fractionBits := Nat.two_pow_pos _
  have hexponent : 0 < Nat.pow 2 f.exponentBits := Nat.two_pow_pos _
  have hsign : f.signBit = Nat.pow 2 f.exponentBits * Nat.pow 2 f.fractionBits :=
    Nat.pow_add 2 f.exponentBits f.fractionBits
  rw [hsign, infinityBits]
  exact Nat.mul_lt_mul_of_pos_right (by omega) hfraction

/-- The bits of a sign. -/
def signBits (f : BinaryFormat) (negative : Bool) : ℕ :=
  if negative then f.signBit else 0

@[simp] theorem signBits_true (f : BinaryFormat) : f.signBits true = f.signBit := rfl

@[simp] theorem signBits_false (f : BinaryFormat) : f.signBits false = 0 := rfl

theorem decode_of_lt (f : BinaryFormat) (negative : Bool) {b : ℕ} (hb : b < f.infinityBits) :
    f.decode (f.signBits negative + b) =
      if b / Nat.pow 2 f.fractionBits = 0 then
        .finite negative (b % Nat.pow 2 f.fractionBits) f.leastExponent
      else
        .finite negative (b % Nat.pow 2 f.fractionBits + Nat.pow 2 f.fractionBits)
          (f.leastExponent + (b / Nat.pow 2 f.fractionBits - 1 : ℕ)) := by
  have hsign := f.infinityBits_lt_signBit
  have hnegative : decide (f.signBit ≤ f.signBits negative + b) = negative := by
    cases negative
    · exact decide_eq_false (by rw [signBits_false]; omega)
    · exact decide_eq_true (by rw [signBits_true]; omega)
  have hmagnitude : (f.signBits negative + b) % f.signBit = b := by
    cases negative
    · rw [signBits_false, Nat.zero_add, Nat.mod_eq_of_lt (hb.trans hsign)]
    · rw [signBits_true, Nat.add_mod_left, Nat.mod_eq_of_lt (hb.trans hsign)]
  rw [decode]
  simp only [hnegative, hmagnitude, if_neg (Nat.not_lt_of_gt hb), if_neg (Nat.ne_of_lt hb)]

/-- A pattern stands for the mantissa and the exponent it is made of. -/
theorem decode_pattern {f : BinaryFormat} (negative : Bool) {m : ℕ} {e : ℤ}
    (h : f.Canonical m e) (hfinite : f.pattern m e < f.infinityBits) :
    f.decode (f.signBits negative + f.pattern m e) = .finite negative m e := by
  obtain ⟨hleast, hwidth, hfull⟩ := h
  have hpos : 0 < Nat.pow 2 f.fractionBits := Nat.two_pow_pos _
  rw [decode_of_lt f negative hfinite, pattern]
  by_cases hsmall : m < Nat.pow 2 f.fractionBits
  · rw [if_pos hsmall, if_pos (Nat.div_eq_of_lt hsmall), Nat.mod_eq_of_lt hsmall,
      hfull.resolve_right (Nat.not_le_of_lt hsmall)]
  · have hrest : m - Nat.pow 2 f.fractionBits < Nat.pow 2 f.fractionBits := by omega
    rw [if_neg hsmall, Nat.add_comm, Nat.add_mul_div_right _ _ hpos, Nat.add_mul_mod_self_right,
      Nat.div_eq_of_lt hrest, Nat.mod_eq_of_lt hrest, if_neg (by omega),
      Nat.sub_add_cancel (by omega)]
    congr 1
    omega

/-- A finite value comes from the pattern of its mantissa and its exponent. -/
theorem pattern_of_decode {f : BinaryFormat} {bits : ℕ} (hbits : bits < 2 * f.signBit)
    {negative : Bool} {m : ℕ} {e : ℤ} (h : f.decode bits = .finite negative m e) :
    f.Canonical m e ∧ f.pattern m e < f.infinityBits ∧
      bits = f.signBits negative + f.pattern m e := by
  have hsplit : bits = f.signBits (f.signBit ≤ bits) + bits % f.signBit := by
    by_cases hsign : f.signBit ≤ bits
    · rw [decide_eq_true hsign, signBits_true, Nat.mod_eq_sub_mod hsign,
        Nat.mod_eq_of_lt (by omega), Nat.add_sub_cancel' hsign]
    · rw [decide_eq_false hsign, signBits_false, Nat.zero_add, Nat.mod_eq_of_lt (by omega)]
  have hfinite : bits % f.signBit < f.infinityBits := by
    rw [decode] at h
    split_ifs at h <;> omega
  rw [hsplit, decode_of_lt f _ hfinite] at h
  generalize bits % f.signBit = b at hsplit hfinite h
  have hpos : 0 < Nat.pow 2 f.fractionBits := Nat.two_pow_pos _
  have hrest : b % Nat.pow 2 f.fractionBits < Nat.pow 2 f.fractionBits := Nat.mod_lt _ hpos
  suffices hpattern : f.Canonical m e ∧ f.pattern m e = b ∧ decide (f.signBit ≤ bits) = negative by
    obtain ⟨hcanonical, rfl, rfl⟩ := hpattern
    exact ⟨hcanonical, hfinite, hsplit⟩
  by_cases hzero : b / Nat.pow 2 f.fractionBits = 0
  · rw [if_pos hzero, Value.finite.injEq] at h
    obtain ⟨rfl, rfl, rfl⟩ := h
    refine ⟨⟨le_refl _, by omega, .inl rfl⟩, ?_, rfl⟩
    rw [pattern, if_pos hrest]
    exact Nat.mod_eq_of_lt ((Nat.div_eq_zero_iff_lt hpos).mp hzero)
  · rw [if_neg hzero, Value.finite.injEq] at h
    obtain ⟨rfl, rfl, rfl⟩ := h
    obtain ⟨q, hq⟩ : ∃ q, b / Nat.pow 2 f.fractionBits = q := ⟨_, rfl⟩
    have hb : q * Nat.pow 2 f.fractionBits + b % Nat.pow 2 f.fractionBits = b :=
      hq ▸ Nat.div_add_mod' b _
    rw [hq] at hzero ⊢
    refine ⟨⟨by omega, by omega, .inr (Nat.le_add_left _ _)⟩, ?_, rfl⟩
    have hexponent : (f.leastExponent + (q - 1 : ℕ) - f.leastExponent + 1).toNat = q := by omega
    rw [pattern, if_neg (by omega), hexponent, Nat.add_sub_cancel, hb]

/-! ## Rounding -/

theorem nearestBits_eq (f : BinaryFormat) {num den : ℕ} (hnum : 0 < num) {e : ℤ}
    (he : f.unitExponent num den = e) :
    f.nearestBits num den = min
      (f.pattern (roundHalfEven (scale num den (-e)).1 (scale num den (-e)).2) e)
      f.infinityBits := by
  subst he
  rw [nearestBits, if_neg (Nat.ne_of_gt hnum)]
  rfl

/-- The lower end of what rounds to `m * 2 ^ e`. Below the least mantissa of full width the
neighbour is half as far away, unless that is subnormal. -/
def lowEnd (f : BinaryFormat) (m : ℕ) (e : ℤ) : ℚ :=
  (m - if m = Nat.pow 2 f.fractionBits ∧ f.leastExponent < e then 1 / 4 else 1 / 2) * 2 ^ e

/-- The upper end of what rounds to `m * 2 ^ e`. -/
def highEnd (m : ℕ) (e : ℤ) : ℚ :=
  (m + 1 / 2) * 2 ^ e

/-- Whether a number rounds to `m * 2 ^ e`. -/
structure RoundsTo (f : BinaryFormat) (m : ℕ) (e : ℤ) (v : ℚ) : Prop where
  low : f.lowEnd m e ≤ v
  high : v ≤ highEnd m e
  tie : m % 2 = 0 ∨ f.lowEnd m e < v ∧ v < highEnd m e

/-- The pattern for a mantissa one above full width is that of the least mantissa of full width in
the next unit. -/
theorem pattern_carry (f : BinaryFormat) {e : ℤ} (he : f.leastExponent ≤ e) :
    f.pattern (2 * Nat.pow 2 f.fractionBits) e = f.pattern (Nat.pow 2 f.fractionBits) (e + 1) := by
  have hpos : 0 < Nat.pow 2 f.fractionBits := Nat.two_pow_pos _
  rw [pattern, pattern, if_neg (by omega), if_neg (by omega)]
  have hnext : (e + 1 - f.leastExponent + 1).toNat = (e - f.leastExponent + 1).toNat + 1 := by omega
  rw [hnext, Nat.add_mul]
  omega

theorem zpow_add_fractionBits (f : BinaryFormat) (e : ℤ) :
    (2 : ℚ) ^ (e + f.fractionBits) = (Nat.pow 2 f.fractionBits : ℕ) * 2 ^ e := by
  rw [zpow_add₀ two_ne_zero, zpow_natCast, mul_comm]
  push_cast [Nat.pow_eq]
  rfl

/-- The mantissa that a number is rounded to in a unit. -/
theorem roundHalfEven_scale {num den k : ℕ} (hden : 0 < den) {e : ℤ}
    (hlow : ((k : ℚ) - 1 / 2) * 2 ^ e ≤ num / den) (hhigh : (num : ℚ) / den ≤ (k + 1 / 2) * 2 ^ e)
    (htie : k % 2 = 0 ∨
      ((k : ℚ) - 1 / 2) * 2 ^ e < num / den ∧ (num : ℚ) / den < (k + 1 / 2) * 2 ^ e) :
    roundHalfEven (scale num den (-e)).1 (scale num den (-e)).2 = k := by
  have hunit : (0 : ℚ) < 2 ^ e := by positivity
  have hratio := scale_ratio num den (-e)
  rw [zpow_neg, ← div_eq_mul_inv] at hratio
  apply roundHalfEven_eq (scale_den_pos num hden _)
  · rwa [hratio, le_div_iff₀ hunit]
  · rwa [hratio, div_le_iff₀ hunit]
  · rwa [hratio, lt_div_iff₀ hunit, div_lt_iff₀ hunit]

theorem lowEnd_ge (f : BinaryFormat) (m : ℕ) (e : ℤ) :
    ((m : ℚ) - 1 / 2) * 2 ^ e ≤ f.lowEnd m e := by
  have hunit : (0 : ℚ) < 2 ^ e := by positivity
  unfold lowEnd
  split_ifs
  · gcongr
    norm_num
  · exact le_refl _

/-- A number less than a quarter of a unit below the least mantissa of full width is carried up to
it. -/
theorem nearestBits_eq_carry (f : BinaryFormat) {num den : ℕ} (hnum : 0 < num) (hden : 0 < den)
    {e : ℤ} (he : f.leastExponent < e)
    (hlow : ((Nat.pow 2 f.fractionBits : ℕ) - 1 / 4 : ℚ) * 2 ^ e ≤ num / den)
    (hhigh : (num : ℚ) / den < 2 ^ (e + f.fractionBits)) :
    f.nearestBits num den = min (f.pattern (Nat.pow 2 f.fractionBits) e) f.infinityBits := by
  have hpos : (1 : ℚ) ≤ (Nat.pow 2 f.fractionBits : ℕ) := by exact_mod_cast Nat.two_pow_pos _
  have hunit : (0 : ℚ) < 2 ^ (e - 1) := by positivity
  have hhalf : (2 : ℚ) ^ e = 2 * 2 ^ (e - 1) := by
    rw [← zpow_one_add₀ two_ne_zero, add_sub_cancel]
  rw [zpow_add_fractionBits] at hhigh
  rw [hhalf] at hlow hhigh
  have hexponent : f.unitExponent num den = e - 1 := by
    apply f.unitExponent_eq hnum hden (by omega)
    · rw [zpow_add₀ two_ne_zero, zpow_one, zpow_add_fractionBits]
      linarith
    · right
      rw [zpow_add_fractionBits]
      refine le_trans ?_ hlow
      rw [← mul_assoc]
      gcongr
      linarith
  have hround : roundHalfEven (scale num den (-(e - 1))).1 (scale num den (-(e - 1))).2 =
      2 * Nat.pow 2 f.fractionBits := by
    apply roundHalfEven_scale hden
    · push_cast
      linarith
    · push_cast
      linarith
    · exact .inl (Nat.mul_mod_right 2 _)
  rw [nearestBits_eq f hnum hexponent, hround, pattern_carry f (by omega), sub_add_cancel]

/-- A number that rounds to a value has the bits of that value. -/
theorem nearestBits_eq_pattern {f : BinaryFormat} {m : ℕ} {e : ℤ} (h : f.Canonical m e)
    (hfinite : f.pattern m e < f.infinityBits) {num den : ℕ} (hnum : 0 < num) (hden : 0 < den)
    (hv : f.RoundsTo m e (num / den)) : f.nearestBits num den = f.pattern m e := by
  obtain ⟨hleast, hwidth, hfull⟩ := h
  have hunit : (0 : ℚ) < 2 ^ e := by positivity
  have hwidth' : (m : ℚ) + 1 ≤ 2 * (Nat.pow 2 f.fractionBits : ℕ) := by exact_mod_cast hwidth
  have hhigh : (num : ℚ) / den < 2 ^ (e + f.fractionBits + 1) := by
    rw [zpow_add₀ two_ne_zero, zpow_one, zpow_add_fractionBits]
    calc (num : ℚ) / den ≤ (m + 1 / 2) * 2 ^ e := hv.high
      _ < (2 * (Nat.pow 2 f.fractionBits : ℕ)) * 2 ^ e := by gcongr; linarith
      _ = _ := by ring
  by_cases hbelow : f.leastExponent < e ∧ (num : ℚ) / den < 2 ^ (e + f.fractionBits)
  · -- a mantissa above the least one of full width would not reach down so far
    obtain ⟨hlt, hless⟩ := hbelow
    have hm : m = Nat.pow 2 f.fractionBits := by
      by_contra hne
      have hge : ((Nat.pow 2 f.fractionBits : ℕ) : ℚ) + 1 ≤ m := by
        exact_mod_cast lt_of_le_of_ne (hfull.resolve_left (ne_of_gt hlt)) (Ne.symm hne)
      have hmore := ((f.lowEnd_ge m e).trans hv.low).trans_lt hless
      rw [zpow_add_fractionBits] at hmore
      linarith [lt_of_mul_lt_mul_right hmore hunit.le]
    subst hm
    have hlow := hv.low
    rw [lowEnd, if_pos ⟨rfl, hlt⟩] at hlow
    rw [f.nearestBits_eq_carry hnum hden hlt hlow hless]
    exact Nat.min_eq_left hfinite.le
  · have hlow : e = f.leastExponent ∨ (2 : ℚ) ^ (e + f.fractionBits) ≤ num / den := by
      rcases hleast.lt_or_eq with hlt | heq
      · exact .inr (le_of_not_gt fun hless => hbelow ⟨hlt, hless⟩)
      · exact .inl heq.symm
    rw [nearestBits_eq f hnum (f.unitExponent_eq hnum hden hleast hhigh hlow),
      roundHalfEven_scale hden ((f.lowEnd_ge m e).trans hv.low) hv.high
        (hv.tie.imp_right fun h => ⟨(f.lowEnd_ge m e).trans_lt h.1, h.2⟩)]
    exact Nat.min_eq_left hfinite.le

/-! ## How far off the nearest value is -/

/-- What magnitude bits stand for. -/
def magnitude (f : BinaryFormat) (bits : ℕ) : ℚ :=
  (f.fraction bits).1 / (f.fraction bits).2

theorem magnitude_pattern {f : BinaryFormat} {m : ℕ} {e : ℤ} (h : f.Canonical m e)
    (hfinite : f.pattern m e < f.infinityBits) : f.magnitude (f.pattern m e) = m * 2 ^ e := by
  have hdecode := decode_pattern false h hfinite
  rw [signBits_false, Nat.zero_add] at hdecode
  rw [magnitude, fraction, hdecode]
  dsimp only
  rw [scale_ratio, Nat.cast_one, div_one]

theorem fraction_den_pos (f : BinaryFormat) (bits : ℕ) : 0 < (f.fraction bits).2 := by
  rw [fraction]
  split
  · exact scale_den_pos _ Nat.one_pos _
  · exact Nat.one_pos

/-- Whether a number lies among the normal values of a format, short of the last power of two. -/
structure Normal (f : BinaryFormat) (v : ℚ) : Prop where
  low : (2 : ℚ) ^ (f.leastExponent + f.fractionBits) ≤ v
  high : v < 2 ^ (f.leastExponent + f.fractionBits + Nat.pow 2 f.exponentBits - 3)

theorem abs_roundHalfEven_scale_sub_le (num : ℕ) {den : ℕ} (hden : 0 < den) (e : ℤ) :
    |(roundHalfEven (scale num den (-e)).1 (scale num den (-e)).2 : ℚ) - num / den / 2 ^ e| ≤
      1 / 2 := by
  have h := abs_roundHalfEven_sub_le (n := (scale num den (-e)).1)
    (scale_den_pos num hden (-e))
  rwa [scale_ratio, zpow_neg, ← div_eq_mul_inv] at h

theorem pattern_lt {f : BinaryFormat} {m : ℕ} {e : ℤ} (h : f.Canonical m e)
    (he : e + 2 < f.leastExponent + Nat.pow 2 f.exponentBits) :
    f.pattern m e < f.infinityBits := by
  obtain ⟨hleast, hwidth, _⟩ := h
  rw [pattern, infinityBits]
  generalize Nat.pow 2 f.fractionBits = full at hwidth ⊢
  generalize Nat.pow 2 f.exponentBits = fields at he ⊢
  have hfield : (e - f.leastExponent + 1).toNat + 1 ≤ fields - 1 := by omega
  have hmul := Nat.mul_le_mul_right full hfield
  rw [Nat.add_mul, Nat.one_mul] at hmul
  split_ifs <;> omega

/-- A normal number is rounded to a finite value, a mantissa in the unit of the number. -/
theorem nearestBits_normal {f : BinaryFormat} {num den : ℕ} (hnum : 0 < num) (hden : 0 < den)
    (hv : f.Normal (num / den)) :
    ∃ e : ℤ, (2 : ℚ) ^ (e + f.fractionBits) ≤ num / den ∧
      f.nearestBits num den < f.infinityBits ∧
      f.magnitude (f.nearestBits num den) =
        roundHalfEven (scale num den (-e)).1 (scale num den (-e)).2 * 2 ^ e := by
  obtain ⟨lead, hunit, hlead, hlead'⟩ := f.leadingPower hnum hden
  have habove : f.leastExponent + f.fractionBits < lead + 1 :=
    (zpow_lt_zpow_iff_right₀ one_lt_two).mp (hv.low.trans_lt hlead')
  have hbelow : lead < f.leastExponent + f.fractionBits + Nat.pow 2 f.exponentBits - 3 :=
    (zpow_lt_zpow_iff_right₀ one_lt_two).mp (hlead.trans_lt hv.high)
  obtain ⟨e, rfl⟩ : ∃ e : ℤ, lead = e + f.fractionBits := ⟨lead - f.fractionBits, by ring⟩
  have he : f.unitExponent num den = e := by omega
  refine ⟨e, hlead, ?_⟩
  rw [nearestBits_eq f hnum he]
  have hround := abs_le.mp (abs_roundHalfEven_scale_sub_le num hden e)
  generalize roundHalfEven (scale num den (-e)).1 (scale num den (-e)).2 = k at hround ⊢
  have hscale : (0 : ℚ) < 2 ^ e := by positivity
  rw [zpow_add₀ two_ne_zero (_ : ℤ) 1, zpow_one] at hlead'
  rw [zpow_add_fractionBits] at hlead hlead'
  have hlow : Nat.pow 2 f.fractionBits ≤ k := by
    have : ((Nat.pow 2 f.fractionBits : ℕ) : ℚ) ≤ num / den / 2 ^ e := by
      rwa [le_div_iff₀ hscale]
    have : ((Nat.pow 2 f.fractionBits : ℕ) : ℚ) < k + 1 := by linarith
    exact Nat.lt_succ_iff.mp (by exact_mod_cast this)
  have hhigh : k ≤ 2 * Nat.pow 2 f.fractionBits := by
    have : (num : ℚ) / den / 2 ^ e < 2 * (Nat.pow 2 f.fractionBits : ℕ) := by
      rw [div_lt_iff₀ hscale]
      linarith
    have : (k : ℚ) < 2 * (Nat.pow 2 f.fractionBits : ℕ) + 1 := by linarith
    exact Nat.lt_succ_iff.mp (by exact_mod_cast this)
  have hpos : 0 < Nat.pow 2 f.fractionBits := Nat.two_pow_pos _
  rcases hhigh.lt_or_eq with hless | rfl
  · have hcanonical : f.Canonical k e := ⟨by omega, hless, .inr hlow⟩
    have hfinite := pattern_lt hcanonical (by omega)
    rw [Nat.min_eq_left hfinite.le]
    exact ⟨hfinite, magnitude_pattern hcanonical hfinite⟩
  · have hcanonical : f.Canonical (Nat.pow 2 f.fractionBits) (e + 1) :=
      ⟨by omega, by omega, .inr (le_refl _)⟩
    have hfinite := pattern_lt hcanonical (by omega)
    rw [pattern_carry f (by omega), Nat.min_eq_left hfinite.le]
    refine ⟨hfinite, (magnitude_pattern hcanonical hfinite).trans ?_⟩
    rw [zpow_add₀ two_ne_zero, zpow_one]
    push_cast
    ring

/-- A normal number is off by at most half a unit in the last place. -/
theorem abs_magnitude_sub_le {f : BinaryFormat} {num den : ℕ} (hnum : 0 < num) (hden : 0 < den)
    (hv : f.Normal (num / den)) :
    |f.magnitude (f.nearestBits num den) - num / den| * (2 * (Nat.pow 2 f.fractionBits : ℕ)) ≤
      num / den := by
  obtain ⟨e, hlow, _, hvalue⟩ := nearestBits_normal hnum hden hv
  have hscale : (0 : ℚ) < 2 ^ e := by positivity
  have hround := abs_roundHalfEven_scale_sub_le num hden e
  have hoff : |f.magnitude (f.nearestBits num den) - num / den| ≤ 1 / 2 * 2 ^ e := by
    rw [hvalue]
    calc _ = |(roundHalfEven (scale num den (-e)).1 (scale num den (-e)).2 : ℚ)
          - num / den / 2 ^ e| * 2 ^ e := by
          rw [← abs_of_pos hscale, ← abs_mul, abs_of_pos hscale, sub_mul,
            div_mul_cancel₀ _ hscale.ne']
      _ ≤ _ := by gcongr
  rw [zpow_add_fractionBits] at hlow
  refine le_trans (mul_le_mul_of_nonneg_right hoff (by positivity)) (le_trans (le_of_eq ?_) hlow)
  ring

/-- A normal number that is a mantissa of the format, in whatever unit, is not off at all. -/
theorem magnitude_eq {f : BinaryFormat} {num den : ℕ} (hnum : 0 < num) (hden : 0 < den)
    (hv : f.Normal (num / den)) {m : ℕ} {i : ℤ} (hm : m < 2 * Nat.pow 2 f.fractionBits)
    (heq : (num : ℚ) / den = m * 2 ^ i) : f.magnitude (f.nearestBits num den) = num / den := by
  obtain ⟨e, hlow, _, hvalue⟩ := nearestBits_normal hnum hden hv
  have hscale : (0 : ℚ) < 2 ^ i := by positivity
  have hle : e ≤ i := by
    have hless : (2 : ℚ) ^ (e + f.fractionBits) < 2 ^ (i + f.fractionBits + 1) := by
      rw [zpow_add₀ two_ne_zero (_ : ℤ) 1, zpow_one, zpow_add_fractionBits f i]
      refine hlow.trans_lt ?_
      rw [heq]
      have : (m : ℚ) < 2 * (Nat.pow 2 f.fractionBits : ℕ) := by exact_mod_cast hm
      calc (m : ℚ) * 2 ^ i < 2 * (Nat.pow 2 f.fractionBits : ℕ) * 2 ^ i := by gcongr
        _ = _ := by ring
    have := (zpow_lt_zpow_iff_right₀ (one_lt_two (α := ℚ))).mp hless
    omega
  obtain ⟨j, rfl⟩ := Int.le.dest hle
  have hwhole : (num : ℚ) / den = (m * 2 ^ j : ℕ) * 2 ^ e := by
    rw [heq, zpow_add₀ two_ne_zero, zpow_natCast]
    push_cast
    ring
  rw [hvalue, roundHalfEven_scale hden (k := m * 2 ^ j), hwhole]
  · rw [hwhole]
    gcongr
    linarith
  · rw [hwhole]
    gcongr
    linarith
  · right
    rw [hwhole]
    constructor <;> gcongr <;> linarith

end BinaryFormat

end ShapeGrammar

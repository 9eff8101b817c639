import ShapeGrammar.Proofs.Number.Operations

/-!
# What single precision arithmetic computes

Every machine number but one stands for a place on the number line, and comparisons are those of
places. Sums, differences, products and quotients of finite numbers are the exact results, rounded,
and what is not finite stays so. Main statements: `lt_iff`, `rounds_add`, `rounds_sub`,
`rounds_mul`, `rounds_div`, `rounds_natCast`.
-/
namespace ShapeGrammar

namespace Float32

open Float.Model Float.Model.UnpackedFloat BinaryFormat

/-! ## The number line -/

/-- What a machine number taken apart stands for. Past all others there are two powers of two for
the infinities. -/
def rational : UnpackedFloat → ℚ
  | .infinity .negative => -single.limit
  | .finite .negative m e _ => -(m * 2 ^ e)
  | .notANumber | .zero _ => 0
  | .finite .positive m e _ => m * 2 ^ e
  | .infinity .positive => single.limit

def toRat (x : Float32) : ℚ :=
  rational x.toModel.unpack

theorem limit_single : single.limit = 2 ^ (128 : ℤ) := by
  have hexponent : single.leastExponent + single.fractionBits + Nat.pow 2 single.exponentBits - 2 =
      128 := by decide
  rw [limit, hexponent]

section Values

variable {negative : Bool} {m m' : ℕ} {e e' : ℤ}

@[simp] theorem rational_finite : rational (finite negative m e) = signed negative (m * 2 ^ e) := by
  rcases Nat.eq_zero_or_pos m with rfl | hm
  · rw [Nat.cast_zero, zero_mul, signed_zero]
    rfl
  · rw [finite_of_pos _ hm]
    cases negative <;> rfl

@[simp] theorem rational_infinity :
    rational (.infinity (sign negative)) = signed negative single.limit := by
  cases negative <;> rfl

/-- Mantissas and exponents of numbers are compared exponent first. -/
theorem canonical_lt_iff (h : single.Canonical m e) (h' : single.Canonical m' e') :
    (m * 2 ^ e : ℚ) < m' * 2 ^ e' ↔ e < e' ∨ e = e' ∧ m < m' := by
  have hless {m m' : ℕ} {e e' : ℤ} (h : single.Canonical m e) (h' : single.Canonical m' e')
      (hlt : e < e') : (m * 2 ^ e : ℚ) < m' * 2 ^ e' := by
    have hfull := h'.full.resolve_left (h.least.trans_lt hlt).ne'
    have hwidth := h.width
    rw [single_fraction] at hfull hwidth
    have hlow : (2 ^ 23 : ℚ) ≤ m' := by exact_mod_cast hfull
    have hhigh : (m : ℚ) < 2 * 2 ^ 23 := by exact_mod_cast hwidth
    calc (m * 2 ^ e : ℚ) < 2 * 2 ^ 23 * 2 ^ e := by gcongr
      _ = 2 ^ 23 * 2 ^ (e + 1) := by
        rw [zpow_add₀ two_ne_zero, zpow_one]
        ring
      _ ≤ 2 ^ 23 * 2 ^ e' := by
        gcongr
        · exact one_le_two
        · omega
      _ ≤ m' * 2 ^ e' := by gcongr
  rcases lt_trichotomy e e' with hlt | rfl | hgt
  · exact iff_of_true (hless h h' hlt) (.inl hlt)
  · have hunit : (0 : ℚ) < 2 ^ e := by positivity
    rw [mul_lt_mul_iff_left₀ hunit, Nat.cast_lt]
    omega
  · exact iff_of_false (hless h' h hgt).not_gt (by omega)

/-- Numbers below the limit are those whose bits are below those of infinity. -/
theorem pattern_lt_iff (h : single.Canonical m e) :
    single.pattern m e < single.infinityBits ↔ (m * 2 ^ e : ℚ) < single.limit := by
  have hlimit : single.Canonical (2 ^ 23) 105 := ⟨by decide, by decide, .inr (le_refl _)⟩
  have hvalue : single.limit = ((2 ^ 23 : ℕ) : ℚ) * 2 ^ (105 : ℤ) := by
    rw [limit_single]
    norm_num
  rw [hvalue, canonical_lt_iff h hlimit, pattern, single_infinityBits, single_fraction,
    single_leastExponent]
  obtain ⟨hleast, hwidth, hfull⟩ := h
  rw [single_leastExponent, single_fraction] at *
  split_ifs with hsmall
  · omega
  · omega

end Values

/-! ## Machine numbers -/

section Machine

variable {x y : Float32} {v w : ℚ}

/-- The places of the number line and what they stand for. -/
inductive Placed : ℤ × ℤ × ℤ → ℚ → Prop
  | negativeInfinity : Placed (-2, 0, 0) (-single.limit)
  | negative {m : ℕ} {e : ℤ} (h : single.Canonical m e) (hm : 0 < m)
    (hfinite : (m * 2 ^ e : ℚ) < single.limit) : Placed (-1, -e, -m) (-(m * 2 ^ e))
  | zero : Placed (0, 0, 0) 0
  | positive {m : ℕ} {e : ℤ} (h : single.Canonical m e) (hm : 0 < m)
    (hfinite : (m * 2 ^ e : ℚ) < single.limit) : Placed (1, e, m) (m * 2 ^ e)
  | positiveInfinity : Placed (2, 0, 0) single.limit

namespace Placed

variable {p q : ℤ × ℤ × ℤ}

/-- The part of the line that a place is in. -/
theorem part (h : Placed p v) : p.1 = -2 ∧ v = -single.limit ∨
    p.1 = -1 ∧ -single.limit < v ∧ v < 0 ∨ p.1 = 0 ∧ v = 0 ∨
    p.1 = 1 ∧ 0 < v ∧ v < single.limit ∨ p.1 = 2 ∧ v = single.limit := by
  have hpos {m : ℕ} (hm : 0 < m) (e : ℤ) : (0 : ℚ) < m * 2 ^ e := by
    have : (0 : ℚ) < m := Nat.cast_pos.mpr hm
    positivity
  cases h with
  | negativeInfinity => exact .inl ⟨rfl, rfl⟩
  | negative _ hm hfinite =>
    exact .inr (.inl ⟨rfl, neg_lt_neg hfinite, neg_neg_of_pos (hpos hm _)⟩)
  | zero => exact .inr (.inr (.inl ⟨rfl, rfl⟩))
  | positive _ hm hfinite => exact .inr (.inr (.inr (.inl ⟨rfl, hpos hm _, hfinite⟩)))
  | positiveInfinity => exact .inr (.inr (.inr (.inr ⟨rfl, rfl⟩)))

theorem lt_of_part_lt (h : Placed p v) (h' : Placed q w) (hlt : p.1 < q.1) : v < w := by
  have hlimit := single.limit_pos
  rcases h.part with ⟨hp, hv⟩ | ⟨hp, hv⟩ | ⟨hp, hv⟩ | ⟨hp, hv⟩ | ⟨hp, hv⟩ <;>
  rcases h'.part with ⟨hq, hw⟩ | ⟨hq, hw⟩ | ⟨hq, hw⟩ | ⟨hq, hw⟩ | ⟨hq, hw⟩ <;>
  first
  | omega
  | linarith

/-- The order of places is the order of numbers. -/
theorem before_iff (h : Placed p v) (h' : Placed q w) : LinePlace.Before p q ↔ v < w := by
  rcases lt_trichotomy p.1 q.1 with hlt | heq | hgt
  · exact iff_of_true (.inl hlt) (lt_of_part_lt h h' hlt)
  · cases h <;> cases h' <;> try (dsimp only at heq; omega)
    case negative.negative h _ _ _ _ h' _ _ =>
      rw [neg_lt_neg_iff, canonical_lt_iff h' h]
      dsimp only [LinePlace.Before]
      omega
    case positive.positive h _ _ _ _ h' _ _ =>
      rw [canonical_lt_iff h h']
      dsimp only [LinePlace.Before]
      omega
    all_goals exact iff_of_false (LinePlace.Before.irrefl _) (lt_irrefl _)
  · refine iff_of_false (fun hbefore => ?_) (lt_of_part_lt h' h hgt).not_gt
    unfold LinePlace.Before at hbefore
    omega

end Placed

/-- A machine number comes to no number, an infinity or a finite number in canonical parts. -/
theorem unpack_cases (x : Float32) : x.toModel.unpack = .notANumber ∨
    (∃ negative, x.toModel.unpack = .infinity (sign negative)) ∨
    ∃ negative m e, single.Canonical m e ∧ single.pattern m e < single.infinityBits ∧
      x.toModel.unpack = finite negative m e := by
  by_cases hfinite : x.isFinite = true
  · obtain ⟨negative, m, e, hdecode⟩ := (isFinite_iff x).mp hfinite
    obtain ⟨hcanonical, hpattern, _⟩ := pattern_of_decode (toNat_lt x.toBits) hdecode
    exact .inr (.inr ⟨negative, m, e, hcanonical, hpattern, unpack_of_decode hdecode⟩)
  · change ¬x.toModel.unpack.isFinite = true at hfinite
    cases hx : x.toModel.unpack with
    | notANumber => exact .inl rfl
    | infinity s =>
      cases s
      · exact .inr (.inl ⟨true, rfl⟩)
      · exact .inr (.inl ⟨false, rfl⟩)
    | zero | finite => exact absurd (by rw [hx]; rfl) hfinite

theorem placed (hx : x.toModel.unpack ≠ .notANumber) :
    ∃ p, LinePlace.of? x.toModel.unpack = some p ∧ Placed p (toRat x) := by
  unfold toRat
  rcases unpack_cases x with h | ⟨negative, h⟩ | ⟨negative, m, e, hcanonical, hpattern, h⟩
  · exact absurd h hx
  · rw [h]
    cases negative
    · exact ⟨_, rfl, .positiveInfinity⟩
    · exact ⟨_, rfl, .negativeInfinity⟩
  · rw [h]
    rcases Nat.eq_zero_or_pos m with rfl | hm
    · exact ⟨_, rfl, .zero⟩
    · have hfinite := (pattern_lt_iff hcanonical).mp hpattern
      rw [finite_of_pos _ hm]
      cases negative
      · exact ⟨_, rfl, .positive hcanonical hm hfinite⟩
      · exact ⟨_, rfl, .negative hcanonical hm hfinite⟩

theorem lt_iff (hx : x.toModel.unpack ≠ .notANumber) (hy : y.toModel.unpack ≠ .notANumber) :
    x < y ↔ toRat x < toRat y := by
  obtain ⟨p, hp, hplaced⟩ := placed hx
  obtain ⟨q, hq, hplaced'⟩ := placed hy
  rw [← hplaced.before_iff hplaced']
  have hplaces := LinePlace.lt_iff x.toModel.unpack y.toModel.unpack
  rw [hp, hq] at hplaces
  refine Iff.trans ⟨of_decide_eq_true, decide_eq_true⟩ (hplaces.trans ?_)
  simp

theorem isFinite_iff_abs (hx : x.toModel.unpack ≠ .notANumber) :
    x.isFinite = true ↔ |toRat x| < single.limit := by
  unfold toRat
  change x.toModel.unpack.isFinite = true ↔ _
  rcases unpack_cases x with h | ⟨negative, h⟩ | ⟨negative, m, e, hcanonical, hpattern, h⟩
  · exact absurd h hx
  · rw [h, rational_infinity]
    refine iff_of_false Bool.false_ne_true ?_
    rw [abs_signed, abs_of_pos single.limit_pos]
    exact lt_irrefl _
  · rw [h, rational_finite]
    refine iff_of_true ?_ ?_
    · rw [finite]
      split_ifs <;> rfl
    · rw [abs_signed, abs_of_nonneg (by positivity)]
      exact (pattern_lt_iff hcanonical).mp hpattern

/-- A machine number that is a number rounded. -/
structure Rounds (x : Float32) (v : ℚ) : Prop where
  number : x.toModel.unpack ≠ .notANumber
  toRat_eq : toRat x = single.nearest v

/-- Parts put together and taken apart again. -/
def repack (u : UnpackedFloat) : UnpackedFloat :=
  UnpackedFloat.unpack Format.binary32 (UnpackedFloat.pack Format.binary32 u)

theorem repack_finite {negative : Bool} {m : ℕ} {e : ℤ} (h : single.Canonical m e)
    (hpattern : single.pattern m e < single.infinityBits) :
    repack (finite negative m e) = finite negative m e := by
  apply unpack_of_decode
  rw [toNat_pack negative h hpattern]
  exact decode_pattern negative h hpattern

theorem repack_overflow {negative : Bool} {m : ℕ} {e : ℤ} (h : single.Canonical m e)
    (hpattern : single.infinityBits ≤ single.pattern m e) :
    repack (finite negative m e) = .infinity (sign negative) := by
  obtain ⟨hleast, hwidth, _⟩ := h
  rw [pattern, single_fraction, single_leastExponent, single_infinityBits] at *
  have hm : 2 ^ 23 ≤ m := by
    by_contra hsmall
    rw [if_pos (by omega)] at hpattern
    omega
  rw [if_neg (by omega)] at hpattern
  rw [finite_of_pos _ (by omega), repack, UnpackedFloat.pack, exponentBias_eq]
  dsimp only
  rw [if_pos (by norm_num; omega)]
  cases negative <;> rfl

/-- Putting the parts of a rounded number together makes it infinite if it is too large. -/
theorem rational_repack {u : UnpackedFloat} (h : Rounded u v) :
    repack u ≠ .notANumber ∧ rational (repack u) = single.nearest v := by
  obtain ⟨negative, m, e, hcanonical, rfl, hround⟩ := h
  have hsize : |single.round v| = m * 2 ^ e := by
    rw [hround, abs_signed, abs_of_nonneg (by positivity)]
  rcases lt_or_ge (single.pattern m e) single.infinityBits with hless | hmore
  · have hlimit := (pattern_lt_iff hcanonical).mp hless
    rw [repack_finite hcanonical hless, rational_finite,
      single.nearest_of_abs_le (hsize.trans_le hlimit.le), hround]
    refine ⟨fun hnan => ?_, rfl⟩
    rw [finite] at hnan
    split_ifs at hnan
  · have hlimit := not_lt.mp (mt (pattern_lt_iff hcanonical).mpr (not_lt.mpr hmore))
    rw [repack_overflow hcanonical hmore, rational_infinity]
    refine ⟨fun hnan => UnpackedFloat.noConfusion hnan, ?_⟩
    cases negative
    · exact (single.nearest_of_limit_le (hround ▸ hlimit)).symm
    · exact (single.nearest_of_le_neg_limit (hround ▸ neg_le_neg hlimit)).symm

/-- A finite number in parts. -/
theorem unpack_of_isFinite (h : x.isFinite = true) : ∃ negative m e, single.Canonical m e ∧
    x.toModel.unpack = finite negative m e ∧ toRat x = signed negative (m * 2 ^ e) := by
  obtain ⟨negative, m, e, hdecode⟩ := (isFinite_iff x).mp h
  have hunpack := unpack_of_decode hdecode
  exact ⟨negative, m, e, (pattern_of_decode (toNat_lt x.toBits) hdecode).1, hunpack,
    (congrArg rational hunpack).trans rational_finite⟩

theorem Rounds.of_rounded {u : UnpackedFloat} (h : Rounded u v)
    (hx : x.toModel.unpack = repack u) : Rounds x v := by
  obtain ⟨hnumber, hvalue⟩ := rational_repack h
  exact ⟨hx ▸ hnumber, (congrArg rational hx).trans hvalue⟩

theorem rounds_of_parts (f : UnpackedFloat → UnpackedFloat → UnpackedFloat) (g : ℚ → ℚ → ℚ)
    (hparts : ∀ {negative negative' : Bool} {m m' : ℕ} {e e' : ℤ},
      single.Canonical m e → single.Canonical m' e' →
        Rounded (f (finite negative m e) (finite negative' m' e'))
          (g (signed negative (m * 2 ^ e)) (signed negative' (m' * 2 ^ e'))))
    (hx : x.isFinite = true) (hy : y.isFinite = true) {z : Float32}
    (hz : z.toModel.unpack = repack (f x.toModel.unpack y.toModel.unpack)) :
    Rounds z (g (toRat x) (toRat y)) := by
  obtain ⟨_, _, _, hcanonical, hunpack, hvalue⟩ := unpack_of_isFinite hx
  obtain ⟨_, _, _, hcanonical', hunpack', hvalue'⟩ := unpack_of_isFinite hy
  rw [hunpack, hunpack'] at hz
  rw [hvalue, hvalue']
  exact .of_rounded (hparts hcanonical hcanonical') hz

theorem rounds_add (hx : x.isFinite = true) (hy : y.isFinite = true) :
    Rounds (x + y) (toRat x + toRat y) :=
  rounds_of_parts _ (· + ·) add_rounded hx hy rfl

theorem rounds_sub (hx : x.isFinite = true) (hy : y.isFinite = true) :
    Rounds (x - y) (toRat x - toRat y) :=
  rounds_of_parts _ (· - ·) sub_rounded hx hy rfl

theorem rounds_mul (hx : x.isFinite = true) (hy : y.isFinite = true) :
    Rounds (x * y) (toRat x * toRat y) :=
  rounds_of_parts _ (· * ·) mul_rounded hx hy rfl

theorem rounds_div (hx : x.isFinite = true) (hy : y.isFinite = true) (hzero : toRat y ≠ 0) :
    Rounds (x / y) (toRat x / toRat y) := by
  obtain ⟨_, _, _, _, hunpack, hvalue⟩ := unpack_of_isFinite hx
  obtain ⟨_, m', _, _, hunpack', hvalue'⟩ := unpack_of_isFinite hy
  have hm' : 0 < m' := by
    by_contra hnone
    rw [hvalue', Nat.eq_zero_of_not_pos hnone, Nat.cast_zero, zero_mul, signed_zero] at hzero
    exact hzero rfl
  rw [hvalue, hvalue']
  refine .of_rounded (div_rounded hm') ?_
  rw [← hunpack, ← hunpack']
  rfl

/-- What a number with a plus sign stands for is found from its bits. -/
theorem toRat_of_fraction {n d : ℕ} (hbits : x.toBits.toNat < single.infinityBits)
    (h : single.fraction x.toBits.toNat = (n, d)) : x.isFinite = true ∧ toRat x = n / d := by
  have hdecode := decode_of_lt single false hbits
  rw [signBits_false, Nat.zero_add] at hdecode
  obtain ⟨m, e, hfinite⟩ : ∃ m e, single.decode x.toBits.toNat = .finite false m e := by
    rw [hdecode]
    split_ifs <;> exact ⟨_, _, rfl⟩
  rw [fraction, hfinite] at h
  have hratio := scale_ratio m 1 e
  rw [show scale m 1 e = (n, d) from h, Nat.cast_one, div_one] at hratio
  refine ⟨(isFinite_iff x).mpr ⟨false, m, e, hfinite⟩, ?_⟩
  exact ((congrArg rational (unpack_of_decode hfinite)).trans rational_finite).trans hratio.symm

/-! ## Results that fit -/

/-- The largest finite number. -/
def largest : ℚ :=
  (2 ^ 24 - 1) * 2 ^ 104

theorem round_largest : single.round largest = largest := by
  have hself := single.round_eq_self (n := 2 ^ 24 - 1) (e := 104) (by decide) (by decide)
  norm_num at hself
  rw [largest]
  norm_num [hself]

theorem largest_lt_limit : largest < single.limit := by
  rw [largest, limit_single]
  norm_num

theorem abs_toRat_le_largest (hx : x.isFinite = true) : |toRat x| ≤ largest := by
  obtain ⟨negative, m, e, hdecode⟩ := (isFinite_iff x).mp hx
  obtain ⟨⟨_, hwidth, _⟩, hpattern, _⟩ := pattern_of_decode (toNat_lt x.toBits) hdecode
  have hvalue : toRat x = signed negative (m * 2 ^ e) :=
    (congrArg rational (unpack_of_decode hdecode)).trans rational_finite
  have hmost : e ≤ 104 := by
    rw [pattern, single_infinityBits, single_fraction, single_leastExponent] at *
    split_ifs at hpattern <;> omega
  have hnonneg : (0 : ℚ) ≤ m * 2 ^ e := by positivity
  rw [single_fraction] at hwidth
  have hm : (m : ℚ) ≤ 2 ^ 24 - 1 := by
    have : ((m + 1 : ℕ) : ℚ) ≤ 2 * 2 ^ 23 := by exact_mod_cast hwidth
    push_cast at this
    linarith
  calc |toRat x| = m * 2 ^ e := by
        rw [hvalue, abs_signed, abs_of_nonneg hnonneg]
    _ ≤ (2 ^ 24 - 1) * 2 ^ e := by gcongr
    _ ≤ (2 ^ 24 - 1) * 2 ^ (104 : ℤ) := by
      gcongr
      exact one_le_two
    _ = largest := by
      rw [largest]
      norm_num

theorem number_of_isFinite (hx : x.isFinite = true) : x.toModel.unpack ≠ .notANumber := by
  intro hnan
  change x.toModel.unpack.isFinite = true at hx
  rw [hnan] at hx
  cases hx

/-- A finite number is not changed by rounding. -/
theorem nearest_toRat (hx : x.isFinite = true) : single.nearest (toRat x) = toRat x := by
  obtain ⟨negative, m, e, hcanonical, _, hvalue⟩ := unpack_of_isFinite hx
  have hself : single.round (toRat x) = toRat x := by
    have hround := single.round_eq_self (n := m)
      (by rw [Nat.abs_cast]; exact_mod_cast hcanonical.width) hcanonical.least
    rw [hvalue, round_signed]
    exact congrArg (signed negative) hround
  have hless := (isFinite_iff_abs (number_of_isFinite hx)).mp hx
  rw [single.nearest_of_abs_le (by rw [hself]; exact hless.le), hself]

/-- A result that is not negative and not past the largest number is finite. -/
theorem Rounds.of_le_largest (h : Rounds x v) (hv : 0 ≤ v) (hle : v ≤ largest) :
    x.isFinite = true ∧ toRat x = single.round v := by
  have hlow := single.round_nonneg hv
  have hhigh := single.round_mono hle
  rw [round_largest] at hhigh
  have hless := hhigh.trans_lt largest_lt_limit
  have hvalue := h.toRat_eq
  rw [single.nearest_of_abs_le (by rw [abs_of_nonneg hlow]; exact hless.le)] at hvalue
  refine ⟨(isFinite_iff_abs h.number).mpr ?_, hvalue⟩
  rwa [hvalue, abs_of_nonneg hlow]

/-! ## Whole numbers -/

theorem toRat_zero : (0.0 : Float32).isFinite = true ∧ toRat 0.0 = 0 := by
  have hzero : single.fraction (0.0 : Float32).toBits.toNat = (0, 2 ^ 149) := by decide +kernel
  simpa using toRat_of_fraction (by decide +kernel) hzero

/-- The scale of a decimal without places. -/
theorem toRat_one : (Float32.ofBits 1065353216).isFinite = true ∧
    toRat (Float32.ofBits 1065353216) = 1 := by
  have hone : single.fraction (Float32.ofBits 1065353216).toBits.toNat = (2 ^ 23, 2 ^ 23) := by
    decide +kernel
  obtain ⟨hfinite, hvalue⟩ := toRat_of_fraction (by decide +kernel) hone
  exact ⟨hfinite, hvalue.trans (by norm_num)⟩

theorem round_natCast {n : ℕ} (hn : n < 2 ^ 24) : single.round n = n := by
  have hself := single.round_eq_self (n := n) (e := 0)
    (by rw [Nat.abs_cast]; exact_mod_cast hn) (by decide)
  rwa [zpow_zero, mul_one] at hself

theorem natCast_le_largest {n : ℕ} (hn : n < 2 ^ 128 - 2 ^ 104) : (n : ℚ) ≤ largest := by
  have hcast : (n : ℚ) ≤ (2 ^ 128 - 2 ^ 104 : ℕ) := by exact_mod_cast hn.le
  refine hcast.trans ?_
  rw [largest]
  norm_num

/-- The parts of a whole number that is read as a decimal are those of the number, rounded. -/
theorem ofScientific_rounded {n : ℕ} (hn : 0 < n) :
    Rounded (UnpackedFloat.ofScientific Format.binary32 n 0) n := by
  have hn₀ : (0 : ℚ) < n := Nat.cast_pos.mpr hn
  have hvalue : (n : ℚ) = (n <<< 24 * 10 ^ 0 : ℕ) * 2 ^ (-24 : ℤ) := by
    rw [Nat.shiftLeft_eq]
    push_cast
    rw [zpow_neg, mul_one]
    field_simp
    norm_num
  have hwide : 2 ^ 23 ≤ n <<< 24 * 10 ^ 0 := by
    rw [Nat.shiftLeft_eq]
    omega
  have hle := le_roundExponent (e := -24) (.inl hwide)
  rw [← hvalue] at hle
  have hbits : Format.binary32.mantissaBits = 24 := rfl
  have hunit : -((24 : ℕ) : ℤ) + 0 = -24 := rfl
  have hsmall : ¬(0 : ℤ) < -(2 ^ Format.binary32.exponentBits + (n.log2 : ℤ)) := by
    have hpos : (0 : ℤ) < 2 ^ Format.binary32.exponentBits := by positivity
    omega
  rw [UnpackedFloat.ofScientific, dif_neg hn.ne', if_neg (by decide), if_neg hsmall,
    if_pos (le_refl _), UnpackedFloat.mul, Int.toNat_zero, hbits, hunit]
  refine roundWithAccuracy_rounded false hn₀ (.inl (by omega)) hle ?_
  rw [hvalue, mul_div_cancel_right₀ _ (zpow_ne_zero _ two_ne_zero)]
  exact .exact _

/-- A whole number is rounded once. The small ones are converted as words, the others are read as
decimals. -/
theorem rounds_natCast (n : ℕ) : Rounds (n : Float32) n := by
  change Rounds (Float32.ofScientific n false 0) n
  rw [Float32.ofScientific]
  split
  next hsmall =>
    obtain ⟨hfew, -⟩ := hsmall
    have hword : (n.toUInt64).toNat = n := Nat.mod_eq_of_lt (by omega)
    have hcast := normalize_rounded n 0 .positive
    rw [zpow_zero, mul_one, Int.cast_natCast] at hcast
    have hexact : Rounds n.toUInt64.toFloat32 n := by
      refine .of_rounded hcast ?_
      change repack (UnpackedFloat.ofNat Format.binary32 n.toUInt64.toNat) = _
      rw [hword]
      rfl
    obtain ⟨hfinite, hvalue⟩ :=
      hexact.of_le_largest (Nat.cast_nonneg n) (natCast_le_largest (by omega))
    have hproduct := rounds_mul hfinite toRat_one.1
    rwa [hvalue, toRat_one.2, mul_one, round_natCast (by omega)] at hproduct
  next hlarge =>
    have hn : 0 < n := by omega
    exact .of_rounded (ofScientific_rounded hn) rfl

/-- Whole numbers up to a point are met. -/
theorem toRat_natCast {n : ℕ} (hn : n < 2 ^ 24) :
    (n : Float32).isFinite = true ∧ toRat (n : Float32) = n := by
  have hrounds := (rounds_natCast n).of_le_largest (Nat.cast_nonneg n)
    (natCast_le_largest (by omega))
  rwa [round_natCast hn] at hrounds

/-! ## What is not finite stays so -/

section Unpacked

variable {f : Format} {u w : UnpackedFloat}

theorem isFinite_of_repack (h : (repack u).isFinite = true) : u.isFinite = true := by
  cases u with
  | notANumber => exact h
  | infinity s => cases s <;> exact h
  | zero | finite => rfl

theorem add_isFinite (h : (UnpackedFloat.add f u w).isFinite = true) :
    u.isFinite = true ∧ w.isFinite = true := by
  cases u <;> cases w <;> try exact ⟨rfl, rfl⟩
  case infinity.infinity s s' => cases s <;> cases s' <;> cases h
  all_goals cases h

theorem mul_isFinite (h : (UnpackedFloat.mul f u w).isFinite = true) :
    u.isFinite = true ∧ w.isFinite = true := by
  cases u <;> cases w <;> first | exact ⟨rfl, rfl⟩ | cases h

theorem div_isFinite (h : (UnpackedFloat.div f u w).isFinite = true) : u.isFinite = true := by
  cases u <;> cases w <;> first | rfl | cases h

theorem sub_self_of_isFinite (h : u.isFinite = true) :
    UnpackedFloat.sub f u u = .zero .positive := by
  cases u with
  | notANumber | infinity => cases h
  | zero s => cases s <;> rfl
  | finite s m e hm =>
    rw [UnpackedFloat.sub]
    dsimp only
    rw [sub_self]
    rfl

end Unpacked

theorem isFinite_of_add (h : (x + y).isFinite = true) : x.isFinite = true ∧ y.isFinite = true :=
  add_isFinite (isFinite_of_repack h)

theorem isFinite_of_mul (h : (x * y).isFinite = true) : x.isFinite = true ∧ y.isFinite = true :=
  mul_isFinite (isFinite_of_repack h)

theorem isFinite_of_div (h : (x / y).isFinite = true) : x.isFinite = true :=
  div_isFinite (isFinite_of_repack h)

/-- A finite number cancels itself. -/
theorem cancel_of_isFinite (h : x.isFinite = true) : Scalar.isFinite x = true := by
  change UnpackedFloat.beq (repack (UnpackedFloat.sub Format.binary32 x.toModel.unpack
    x.toModel.unpack)) _ = true
  rw [sub_self_of_isFinite h]
  rfl

end Machine

end Float32

end ShapeGrammar

import ShapeGrammar.Proofs.Number.Bits
import ShapeGrammar.Proofs.Number.Rounding

/-!
# Operations on the parts of machine numbers

A machine number is operated on in three parts: a sign, a mantissa and an exponent. What an
operation on finite numbers leaves is the exact result, rounded: bits that a mantissa loses are
kept as two, which tell how to round. Main statements: `add_rounded`, `sub_rounded`, `mul_rounded`,
`div_rounded`.
-/
namespace ShapeGrammar

namespace Float32

open Float.Model Float.Model.UnpackedFloat BinaryFormat

/-! ## The bits behind a mantissa -/

/-- What the next bit and all that follow it say about the rest of a number. -/
def Remainder : (next others : Bool) → ℚ → Prop
  | false, false, r => r = 0
  | false, true, r => 0 < r ∧ r < 1 / 2
  | true, false, r => r = 1 / 2
  | true, true, r => 1 / 2 < r ∧ r < 1

def Represents (em : ExtendedMantissa) (x : ℚ) : Prop :=
  Remainder em.roundBit em.stickyBit (x - em.mantissa)

namespace Represents

variable {em : ExtendedMantissa} {x : ℚ}

theorem bounds (h : Represents em x) : (em.mantissa : ℚ) ≤ x ∧ x < em.mantissa + 1 := by
  obtain ⟨m, next, others⟩ := em
  unfold Represents at h
  cases next <;> cases others <;> simp only [Remainder] at h ⊢ <;> constructor <;> linarith

theorem roundedMantissa_eq (h : Represents em x) : (em.roundedMantissa : ℤ) = halfEven x := by
  obtain ⟨m, next, others⟩ := em
  unfold Represents at h
  symm
  cases next <;> cases others <;> dsimp only [Remainder] at h
  case false.false =>
    exact halfEven_eq_of_lt (k := m) (by push_cast; linarith) (by push_cast; linarith)
  case false.true =>
    exact halfEven_eq_of_lt (k := m) (by push_cast; linarith) (by push_cast; linarith)
  case true.false =>
    refine halfEven_eq (k := (m + m % 2 : ℕ)) ?_ (.inl (by omega))
    have hparity : m % 2 = 0 ∨ m % 2 = 1 := by omega
    rw [abs_le]
    rcases hparity with hm | hm <;> rw [hm] <;> push_cast <;> constructor <;> linarith
  case true.true =>
    exact halfEven_eq_of_lt (k := (m + 1 : ℕ)) (by push_cast; linarith) (by push_cast; linarith)

theorem shiftRightOne (h : Represents em x) : Represents em.shiftRightOne (x / 2) := by
  obtain ⟨m, next, others⟩ := em
  have hm : (m : ℚ) = 2 * (m / 2 : ℕ) + (m % 2 : ℕ) := by exact_mod_cast (Nat.div_add_mod m 2).symm
  have hparity : m % 2 = 0 ∨ m % 2 = 1 := by omega
  unfold Represents ExtendedMantissa.shiftRightOne at *
  rcases hparity with hbit | hbit <;> rw [hbit] at hm ⊢ <;> push_cast at hm <;>
    cases next <;> cases others <;>
    simp only [Remainder, Nat.reduceBNe, Bool.or_false, Bool.or_true] at h ⊢
  case inl.false.false | inr.false.false => linarith
  all_goals constructor <;> linarith

theorem shiftRight (h : Represents em x) (n : ℕ) : Represents (em >>> n) (x / 2 ^ n) := by
  change Represents (n.repeat ExtendedMantissa.shiftRightOne em) _
  induction n with
  | zero => simpa [Nat.repeat] using h
  | succ n ih =>
    rw [pow_succ, ← div_div]
    exact ih.shiftRightOne

theorem exact (m : ℕ) : Represents (.ofMantissaAndAccuracy m .exact) m :=
  sub_self (m : ℚ)

/-- What is left of a division tells how far the quotient is from a whole number. -/
theorem quotient (n : ℕ) {d : ℕ} (hd : 0 < d) :
    Represents (.ofMantissaAndAccuracy (n / d) (accuracyOfFraction (n % d) d)) (n / d) := by
  have hd' : (0 : ℚ) < d := Nat.cast_pos.mpr hd
  have hrest : (n : ℚ) / d - (n / d : ℕ) = (n % d : ℕ) / d := by
    have hn : (n : ℚ) = d * (n / d : ℕ) + (n % d : ℕ) := by
      exact_mod_cast (Nat.div_add_mod n d).symm
    rw [eq_div_iff hd'.ne', sub_mul, div_mul_cancel₀ _ hd'.ne']
    linarith
  have hless : n % d < d := Nat.mod_lt n hd
  unfold Represents accuracyOfFraction
  generalize n % d = r at hrest hless ⊢
  have hless' : (r : ℚ) < d := by exact_mod_cast hless
  split_ifs with hzero
  · rw [hzero, Nat.cast_zero, zero_div] at hrest
    exact hrest
  have hpos : (0 : ℚ) < r := Nat.cast_pos.mpr (Nat.pos_of_ne_zero hzero)
  rcases hcompare : compare (2 * r) d with _ | _ | _
  · have : (2 * r : ℚ) < d := by exact_mod_cast Nat.compare_eq_lt.mp hcompare
    refine ⟨hrest ▸ div_pos hpos hd', hrest ▸ ?_⟩
    rw [div_lt_iff₀ hd']
    linarith
  · have : (2 * r : ℚ) = d := by exact_mod_cast Nat.compare_eq_eq.mp hcompare
    refine hrest.trans ?_
    rw [div_eq_iff hd'.ne']
    linarith
  · have : (d : ℚ) < 2 * r := by exact_mod_cast Nat.compare_eq_gt.mp hcompare
    refine ⟨hrest ▸ ?_, hrest ▸ (div_lt_one hd').mpr hless'⟩
    rw [lt_div_iff₀ hd']
    linarith

end Represents

/-! ## Units -/

theorem targetExponent_eq (t : ℤ) : Format.binary32.targetExponent t = max (t - 24) (-149) :=
  rfl

theorem roundExponent_single {v : ℚ} (hv : 0 < v) {e : ℤ} (hleast : -149 ≤ e)
    (hhigh : v < 2 ^ (e + 24)) (hlow : e = -149 ∨ (2 : ℚ) ^ (e + 23) ≤ v) :
    single.roundExponent v = e := by
  rw [← abs_of_pos hv] at hhigh hlow
  exact single.roundExponent_eq hv.ne' (by rwa [single_leastExponent])
    (by rwa [show e + (single.fractionBits : ℤ) + 1 = e + 24 by change e + 23 + 1 = _; ring])
    (by rwa [single_leastExponent])

/-- The unit that a number is rounded in is found from the leading bit of its mantissa. -/
theorem targetExponent_totalExponent {v : ℚ} (hv : 0 < v) {m : ℕ} {e : ℤ}
    (hm : 0 < m ∨ e ≤ -149) (hlow : m * 2 ^ e ≤ v) (hhigh : v < (m + 1) * 2 ^ e) :
    Format.binary32.targetExponent (totalExponent m e) = single.roundExponent v := by
  rw [targetExponent_eq, totalExponent]
  symm
  have hunit : (0 : ℚ) < 2 ^ e := by positivity
  rcases Nat.eq_zero_or_pos m with rfl | hpos
  · have he : e ≤ -149 := hm.resolve_left (lt_irrefl 0)
    rw [max_eq_right (by rw [Nat.log2_zero]; omega)]
    refine roundExponent_single hv (le_refl _) ?_ (.inl rfl)
    calc v < 2 ^ e := by simpa using hhigh
      _ ≤ 2 ^ ((-149 : ℤ) + 24) := zpow_le_zpow_right₀ one_le_two (by omega)
  · refine roundExponent_single hv (le_max_right _ _) ?_ ?_
    · have hlog : ((m + 1 : ℕ) : ℚ) ≤ (2 ^ (m.log2 + 1) : ℕ) := by
        exact_mod_cast Nat.lt_log2_self
      calc v < (m + 1) * 2 ^ e := hhigh
        _ ≤ 2 ^ ((m.log2 + 1 : ℕ) : ℤ) * 2 ^ e := by
          rw [zpow_natCast]
          push_cast at hlog
          gcongr
        _ = 2 ^ ((m.log2 + 1 : ℕ) + e) := (zpow_add₀ two_ne_zero _ _).symm
        _ ≤ _ := zpow_le_zpow_right₀ one_le_two (by push_cast; omega)
    · refine (max_choice _ _).symm.imp id fun hmax => ?_
      have hlog : ((2 ^ m.log2 : ℕ) : ℚ) ≤ m := by
        exact_mod_cast Nat.log2_self_le hpos.ne'
      calc (2 : ℚ) ^ (max ((m.log2 : ℤ) + 1 + e - 24) (-149) + 23) = 2 ^ ((m.log2 : ℤ) + e) := by
            rw [hmax]
            congr 1
            ring
        _ = 2 ^ m.log2 * 2 ^ e := by rw [zpow_add₀ two_ne_zero, zpow_natCast]
        _ ≤ m * 2 ^ e := by
          push_cast at hlog
          gcongr
        _ ≤ v := hlow

/-! ## One rounding -/

/-- The opposite of a number if there is a minus sign. -/
def signed (negative : Bool) (v : ℚ) : ℚ :=
  if negative then -v else v

/-- A finite number, taken apart, that is another one rounded. It may still be too large to be put
together. -/
def Rounded (u : UnpackedFloat) (v : ℚ) : Prop :=
  ∃ negative m e, single.Canonical m e ∧ u = finite negative m e ∧
    single.round v = signed negative (m * 2 ^ e)

theorem shift_of_lt {r : ℕ} (hr : r < 2 ^ 24) {t : ℤ} (ht : -149 ≤ t) :
    shiftToTargetExponent Format.binary32 r t .exact = (⟨r, false, false⟩, t) := by
  have hlog : r.log2 ≤ 23 := by
    rcases Nat.eq_zero_or_pos r with rfl | hpos
    · rw [Nat.log2_zero]
      omega
    · have := (Nat.log2_lt hpos.ne').mpr hr
      omega
  rw [shiftToTargetExponent, targetExponent_eq, totalExponent, shiftToExponent]
  have hnone : (max ((r.log2 : ℤ) + 1 + t - 24) (-149) - t).toNat = 0 := by omega
  rw [hnone]
  exact congrArg (Prod.mk _) (Int.add_zero t)

theorem shift_carry {t : ℤ} (ht : -149 ≤ t) :
    shiftToTargetExponent Format.binary32 (2 ^ 24) t .exact = (⟨2 ^ 23, false, false⟩, t + 1) := by
  rw [shiftToTargetExponent, targetExponent_eq, totalExponent, Nat.log2_two_pow, shiftToExponent]
  have hone : (max (((24 : ℕ) : ℤ) + 1 + t - 24) (-149) - t).toNat = 1 := by omega
  rw [hone]
  rfl

/-- A rounded mantissa is made canonical by a second shift, which loses nothing. -/
theorem exists_canonical_shift {r : ℕ} {t : ℤ} (hr : r ≤ 2 ^ 24) (ht : -149 ≤ t)
    (hfull : t = -149 ∨ 2 ^ 23 ≤ r) : ∃ em e,
      shiftToTargetExponent Format.binary32 r t .exact = (em, e) ∧
        single.Canonical em.mantissa e ∧ (em.mantissa * 2 ^ e : ℚ) = r * 2 ^ t := by
  rcases hr.lt_or_eq with hless | rfl
  · exact ⟨_, _, shift_of_lt hless ht, ⟨ht, hless, hfull⟩, rfl⟩
  · refine ⟨_, _, shift_carry ht, ⟨?_, by decide, .inr (le_refl _)⟩, ?_⟩
    · rw [single_leastExponent]
      omega
    · rw [zpow_add₀ two_ne_zero, zpow_one]
      push_cast
      ring

theorem mantissa_ofMantissaAndAccuracy (m : ℕ) (accuracy : Accuracy) :
    (ExtendedMantissa.ofMantissaAndAccuracy m accuracy).mantissa = m := by
  rcases accuracy with _ | _ | _ | _ <;> rfl

theorem dite_eq_finite (negative : Bool) (m : ℕ) (e : ℤ) :
    (if h : m = 0 then .zero (sign negative)
      else .finite (sign negative) m e (Nat.pos_of_ne_zero h)) = finite negative m e := by
  rcases Nat.eq_zero_or_pos m with rfl | hpos
  · rfl
  · rw [dif_neg hpos.ne', finite_of_pos]

theorem round_signed (negative : Bool) (v : ℚ) :
    single.round (signed negative v) = signed negative (single.round v) := by
  cases negative
  · rfl
  · exact single.round_neg v

/-- The mantissa that a number is rounded to may be one above full width. -/
theorem halfEven_bounds {v : ℚ} (hv : 0 < v) :
    halfEven (v / 2 ^ single.roundExponent v) ≤ 2 ^ 24 ∧
      (single.roundExponent v = -149 ∨
        2 ^ 23 ≤ halfEven (v / 2 ^ single.roundExponent v)) := by
  have hunit : (0 : ℚ) < 2 ^ single.roundExponent v := by positivity
  have hhigh := single.abs_lt_zpow v
  have hlow := single.zpow_le_abs hv.ne'
  rw [abs_of_pos hv, single_leastExponent] at hlow
  rw [abs_of_pos hv, add_assoc] at hhigh
  constructor
  · rw [← halfEven_intCast (2 ^ 24)]
    apply halfEven_mono
    rw [div_le_iff₀ hunit]
    refine hhigh.le.trans_eq ?_
    rw [zpow_add₀ two_ne_zero, mul_comm]
    norm_num [single]
  · refine hlow.imp_right fun hlow => ?_
    rw [← halfEven_intCast (2 ^ 23)]
    apply halfEven_mono
    rw [le_div_iff₀ hunit]
    refine le_trans (le_of_eq ?_) hlow
    rw [zpow_add₀ two_ne_zero, mul_comm]
    norm_num [single]

/-- The first shift leaves the number counted in the unit that it is rounded in. -/
theorem exists_first_shift {v : ℚ} (hv : 0 < v) {m : ℕ} {e : ℤ} {accuracy : Accuracy}
    (hm : 0 < m ∨ e ≤ -149) (he : e ≤ single.roundExponent v)
    (h : Represents (.ofMantissaAndAccuracy m accuracy) (v / 2 ^ e)) : ∃ em,
      shiftToTargetExponent Format.binary32 m e accuracy = (em, single.roundExponent v) ∧
        Represents em (v / 2 ^ single.roundExponent v) := by
  have hunit : (0 : ℚ) < 2 ^ e := by positivity
  obtain ⟨hlow, hhigh⟩ := h.bounds
  rw [mantissa_ofMantissaAndAccuracy, le_div_iff₀ hunit] at hlow
  rw [mantissa_ofMantissaAndAccuracy, div_lt_iff₀ hunit] at hhigh
  have htarget := targetExponent_totalExponent hv hm hlow hhigh
  obtain ⟨n, hn⟩ := Int.le.dest he
  have hshift : (single.roundExponent v - e).toNat = n := by omega
  have hshifted := h.shiftRight n
  rw [div_div, ← zpow_natCast, ← zpow_add₀ two_ne_zero, hn] at hshifted
  refine ⟨_, ?_, hshifted⟩
  rw [shiftToTargetExponent, htarget, shiftToExponent, hshift, ← hn]

theorem roundWithAccuracy_rounded (negative : Bool) {v : ℚ} (hv : 0 < v) {m : ℕ} {e : ℤ}
    {accuracy : Accuracy} (hm : 0 < m ∨ e ≤ -149) (he : e ≤ single.roundExponent v)
    (h : Represents (.ofMantissaAndAccuracy m accuracy) (v / 2 ^ e)) :
    Rounded (roundWithAccuracy Format.binary32 (sign negative) m e accuracy)
      (signed negative v) := by
  obtain ⟨em, hfirst, hem⟩ := exists_first_shift hv hm he h
  obtain ⟨hmost, hfull⟩ := halfEven_bounds hv
  rw [← hem.roundedMantissa_eq] at hmost hfull
  obtain ⟨last, e', hsecond, hcanonical, hvalue⟩ := exists_canonical_shift
    (by exact_mod_cast hmost) (single.leastExponent_le_roundExponent v)
    (hfull.imp_right fun h => by exact_mod_cast h)
  rw [roundWithAccuracy, hfirst]
  dsimp only
  rw [hsecond]
  refine ⟨negative, last.mantissa, e', hcanonical, dite_eq_finite _ _ _, ?_⟩
  rw [round_signed, hvalue, BinaryFormat.round, ← hem.roundedMantissa_eq, Int.cast_natCast]

theorem decreaseExponent_snd (m : ℕ) (e t : ℤ) : (decreaseExponent m e t).2 = min e t := by
  rw [decreaseExponent]
  omega

theorem decreaseExponent_value (m : ℕ) (e t : ℤ) :
    ((decreaseExponent m e t).1 : ℚ) * 2 ^ min e t = m * 2 ^ e := by
  rw [← decreaseExponent_snd m e t, decreaseExponent, Nat.shiftLeft_eq]
  push_cast
  rw [mul_assoc, ← zpow_natCast, ← zpow_add₀ two_ne_zero]
  congr 2
  omega

theorem round_rounded (negative : Bool) {m : ℕ} (hm : 0 < m) (e : ℤ) :
    Rounded (UnpackedFloat.round Format.binary32 (sign negative) m e)
      (signed negative (m * 2 ^ e)) := by
  have hunit : (0 : ℚ) < 2 ^ e := by positivity
  have hm' : (0 : ℚ) < m := Nat.cast_pos.mpr hm
  have hv : (0 : ℚ) < m * 2 ^ e := by positivity
  have htarget := targetExponent_totalExponent hv (.inl hm) (le_refl _) (by linarith)
  rw [UnpackedFloat.round]
  dsimp only
  rw [htarget, decreaseExponent_snd]
  have hvalue := decreaseExponent_value m e (single.roundExponent (m * 2 ^ e))
  have hless := min_le_right e (single.roundExponent (m * 2 ^ e))
  generalize hlower : min e (single.roundExponent (m * 2 ^ e)) = i at *
  generalize (decreaseExponent m e (single.roundExponent (m * 2 ^ e))).1 = k at *
  have hunit' : (0 : ℚ) < 2 ^ i := by positivity
  refine roundWithAccuracy_rounded negative hv (.inl ?_) hless ?_
  · by_contra hzero
    rw [Nat.eq_zero_of_not_pos hzero, Nat.cast_zero, zero_mul] at hvalue
    exact hv.ne hvalue
  · rw [← hvalue, mul_div_cancel_right₀ _ hunit'.ne']
    exact .exact k

theorem rounded_zero (s : Sign) : Rounded (.zero s) 0 := by
  have hcanonical : single.Canonical 0 (-149) := ⟨by decide, by decide, .inl (by decide)⟩
  obtain ⟨negative, rfl⟩ : ∃ negative, s = sign negative := by
    cases s
    · exact ⟨true, rfl⟩
    · exact ⟨false, rfl⟩
  refine ⟨negative, 0, -149, hcanonical, rfl, ?_⟩
  rw [round_zero, Nat.cast_zero, zero_mul]
  cases negative
  · rfl
  · exact neg_zero.symm

theorem normalize_rounded (n e : ℤ) (s : Sign) :
    Rounded (UnpackedFloat.normalize Format.binary32 n e s) (n * 2 ^ e) := by
  rw [UnpackedFloat.normalize]
  rcases hcompare : compare n 0 with _ | _ | _
  · have hneg := Int.compare_eq_lt.mp hcompare
    have := round_rounded true (m := (-n).toNat) (by omega) e
    rwa [signed, if_pos rfl, ← neg_mul, ← Int.cast_natCast, ← Int.cast_neg,
      Int.toNat_of_nonneg (by omega), neg_neg] at this
  · rw [Int.compare_eq_eq.mp hcompare, Int.cast_zero, zero_mul]
    exact rounded_zero s
  · have hpos := Int.compare_eq_gt.mp hcompare
    have := round_rounded false (m := n.toNat) (by omega) e
    rwa [signed, if_neg Bool.false_ne_true, ← Int.cast_natCast,
      Int.toNat_of_nonneg hpos.le] at this

/-! ## Operations on finite numbers -/

theorem le_roundExponent_of_zpow_le {v : ℚ} {i : ℤ} (h : 2 ^ (i + 23) ≤ v) :
    i ≤ single.roundExponent v := by
  have hhigh := (h.trans (le_abs_self v)).trans_lt (single.abs_lt_zpow v)
  have := (zpow_lt_zpow_iff_right₀ one_lt_two).mp hhigh
  have hwidth : (single.fractionBits : ℤ) = 23 := rfl
  omega

/-- A mantissa of full width is counted in a unit no larger than the one it is rounded in. -/
theorem le_roundExponent {m : ℕ} {e : ℤ} (h : 2 ^ 23 ≤ m ∨ e ≤ -149) :
    e ≤ single.roundExponent (m * 2 ^ e) := by
  rcases h with hwide | hleast
  · apply le_roundExponent_of_zpow_le
    rw [zpow_add₀ two_ne_zero, mul_comm]
    have : ((2 ^ 23 : ℕ) : ℚ) ≤ m := by exact_mod_cast hwide
    gcongr
    exact_mod_cast this
  · exact hleast.trans (single.leastExponent_le_roundExponent _)

theorem sign_mul (negative negative' : Bool) :
    sign negative * sign negative' = sign (negative ^^ negative') := by
  cases negative <;> cases negative' <;> rfl

theorem sign_div (negative negative' : Bool) :
    sign negative / sign negative' = sign (negative ^^ negative') := by
  cases negative <;> cases negative' <;> rfl

theorem apply_sign (negative : Bool) (n : ℤ) :
    (((sign negative).apply n : ℤ) : ℚ) = signed negative n := by
  cases negative
  · rfl
  · exact Int.cast_neg n

@[simp] theorem signed_zero (negative : Bool) : signed negative 0 = 0 := by
  cases negative
  · rfl
  · exact neg_zero

@[simp] theorem abs_signed (negative : Bool) (v : ℚ) : |signed negative v| = |v| := by
  cases negative
  · rfl
  · exact abs_neg v

theorem signed_not (negative : Bool) (v : ℚ) : signed (!negative) v = -signed negative v := by
  cases negative
  · rfl
  · exact (neg_neg v).symm

theorem signed_mul (negative : Bool) (v w : ℚ) :
    signed negative v * w = signed negative (v * w) := by
  cases negative
  · rfl
  · exact neg_mul v w

theorem signed_mul_signed (negative negative' : Bool) (v w : ℚ) :
    signed negative v * signed negative' w = signed (negative ^^ negative') (v * w) := by
  cases negative <;> cases negative' <;> simp [signed]

theorem signed_div_signed (negative negative' : Bool) (v w : ℚ) :
    signed negative v / signed negative' w = signed (negative ^^ negative') (v / w) := by
  cases negative <;> cases negative' <;> simp [signed, neg_div, div_neg]

section Operations

variable {negative negative' : Bool} {m m' : ℕ} {e e' : ℤ}

/-- What a finite number stands for needs no rounding. -/
theorem rounded_finite (h : single.Canonical m e) :
    Rounded (finite negative m e) (signed negative (m * 2 ^ e)) := by
  refine ⟨negative, m, e, h, rfl, ?_⟩
  have hself := single.round_eq_self (n := m) (by rw [Nat.abs_cast]; exact_mod_cast h.width) h.least
  rw [Int.cast_natCast] at hself
  rw [round_signed, hself]

@[simp] theorem finite_zero : finite negative 0 e = .zero (sign negative) :=
  rfl

/-- A mantissa counted in a smaller unit. -/
theorem decreased_value (hle : e' ≤ e) :
    (((sign negative).apply (decreaseExponent m e e').1 : ℤ) : ℚ) * 2 ^ e' =
      signed negative (m * 2 ^ e) := by
  have hvalue := decreaseExponent_value m e e'
  rw [min_eq_right hle] at hvalue
  rw [apply_sign, signed_mul, Int.cast_natCast, hvalue]

theorem add_rounded (h : single.Canonical m e) (h' : single.Canonical m' e') :
    Rounded (UnpackedFloat.add Format.binary32 (finite negative m e) (finite negative' m' e'))
      (signed negative (m * 2 ^ e) + signed negative' (m' * 2 ^ e')) := by
  rcases Nat.eq_zero_or_pos m with rfl | hm <;> rcases Nat.eq_zero_or_pos m' with rfl | hm'
  · rw [Nat.cast_zero, zero_mul, zero_mul, signed_zero, signed_zero, add_zero, finite_zero,
      finite_zero, UnpackedFloat.add]
    split_ifs <;> exact rounded_zero _
  · rw [Nat.cast_zero, zero_mul, signed_zero, zero_add, finite_zero]
    have hkept : UnpackedFloat.add Format.binary32 (.zero (sign negative))
        (finite negative' m' e') = finite negative' m' e' := by
      rw [finite_of_pos _ hm']
      rfl
    rw [hkept]
    exact rounded_finite h'
  · rw [Nat.cast_zero, zero_mul, signed_zero, add_zero, finite_zero]
    have hkept : UnpackedFloat.add Format.binary32 (finite negative m e) (.zero (sign negative')) =
        finite negative m e := by
      rw [finite_of_pos _ hm]
      rfl
    rw [hkept]
    exact rounded_finite h
  · rw [finite_of_pos _ hm, finite_of_pos _ hm', UnpackedFloat.add]
    have hsum := normalize_rounded ((sign negative).apply (decreaseExponent m e (min e e')).1 +
      (sign negative').apply (decreaseExponent m' e' (min e e')).1) (min e e') .positive
    rwa [Int.cast_add, add_mul, decreased_value (min_le_left _ _),
      decreased_value (min_le_right _ _)] at hsum

/-- A difference is the sum with the opposite, down to the signs of zeros. -/
theorem sub_eq_add (f : Format) (u w : UnpackedFloat) :
    UnpackedFloat.sub f u w = UnpackedFloat.add f u w.neg := by
  cases u <;> cases w
  case finite.finite s m e hm s' m' e' hm' =>
    have hopposite (a b : ℤ) : s.apply a - s'.apply b = s.apply a + (-s').apply b := by
      cases s'
      · exact sub_neg_eq_add _ b
      · rfl
    exact congrArg (UnpackedFloat.normalize f · (min e e') .positive) (hopposite _ _)
  all_goals rfl

theorem finite_neg : (finite negative m e).neg = finite (!negative) m e := by
  rcases Nat.eq_zero_or_pos m with rfl | hm
  · cases negative <;> rfl
  · rw [finite_of_pos _ hm, finite_of_pos _ hm]
    cases negative <;> rfl

theorem sub_rounded (h : single.Canonical m e) (h' : single.Canonical m' e') :
    Rounded (UnpackedFloat.sub Format.binary32 (finite negative m e) (finite negative' m' e'))
      (signed negative (m * 2 ^ e) - signed negative' (m' * 2 ^ e')) := by
  rw [sub_eq_add, finite_neg, sub_eq_add_neg, ← signed_not]
  exact add_rounded h h'

theorem mul_rounded (h : single.Canonical m e) (h' : single.Canonical m' e') :
    Rounded (UnpackedFloat.mul Format.binary32 (finite negative m e) (finite negative' m' e'))
      (signed negative (m * 2 ^ e) * signed negative' (m' * 2 ^ e')) := by
  rcases Nat.eq_zero_or_pos m with rfl | hm
  · rw [Nat.cast_zero, zero_mul, signed_zero, zero_mul, finite_zero]
    rcases Nat.eq_zero_or_pos m' with rfl | hm'
    · exact rounded_zero _
    · rw [finite_of_pos _ hm']
      exact rounded_zero _
  rcases Nat.eq_zero_or_pos m' with rfl | hm'
  · rw [Nat.cast_zero, zero_mul, signed_zero, mul_zero, finite_zero, finite_of_pos _ hm]
    exact rounded_zero _
  have hm₀ : (0 : ℚ) < m := Nat.cast_pos.mpr hm
  have hm₀' : (0 : ℚ) < m' := Nat.cast_pos.mpr hm'
  have hvalue : (m * 2 ^ e : ℚ) * (m' * 2 ^ e') = (m * m' : ℕ) * 2 ^ (e + e') := by
    rw [zpow_add₀ two_ne_zero]
    push_cast
    ring
  have hle : e + e' ≤ single.roundExponent (m * 2 ^ e * (m' * 2 ^ e')) := by
    rw [hvalue]
    apply le_roundExponent
    have hleast := h.full
    have hleast' := h'.full
    rw [single_leastExponent, single_fraction] at hleast hleast'
    rcases hleast with rfl | hwide
    · rcases hleast' with rfl | hwide'
      · exact .inr (by norm_num)
      · exact .inl (hwide'.trans (Nat.le_mul_of_pos_left m' hm))
    · exact .inl (hwide.trans (Nat.le_mul_of_pos_right m hm'))
  rw [finite_of_pos _ hm, finite_of_pos _ hm', UnpackedFloat.mul, sign_mul, signed_mul_signed]
  refine roundWithAccuracy_rounded _ (by positivity) (.inl (Nat.mul_pos hm hm')) hle ?_
  rw [hvalue, mul_div_cancel_right₀ _ (zpow_ne_zero _ two_ne_zero)]
  exact .exact _

theorem divCore_represents (m : ℕ) (e e' : ℤ) (hm' : 0 < m') :
    Represents (.ofMantissaAndAccuracy (divCore Format.binary32 m e m' e').1
      (divCore Format.binary32 m e m' e').2.2)
      (m * 2 ^ e / (m' * 2 ^ e') / 2 ^ (divCore Format.binary32 m e m' e').2.1) := by
  rw [divCore]
  dsimp only
  have hless := min_le_left (e - e')
    (Format.binary32.targetExponent (totalExponent m e - totalExponent m' e'))
  generalize min (e - e')
    (Format.binary32.targetExponent (totalExponent m e - totalExponent m' e')) = t at hless ⊢
  have hm₀' : (m' : ℚ) ≠ 0 := Nat.cast_ne_zero.mpr hm'.ne'
  have hvalue : (m * 2 ^ e / (m' * 2 ^ e') / 2 ^ t : ℚ) =
      (m <<< (e - e' - t).toNat : ℕ) / m' := by
    have hshift : (2 : ℚ) ^ (e - e' - t).toNat * (2 ^ t * 2 ^ e') = 2 ^ e := by
      rw [← zpow_natCast, ← zpow_add₀ two_ne_zero, ← zpow_add₀ two_ne_zero]
      congr 1
      omega
    rw [Nat.shiftLeft_eq]
    push_cast
    rw [← hshift]
    field_simp
  rw [hvalue]
  exact .quotient _ hm'

/-- The power of two just below a quotient, from the leading bits of its parts. -/
theorem zpow_le_div (e e' : ℤ) (hm : 0 < m) (hm' : 0 < m') :
    (2 : ℚ) ^ ((m.log2 : ℤ) + e - (m'.log2 + e') - 1) ≤ m * 2 ^ e / (m' * 2 ^ e') := by
  have hm₀' : (0 : ℚ) < m' := Nat.cast_pos.mpr hm'
  have hnum : ((2 ^ m.log2 : ℕ) : ℚ) ≤ m := by exact_mod_cast Nat.log2_self_le hm.ne'
  have hden : (m' : ℚ) ≤ (2 ^ (m'.log2 + 1) : ℕ) := by exact_mod_cast Nat.lt_log2_self.le
  push_cast at hnum hden
  rw [le_div_iff₀ (by positivity)]
  calc (2 : ℚ) ^ ((m.log2 : ℤ) + e - (m'.log2 + e') - 1) * (m' * 2 ^ e')
      ≤ 2 ^ ((m.log2 : ℤ) + e - (m'.log2 + e') - 1) * (2 ^ (m'.log2 + 1) * 2 ^ e') := by gcongr
    _ = 2 ^ m.log2 * 2 ^ e := by
      rw [← zpow_natCast, ← zpow_natCast, ← zpow_add₀ two_ne_zero, ← zpow_add₀ two_ne_zero,
        ← zpow_add₀ two_ne_zero]
      congr 1
      push_cast
      ring
    _ ≤ m * 2 ^ e := by gcongr

/-- A quotient is counted in a unit that leaves it a mantissa of full width. -/
theorem divCore_exponent (e e' : ℤ) (hm : 0 < m) (hm' : 0 < m') :
    (divCore Format.binary32 m e m' e').2.1 ≤ single.roundExponent (m * 2 ^ e / (m' * 2 ^ e')) ∧
      (0 < (divCore Format.binary32 m e m' e').1 ∨
        (divCore Format.binary32 m e m' e').2.1 ≤ -149) := by
  have hlow := zpow_le_div e e' hm hm'
  have hbounds := (divCore_represents m e e' hm').bounds.2
  rw [mantissa_ofMantissaAndAccuracy] at hbounds
  have hexponent : (divCore Format.binary32 m e m' e').2.1 ≤
      max ((m.log2 : ℤ) + e - (m'.log2 + e') - 24) (-149) := by
    rw [divCore, targetExponent_eq, totalExponent, totalExponent]
    dsimp only
    omega
  generalize divCore Format.binary32 m e m' e' = core at *
  generalize (m.log2 : ℤ) + e - (m'.log2 + e') = lead at *
  generalize (m * 2 ^ e / (m' * 2 ^ e') : ℚ) = v at *
  have hlead : lead - 24 ≤ single.roundExponent v :=
    le_roundExponent_of_zpow_le (by rwa [show lead - 24 + 23 = lead - 1 by ring])
  refine ⟨hexponent.trans (max_le hlead (single.leastExponent_le_roundExponent v)), ?_⟩
  by_contra hsmall
  obtain ⟨hzero, hunit⟩ := not_or.mp hsmall
  rw [Nat.eq_zero_of_not_pos hzero, Nat.cast_zero, zero_add, div_lt_one (by positivity)] at hbounds
  have := (zpow_lt_zpow_iff_right₀ one_lt_two).mp (hlow.trans_lt hbounds)
  omega

theorem div_rounded (hm' : 0 < m') :
    Rounded (UnpackedFloat.div Format.binary32 (finite negative m e) (finite negative' m' e'))
      (signed negative (m * 2 ^ e) / signed negative' (m' * 2 ^ e')) := by
  rw [finite_of_pos _ hm']
  rcases Nat.eq_zero_or_pos m with rfl | hm
  · rw [Nat.cast_zero, zero_mul, signed_zero, zero_div, finite_zero]
    exact rounded_zero _
  have hm₀ : (0 : ℚ) < m := Nat.cast_pos.mpr hm
  have hm₀' : (0 : ℚ) < m' := Nat.cast_pos.mpr hm'
  obtain ⟨hle, hwide⟩ := divCore_exponent e e' hm hm'
  rw [finite_of_pos _ hm, UnpackedFloat.div, sign_div, signed_div_signed]
  exact roundWithAccuracy_rounded _ (by positivity) hwide hle (divCore_represents m e e' hm')

end Operations

end Float32

end ShapeGrammar

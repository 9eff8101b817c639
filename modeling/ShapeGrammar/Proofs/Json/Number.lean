import ShapeGrammar.Json.Decode
import ShapeGrammar.Proofs.Json.Rounding
import ShapeGrammar.Proofs.Number.Bits
import ShapeGrammar.Proofs.Number.Separation
import ShapeGrammar.Proofs.Number.Shortest

/-!
# Single precision numbers are read back

A finite single precision number is written as its shortest decimal and read at double precision
first, next to the decimal. Where that could leave what rounds to the number, the decimal lies
beside a border of it and so has few digits, and such decimals and borders are equal or stay apart.
Main statement: `float32?_ofFloat32`.
-/
namespace ShapeGrammar

namespace Numeral

open BinaryFormat

/-! ## The digits of a numeral -/

@[simp] theorem length_digitList (n count : ℕ) : (digitList n count).length = count := by
  induction count generalizing n with
  | zero => rfl
  | succ count ih => simp [digitList, ih]

theorem leadingWord_of_le {n : ℕ} (h : n ≤ wordLimit) : leadingWord n = (n, 0) := by
  rw [leadingWord, if_pos h]

/-- One more digit fits if all before it did. -/
theorem appendFitting_concat {word value : ℕ} {digits : List (Fin 10)} (digit : Fin 10)
    (h : appendFitting word digits = (value, digits.length))
    (hfits : value * 10 + digit.val ≤ wordLimit) :
    appendFitting word (digits ++ [digit]) = (value * 10 + digit.val, digits.length + 1) := by
  induction digits generalizing word with
  | nil =>
    obtain rfl : word = value := (Prod.mk.inj h).1
    simp [appendFitting, hfits]
  | cons first rest ih =>
    rw [appendFitting] at h
    rw [List.cons_append, appendFitting]
    split at h
    next hfirst =>
      rw [if_pos hfirst]
      obtain ⟨hvalue, hcount⟩ := Prod.mk.inj h
      have hrest : appendFitting (word * 10 + first.val) rest = (value, rest.length) := by
        rw [← hvalue]
        exact Prod.ext rfl (Nat.succ.inj hcount)
      rw [ih hrest]
      rfl
    · cases (Prod.mk.inj h).2

/-- The digits of a number are appended back to what stands before them. -/
theorem appendFitting_digitList {n : ℕ} (hn : n ≤ wordLimit) (count : ℕ) :
    appendFitting (n / Nat.pow 10 count) (digitList n count) = (n, count) := by
  induction count generalizing n with
  | zero => simp [digitList, appendFitting]
  | succ count ih =>
    have hrest := ih (n := n / 10) ((Nat.div_le_self n 10).trans hn)
    have hdiv : n / Nat.pow 10 (count + 1) = n / 10 / Nat.pow 10 count := by
      rw [Nat.div_div_eq_div_mul, Nat.mul_comm]
      rfl
    have hback : n / 10 * 10 + (Fin.ofNat 10 n).val = n := Nat.div_add_mod' n 10
    have hconcat := appendFitting_concat (Fin.ofNat 10 n) (by rw [length_digitList]; exact hrest)
      (by rwa [hback])
    rw [hback, length_digitList] at hconcat
    rw [hdiv, digitList, hconcat]

/-- The digits that are kept of a numeral without a leading zero count. -/
theorem significant_digitList {n : ℕ} (hn : n ≤ wordLimit) (count : ℕ) (negative : Bool)
    (exponent : Option ℤ) :
    significant ⟨negative, n / Nat.pow 10 count, digitList n count, exponent⟩ =
      (n, exponent.getD 0 - count) := by
  have hwhole := leadingWord_of_le ((Nat.div_le_self n (Nat.pow 10 count)).trans hn)
  rw [significant]
  simp only [hwhole, appendFitting_digitList hn, Nat.cast_zero, add_zero]

theorem lt_pow_width (n : ℕ) : n < 10 ^ Decimal.width n :=
  (Nat.length_toDigits_le_iff (b := 10) (by decide) Nat.length_toDigits_pos).mp (le_refl _)

/-- What is kept of the notation of a decimal: its digits and its exponent, or the whole number it
is with a zero behind the point. -/
theorem significant_ofDecimal {d : Decimal} (hd : 0 < d.digits) (hlimit : d.digits ≤ wordLimit)
    (low : ℤ) (negative : Bool) :
    (ofDecimal (low, 12) negative d).significant = (d.digits, d.exponent) ∨
      ∃ e : ℕ, d.exponent = e ∧ d.digits * 10 ^ (e + 1) < 2 ^ 53 ∧
        (ofDecimal (low, 12) negative d).significant = (d.digits * 10 ^ (e + 1), -1) := by
  rw [ofDecimal, if_neg hd.ne']
  split_ifs with hwindow
  · cases hexponent : d.exponent with
    | ofNat e =>
      right
      have hlead : e + Decimal.width d.digits ≤ 13 := by
        have := hwindow.2
        rw [Decimal.lead, hexponent, Int.ofNat_eq_natCast] at this
        dsimp only at this
        omega
      have hless : d.digits * 10 ^ (e + 1) < 2 ^ 53 :=
        calc d.digits * 10 ^ (e + 1) < 10 ^ Decimal.width d.digits * 10 ^ (e + 1) :=
              Nat.mul_lt_mul_of_pos_right (lt_pow_width _) (by positivity)
          _ = 10 ^ (e + Decimal.width d.digits + 1) := by ring
          _ ≤ 10 ^ 14 := Nat.pow_le_pow_right (by decide) (by omega)
          _ < 2 ^ 53 := by decide
      have hnext : d.digits * Nat.pow 10 e * 10 + 0 = d.digits * 10 ^ (e + 1) := by
        rw [Nat.pow_eq]
        ring
      have hfits : d.digits * 10 ^ (e + 1) ≤ wordLimit := hless.le.trans (by decide)
      have hwhole : leadingWord (d.digits * Nat.pow 10 e) = (d.digits * Nat.pow 10 e, 0) :=
        leadingWord_of_le (by omega)
      refine ⟨e, rfl, hless, ?_⟩
      simp only [significant, hwhole, appendFitting, Fin.val_zero, hnext, if_pos hfits]
      simp
    | negSucc e =>
      left
      rw [significant_digitList hlimit]
      simp [Int.negSucc_eq]
  · left
    have hpos : 0 < Decimal.width d.digits := Nat.length_toDigits_pos
    rw [significant_digitList hlimit, Option.getD_some, Decimal.lead]
    congr 1
    omega

/-- The notation of a decimal is never that of a whole number. -/
theorem isWord_ofDecimal (window : ℤ × ℤ) (negative : Bool) (d : Decimal) :
    Json.isWord (ofDecimal window negative d) = false := by
  have hinteger : (ofDecimal window negative d).isInteger = false := by
    rw [ofDecimal]
    split_ifs
    · rfl
    · cases d.exponent with
      | ofNat e => rfl
      | negSucc e => simp [isInteger, digitList]
    · simp [isInteger]
  rw [Json.isWord, hinteger, Bool.false_and]

end Numeral

namespace BinaryFormat

open Decimal

/-! ## The borders of what rounds to a number -/

/-- The lower border is a fraction of at most 25 bits. -/
theorem exists_lowEnd {m : ℕ} {e : ℤ} (h : single.Canonical m e) (hm : 0 < m) :
    ∃ (n : ℕ) (p : ℤ), 0 < n ∧ n < 2 ^ 25 ∧ single.lowEnd m e = n * 2 ^ p := by
  have hwidth := single_width h
  rw [lowEnd]
  split_ifs with hpower
  · have hm' : m = 8388608 := hpower.1.trans (by decide)
    refine ⟨4 * m - 1, e - 2, by omega, by omega, ?_⟩
    rw [zpow_sub₀ two_ne_zero, Nat.cast_sub (by omega)]
    push_cast
    norm_num
    ring
  · refine ⟨2 * m - 1, e - 1, by omega, by omega, ?_⟩
    rw [zpow_sub₀ two_ne_zero, Nat.cast_sub (by omega)]
    push_cast
    norm_num
    ring

theorem exists_highEnd {m : ℕ} {e : ℤ} (h : single.Canonical m e) :
    ∃ (n : ℕ) (p : ℤ), 0 < n ∧ n < 2 ^ 25 ∧ highEnd m e = n * 2 ^ p := by
  have hwidth := single_width h
  refine ⟨2 * m + 1, e - 1, by omega, by omega, ?_⟩
  rw [highEnd, zpow_sub₀ two_ne_zero]
  push_cast
  norm_num
  ring

/-! ## What is read for a shortest decimal -/

/-- What is read next to the shortest decimal of a number rounds to the number, unless the decimal
lies beside one of the two borders. -/
theorem roundsTo_or_beside {m : ℕ} {e : ℤ} (h : single.Canonical m e) (hm : 0 < m)
    (hfinite : single.pattern m e < single.infinityBits) (tie : Tie) {y : ℚ}
    (hnear : |y - (shortest single tie m e).value| ≤
      17 / 16 / 2 ^ 52 * (shortest single tie m e).value) :
    single.RoundsTo m e y ∨
      ∃ n p, Beside (shortest single tie m e).digits (shortest single tie m e).exponent n p := by
  obtain ⟨k, t, hpoint, hvalue, hdigits, _⟩ := shortest_spec h hm tie
  obtain ⟨hpos, _⟩ := shortest_bounds h hm hfinite tie
  obtain ⟨hlow, hhigh, _⟩ := roundsTo_shortest h hm tie
  obtain ⟨hnear, hnear'⟩ := abs_le.mp hnear
  have hdecimal : (0 : ℚ) < (shortest single tie m e).value :=
    mul_pos (Nat.cast_pos.mpr hpos) (by positivity)
  rcases lt_or_ge (single.lowEnd m e) y with hlow' | hlow'
  · rcases lt_or_ge y (highEnd m e) with hhigh' | hhigh'
    · exact .inl (roundsTo_of_lt hlow' hhigh')
    · obtain ⟨n, p, hn, hn', hborder⟩ := exists_highEnd h
      refine .inr ⟨n, p, hpos, hdigits.trans (hpoint.le_of_near h (.inr ?_)), hn, hn', ?_⟩
      · rw [← hvalue]
        linarith
      · rw [← hborder]
        exact abs_le.mpr ⟨by rw [← value]; linarith, by rw [← value]; linarith⟩
  · obtain ⟨n, p, hn, hn', hborder⟩ := exists_lowEnd h hm
    refine .inr ⟨n, p, hpos, hdigits.trans (hpoint.le_of_near h (.inl ?_)), hn, hn', ?_⟩
    · rw [← hvalue]
      linarith
    · rw [← hborder]
      exact abs_le.mpr ⟨by rw [← value]; linarith, by rw [← value]; linarith⟩

theorem nearestBits_fraction {m : ℕ} {e : ℤ} (h : single.Canonical m e) (hm : 0 < m)
    (hfinite : single.pattern m e < single.infinityBits) {bits : ℕ}
    (hrounds : single.RoundsTo m e (double.magnitude bits)) :
    single.nearestBits (double.fraction bits).1 (double.fraction bits).2 = single.pattern m e := by
  have hlow : 0 < single.lowEnd m e := by
    have hone : (1 : ℚ) ≤ m := by exact_mod_cast hm
    have hunit : (0 : ℚ) < 2 ^ e := by positivity
    have := single.lowEnd_ge m e
    nlinarith
  refine nearestBits_eq_pattern h hfinite (Nat.pos_of_ne_zero fun hzero => ?_)
    (double.fraction_den_pos bits) hrounds
  have := hrounds.low
  rw [magnitude, hzero, Nat.cast_zero, zero_div] at this
  linarith

/-- The two decimals of eight digits that lie beside a border without being it are read as the
numbers that they round to. -/
theorem exceptional_read : ∀ s ∈ [7038531, 14077062],
    single.nearestBits
      (double.fraction (double.quotient (double.nearestBits s 1) (Numeral.powerBits 32))).1
      (double.fraction (double.quotient (double.nearestBits s 1) (Numeral.powerBits 32))).2 =
    single.nearestBits s (10 ^ 32) := by
  decide +kernel

end BinaryFormat

namespace Numeral

open BinaryFormat Decimal

section Shortest

variable {m : ℕ} {e : ℤ} {d : Decimal}

/-- Where the power of ten is small, a decimal beside a border is that border and is read without an
error. -/
theorem ReadAs.roundsTo {w bits : ℕ} {j : ℤ} (h : ReadAs w j bits)
    (hvalue : (w : ℚ) * 10 ^ j = d.value) (hrounds : single.RoundsTo m e d.value)
    (hor : single.RoundsTo m e (double.magnitude bits) ∨ ∃ n p, Beside d.digits d.exponent n p)
    (hexponent : -12 < d.exponent ∧ d.exponent < 12) (hj : -22 ≤ j ∧ j ≤ 22) :
    single.RoundsTo m e (double.magnitude bits) := by
  rcases hor with hinside | ⟨n, p, hbeside⟩
  · exact hinside
  · have hborder : (w : ℚ) * 10 ^ j = n * 2 ^ p :=
      hvalue.trans (hbeside.eq hexponent.1 hexponent.2)
    rw [h.exact hj.1 hj.2 n p (hbeside.mantissa_lt.trans (by decide)) hborder, hvalue]
    exact hrounds

/-- The decimals beside a border that are not that border are read as what they round to. -/
theorem nearestBits_exceptional (h : single.Canonical m e)
    (hfinite : single.pattern m e < single.infinityBits) (hpos : 0 < d.digits)
    (hrounds : single.RoundsTo m e d.value) (hexponent : d.exponent = -32)
    (hdigits : d.digits ∈ [7038531, 14077062]) :
    single.nearestBits (double.fraction (shrink (double.nearestBits d.digits 1) 32)).1
      (double.fraction (shrink (double.nearestBits d.digits 1) 32)).2 = single.pattern m e := by
  have hvalue : d.value = (d.digits : ℚ) / (10 ^ 32 : ℕ) := by
    rw [value, hexponent, div_eq_mul_inv]
    norm_num
  rw [hvalue] at hrounds
  rw [shrink, if_pos (by decide), exceptional_read d.digits hdigits]
  exact nearestBits_eq_pattern h hfinite hpos (by positivity) hrounds

/-- The shortest decimal of a number, read at double precision, rounds to the number. -/
theorem magnitudeBits?_ofDecimal (h : single.Canonical m e) (hm : 0 < m)
    (hfinite : single.pattern m e < single.infinityBits) (low : ℤ) (negative : Bool) :
    ∃ bits, (ofDecimal (low, 12) negative (shortest single .toEven m e)).magnitudeBits? =
        some bits ∧ bits < double.infinityBits ∧
      single.nearestBits (double.fraction bits).1 (double.fraction bits).2 =
        single.pattern m e := by
  obtain ⟨hpos, hdigits, hleast, hgreatest⟩ := shortest_bounds h hm hfinite .toEven
  have hlimit : (shortest single .toEven m e).digits ≤ wordLimit := hdigits.le.trans (by decide)
  have hrounds := roundsTo_shortest h hm .toEven
  have hor := fun y => roundsTo_or_beside h hm hfinite .toEven (y := y)
  generalize shortest single .toEven m e = d at *
  rcases significant_ofDecimal hpos hlimit low negative with hkept | ⟨s, hs, hsmall, hkept⟩
  · obtain ⟨bits, hbits, hread⟩ := magnitudeBits?_spec hkept hpos hdigits (by omega) (by omega)
    refine ⟨bits, hbits, hread.finite, ?_⟩
    by_cases hexponent : -12 < d.exponent ∧ d.exponent < 12
    · exact nearestBits_fraction h hm hfinite
        (hread.roundsTo rfl hrounds (hor _ hread.near) hexponent (by omega))
    · rcases hor _ hread.near with hinside | ⟨n, p, hbeside⟩
      · exact nearestBits_fraction h hm hfinite hinside
      · obtain ⟨ht, hcase⟩ := hbeside.exceptional hleast hgreatest (by omega)
        rw [magnitudeBits?, hkept, ht] at hbits
        obtain rfl := Option.some.inj hbits
        exact nearestBits_exceptional h hfinite hpos hrounds ht (by simpa using hcase)
  · obtain ⟨bits, hbits, hread⟩ := magnitudeBits?_spec hkept (by positivity) hsmall (by omega)
      (by omega)
    refine ⟨bits, hbits, hread.finite, nearestBits_fraction h hm hfinite ?_⟩
    have hvalue : ((d.digits * 10 ^ (s + 1) : ℕ) : ℚ) * 10 ^ (-1 : ℤ) = d.value := by
      rw [value, hs, zpow_natCast, pow_succ]
      push_cast
      norm_num
      ring
    have hor' := hor _ (hvalue ▸ hread.near)
    by_cases hexponent : -12 < d.exponent ∧ d.exponent < 12
    · exact hread.roundsTo hvalue hrounds hor' hexponent (by omega)
    · refine hor'.resolve_right ?_
      rintro ⟨n, p, hbeside⟩
      obtain ⟨ht, _⟩ := hbeside.exceptional hleast hgreatest (by omega)
      omega

end Shortest

theorem negative_ofDecimal (window : ℤ × ℤ) (negative : Bool) (d : Decimal) :
    (ofDecimal window negative d).negative = negative := by
  rw [ofDecimal]
  split_ifs
  · rfl
  · cases d.exponent <;> rfl
  · rfl

end Numeral

namespace BinaryFormat

/-- A finite number keeps its sign from one format to another. -/
theorem convert_eq (f g : BinaryFormat) (negative : Bool) {bits : ℕ}
    (hbits : bits < f.infinityBits) : f.convert g (f.signBits negative + bits) =
      g.signBits negative + g.nearestBits (f.fraction bits).1 (f.fraction bits).2 := by
  have hsigned := f.decode_of_lt negative hbits
  have hplain := f.decode_of_lt false hbits
  rw [signBits_false, Nat.zero_add] at hplain
  rw [convert, fraction, hsigned, hplain]
  split_ifs <;> rfl

end BinaryFormat

namespace Json

open BinaryFormat Decimal

theorem doubleBits?_zero (negative : Bool) :
    Numeral.doubleBits? { negative, whole := 0, fraction := [0] } =
      some (double.signBits negative + 0) := by
  have hkept : Numeral.significant { negative, whole := 0, fraction := [0] } = (0, -1) :=
    Numeral.significant_digitList (n := 0) (Nat.zero_le _) 1 negative none
  have hnone : Numeral.shrink 0 1 = 0 := by
    rw [Numeral.shrink, if_pos (by decide)]
    decide +kernel
  rw [Numeral.doubleBits?, Numeral.magnitudeBits?, hkept]
  change Option.map _ (some (Numeral.shrink 0 1)) = _
  rw [hnone]
  rfl

/-- The shortest notation of a machine number is read as its bits. -/
theorem doubleBits?_ofDecimal {m : ℕ} {e : ℤ} (h : single.Canonical m e)
    (hfinite : single.pattern m e < single.infinityBits) (low : ℤ) (negative : Bool) :
    ∃ bits, (Numeral.ofDecimal (low, 12) negative (shortest single .toEven m e)).doubleBits? =
        some bits ∧
      double.convert single bits = single.signBits negative + single.pattern m e := by
  rcases Nat.eq_zero_or_pos m with rfl | hm
  · refine ⟨_, doubleBits?_zero negative, ?_⟩
    rw [convert_eq double single negative (by decide)]
    congr 1
  · obtain ⟨bits, hbits, hless, hnearest⟩ :=
      Numeral.magnitudeBits?_ofDecimal h hm hfinite low negative
    refine ⟨double.signBits negative + bits, ?_, ?_⟩
    · rw [Numeral.doubleBits?, hbits, Numeral.negative_ofDecimal]
      rfl
    · rw [convert_eq double single negative hless, hnearest]

/-- A single precision number is read back if it is finite, and nothing is read else. -/
theorem float32?_ofFloat32 (x : Float32) :
    float32? (ofFloat32 x) = if x.isFinite then some x else none := by
  rw [ofFloat32]
  split_ifs with hfinite
  · obtain ⟨negative, m, e, hdecode⟩ := (Float32.isFinite_iff x).mp hfinite
    obtain ⟨hcanonical, hless, hbits⟩ :=
      pattern_of_decode (Float32.toNat_lt x.toBits) hdecode
    obtain ⟨bits, hread, hconvert⟩ := doubleBits?_ofDecimal hcanonical hless (-6) negative
    rw [hdecode, ofValue, float32?, if_neg (by rw [Numeral.isWord_ofDecimal]; decide), hread,
      Option.map_some, hconvert, ← hbits]
    rw [UInt32.ofNat_toNat, Float32.ofBits_toBits hfinite]
  · cases hdecode : single.decode x.toBits.toNat with
    | notANumber => rfl
    | infinite negative => rfl
    | finite negative m e =>
      exact absurd ((Float32.isFinite_iff x).mpr ⟨negative, m, e, hdecode⟩) hfinite

/-- Every numeral that a single precision number is written as is within double precision. -/
theorem isSound_ofFloat32 (x : Float32) : isSound (ofFloat32 x) = true := by
  rw [ofFloat32]
  cases hdecode : single.decode x.toBits.toNat with
  | notANumber => rfl
  | infinite negative => rfl
  | finite negative m e =>
    obtain ⟨hcanonical, hless, _⟩ := pattern_of_decode (Float32.toNat_lt x.toBits) hdecode
    obtain ⟨bits, hread, _⟩ := doubleBits?_ofDecimal hcanonical hless (-6) negative
    rw [ofValue, isSound, hread]
    rfl

end Json

end ShapeGrammar

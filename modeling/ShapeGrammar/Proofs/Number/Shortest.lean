import Mathlib.Data.Nat.Cast.Field
import Mathlib.Tactic.Linarith
import ShapeGrammar.Number.Shortest
import ShapeGrammar.Proofs.Number.Nearest

/-!
# What the shortest decimal is

The shortest decimal of a machine number rounds to it. It is found among the decimals of at most
nine digits for single precision, and where it lies next to the border of what rounds to the number
it is a multiple of a coarse power of ten. Main statements: `roundsTo_shortest`,
`shortest_spec`.
-/
namespace ShapeGrammar

namespace Decimal

open BinaryFormat

/-- What a decimal stands for. -/
def value (d : Decimal) : ℚ :=
  d.digits * 10 ^ d.exponent

theorem ten_ne_zero : (10 : ℚ) ≠ 0 := by
  norm_num

theorem shift_den_pos (num : ℕ) {den : ℕ} (hden : 0 < den) (e : ℤ) : 0 < (shift num den e).2 := by
  cases e with
  | ofNat e => exact Nat.mul_pos hden (Nat.pow_pos (by decide))
  | negSucc e => exact hden

theorem shift_ratio (num den : ℕ) (e : ℤ) :
    ((shift num den e).1 : ℚ) / (shift num den e).2 = num / den / 10 ^ e := by
  cases e with
  | ofNat e =>
    simp only [shift, Int.ofNat_eq_natCast, zpow_natCast]
    push_cast [Nat.pow_eq]
    rw [div_mul_eq_div_div]
  | negSucc e =>
    simp only [shift, zpow_negSucc, div_inv_eq_mul]
    push_cast [Nat.pow_eq]
    ring

/-! ## The power of ten below a fraction -/

theorem width_spec {n : ℕ} (hn : 0 < n) :
    (10 : ℚ) ^ ((width n : ℤ) - 1) ≤ n ∧ (n : ℚ) < 10 ^ ((width n : ℤ) - 1 + 1) := by
  have hpos : 0 < width n := Nat.length_toDigits_pos
  constructor
  · obtain ⟨k, hk⟩ := Nat.exists_eq_succ_of_ne_zero hpos.ne'
    have hle : 10 ^ k ≤ n := by
      rcases Nat.eq_zero_or_pos k with rfl | hk'
      · exact hn
      · by_contra hlt
        have := (Nat.length_toDigits_le_iff (b := 10) (by decide) hk').mpr (not_le.mp hlt)
        rw [width] at hk
        omega
    rw [hk]
    push_cast
    rw [add_sub_cancel_right, zpow_natCast]
    exact_mod_cast hle
  · have hlt := (Nat.length_toDigits_le_iff (b := 10) (n := n) (by decide) hpos).mp (le_refl _)
    rw [sub_add_cancel, zpow_natCast]
    exact_mod_cast hlt

/-- The first digit of a fraction counts the power of ten just below it. -/
theorem leadExponent_spec {num den : ℕ} (hnum : 0 < num) (hden : 0 < den) :
    (10 : ℚ) ^ leadExponent num den ≤ num / den ∧
      (num : ℚ) / den < 10 ^ (leadExponent num den + 1) := by
  have hguess : (width num : ℤ) - width den = (width num : ℤ) - 1 - (width den - 1) := by ring
  obtain ⟨hnumLow, hnumHigh⟩ := width_spec hnum
  obtain ⟨hdenLow, hdenHigh⟩ := width_spec hden
  unfold leadExponent
  dsimp only
  rw [hguess]
  exact power_of_guess (by norm_num) hnumLow hnumHigh hdenLow hdenHigh
    (shift_den_pos num hden _) (shift_ratio num den _)

/-! ## Intervals -/

theorem ofMantissa_den_pos (f : BinaryFormat) (m : ℕ) (e : ℤ) :
    0 < (Interval.ofMantissa f m e).den :=
  scale_den_pos 1 Nat.one_pos _

theorem ofMantissa_value (f : BinaryFormat) (m : ℕ) (e : ℤ) :
    ((Interval.ofMantissa f m e).value : ℚ) / (Interval.ofMantissa f m e).den = m * 2 ^ e := by
  have hunit := scale_ratio 1 1 (e - 2)
  rw [Nat.cast_one, div_one, one_mul, zpow_sub₀ two_ne_zero] at hunit
  simp only [Interval.ofMantissa]
  push_cast
  rw [mul_div_assoc, hunit]
  norm_num
  ring

theorem ofMantissa_high (f : BinaryFormat) (m : ℕ) (e : ℤ) :
    ((Interval.ofMantissa f m e).high : ℚ) / (Interval.ofMantissa f m e).den = highEnd m e := by
  have hunit := scale_ratio 1 1 (e - 2)
  rw [Nat.cast_one, div_one, one_mul, zpow_sub₀ two_ne_zero] at hunit
  simp only [Interval.ofMantissa]
  push_cast
  rw [mul_div_assoc, hunit, highEnd]
  norm_num
  ring

theorem ofMantissa_low (f : BinaryFormat) {m : ℕ} (hm : 0 < m) (e : ℤ) :
    ((Interval.ofMantissa f m e).low : ℚ) / (Interval.ofMantissa f m e).den = f.lowEnd m e := by
  have hunit := scale_ratio 1 1 (e - 2)
  rw [Nat.cast_one, div_one, one_mul, zpow_sub₀ two_ne_zero] at hunit
  simp only [Interval.ofMantissa]
  rw [Nat.cast_mul, mul_div_assoc, hunit, lowEnd, Nat.cast_sub (by split_ifs <;> omega)]
  split_ifs <;>
  · push_cast
    norm_num
    ring

/-- The interval of a machine number holds what rounds to it. -/
theorem contains_iff (f : BinaryFormat) {m : ℕ} (hm : 0 < m) (e : ℤ) (n : ℕ) {d : ℕ} (hd : 0 < d) :
    (Interval.ofMantissa f m e).contains n d = true ↔ f.RoundsTo m e (n / d) := by
  have hlow := ofMantissa_low f hm e
  have hhigh := ofMantissa_high f m e
  have hden : (0 : ℚ) < (Interval.ofMantissa f m e).den :=
    Nat.cast_pos.mpr (ofMantissa_den_pos f m e)
  have hd' : (0 : ℚ) < d := Nat.cast_pos.mpr hd
  have hclosed : (Interval.ofMantissa f m e).closed = decide (m % 2 = 0) := rfl
  generalize Interval.ofMantissa f m e = i at *
  have hlowLe : f.lowEnd m e ≤ n / d ↔ i.low * d ≤ n * i.den := by
    rw [← hlow, div_le_div_iff₀ hden hd']
    exact_mod_cast Iff.rfl
  have hlowLt : f.lowEnd m e < n / d ↔ i.low * d < n * i.den := by
    rw [← hlow, div_lt_div_iff₀ hden hd']
    exact_mod_cast Iff.rfl
  have hhighLe : (n : ℚ) / d ≤ highEnd m e ↔ n * i.den ≤ i.high * d := by
    rw [← hhigh, div_le_div_iff₀ hd' hden]
    exact_mod_cast Iff.rfl
  have hhighLt : (n : ℚ) / d < highEnd m e ↔ n * i.den < i.high * d := by
    rw [← hhigh, div_lt_div_iff₀ hd' hden]
    exact_mod_cast Iff.rfl
  rw [Interval.contains, hclosed]
  by_cases htie : m % 2 = 0
  · simp only [htie, decide_true, if_true, decide_eq_true_eq]
    rw [← hlowLe, ← hhighLe]
    exact ⟨fun h => ⟨h.1, h.2, .inl htie⟩, fun h => ⟨h.low, h.high⟩⟩
  · simp only [htie, decide_false, Bool.false_eq_true, if_false, decide_eq_true_eq]
    rw [← hlowLt, ← hhighLt]
    exact ⟨fun h => ⟨h.1.le, h.2.le, .inr h⟩, fun h => h.tie.resolve_left htie⟩

/-! ## Grids -/

/-- A number lies above the grid point that its quotient counts and below the next one, and its
remainder tells which of the two is no farther away than half a step. -/
theorem remainder_spec {n d : ℕ} (hd : 0 < d) {v step : ℚ} (hstep : 0 < step)
    (h : (n : ℚ) / d = v / step) :
    (n / d : ℕ) * step ≤ v ∧ v < ((n / d : ℕ) + 1) * step ∧
      (2 * (n % d) ≤ d → 2 * (v - (n / d : ℕ) * step) ≤ step) ∧
      (d ≤ 2 * (n % d) → 2 * (((n / d : ℕ) + 1) * step - v) ≤ step) := by
  have hd' : (0 : ℚ) < d := Nat.cast_pos.mpr hd
  obtain ⟨part, hpart⟩ : ∃ part : ℚ, part = (n % d : ℕ) / d := ⟨_, rfl⟩
  have hv : v = ((n / d : ℕ) + part) * step := by
    rw [← div_eq_iff hstep.ne', ← h, hpart, div_eq_iff hd'.ne', add_mul, div_mul_cancel₀ _ hd'.ne']
    exact_mod_cast (Nat.div_add_mod' n d).symm
  have hnonneg : 0 ≤ part := hpart ▸ by positivity
  have hless : part < 1 := by
    rw [hpart, div_lt_one hd']
    exact_mod_cast Nat.mod_lt n hd
  refine ⟨?_, ?_, fun hsmall => ?_, fun hlarge => ?_⟩
  · rw [hv]
    gcongr
    linarith
  · rw [hv]
    gcongr
  · have hhalf : 2 * part ≤ 1 := by
      rw [hpart, ← mul_div_assoc, div_le_one hd']
      exact_mod_cast hsmall
    calc 2 * (v - (n / d : ℕ) * step) = 2 * part * step := by rw [hv]; ring
      _ ≤ 1 * step := by gcongr
      _ = step := one_mul step
  · have hhalf : 1 ≤ 2 * part := by
      rw [hpart, ← mul_div_assoc, one_le_div hd']
      exact_mod_cast hlarge
    calc 2 * (((n / d : ℕ) + 1) * step - v) = (2 - 2 * part) * step := by rw [hv]; ring
      _ ≤ 1 * step := by gcongr; linarith
      _ = step := one_mul step

/-- What is asked of a grid point is whether it rounds to the number. -/
theorem inside_iff (f : BinaryFormat) {m : ℕ} (hm : 0 < m) (e : ℤ) (t : ℤ) (k : ℕ) :
    (match t with
      | .ofNat s => (Interval.ofMantissa f m e).contains (k * Nat.pow 10 s) 1
      | .negSucc s => (Interval.ofMantissa f m e).contains k (Nat.pow 10 (s + 1))) = true ↔
      f.RoundsTo m e (k * 10 ^ t) := by
  cases t with
  | ofNat s =>
    rw [contains_iff f hm e _ Nat.one_pos]
    simp only [Int.ofNat_eq_natCast, zpow_natCast]
    push_cast [Nat.pow_eq]
    rw [div_one]
  | negSucc s =>
    have hpow : 0 < Nat.pow 10 (s + 1) := Nat.pow_pos (by decide)
    refine (contains_iff f hm e k hpow).trans ?_
    simp only [zpow_negSucc]
    push_cast [Nat.pow_eq]
    rw [div_eq_mul_inv]

/-- A point of a decimal grid that rounds to a number, next to that number on one side; the point on
the other side is no nearer or does not round to it. -/
structure GridPoint (f : BinaryFormat) (m : ℕ) (e t : ℤ) (k : ℕ) : Prop where
  rounds : f.RoundsTo m e (k * 10 ^ t)
  below : (k : ℚ) * 10 ^ t ≤ m * 2 ^ e → (m : ℚ) * 2 ^ e < ((k : ℚ) + 1) * 10 ^ t ∧
    (2 * ((m : ℚ) * 2 ^ e - k * 10 ^ t) ≤ 10 ^ t ∨ ¬f.RoundsTo m e ((k + 1) * 10 ^ t))
  above : (m : ℚ) * 2 ^ e < k * 10 ^ t → ((k : ℚ) - 1) * 10 ^ t ≤ m * 2 ^ e ∧
    (2 * ((k : ℚ) * 10 ^ t - m * 2 ^ e) ≤ 10 ^ t ∨ ¬f.RoundsTo m e ((k - 1) * 10 ^ t))

namespace GridPoint

variable {f : BinaryFormat} {m : ℕ} {e t : ℤ} {down : ℕ}

theorem ofBelow (hdown : (down : ℚ) * 10 ^ t ≤ m * 2 ^ e)
    (hup : (m : ℚ) * 2 ^ e < (down + 1) * 10 ^ t) (hrounds : f.RoundsTo m e (down * 10 ^ t))
    (hother : 2 * ((m : ℚ) * 2 ^ e - down * 10 ^ t) ≤ 10 ^ t ∨
      ¬f.RoundsTo m e ((down + 1) * 10 ^ t)) : GridPoint f m e t down :=
  ⟨hrounds, fun _ => ⟨hup, hother⟩, fun h => absurd hdown (not_le.mpr h)⟩

theorem ofAbove (hdown : (down : ℚ) * 10 ^ t ≤ m * 2 ^ e)
    (hup : (m : ℚ) * 2 ^ e < (down + 1) * 10 ^ t) (hrounds : f.RoundsTo m e ((down + 1) * 10 ^ t))
    (hother : 2 * (((down : ℚ) + 1) * 10 ^ t - m * 2 ^ e) ≤ 10 ^ t ∨
      ¬f.RoundsTo m e (down * 10 ^ t)) : GridPoint f m e t (down + 1) := by
  constructor
  · rwa [Nat.cast_add_one]
  · rw [Nat.cast_add_one]
    exact fun h => absurd hup (not_lt.mpr h)
  · rw [Nat.cast_add_one, add_sub_cancel_right]
    exact fun _ => ⟨hdown, hother⟩

end GridPoint

/-- The grid points around a number, and what the search of a grid comes to. -/
theorem gridPoint_cases {f : BinaryFormat} {m : ℕ} (hm : 0 < m) (e t : ℤ) (tie : Tie) :
    (∃ k, (Interval.ofMantissa f m e).gridPoint tie t = some k ∧ GridPoint f m e t k) ∨
      (Interval.ofMantissa f m e).gridPoint tie t = none ∧
        ∃ down : ℕ, (down : ℚ) * 10 ^ t ≤ m * 2 ^ e ∧ (m : ℚ) * 2 ^ e < (down + 1) * 10 ^ t ∧
          ¬f.RoundsTo m e (down * 10 ^ t) := by
  have hratio := shift_ratio (Interval.ofMantissa f m e).value (Interval.ofMantissa f m e).den t
  have hpos := shift_den_pos (Interval.ofMantissa f m e).value (ofMantissa_den_pos f m e) t
  have hinside := inside_iff f hm e t
  rw [ofMantissa_value] at hratio
  rw [Interval.gridPoint]
  generalize shift (Interval.ofMantissa f m e).value (Interval.ofMantissa f m e).den t = point
    at hratio hpos ⊢
  obtain ⟨n, d⟩ := point
  dsimp only at hratio hpos ⊢
  obtain ⟨hdown, hup, hnearDown, hnearUp⟩ := remainder_spec hpos (by positivity) hratio
  generalize n / d = down at *
  have hnext := hinside (down + 1)
  rw [Nat.cast_add_one] at hnext
  split
  case h_1 hindown hinup =>
    left
    by_cases hprefer : d < 2 * (n % d) ∨ d = 2 * (n % d) ∧ (tie = .up ∨ down % 2 = 1)
    · exact ⟨down + 1, by rw [if_pos (by simpa using hprefer)],
        .ofAbove hdown hup (hnext.mp hinup) (.inl (hnearUp (by omega)))⟩
    · exact ⟨down, by rw [if_neg (by simpa using hprefer)],
        .ofBelow hdown hup ((hinside down).mp hindown) (.inl (hnearDown (by omega)))⟩
  case h_2 hindown hinup =>
    exact .inl ⟨down, rfl, .ofBelow hdown hup ((hinside down).mp hindown)
      (.inr (mt hnext.mpr (Bool.eq_false_iff.mp hinup)))⟩
  case h_3 hindown hinup =>
    exact .inl ⟨down + 1, rfl, .ofAbove hdown hup (hnext.mp hinup)
      (.inr (mt (hinside down).mpr (Bool.eq_false_iff.mp hindown)))⟩
  case h_4 hindown hinup =>
    exact .inr ⟨rfl, down, hdown, hup, mt (hinside down).mpr (Bool.eq_false_iff.mp hindown)⟩

/-! ## The search for a grid -/

theorem roundsTo_of_lt {f : BinaryFormat} {m : ℕ} {e : ℤ} {v : ℚ} (hlow : f.lowEnd m e < v)
    (hhigh : v < highEnd m e) : f.RoundsTo m e v :=
  ⟨hlow.le, hhigh.le, .inr ⟨hlow, hhigh⟩⟩

theorem lt_highEnd (m : ℕ) (e : ℤ) : (m : ℚ) * 2 ^ e < highEnd m e := by
  rw [highEnd]
  gcongr
  linarith

/-- What rounds to a number reaches down from it by a fixed part of it. -/
theorem lowEnd_le {f : BinaryFormat} {m : ℕ} {e : ℤ} (h : f.Canonical m e) :
    f.lowEnd m e ≤ m * 2 ^ e - m * 2 ^ e / (4 * (Nat.pow 2 f.fractionBits : ℕ)) := by
  have hfull : (0 : ℚ) < (Nat.pow 2 f.fractionBits : ℕ) := by exact_mod_cast Nat.two_pow_pos _
  have hwidth : (m : ℚ) ≤ 2 * (Nat.pow 2 f.fractionBits : ℕ) := by exact_mod_cast h.width.le
  have hpart : (m : ℚ) / (4 * (Nat.pow 2 f.fractionBits : ℕ)) ≤
      if m = Nat.pow 2 f.fractionBits ∧ f.leastExponent < e then 1 / 4 else 1 / 2 := by
    rw [div_le_iff₀ (by positivity)]
    split_ifs with hpower
    · rw [hpower.1]
      linarith
    · linarith
  calc f.lowEnd m e ≤ (m - m / (4 * (Nat.pow 2 f.fractionBits : ℕ))) * 2 ^ e := by
        rw [lowEnd]
        gcongr
    _ = _ := by ring

/-- At single precision, a grid whose ninth digit is the last one has a point that rounds to the
number. -/
theorem gridPoint_ninth {m : ℕ} {e : ℤ} (h : single.Canonical m e) (hm : 0 < m) (tie : Tie)
    {lead : ℤ} (hlead : (10 : ℚ) ^ lead ≤ m * 2 ^ e) :
    ∃ k, (Interval.ofMantissa single m e).gridPoint tie (lead + 1 - (9 : ℕ)) = some k := by
  rcases gridPoint_cases (f := single) hm e (lead + 1 - (9 : ℕ)) tie with
    ⟨k, hk, _⟩ | ⟨_, down, hdown, hup, hnot⟩
  · exact ⟨k, hk⟩
  · refine absurd (roundsTo_of_lt ?_ (hdown.trans_lt (lt_highEnd m e))) hnot
    have hlow := lowEnd_le h
    have hfull : ((Nat.pow 2 single.fractionBits : ℕ) : ℚ) = 8388608 := by norm_num [single]
    have hgrid : (10 : ℚ) ^ (lead + 1 - (9 : ℕ)) = 10 ^ lead / 100000000 := by
      rw [add_sub_assoc, zpow_add₀ ten_ne_zero]
      norm_num
      ring
    rw [hgrid] at hup ⊢
    rw [hfull] at hlow
    have hpos : (0 : ℚ) < m * 2 ^ e := by positivity
    linarith

/-- The search ends at the first grid that has a point, and not after one that is known to. -/
theorem search_spec {f : BinaryFormat} {m : ℕ} (hm : 0 < m) (e : ℤ) (tie : Tie) (lead : ℤ)
    {known : ℕ}
    (hknown : ∃ k, (Interval.ofMantissa f m e).gridPoint tie (lead + 1 - known) = some k)
    (fuel count : ℕ) (hcount : count ≤ known) (hfuel : known < count + fuel) :
    ∃ (c k : ℕ), c ≤ known ∧
      (Interval.ofMantissa f m e).search tie lead count fuel = some ⟨k, lead + 1 - c⟩ ∧
      GridPoint f m e (lead + 1 - c) k := by
  induction fuel generalizing count with
  | zero => omega
  | succ fuel ih =>
    rw [Interval.search]
    rcases gridPoint_cases (f := f) hm e (lead + 1 - count) tie with ⟨k, hk, hpoint⟩ | ⟨hnone, _⟩
    · exact ⟨count, k, hcount, by rw [hk], hpoint⟩
    · have hlt : count < known := by
        refine lt_of_le_of_ne hcount ?_
        rintro rfl
        obtain ⟨k, hk⟩ := hknown
        rw [hk] at hnone
        cases hnone
      rw [hnone]
      exact ih (count + 1) hlt (by omega)

/-! ## The shortest decimal -/

/-- Removing zeros from the end does not change what a decimal stands for. -/
theorem value_normalize (d : Decimal) (fuel : ℕ) : (d.normalize fuel).value = d.value := by
  induction fuel generalizing d with
  | zero => rfl
  | succ fuel ih =>
    rw [normalize]
    split_ifs with h
    · rw [ih, value, value, zpow_add₀ ten_ne_zero, zpow_one,
        Nat.cast_div (Nat.dvd_of_mod_eq_zero h.2) (by norm_num)]
      ring
    · rfl

theorem digits_normalize_le (d : Decimal) (fuel : ℕ) : (d.normalize fuel).digits ≤ d.digits := by
  induction fuel generalizing d with
  | zero => exact le_refl _
  | succ fuel ih =>
    rw [normalize]
    split_ifs
    · exact (ih _).trans (Nat.div_le_self _ _)
    · exact le_refl _

theorem le_exponent_normalize (d : Decimal) (fuel : ℕ) :
    d.exponent ≤ (d.normalize fuel).exponent := by
  induction fuel generalizing d with
  | zero => exact le_refl _
  | succ fuel ih =>
    rw [normalize]
    split_ifs
    · exact le_trans (by simp) (ih _)
    · exact le_refl _

/-- The shortest decimal of a single precision number is a point of a grid of at most nine
digits. -/
theorem shortest_spec {m : ℕ} {e : ℤ} (h : single.Canonical m e) (hm : 0 < m) (tie : Tie) :
    ∃ (k : ℕ) (t : ℤ), GridPoint single m e t k ∧ (shortest single tie m e).value = k * 10 ^ t ∧
      (shortest single tie m e).digits ≤ k ∧ t ≤ (shortest single tie m e).exponent ∧
      (m : ℚ) * 2 ^ e < 10 ^ (t + 9) := by
  have hvalue := ofMantissa_value single m e
  have hden := ofMantissa_den_pos single m e
  have hX : (0 : ℚ) < m * 2 ^ e := by positivity
  have hnum : 0 < (Interval.ofMantissa single m e).value := by
    refine Nat.pos_of_ne_zero fun hzero => ?_
    rw [hzero, Nat.cast_zero, zero_div] at hvalue
    exact hX.ne hvalue
  obtain ⟨hlead, hlead'⟩ := leadExponent_spec hnum hden
  rw [hvalue] at hlead hlead'
  rw [shortest, if_neg hm.ne']
  dsimp only
  generalize leadExponent (Interval.ofMantissa single m e).value
    (Interval.ofMantissa single m e).den = lead at *
  obtain ⟨c, k, hc, hsearch, hpoint⟩ :=
    search_spec hm e tie lead (gridPoint_ninth h hm tie hlead) 17 1 (by omega) (by omega)
  rw [hsearch, Option.getD_some]
  refine ⟨k, lead + 1 - c, hpoint, value_normalize _ _, digits_normalize_le _ _,
    le_exponent_normalize _ _, hlead'.trans_le ?_⟩
  exact zpow_le_zpow_right₀ (by norm_num) (by omega)

/-! ## Decimals next to a border -/

theorem lowEnd_or_highEnd {f : BinaryFormat} {m : ℕ} {e : ℤ} {v : ℚ} (h : ¬f.RoundsTo m e v) :
    v ≤ f.lowEnd m e ∨ highEnd m e ≤ v := by
  by_contra hbetween
  rw [not_or, not_le, not_le] at hbetween
  exact h (roundsTo_of_lt hbetween.1 hbetween.2)

/-- A grid is at least as coarse as its point is far from the number, twice as far where the number
lies in the middle of what rounds to it. -/
theorem GridPoint.coarse {f : BinaryFormat} {m : ℕ} {e t : ℤ} {k : ℕ} (h : GridPoint f m e t k) :
    ((k : ℚ) * 10 ^ t ≤ m * 2 ^ e ∧ 2 * ((m : ℚ) * 2 ^ e - k * 10 ^ t) ≤ 10 ^ t) ∨
      ((m : ℚ) * 2 ^ e < k * 10 ^ t ∧ (2 * ((k : ℚ) * 10 ^ t - m * 2 ^ e) ≤ 10 ^ t ∨
        (k : ℚ) * 10 ^ t - f.lowEnd m e ≤ 10 ^ t)) := by
  have hlow := (f.lowEnd_ge m e).trans h.rounds.low
  have hlow' : f.lowEnd m e ≤ m * 2 ^ e := by
    have hunit : (0 : ℚ) < 2 ^ e := by positivity
    rw [lowEnd]
    gcongr
    split_ifs <;> linarith
  have hhigh := lt_highEnd m e
  rcases le_or_gt ((k : ℚ) * 10 ^ t) (m * 2 ^ e) with hbelow | habove
  · left
    obtain ⟨hnext, hother⟩ := h.below hbelow
    refine ⟨hbelow, hother.elim id fun hnot => ?_⟩
    rcases lowEnd_or_highEnd hnot with hout | hout
    · linarith
    · rw [highEnd] at hout
      linarith
  · right
    obtain ⟨hprevious, hother⟩ := h.above habove
    refine ⟨habove, hother.imp_right fun hnot => ?_⟩
    rcases lowEnd_or_highEnd hnot with hout | hout
    · linarith
    · linarith

/-- A decimal next to the border of what rounds to a single precision number has few digits. -/
theorem GridPoint.le_of_near {m : ℕ} {e t : ℤ} {k : ℕ} (hm : single.Canonical m e)
    (h : GridPoint single m e t k)
    (hnear : (k : ℚ) * 10 ^ t - single.lowEnd m e ≤ k * 10 ^ t / 2 ^ 51 ∨
      highEnd m e - (k : ℚ) * 10 ^ t ≤ k * 10 ^ t / 2 ^ 51) : k ≤ 2 ^ 24 := by
  by_contra hlt
  have hk : (16777217 : ℚ) ≤ k := by
    have : 16777217 ≤ k := by omega
    exact_mod_cast this
  have hgrid : (0 : ℚ) < 10 ^ t := by positivity
  have hunit : (0 : ℚ) < 2 ^ e := by positivity
  have hfew : (16777217 : ℚ) * 10 ^ t ≤ k * 10 ^ t := by gcongr
  have hwidth : (m : ℚ) * 2 ^ e ≤ 16777215 * 2 ^ e := by
    have : m ≤ 16777215 := by
      have := hm.width
      norm_num [single] at this
      omega
    have : (m : ℚ) ≤ 16777215 := by exact_mod_cast this
    gcongr
  have hhigh := h.rounds.high
  rw [highEnd, add_mul] at hnear hhigh
  have hcoarse := h.coarse
  rw [lowEnd, sub_mul] at hnear hcoarse
  by_cases hpower : m = Nat.pow 2 single.fractionBits ∧ single.leastExponent < e
  · rw [if_pos hpower] at hnear hcoarse
    have hm' : (m : ℚ) * 2 ^ e = 8388608 * 2 ^ e := by
      rw [hpower.1]
      norm_num [single]
    rcases hcoarse with ⟨_, hcoarse⟩ | ⟨_, hcoarse | hcoarse⟩ <;>
    rcases hnear with hnear | hnear <;>
    linarith
  · rw [if_neg hpower] at hnear hcoarse
    rcases hcoarse with ⟨_, hcoarse⟩ | ⟨_, hcoarse | hcoarse⟩ <;>
    rcases hnear with hnear | hnear <;>
    linarith

/-- The shortest decimal of a number rounds to it. -/
theorem roundsTo_shortest {m : ℕ} {e : ℤ} (h : single.Canonical m e) (hm : 0 < m) (tie : Tie) :
    single.RoundsTo m e (shortest single tie m e).value := by
  obtain ⟨k, t, hpoint, hvalue, _⟩ := shortest_spec h hm tie
  rw [hvalue]
  exact hpoint.rounds

/-! ## The range of shortest decimals -/

theorem single_width {m : ℕ} {e : ℤ} (h : single.Canonical m e) : m < 2 ^ 24 := by
  have hfull : 2 * Nat.pow 2 single.fractionBits = 2 ^ 24 := by decide
  exact hfull ▸ h.width

/-- The exponents of single precision are bounded. -/
theorem single_exponent {m : ℕ} {e : ℤ} (h : single.Canonical m e)
    (hfinite : single.pattern m e < single.infinityBits) : -149 ≤ e ∧ e ≤ 104 := by
  have hleast : single.leastExponent = -149 := by decide
  have hinfinity : single.infinityBits = 255 * 8388608 := by decide
  have hfull : Nat.pow 2 single.fractionBits = 8388608 := by decide
  refine ⟨hleast ▸ h.least, ?_⟩
  rw [pattern, hfull, hinfinity, hleast] at hfinite
  split_ifs at hfinite with hsmall
  · have := h.full.resolve_right (by rw [hfull]; omega)
    omega
  · omega

/-- The digits and the exponent of the shortest decimal of a single precision number. -/
theorem shortest_bounds {m : ℕ} {e : ℤ} (h : single.Canonical m e) (hm : 0 < m)
    (hfinite : single.pattern m e < single.infinityBits) (tie : Tie) :
    0 < (shortest single tie m e).digits ∧ (shortest single tie m e).digits < 2 ^ 53 ∧
      -54 < (shortest single tie m e).exponent ∧ (shortest single tie m e).exponent < 54 := by
  obtain ⟨k, t, hpoint, hvalue, hdigits, hexponent, hlead⟩ := shortest_spec h hm tie
  obtain ⟨hleast, hgreatest⟩ := single_exponent h hfinite
  have hunit : (0 : ℚ) < 2 ^ e := by positivity
  have hgrid : (0 : ℚ) < 10 ^ t := by positivity
  have hone : (1 : ℚ) ≤ m := by exact_mod_cast hm
  have hlow : (1 / 2 : ℚ) * 2 ^ e ≤ k * 10 ^ t := by
    have := (single.lowEnd_ge m e).trans hpoint.rounds.low
    nlinarith
  have hhigh : (k : ℚ) * 10 ^ t ≤ 2 * (m * 2 ^ e) := by
    have := hpoint.rounds.high
    rw [highEnd] at this
    nlinarith
  have hpos : 0 < (shortest single tie m e).digits := by
    refine Nat.pos_of_ne_zero fun hzero => ?_
    rw [value, hzero, Nat.cast_zero, zero_mul] at hvalue
    linarith
  refine ⟨hpos, lt_of_le_of_lt hdigits ?_, lt_of_lt_of_le ?_ hexponent, ?_⟩
  · have hfew : (k : ℚ) * 10 ^ t < 2000000000 * 10 ^ t := by
      rw [zpow_add₀ ten_ne_zero] at hlead
      norm_num at hlead
      linarith
    have : k < 2000000000 := by exact_mod_cast lt_of_mul_lt_mul_right hfew hgrid.le
    omega
  · have hsmall : (10 : ℚ) ^ (-45 : ℤ) < 10 ^ (t + 9) :=
      calc (10 : ℚ) ^ (-45 : ℤ) < 2 ^ (-149 : ℤ) := by norm_num
        _ ≤ 2 ^ e := zpow_le_zpow_right₀ one_le_two hleast
        _ ≤ m * 2 ^ e := le_mul_of_one_le_left hunit.le hone
        _ < 10 ^ (t + 9) := hlead
    have := (zpow_lt_zpow_iff_right₀ (by norm_num : (1 : ℚ) < 10)).mp hsmall
    omega
  · have hfirst : (1 : ℚ) ≤ (shortest single tie m e).digits := by exact_mod_cast hpos
    have hwidth : (m : ℚ) ≤ 2 ^ 24 := by exact_mod_cast (single_width h).le
    have hlarge : (10 : ℚ) ^ (shortest single tie m e).exponent < 10 ^ (54 : ℤ) :=
      calc (10 : ℚ) ^ (shortest single tie m e).exponent
          ≤ (shortest single tie m e).value := le_mul_of_one_le_left (by positivity) hfirst
        _ = k * 10 ^ t := hvalue
        _ ≤ 2 * (m * 2 ^ e) := hhigh
        _ ≤ 2 * (2 ^ 24 * 2 ^ (104 : ℤ)) := by gcongr; norm_num
        _ < 10 ^ (54 : ℤ) := by norm_num
    exact (zpow_lt_zpow_iff_right₀ (by norm_num : (1 : ℚ) < 10)).mp hlarge

end Decimal

end ShapeGrammar

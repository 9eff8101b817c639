import ShapeGrammar.Proofs.Grammar.Redrawing
import ShapeGrammar.Proofs.Number.Arithmetic

/-!
# Levels within their range

A level is computed from the start of a range, its length and a whole number, and each step is
rounded. What is lost by that is less than the slack that a valid attribute is allowed, so a level
is accepted wherever it is finite. It is finite unless the range is so long that its length, or its
end with the slack, is past the largest number. Main statement: `validate_of_reaches`.
-/
namespace ShapeGrammar

open BinaryFormat

/-! ## Bounds for a rounding -/

/-- A number that is not negative is changed by a small part of it, if it is not tiny. -/
theorem single_round_bounds {v : ℚ} (hv : 0 ≤ v) :
    v - (v / 2 ^ 24 + 1 / 2 ^ 50) ≤ single.round v ∧
      single.round v ≤ v + (v / 2 ^ 24 + 1 / 2 ^ 50) := by
  have hoff := single.abs_round_sub_le v
  have hunit : (2 : ℚ) ^ (single.leastExponent - 1) ≤ 1 / 2 ^ 50 := by
    rw [Float32.single_leastExponent]
    norm_num
  have hwidth : single.fractionBits + 1 = 24 := rfl
  rw [abs_of_nonneg hv, hwidth, abs_le] at hoff
  constructor <;> linarith

/-- The errors of a level add up to less than the slack. -/
theorem round_level_le {span k : ℚ} (hspan : 0 ≤ span) (hk : 0 ≤ k) (hk' : k ≤ 9) :
    single.round (k * single.round (single.round span / 9)) ≤
      span + single.round (single.round (single.round span * (13743895 / 2 ^ 37)) +
        8796093 / 2 ^ 43) := by
  -- three roundings take a level some 3 / 2 ^ 24 of the span too far, the slack is 1 / 10 ^ 4
  have hround {v : ℚ} (hv : 0 ≤ v) : 0 ≤ single.round v := single.round_nonneg hv
  obtain ⟨hlow, hhigh⟩ := single_round_bounds hspan
  have hlength := hround hspan
  generalize single.round span = length at *
  have hunit : 0 ≤ length / 9 := by positivity
  obtain ⟨_, hunitHigh⟩ := single_round_bounds hunit
  have hunit' := hround hunit
  generalize single.round (length / 9) = unit at *
  have hstep : 0 ≤ k * unit := by positivity
  have hmost : k * unit ≤ 9 * unit := by gcongr
  obtain ⟨_, hstepHigh⟩ := single_round_bounds hstep
  have hpart : 0 ≤ length * (13743895 / 2 ^ 37) := by positivity
  obtain ⟨hpartLow, _⟩ := single_round_bounds hpart
  have hpart' := hround hpart
  generalize single.round (length * (13743895 / 2 ^ 37)) = part at *
  have hslack : 0 ≤ part + 8796093 / 2 ^ 43 := by positivity
  obtain ⟨hslackLow, _⟩ := single_round_bounds hslack
  generalize single.round (k * unit) = step at *
  generalize single.round (part + 8796093 / 2 ^ 43) = slack at *
  generalize k * unit = product at *
  linarith

/-! ## Numbers that levels are made of -/

namespace Float32

theorem toRat_nine : (9.0 : Float32).isFinite = true ∧ toRat 9.0 = 9 := by
  have hnine : single.fraction (9.0 : Float32).toBits.toNat = (9 * 2 ^ 20, 2 ^ 20) := by
    decide +kernel
  obtain ⟨hfinite, hvalue⟩ := toRat_of_fraction (by decide +kernel) hnine
  exact ⟨hfinite, hvalue.trans (by norm_num)⟩

/-- The part of its length that a range may be left by. -/
theorem toRat_part : (0.0001 : Float32).isFinite = true ∧ toRat 0.0001 = 13743895 / 2 ^ 37 := by
  have hpart : single.fraction (0.0001 : Float32).toBits.toNat = (13743895, 2 ^ 37) := by
    decide +kernel
  obtain ⟨hfinite, hvalue⟩ := toRat_of_fraction (by decide +kernel) hpart
  exact ⟨hfinite, hvalue.trans (by norm_num)⟩

/-- How far any range may be left. -/
theorem toRat_least : (0.000001 : Float32).isFinite = true ∧
    toRat 0.000001 = 8796093 / 2 ^ 43 := by
  have hleast : single.fraction (0.000001 : Float32).toBits.toNat = (8796093, 2 ^ 43) := by
    decide +kernel
  obtain ⟨hfinite, hvalue⟩ := toRat_of_fraction (by decide +kernel) hleast
  exact ⟨hfinite, hvalue.trans (by norm_num)⟩

end Float32

/-! ## Levels -/

namespace Attribute

open ShapeGrammar.Float32

variable {a b : Attribute Float32}

/-- A range with finite ends, of which the first is not above the last. -/
structure Ordered (a : Attribute Float32) : Prop where
  start : a.start.isFinite = true
  stop : a.stop.isFinite = true
  order : toRat a.start ≤ toRat a.stop

namespace Ordered

/-- The length of a range, rounded. -/
theorem toRat_span (h : a.Ordered) (hspan : (a.stop - a.start).isFinite = true) :
    toRat (a.stop - a.start) = single.round (toRat a.stop - toRat a.start) ∧
      0 ≤ toRat (a.stop - a.start) ∧ toRat (a.stop - a.start) ≤ largest := by
  have hrounds := rounds_sub h.stop h.start
  have hvalue : toRat (a.stop - a.start) = single.round (toRat a.stop - toRat a.start) := by
    rw [hrounds.toRat_eq]
    apply single.nearest_eq_round
    rw [← hrounds.toRat_eq]
    exact (isFinite_iff_abs hrounds.number).mp hspan
  refine ⟨hvalue, ?_, (abs_le.mp (abs_toRat_le_largest hspan)).2⟩
  rw [hvalue]
  exact single.round_nonneg (sub_nonneg.mpr h.order)

/-- The largest number is nine times another one, which the unit is therefore not above. -/
theorem toRat_unit (h : a.Ordered) (hspan : (a.stop - a.start).isFinite = true) :
    a.unit.isFinite = true ∧ toRat a.unit = single.round (toRat (a.stop - a.start) / 9) ∧
      0 ≤ toRat a.unit ∧ toRat a.unit ≤ largest / 9 := by
  obtain ⟨_, hlow, hhigh⟩ := h.toRat_span hspan
  have hrounds : Rounds a.unit (toRat (a.stop - a.start) / toRat 9.0) :=
    rounds_div hspan toRat_nine.1 (by rw [toRat_nine.2]; norm_num)
  rw [toRat_nine.2] at hrounds
  have hninth : single.round (largest / 9) = largest / 9 := by
    have hself := single.round_eq_self (n := 1864135) (e := 104) (by decide) (by decide)
    rw [largest]
    norm_num at hself ⊢
    exact hself
  obtain ⟨hfinite, hvalue⟩ := hrounds.of_le_largest (by positivity) (by linarith)
  refine ⟨hfinite, hvalue, ?_, ?_⟩
  · rw [hvalue]
    exact single.round_nonneg (by positivity)
  · rw [hvalue, ← hninth]
    exact single.round_mono (by linarith)

/-- How far a level is above the start. -/
theorem toRat_step (h : a.Ordered) (hspan : (a.stop - a.start).isFinite = true) {k : ℕ}
    (hk : k ≤ 9) : ((k : Float32) * a.unit).isFinite = true ∧
      toRat ((k : Float32) * a.unit) = single.round (k * toRat a.unit) := by
  obtain ⟨hunit, _, hlow, hhigh⟩ := h.toRat_unit hspan
  obtain ⟨hcount, hcount'⟩ := toRat_natCast (by omega : k < 2 ^ 24)
  have hrounds := rounds_mul hcount hunit
  rw [hcount'] at hrounds
  have hcast : (k : ℚ) ≤ 9 := by exact_mod_cast hk
  refine hrounds.of_le_largest (by positivity) ?_
  calc (k : ℚ) * toRat a.unit ≤ 9 * (largest / 9) := by gcongr
    _ = largest := by ring

/-- The length of a range is not below zero, also if it is infinite. -/
theorem magnitude_span (h : a.Ordered) :
    Scalar.magnitude (a.stop - a.start) = a.stop - a.start := by
  have hrounds := rounds_sub h.stop h.start
  have hlow : 0 ≤ toRat (a.stop - a.start) := by
    rw [hrounds.toRat_eq, ← toRat_zero.2, ← nearest_toRat toRat_zero.1, toRat_zero.2]
    exact single.nearest_mono (sub_nonneg.mpr h.order)
  refine if_neg fun hnegative => ?_
  have hless := (lt_iff hrounds.number (number_of_isFinite toRat_zero.1)).mp hnegative
  rw [toRat_zero.2] at hless
  exact hless.not_ge hlow

theorem toRat_slack (h : a.Ordered) (hspan : (a.stop - a.start).isFinite = true) :
    a.slack.isFinite = true ∧ 0 ≤ toRat a.slack ∧ toRat a.slack = single.round
      (single.round (toRat (a.stop - a.start) * (13743895 / 2 ^ 37)) + 8796093 / 2 ^ 43) := by
  obtain ⟨_, hlow, hhigh⟩ := h.toRat_span hspan
  rw [slack, h.magnitude_span]
  have hlarge : 1 ≤ largest := by
    rw [largest]
    norm_num
  have hpart := rounds_mul hspan toRat_part.1
  rw [toRat_part.2] at hpart
  obtain ⟨hpart, hpart'⟩ := hpart.of_le_largest (by positivity) (by linarith)
  have hpartHigh := (single_round_bounds
    (by positivity : 0 ≤ toRat (a.stop - a.start) * (13743895 / 2 ^ 37))).2
  have hpartLow : 0 ≤ single.round (toRat (a.stop - a.start) * (13743895 / 2 ^ 37)) :=
    single.round_nonneg (by positivity)
  have hsum := rounds_add hpart toRat_least.1
  rw [hpart', toRat_least.2] at hsum
  obtain ⟨hfinite, hvalue⟩ := hsum.of_le_largest (by positivity) (by linarith)
  refine ⟨hfinite, ?_, hvalue⟩
  rw [hvalue]
  exact single.round_nonneg (by positivity)

/-- A level of a range whose length is finite is accepted, and it is finite if the upper end of
what is accepted is. -/
theorem levelValue_within (h : a.Ordered) (hspan : (a.stop - a.start).isFinite = true)
    (level : ℕ) : ¬a.levelValue level < a.start - a.slack ∧ ¬a.stop + a.slack < a.levelValue level ∧
      ((a.stop + a.slack).isFinite = true → (a.levelValue level).isFinite = true) := by
  obtain ⟨hlength, _⟩ := h.toRat_span hspan
  obtain ⟨_, hunit, hunitLow, _⟩ := h.toRat_unit hspan
  obtain ⟨hslack, hslackLow, hslack'⟩ := h.toRat_slack hspan
  have hk : min level 9 ≤ 9 := min_le_right level 9
  have hcast : ((min level 9 : ℕ) : ℚ) ≤ 9 := by exact_mod_cast hk
  obtain ⟨hstep, hstep'⟩ := h.toRat_step hspan hk
  have hvalue : Rounds (a.levelValue level) _ := rounds_add h.start hstep
  have hlow := rounds_sub h.start hslack
  have hhigh := rounds_add h.stop hslack
  -- both ends of what is accepted are rounded too, which keeps the order of the exact numbers
  have herrors := round_level_le (sub_nonneg.mpr h.order) (Nat.cast_nonneg (min level 9)) hcast
  rw [← hlength, ← hunit, ← hstep', ← hslack'] at herrors
  have hstepLow : 0 ≤ toRat (((min level 9 : ℕ) : Float32) * a.unit) := by
    rw [hstep']
    exact single.round_nonneg (by positivity)
  have habove : toRat (a.start - a.slack) ≤ toRat (a.levelValue level) := by
    rw [hlow.toRat_eq, hvalue.toRat_eq]
    exact single.nearest_mono (by linarith)
  have hbelow : toRat (a.levelValue level) ≤ toRat (a.stop + a.slack) := by
    rw [hhigh.toRat_eq, hvalue.toRat_eq]
    exact single.nearest_mono (by linarith)
  refine ⟨?_, ?_, fun hfinite => ?_⟩
  · rw [lt_iff hvalue.number hlow.number]
    exact habove.not_gt
  · rw [lt_iff hhigh.number hvalue.number]
    exact hbelow.not_gt
  · have hstart := (isFinite_iff_abs (number_of_isFinite h.start)).mp h.start
    have hend := (isFinite_iff_abs hhigh.number).mp hfinite
    have hfirst : toRat a.start ≤ toRat (a.levelValue level) := by
      rw [hvalue.toRat_eq, ← nearest_toRat h.start]
      exact single.nearest_mono (by rw [nearest_toRat h.start]; linarith)
    rw [isFinite_iff_abs hvalue.number, abs_lt]
    exact ⟨(abs_lt.mp hstart).1.trans_le hfirst, hbelow.trans_lt (abs_lt.mp hend).2⟩

theorem of_validate (hvalid : a.validate = .ok ()) (hranged : a.ranged = true) : a.Ordered := by
  obtain ⟨⟨_, hstart, hstop⟩, hrange⟩ := validate_eq_ok_iff.mp hvalid
  have hstart := isFinite_of_cancel hstart
  have hstop := isFinite_of_cancel hstop
  refine ⟨hstart, hstop, not_lt.mp fun hless => (hrange hranged).1 ?_⟩
  exact (lt_iff (number_of_isFinite hstop) (number_of_isFinite hstart)).mpr hless

end Ordered

/-- A range with a finite level is of finite length. -/
theorem isFinite_span_of_levelValue {level : ℕ} (h : (a.levelValue level).isFinite = true) :
    (a.stop - a.start).isFinite = true := by
  have hstep : (((min level 9 : ℕ) : Float32) * a.unit).isFinite = true := (isFinite_of_add h).2
  have hunit : a.unit.isFinite = true := (isFinite_of_mul hstep).2
  exact isFinite_of_div hunit

theorem isFinite_span_of_slack (hordered : a.Ordered) (h : (a.stop + a.slack).isFinite = true) :
    (a.stop - a.start).isFinite = true := by
  have hslack := (isFinite_of_add h).2
  rw [slack, hordered.magnitude_span] at hslack
  have hpart := (isFinite_of_add (x := (a.stop - a.start) * 0.0001) (y := 0.000001) hslack).1
  exact (isFinite_of_mul (y := 0.0001) hpart).1

/-- A later state of a valid attribute is valid if it is finite. -/
theorem Redrawn.validate_iff (h : a.Redrawn b) (hvalid : a.validate = .ok ()) :
    b.validate = .ok () ↔ Scalar.isFinite b.value = true := by
  obtain ⟨_, hstart, hstop, hranged, _, hslack⟩ := of_declaration_eq h.declaration
  obtain ⟨⟨_, hends⟩, hrange⟩ := validate_eq_ok_iff.mp hvalid
  rw [validate_eq_ok_iff, hstart, hstop, hranged, hslack]
  refine ⟨fun hb => hb.1.1, fun hfinite => ⟨⟨hfinite, hends⟩, fun hchoice => ?_⟩⟩
  rcases h.value with hkept | ⟨_, level, _, hlevel⟩
  · rw [hkept]
    exact hrange hchoice
  · rw [hlevel] at hfinite ⊢
    have hspan := isFinite_span_of_levelValue (isFinite_of_cancel hfinite)
    obtain ⟨hlow, hhigh, _⟩ := (Ordered.of_validate hvalid hchoice).levelValue_within hspan level
    exact ⟨(hrange hchoice).1, hlow, hhigh⟩

/-- A later state of a valid attribute is finite if the upper end of what is accepted is. -/
theorem Redrawn.isFinite_value (h : a.Redrawn b) (hvalid : a.validate = .ok ())
    (hlimit : a.ranged = true → Scalar.isFinite (a.stop + a.slack) = true) :
    Scalar.isFinite b.value = true := by
  rcases h.value with hkept | ⟨hchoice, level, _, hlevel⟩
  · rw [hkept]
    exact (validate_eq_ok_iff.mp hvalid).1.1
  · have hordered := Ordered.of_validate hvalid hchoice
    have hfinite := isFinite_of_cancel (hlimit hchoice)
    have hspan := isFinite_span_of_slack hordered hfinite
    rw [hlevel]
    exact cancel_of_isFinite ((hordered.levelValue_within hspan level).2.2 hfinite)

end Attribute

/-! ## Grammars -/

namespace Grammar

variable {g g' : Grammar Float32}

/-- A rule is checked against names and declarations, which stay. -/
theorem Redrawn.validateRule_eq (h : g.Redrawn g') : g'.validateRule = g.validateRule := by
  have hranged : g'.isRanged = g.isRanged := funext h.snapshot.isRanged_eq
  have hcontains : g'.attributes.contains = g.attributes.contains := by
    funext name
    rw [Table.contains, Table.contains, Bool.eq_iff_iff, Table.isSome_find?_iff,
      Table.isSome_find?_iff, h.keys]
  funext entry
  simp only [validateRule, rangedNames, hranged, hcontains]
  rfl

/-- A search leaves a valid grammar valid as long as the values it assigns are finite. They are if
for each choice the upper end of what is accepted is finite. -/
theorem validate_of_reaches (hvalid : g.validate = .ok ()) (h : g.Reaches g') :
    (g'.validate = .ok () ↔ ∀ b ∈ g'.attributes.values, Scalar.isFinite b.value = true) ∧
    ((∀ a ∈ g.attributes.values, a.ranged = true → Scalar.isFinite (a.stop + a.slack) = true) →
      g'.validate = .ok ()) := by
  have hredrawn := h.redrawn
  obtain ⟨hattributes, hrules⟩ := validate_eq_ok_iff.mp hvalid
  have hsource {b : Attribute Float32} (hb : b ∈ g'.attributes.values) :
      ∃ a ∈ g.attributes.values, a.Redrawn b := by
    obtain ⟨key, hkey⟩ := Table.mem_values_iff.mp hb
    have hname : (g.attributes.find? key).isSome = true := by
      rw [Table.isSome_find?_iff, ← hredrawn.keys, ← Table.isSome_find?_iff, hkey]
      rfl
    obtain ⟨a, ha⟩ := Option.isSome_iff_exists.mp hname
    obtain ⟨b', hb', hab⟩ := hredrawn.attributes ha
    rw [attribute?, hkey, Option.some.injEq] at hb'
    exact ⟨a, Table.mem_values_iff.mpr ⟨key, ha⟩, hb' ▸ hab⟩
  have hiff : g'.validate = .ok () ↔
      ∀ b ∈ g'.attributes.values, Scalar.isFinite b.value = true := by
    rw [validate_eq_ok_iff, hredrawn.rules, hredrawn.validateRule_eq, and_iff_left hrules]
    refine forall₂_congr fun b hb => ?_
    obtain ⟨a, ha, hab⟩ := hsource hb
    exact hab.validate_iff (hattributes a ha)
  refine ⟨hiff, fun hlimits => hiff.mpr fun b hb => ?_⟩
  obtain ⟨a, ha, hab⟩ := hsource hb
  exact hab.isFinite_value (hattributes a ha) (hlimits a ha)

theorem validate_of_reaches_house : ActionSpace.house.validate = .ok () ∧
    ActionSpace.house.Reaches (ActionSpace.house.randomizeAll (.seeded 7)).1 ∧
    (∀ a ∈ ActionSpace.house.attributes.values, a.ranged = true →
      Scalar.isFinite (a.stop + a.slack) = true) ∧
    (ActionSpace.house.randomizeAll (.seeded 7)).1.validate = .ok () := by
  have hvalid : ActionSpace.house.validate = .ok () := rfl
  have hreaches : ActionSpace.house.Reaches (ActionSpace.house.randomizeAll (.seeded 7)).1 :=
    .randomizeAll .refl _
  have hlimits : ∀ a ∈ ActionSpace.house.attributes.values, a.ranged = true →
      Scalar.isFinite (a.stop + a.slack) = true := by decide +kernel
  exact ⟨hvalid, hreaches, hlimits, (validate_of_reaches hvalid hreaches).2 hlimits⟩

/-- A prism whose height may have any sign and nearly any size. -/
def vast : Grammar Float32 where
  attributes := ⟨[("x", .choice "x" (-3e38) 3e38)], by decide⟩
  rules := ⟨[("Start", ⟨"Start", [.extrude ⟨"x", .attribute "x"⟩]⟩)], by decide⟩

/-- The length of such a range is infinite, and no level of it is a number. -/
theorem vast_left_invalid : vast.validate = .ok () ∧
    ∃ g', vast.Reaches g' ∧ g'.validate = .error (.nonFinite "x") := by
  have hspace : ActionSpace.ofShape vast "Start" = some ⟨["x"]⟩ := rfl
  exact ⟨by decide +kernel, _, .decode .refl .refl hspace 0, by decide +kernel⟩

end Grammar

end ShapeGrammar

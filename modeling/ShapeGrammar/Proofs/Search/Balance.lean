import Mathlib.Data.Set.Card
import Mathlib.Data.Set.Finite.List
import ShapeGrammar.Proofs.Grammar.Redrawing
import ShapeGrammar.Proofs.Number.Real
import ShapeGrammar.Proofs.Random.Below
import ShapeGrammar.Search.Acceptance

/-!
# Detailed balance

Without rounding, a sampler goes as often from one grammar to another as back. A local move leads
from a level to another by one direction at most, and the opposite direction leads back; at the ends
of a range, where a direction is lost, the level only stays. What is left to the acceptance is the
ratio of the two weights, and it is the smaller of one and that ratio. Main statement:
`detailed_balance`.
-/
namespace ShapeGrammar

/-! ## Acceptance -/

/-- Positive, increasing and turning sums into products. -/
structure Exponential (exp : ℝ → ℝ) : Prop where
  pos : ∀ r, 0 < exp r
  mono : Monotone exp
  add : ∀ r s, exp (r + s) = exp r * exp s

/-- The real numbers with an exponential function of some kind. -/
@[reducible]
noncomputable def withExponential (exp : ℝ → ℝ) : Elementary ℝ :=
  { (inferInstance : Elementary ℝ) with exp }

namespace Exponential

variable {exp : ℝ → ℝ}

theorem zero (h : Exponential exp) : exp 0 = 1 := by
  have hsquare := h.add 0 0
  rw [add_zero] at hsquare
  exact (mul_eq_left₀ (h.pos 0).ne').mp hsquare.symm

theorem sub (h : Exponential exp) (r s : ℝ) : exp (r - s) = exp r / exp s := by
  rw [eq_div_iff (h.pos s).ne', ← h.add, sub_add_cancel]

/-- Case by case the smaller of one and the exponential. -/
theorem expUpToOne_eq (h : Exponential exp) (r : ℝ) :
    @expUpToOne ℝ (withExponential exp) r = min 1 (exp r) := by
  have hzero : (0.0 : ℝ) = 0 := by norm_num
  have hone : (1.0 : ℝ) = 1 := by norm_num
  have hcases : @expUpToOne ℝ (withExponential exp) r = if (0.0 : ℝ) ≤ r then 1.0 else exp r := rfl
  rw [hcases, hzero, hone]
  split
  next hr =>
    rw [min_eq_left]
    exact h.zero.symm.trans_le (h.mono hr)
  next hr =>
    rw [min_eq_right]
    exact (h.mono (not_le.mp hr).le).trans_eq h.zero

theorem moveAcceptance_eq (h : Exponential exp) (energy next temperature : ℝ) :
    @moveAcceptance ℝ (withExponential exp) energy next temperature =
      min 1 (exp (-next / temperature) / exp (-energy / temperature)) := by
  have hratio : (energy - next) / temperature = -next / temperature - -energy / temperature := by
    ring
  rw [← h.sub, ← hratio]
  exact h.expUpToOne_eq _

theorem swapAcceptance_eq (h : Exponential exp) (energy₁ temperature₁ energy₂ temperature₂ : ℝ) :
    @swapAcceptance ℝ (withExponential exp) energy₁ temperature₁ energy₂ temperature₂ =
      min 1 (exp (-energy₂ / temperature₁ - energy₁ / temperature₂) /
        exp (-energy₁ / temperature₁ - energy₂ / temperature₂)) := by
  have hratio : (energy₁ - energy₂) * (1.0 / temperature₁ - 1.0 / temperature₂) =
      -energy₂ / temperature₁ - energy₁ / temperature₂ -
        (-energy₁ / temperature₁ - energy₂ / temperature₂) := by
    norm_num
    ring
  rw [← h.sub, ← hratio]
  exact h.expUpToOne_eq _

end Exponential

/-- A weight times the chance of going on to another one is the smaller of the two. -/
theorem mul_min_div {p q : ℝ} (hp : 0 < p) : p * min 1 (q / p) = min p q := by
  rw [mul_min_of_nonneg _ _ hp.le, mul_one, mul_div_cancel₀ _ hp.ne']

/-! ## Levels -/

/-- Unless it stays, a level is led back by the opposite direction. -/
theorem stepLevel_opposite {i j d : ℕ} (hi : i ≤ 9) (hne : i ≠ j) (hd : d < 3)
    (h : stepLevel d i = j) : stepLevel (2 - d) j = i := by
  unfold stepLevel at h ⊢
  split_ifs at h ⊢ <;> omega

theorem stepLevel_le {d i : ℕ} (h : i ≤ 9) : stepLevel d i ≤ 9 := by
  unfold stepLevel
  split_ifs <;> omega

/-- The directions that lead from one level to another. -/
def stepsBetween (i j : ℕ) : Set ℕ :=
  {d | d < 3 ∧ stepLevel d i = j}

theorem ncard_stepsBetween_comm {i j : ℕ} (hi : i ≤ 9) (hj : j ≤ 9) :
    (stepsBetween i j).ncard = (stepsBetween j i).ncard := by
  by_cases hij : i = j
  · rw [hij]
  have hopposite {i j : ℕ} (hi : i ≤ 9) (hij : i ≠ j) :
      ∀ d ∈ stepsBetween i j, 2 - d ∈ stepsBetween j i :=
    fun d hd => ⟨by omega, stepLevel_opposite hi hij hd.1 hd.2⟩
  refine Set.ncard_congr (fun d _ => 2 - d) (hopposite hi hij) ?_ fun d hd => ?_
  · intro d e hd he heq
    have hd := hd.1
    have he := he.1
    omega
  · have hback := hd.1
    exact ⟨2 - d, hopposite hj (Ne.symm hij) d hd, by omega⟩

namespace Attribute

variable {a b : Attribute ℝ}

theorem levelIndex_of_level {level : ℕ} (hunit : a.unit ≠ 0) (hlevel : level ≤ 9)
    (h : a.value = a.levelValue level) : a.levelIndex = level := by
  have hzero : (a.unit == (0.0 : ℝ)) = false := by
    norm_num
    exact hunit
  have hplace : (a.value - a.start) / a.unit = level := by
    rw [h, levelValue, min_eq_left hlevel, add_sub_cancel_left, mul_div_cancel_right₀ _ hunit]
  have hnearest : Scalar.nearest (level : ℝ) = level := by
    have htruncate : Scalar.truncate (level : ℝ) = level := Nat.floor_natCast level
    rw [Scalar.nearest, htruncate]
    norm_num
  rw [levelIndex, hzero, hplace, hnearest]
  exact min_eq_right hlevel

/-- Values of two levels are the same only if the levels are. -/
theorem levelValue_inj {i j : ℕ} (hunit : a.unit ≠ 0) (hi : i ≤ 9) (hj : j ≤ 9)
    (h : a.levelValue i = a.levelValue j) : i = j := by
  rw [levelValue, levelValue, min_eq_left hi, min_eq_left hj, add_right_inj,
    mul_left_inj' hunit] at h
  exact Nat.cast_injective h

/-- The levels of a range without length are all the same. -/
theorem levelValue_of_unit (hunit : a.unit = 0) (level : ℕ) : a.levelValue level = a.start := by
  rw [levelValue, hunit, mul_zero, add_zero]

theorem setLevel_of_value {level : ℕ} (h : a.value = a.levelValue level) :
    a.setLevel level = a := by
  rw [setLevel, ← h]

/-- The directions that take a choice to another one. -/
def stepsTo (a b : Attribute ℝ) : Set ℕ :=
  {d | d < 3 ∧ a.setLevel (stepLevel d a.levelIndex) = b}

theorem stepsTo_setLevel {i j : ℕ} (hunit : a.unit ≠ 0) (hi : i ≤ 9) (hj : j ≤ 9)
    (hvalue : a.value = a.levelValue i) : a.stepsTo (a.setLevel j) = stepsBetween i j := by
  ext d
  refine and_congr_right fun _ => ?_
  rw [levelIndex_of_level hunit hi hvalue]
  refine ⟨fun h => ?_, fun h => by rw [h]⟩
  exact levelValue_inj hunit (stepLevel_le hi) hj (congrArg Attribute.value h)

/-- The same attribute twice, or one choice with its value at two of its levels. -/
def Beside (a b : Attribute ℝ) : Prop :=
  a = b ∨ a.ranged = true ∧ ∃ i j, a.value = a.levelValue i ∧ b = a.setLevel j

theorem Beside.ranged_eq (h : a.Beside b) : b.ranged = a.ranged := by
  rcases h with rfl | ⟨_, _, _, _, rfl⟩ <;> rfl

theorem Beside.ncard_stepsTo (h : a.Beside b) : (a.stepsTo b).ncard = (b.stepsTo a).ncard := by
  rcases h with rfl | ⟨_, i, j, hvalue, rfl⟩
  · rfl
  -- levels of a range without length cannot be told apart, and need not be
  by_cases hunit : a.unit = 0
  · have hsame : a.setLevel j = a :=
      setLevel_of_value (by rw [hvalue, levelValue_of_unit hunit, levelValue_of_unit hunit])
    rw [hsame]
  have hlevel : a.setLevel j = a.setLevel (min j 9) := by
    rw [setLevel, setLevel, levelValue_min]
  have hi := min_le_right i 9
  have hj := min_le_right j 9
  rw [← a.levelValue_min i] at hvalue
  have hthere : a.stepsTo (a.setLevel (min j 9)) = stepsBetween (min i 9) (min j 9) :=
    stepsTo_setLevel hunit hi hj hvalue
  have hback : (a.setLevel (min j 9)).stepsTo (a.setLevel (min i 9)) =
      stepsBetween (min j 9) (min i 9) :=
    stepsTo_setLevel (a := a.setLevel (min j 9)) hunit hj hi rfl
  rw [setLevel_of_value hvalue] at hback
  rw [hlevel, hthere, hback]
  exact ncard_stepsBetween_comm hi hj

end Attribute

/-! ## Moves -/

namespace Generator

theorem direction_lt (rng : Generator) : rng.direction.1 < 3 := by
  have hthree : (3 : UInt64) = .ofNat 3 := rfl
  have hbelow : (rng.below (.ofNat 3)).1.toNat < 3 := below_lt (by decide) rng
  rw [direction, hthree]
  -- a draw on a variable generator is not to be computed
  generalize rng.below (.ofNat 3) = drawn at hbelow ⊢
  exact hbelow

/-- Directions are drawn as many as asked for, each one of the three. -/
theorem directions_spec (count : ℕ) (rng : Generator) :
    (rng.directions count).1.length = count ∧ ∀ d ∈ (rng.directions count).1, d < 3 := by
  induction count generalizing rng with
  | zero => exact ⟨rfl, List.forall_mem_nil _⟩
  | succ count ih =>
    obtain ⟨hlength, hbound⟩ := ih rng.direction.2
    have hcons : (rng.directions (count + 1)).1 =
        rng.direction.1 :: (directions count rng.direction.2).1 := rfl
    rw [hcons, List.length_cons, hlength]
    exact ⟨rfl, List.forall_mem_cons.mpr ⟨rng.direction_lt, hbound⟩⟩

end Generator

namespace Grammar

open Table (threadEntries)

/-- Directions for the choices of a list of entries that move its attributes to those of
another. -/
def waysBetween (entries others : List (String × Attribute ℝ)) : Set (List ℕ) :=
  {directions | directions.length = ((entries.map Prod.snd).filter (·.ranged)).length ∧
    (∀ d ∈ directions, d < 3) ∧ (threadEntries moveAttribute entries directions).1 = others}

/-- Entries with the same names, and attributes that are the same or choices at two levels. -/
def EntriesBeside : List (String × Attribute ℝ) → List (String × Attribute ℝ) → Prop :=
  List.Forall₂ fun entry other => entry.1 = other.1 ∧ entry.2.Beside other.2

variable {key : String} {a b : Attribute ℝ} {entries others : List (String × Attribute ℝ)}

theorem ncard_image_cons (s : Set ℕ) (t : Set (List ℕ)) :
    ((fun pair : ℕ × List ℕ => pair.1 :: pair.2) '' (s ×ˢ t)).ncard = s.ncard * t.ncard := by
  have hcons : Function.Injective fun pair : ℕ × List ℕ => pair.1 :: pair.2 := by
    rintro ⟨_, _⟩ ⟨_, _⟩ h
    cases h
    rfl
  rw [Set.ncard_image_of_injective _ hcons, Set.ncard_prod]

/-- A direction for the first choice and directions for the others are chosen independently. -/
theorem waysBetween_cons_ranged (ha : a.ranged = true) :
    waysBetween ((key, a) :: entries) ((key, b) :: others) =
      (fun pair => pair.1 :: pair.2) '' (a.stepsTo b ×ˢ waysBetween entries others) := by
  ext directions
  cases directions with
  | nil => simp [waysBetween, ha]
  | cons d rest =>
    have hchoices : (((key, a) :: entries).map Prod.snd).filter (·.ranged) =
        a :: (entries.map Prod.snd).filter (·.ranged) := List.filter_cons_of_pos ha
    have hmove : (threadEntries moveAttribute ((key, a) :: entries) (d :: rest)).1 =
        (key, a.setLevel (stepLevel d a.levelIndex)) ::
          (threadEntries moveAttribute entries rest).1 := by
      simp [threadEntries, moveAttribute, ha]
    simp only [waysBetween, Set.mem_ofPred_eq, hchoices, hmove, List.length_cons,
      List.forall_mem_cons, List.cons.injEq, Prod.mk.injEq, Nat.add_right_cancel_iff, true_and,
      Set.mem_image, Set.mem_prod, Attribute.stepsTo, Prod.exists]
    constructor
    · rintro ⟨hlength, ⟨hd, hrest⟩, hb, hothers⟩
      exact ⟨d, rest, ⟨⟨hd, hb⟩, hlength, hrest, hothers⟩, rfl, rfl⟩
    · rintro ⟨_, _, ⟨⟨hd, hb⟩, hlength, hrest, hothers⟩, rfl, rfl⟩
      exact ⟨hlength, ⟨hd, hrest⟩, hb, hothers⟩

theorem waysBetween_cons_constant (ha : a.ranged = false) :
    waysBetween ((key, a) :: entries) ((key, a) :: others) = waysBetween entries others := by
  ext directions
  simp [waysBetween, ha, threadEntries, moveAttribute]

theorem ncard_waysBetween_comm (h : EntriesBeside entries others) :
    (waysBetween entries others).ncard = (waysBetween others entries).ncard := by
  induction h with
  | nil => rfl
  | @cons entry other entries others hfirst _ ih =>
    obtain ⟨key, a⟩ := entry
    obtain ⟨key', b⟩ := other
    obtain ⟨rfl, hbeside⟩ := hfirst
    cases ha : a.ranged with
    | true =>
      have hb : b.ranged = true := hbeside.ranged_eq.trans ha
      rw [waysBetween_cons_ranged ha, waysBetween_cons_ranged hb, ncard_image_cons,
        ncard_image_cons, hbeside.ncard_stepsTo, ih]
    | false =>
      rcases hbeside with rfl | ⟨hranged, -⟩
      · rw [waysBetween_cons_constant ha, waysBetween_cons_constant ha, ih]
      · rw [ha] at hranged
        contradiction

/-- Directions for the choices of a grammar that move it to another one. -/
def ways (g h : Grammar ℝ) : Set (List ℕ) :=
  {directions | directions.length = g.choiceCount ∧ (∀ d ∈ directions, d < 3) ∧
    g.move directions = h}

/-- Grammars that differ in values of choices only, all at their levels. -/
structure Beside (g h : Grammar ℝ) : Prop where
  rules : g.rules = h.rules
  attributes : EntriesBeside g.attributes.entries h.attributes.entries

variable {g h : Grammar ℝ}

theorem ways_eq (hrules : g.rules = h.rules) :
    g.ways h = waysBetween g.attributes.entries h.attributes.entries := by
  ext directions
  refine and_congr_right fun _ => and_congr_right fun _ => ⟨?_, fun hentries => ?_⟩
  · rintro rfl
    rfl
  · obtain ⟨⟨others, _⟩, rules⟩ := h
    cases hentries
    cases hrules
    rfl

theorem Beside.ncard_ways (hbeside : g.Beside h) : (g.ways h).ncard = (h.ways g).ncard := by
  rw [ways_eq hbeside.rules, ways_eq hbeside.rules.symm]
  exact ncard_waysBetween_comm hbeside.attributes

theorem finite_ways (g h : Grammar ℝ) : (g.ways h).Finite := by
  refine ((List.finite_length_eq (Fin 3) g.choiceCount).image (List.map Fin.val)).subset ?_
  rintro directions ⟨hlength, hbound, -⟩
  lift directions to List (Fin 3) using hbound
  exact ⟨directions, by simpa using hlength, rfl⟩

/-- Without rounding, and with any exponential function, a sampler is in detailed balance. A move is
proposed by one direction for each choice of a grammar. Between two grammars that differ in values
of choices at their levels, as many ways lead there as back; their number, times the weight of the
one energy and the chance of going on to the other, is the same both ways. Exchanging the
temperatures of two chains balances too. Either chance is the ratio of the two weights, up to
one. -/
theorem detailed_balance {exp : ℝ → ℝ} (hexp : Exponential exp) :
    (∀ (g : Grammar ℝ) (rng : Generator),
      (rng.directions g.choiceCount).1 ∈ g.ways (g.propose rng).1) ∧
    (∀ g h : Grammar ℝ, g.Beside h → ∀ energy next temperature : ℝ,
      (g.ways h).Finite ∧ (g.ways h).ncard = (h.ways g).ncard ∧
      exp (-energy / temperature) * (g.ways h).ncard *
          @moveAcceptance ℝ (withExponential exp) energy next temperature =
        exp (-next / temperature) * (h.ways g).ncard *
          @moveAcceptance ℝ (withExponential exp) next energy temperature ∧
      @moveAcceptance ℝ (withExponential exp) energy next temperature =
        min 1 (exp (-next / temperature) / exp (-energy / temperature))) ∧
    (∀ energy₁ temperature₁ energy₂ temperature₂ : ℝ,
      let here := exp (-energy₁ / temperature₁ - energy₂ / temperature₂)
      let there := exp (-energy₂ / temperature₁ - energy₁ / temperature₂)
      let swap : ℝ → ℝ → ℝ → ℝ → ℝ := @swapAcceptance ℝ (withExponential exp)
      here * swap energy₁ temperature₁ energy₂ temperature₂ =
        there * swap energy₂ temperature₁ energy₁ temperature₂ ∧
      swap energy₁ temperature₁ energy₂ temperature₂ = min 1 (there / here)) := by
  refine ⟨fun g rng => ?_, fun g h hbeside energy next temperature => ?_,
    fun energy₁ temperature₁ energy₂ temperature₂ => ?_⟩
  · obtain ⟨hlength, hbound⟩ := Generator.directions_spec g.choiceCount rng
    exact ⟨hlength, hbound, rfl⟩
  · refine ⟨finite_ways g h, hbeside.ncard_ways, ?_, hexp.moveAcceptance_eq _ _ _⟩
    rw [hexp.moveAcceptance_eq, hexp.moveAcceptance_eq, hbeside.ncard_ways, mul_right_comm,
      mul_min_div (hexp.pos _), mul_right_comm (exp (-next / temperature)),
      mul_min_div (hexp.pos _), min_comm]
  · intro here there swap
    have hhere : swap energy₁ temperature₁ energy₂ temperature₂ = min 1 (there / here) :=
      hexp.swapAcceptance_eq _ _ _ _
    have hthere : swap energy₂ temperature₁ energy₁ temperature₂ = min 1 (here / there) :=
      hexp.swapAcceptance_eq _ _ _ _
    refine ⟨?_, hhere⟩
    rw [hhere, hthere, mul_min_div (hexp.pos _), mul_min_div (hexp.pos _), min_comm]

/-- A choice whose levels are the whole numbers up to nine. -/
noncomputable def digit (value : ℝ) : Attribute ℝ :=
  { Attribute.choice "x" 0 9 with value }

/-- A grammar with one choice. -/
noncomputable def slider (value : ℝ) : Grammar ℝ where
  attributes := ⟨[("x", digit value)], by simp⟩
  rules := .empty

theorem unit_digit (value : ℝ) : (digit value).unit = 1 := by
  norm_num [digit, Attribute.unit, Attribute.choice]

theorem levelValue_digit (value : ℝ) (level : ℕ) :
    (digit value).levelValue level = (min level 9 : ℕ) := by
  rw [Attribute.levelValue, unit_digit, mul_one]
  exact zero_add _

theorem detailed_balance_slider :
    0 < ((slider 0).ways (slider 1)).ncard ∧
    Real.exp (-3 / 2) * ((slider 0).ways (slider 1)).ncard * moveAcceptance (3 : ℝ) 5 2 =
      Real.exp (-5 / 2) * ((slider 1).ways (slider 0)).ncard * moveAcceptance (5 : ℝ) 3 2 := by
  have hlow : (digit 0).value = (digit 0).levelValue 0 := by
    rw [levelValue_digit]
    exact Nat.cast_zero.symm
  have hhigh : digit 1 = (digit 0).setLevel 1 := by
    rw [Attribute.setLevel, levelValue_digit]
    exact congrArg digit Nat.cast_one.symm
  have hbeside : (slider 0).Beside (slider 1) :=
    ⟨rfl, .cons ⟨rfl, .inr ⟨rfl, 0, 1, hlow, hhigh⟩⟩ .nil⟩
  have hmove : [2] ∈ (slider 0).ways (slider 1) := by
    have hunit : (digit 0).unit ≠ 0 := by
      rw [unit_digit]
      exact one_ne_zero
    have hup : 2 ∈ (digit 0).stepsTo (digit 1) := by
      rw [hhigh, Attribute.stepsTo_setLevel hunit (Nat.zero_le 9) (by decide) hlow]
      exact ⟨by decide, rfl⟩
    have hways : (slider 0).ways (slider 1) =
        waysBetween [("x", digit 0)] [("x", digit 1)] := ways_eq rfl
    rw [hways, waysBetween_cons_ranged rfl]
    exact ⟨(2, []), ⟨hup, rfl, List.forall_mem_nil _, rfl⟩, rfl⟩
  have hexp : Exponential Real.exp := ⟨Real.exp_pos, Real.exp_monotone, Real.exp_add⟩
  obtain ⟨-, hmoves, -⟩ := detailed_balance hexp
  obtain ⟨hfinite, -, hbalance, -⟩ := hmoves _ _ hbeside 3 5 2
  exact ⟨(Set.ncard_pos hfinite).mpr ⟨[2], hmove⟩, hbalance⟩

end Grammar

end ShapeGrammar

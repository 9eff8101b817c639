import Mathlib.Algebra.Order.BigOperators.Group.List
import Mathlib.Tactic.FieldSimp
import Mathlib.Tactic.Ring
import ShapeGrammar.Proofs.Number.Evaluable
import ShapeGrammar.Search.RunningStats

/-!
# Statistics of all samples

Without rounding, samples that are taken in one at a time leave what two passes over all of them
find: the average of the samples in the first, the average of their squared distances from it in the
second. Main statement: `ofSamples_twoPass`.
-/
namespace ShapeGrammar

namespace RunningStats

/-! ## Two passes -/

/-- The average of samples, and zero if there are none. -/
def average (samples : List ℚ) : ℚ :=
  samples.sum / samples.length

/-- The squared distances of samples from a centre. -/
def squaredDistances (samples : List ℚ) (centre : ℚ) : List ℚ :=
  samples.map fun x => (x - centre) ^ 2

theorem length_mul_average (samples : List ℚ) :
    samples.length * average samples = samples.sum := by
  cases samples with
  | nil => exact zero_mul _
  | cons x samples => exact mul_div_cancel₀ _ (Nat.cast_ne_zero.mpr (Nat.succ_ne_zero _))

theorem sum_squaredDistances_nonneg (samples : List ℚ) (centre : ℚ) :
    0 ≤ (squaredDistances samples centre).sum :=
  List.sum_nonneg (List.forall_mem_map.mpr fun x _ => sq_nonneg (x - centre))

theorem sum_squaredDistances_concat (samples : List ℚ) (x centre : ℚ) :
    (squaredDistances (samples ++ [x]) centre).sum =
      (squaredDistances samples centre).sum + (x - centre) ^ 2 := by
  simp [squaredDistances]

/-- Fewer than two samples do not differ from their average. -/
theorem sum_squaredDistances_average_eq_zero {samples : List ℚ} (h : samples.length < 2) :
    (squaredDistances samples (average samples)).sum = 0 := by
  match samples with
  | [] => rfl
  | [x] => simp [squaredDistances, average]
  | _ :: _ :: _ =>
    rw [List.length_cons, List.length_cons] at h
    omega

/-! ## One pass -/

variable {s t : RunningStats ℚ} {samples others : List ℚ}

theorem count_push (s : RunningStats ℚ) (x : ℚ) : (s.push x).count = s.count + 1 :=
  rfl

theorem mean_push (s : RunningStats ℚ) (x : ℚ) :
    (s.push x).mean = s.mean + (x - s.mean) / (s.count + 1 : ℕ) :=
  rfl

theorem deviation_push (s : RunningStats ℚ) (x : ℚ) :
    (s.push x).deviation = s.deviation + (x - s.mean) * (x - (s.push x).mean) :=
  rfl

/-- What statistics keep of the samples that they have taken in. Around any centre the squared
distances of all samples are those around the mean, and that of the mean once for each sample. -/
structure Summarizes (s : RunningStats ℚ) (samples : List ℚ) : Prop where
  count_eq : s.count = samples.length
  mean_eq : s.mean = average samples
  around : ∀ centre,
    (squaredDistances samples centre).sum = s.deviation + s.count * (s.mean - centre) ^ 2

theorem summarizes_empty : Summarizes empty [] where
  count_eq := rfl
  mean_eq := Scalar.zero_rat.trans (zero_div _).symm
  around centre := by
    have hdeviation : (empty : RunningStats ℚ).deviation = 0 := Scalar.zero_rat
    have hcount : (empty : RunningStats ℚ).count = 0 := rfl
    rw [hdeviation, hcount, Nat.cast_zero, zero_mul, add_zero]
    rfl

theorem Summarizes.push (h : s.Summarizes samples) (x : ℚ) :
    (s.push x).Summarizes (samples ++ [x]) where
  count_eq := by rw [count_push, h.count_eq, List.length_append, List.length_singleton]
  mean_eq := by
    have hsum : samples.sum = s.count * s.mean := by
      rw [h.count_eq, h.mean_eq, length_mul_average]
    rw [mean_push, average, List.sum_append, List.sum_singleton, List.length_append,
      List.length_singleton, hsum, ← h.count_eq, Nat.cast_add_one]
    field_simp
    ring
  around centre := by
    rw [sum_squaredDistances_concat, h.around, deviation_push, mean_push, count_push,
      Nat.cast_add_one]
    -- The mean moves by a quotient with the new count, which is not zero.
    field_simp
    ring

theorem Summarizes.foldl_push (h : s.Summarizes samples) (others : List ℚ) :
    (others.foldl RunningStats.push s).Summarizes (samples ++ others) := by
  induction others generalizing s samples with
  | nil => rwa [List.append_nil]
  | cons x others ih =>
    rw [List.append_cons]
    exact ih (h.push x)

/-- The statistics of samples, taken in one after the other. -/
def ofSamples {β : Type} [Scalar β] (samples : List β) : RunningStats β :=
  samples.foldl push empty

theorem summarizes_ofSamples (samples : List ℚ) : (ofSamples samples).Summarizes samples :=
  summarizes_empty.foldl_push samples

namespace Summarizes

theorem deviation_eq (h : s.Summarizes samples) :
    s.deviation = (squaredDistances samples (average samples)).sum := by
  rw [h.around, h.mean_eq, sub_self, zero_pow two_ne_zero, mul_zero, add_zero]

theorem variance_eq (h : s.Summarizes samples) :
    s.variance = average (squaredDistances samples (average samples)) := by
  have hlength : (squaredDistances samples (average samples)).length = samples.length :=
    List.length_map _
  rw [variance, average, hlength, h.count_eq, h.deviation_eq]
  split
  next hfew => rw [sum_squaredDistances_average_eq_zero hfew, zero_div, Scalar.zero_rat]
  · rfl

/-- Statistics are told by the samples, in whatever order. -/
theorem eq_of_perm (h : s.Summarizes samples) (hother : t.Summarizes others)
    (hperm : others.Perm samples) : t = s := by
  have haverage : average others = average samples := by
    rw [average, average, hperm.sum_eq, hperm.length_eq]
  have hcount : t.count = s.count := by rw [hother.count_eq, h.count_eq, hperm.length_eq]
  have hmean : t.mean = s.mean := by rw [hother.mean_eq, h.mean_eq, haverage]
  have hdeviation : t.deviation = s.deviation := by
    rw [hother.deviation_eq, h.deviation_eq, haverage]
    exact (hperm.map _).sum_eq
  exact (RunningStats.mk.injEq ..).mpr ⟨hcount, hmean, hdeviation⟩

end Summarizes

/-- Without rounding, samples that are taken in one at a time are counted, their mean is their
average, and their variance is the average of their squared distances from it: zero for fewer than
two samples and never negative. The order of the samples leaves no trace. -/
theorem ofSamples_twoPass (samples : List ℚ) :
    let s : RunningStats ℚ := ofSamples samples
    s.count = samples.length ∧ s.mean = average samples ∧
    s.variance = average (samples.map fun x => (x - average samples) ^ 2) ∧
    (samples.length < 2 → s.variance = 0) ∧ 0 ≤ s.variance ∧
    ∀ others, others.Perm samples → ofSamples others = s := by
  intro s
  have hall : s.Summarizes samples := summarizes_ofSamples samples
  refine ⟨hall.count_eq, hall.mean_eq, hall.variance_eq, fun hfew => ?_, ?_,
    fun others hperm => hall.eq_of_perm (summarizes_ofSamples others) hperm⟩
  · rw [hall.variance_eq, average, sum_squaredDistances_average_eq_zero hfew, zero_div]
  · rw [hall.variance_eq]
    exact div_nonneg (sum_squaredDistances_nonneg samples _) (Nat.cast_nonneg _)

/-- Five samples of a short run. -/
def shortRun : List ℚ :=
  [1 / 2, 1 / 4, 9 / 10, 1 / 10, 7 / 10]

theorem ofSamples_twoPass_shortRun :
    (ofSamples shortRun).mean = 49 / 100 ∧ (ofSamples shortRun).variance = 211 / 2500 ∧
    ofSamples shortRun.reverse = ofSamples shortRun ∧
    [(3 : ℚ)].length < 2 ∧ (ofSamples [(3 : ℚ)]).variance = 0 := by
  obtain ⟨-, hmean, hvariance, -, -, horder⟩ := ofSamples_twoPass shortRun
  obtain ⟨-, -, -, hfew, -⟩ := ofSamples_twoPass [3]
  exact ⟨hmean.trans (by decide +kernel), hvariance.trans (by decide +kernel),
    horder _ (List.reverse_perm _), by decide, hfew (by decide)⟩

end RunningStats

end ShapeGrammar

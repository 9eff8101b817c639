import Mathlib.Analysis.SpecialFunctions.Log.Basic
import Mathlib.Analysis.SpecialFunctions.Trigonometric.Basic
import Mathlib.Analysis.SpecialFunctions.Pow.NNReal
import ShapeGrammar.Proofs.Number.Exact

/-!
# Real numbers as scalars

Read at the real numbers a definition says what it would compute if no operation rounded.
-/
namespace ShapeGrammar

noncomputable instance : Elementary ℝ where
  beq x y := @decide (x = y) (Classical.propDecidable _)
  decLt _ _ := Classical.propDecidable _
  decLe _ _ := Classical.propDecidable _
  lt_irrefl := lt_irrefl
  lt_trans := lt_trans
  beq_self_of_lt _ := ⟨decide_eq_true rfl, decide_eq_true rfl⟩
  lt_or_lt h _ := (lt_or_ge _ _).imp_right fun hle => lt_of_le_of_lt hle h
  truncate x := ⌊x⌋₊
  ofDecimal digits places := digits / 10 ^ places
  sqrt := Real.sqrt
  sin := Real.sin
  cos := Real.cos
  tan := Real.tan
  exp := Real.exp
  log := Real.log
  halfTurn := Real.pi

theorem Scalar.zero_real : (0.0 : ℝ) = 0 := by
  norm_num

theorem Scalar.one_real : (1.0 : ℝ) = 1 := by
  norm_num

/-- Nothing is lost between real numbers. -/
noncomputable instance : Precision ℝ ℝ where
  widen := id
  narrow := id

noncomputable instance : Exact ℝ where
  real := id
  real_add _ _ := rfl
  real_sub _ _ := rfl
  real_mul _ _ := rfl
  real_div _ _ := rfl
  real_lt _ _ := Iff.rfl
  real_le _ _ := Iff.rfl
  real_natCast _ := rfl
  real_ofScientific _ _ _ := rfl

end ShapeGrammar

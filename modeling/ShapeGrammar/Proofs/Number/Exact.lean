import Mathlib.Data.Real.Basic
import ShapeGrammar.Proofs.Number.Evaluable

/-!
# Exact numbers

Scalars are exact if they stand for real numbers and compute as these do. What is proved of exact
scalars is said of the real numbers they stand for, so that it holds of rational and of real numbers
alike.
-/
namespace ShapeGrammar

/-- Scalars that stand for real numbers and compute with them without rounding. -/
class Exact (α : Type) [Scalar α] where
  real : α → ℝ
  real_add : ∀ x y : α, real (x + y) = real x + real y
  real_sub : ∀ x y : α, real (x - y) = real x - real y
  real_mul : ∀ x y : α, real (x * y) = real x * real y
  real_div : ∀ x y : α, real (x / y) = real x / real y
  real_lt : ∀ x y : α, x < y ↔ real x < real y
  real_le : ∀ x y : α, x ≤ y ↔ real x ≤ real y
  real_natCast : ∀ n : ℕ, real (n : α) = n
  real_ofScientific : ∀ (digits : ℕ) (down : Bool) (places : ℕ),
    real (OfScientific.ofScientific digits down places : α) =
      OfScientific.ofScientific digits down places

attribute [simp] Exact.real_add Exact.real_sub Exact.real_mul Exact.real_div Exact.real_natCast

noncomputable instance : Exact ℚ where
  real x := (x : ℝ)
  real_add := Rat.cast_add
  real_sub := Rat.cast_sub
  real_mul := Rat.cast_mul
  real_div := Rat.cast_div
  real_lt _ _ := Rat.cast_lt.symm
  real_le _ _ := Rat.cast_le.symm
  real_natCast := Rat.cast_natCast
  real_ofScientific := by
    intro digits down places
    exact Rat.cast_ofScientific digits down places

end ShapeGrammar

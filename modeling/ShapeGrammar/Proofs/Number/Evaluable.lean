import Mathlib.Algebra.Order.Ring.Rat
import Mathlib.Data.Rat.Floor
import ShapeGrammar.Number.Machine

/-!
# Numbers to evaluate with

Sines, exponentials and the like are not computed within proofs at machine precision. Buildings and
drawings whose corners are all square can be evaluated at exact numbers instead, and their scores at
machine numbers with an exponential function that is right where scores are extreme.
-/
namespace ShapeGrammar

/-- The sine of the last quarter turn that an angle in degrees has passed. -/
def quarterSine (degrees : ℚ) : ℚ :=
  match (degrees / 90).floor % 4 with
  | 1 => 1
  | 3 => -1
  | _ => 0

/-- Exact numbers, for buildings and cameras that stand square to each other: angles are in degrees
and the sines are those of quarter turns, roots are whole, and a curve that is not met is replaced
by its tangent. -/
instance : Elementary ℚ where
  decLt := inferInstance
  decLe := inferInstance
  lt_irrefl := lt_irrefl
  lt_trans := lt_trans
  beq_self_of_lt _ := ⟨beq_self_eq_true _, beq_self_eq_true _⟩
  lt_or_lt h _ := (lt_or_ge _ _).imp_right fun hle => lt_of_le_of_lt hle h
  truncate x := x.floor.toNat
  ofDecimal digits places := digits / 10 ^ places
  sqrt x := (x.floor.toNat.sqrt : ℕ)
  sin := quarterSine
  cos x := quarterSine (x + 90)
  tan x := x / 45
  exp x := 1 + x
  log x := x - 1
  halfTurn := 180

theorem Scalar.zero_rat : (0.0 : ℚ) = 0 := by
  decide +kernel

theorem Scalar.one_rat : (1.0 : ℚ) = 1 := by
  decide +kernel

/-- Machine numbers for scores. The exponential function is cut down to its tangent at zero and to
zero where that is negative: at zero, at both infinities and where there is no number it is
right. -/
def Score : Type :=
  Float

instance : Scalar Score :=
  inferInstanceAs (Scalar Float)

instance : DecidableEq Score :=
  inferInstanceAs (DecidableEq Float)

instance : Elementary Score where
  sqrt := Float.sqrt
  sin x := x
  cos _ := 1.0
  tan x := x
  exp x := if (1.0 : Score) + x < 0.0 then 0.0 else 1.0 + x
  log x := x - 1.0
  halfTurn := (3.141592653589793 : Score)

instance : Precision ℚ Score where
  widen x := (Scalar.truncate x : Nat)
  narrow x := (Scalar.truncate x : Nat)

end ShapeGrammar

/-!
# Numbers a building is measured in

Attribute values, geometry, image distances and search scores are computed with the few operations
of `Scalar` and `Elementary`. Programs run them at machine precision; every definition that takes
a `Scalar` can also be read at exact numbers, where the operations obey their algebraic laws.

The order is given by decidable relations rather than by a total order: a machine number that is
not a number compares with nothing, and the definitions below say what happens to it. The laws that
are asked of the strict relation hold for machine numbers too.
-/
namespace ShapeGrammar

/-- Field operations, comparisons, decimal literals and the whole part of a number. -/
class Scalar (α : Type) extends
    Add α, Sub α, Mul α, Div α, Neg α, LT α, LE α, BEq α, OfScientific α, NatCast α where
  decLt : (x y : α) → Decidable (x < y)
  decLe : (x y : α) → Decidable (x ≤ y)
  lt_irrefl : ∀ x : α, ¬x < x
  lt_trans : ∀ {x y z : α}, x < y → y < z → x < z
  /-- What compares with a value equals itself. -/
  beq_self_of_lt : ∀ {x y : α}, x < y → (x == x) = true ∧ (y == y) = true
  /-- Whatever equals itself lies above the lower or below the upper of two different values. -/
  lt_or_lt : ∀ {x y z : α}, x < y → (z == z) = true → x < z ∨ z < y
  /-- The whole part of a number: zero below one and where there is none. -/
  truncate : α → Nat
  /-- The number nearest to `digits / 10 ^ places`. -/
  ofDecimal : (digits places : Nat) → α

/-- Scalars with roots, angles and exponentials. -/
class Elementary (α : Type) extends Scalar α where
  sqrt : α → α
  sin : α → α
  cos : α → α
  tan : α → α
  exp : α → α
  log : α → α
  /-- The half turn, in radians. -/
  halfTurn : α

/-- Numbers of a narrow type and the wide type that sums and scores of them are computed in. -/
class Precision (narrow : Type) (wide : outParam Type) where
  widen : narrow → wide
  narrow : wide → narrow

namespace Scalar

variable {α : Type} [Scalar α]

instance : DecidableLT α := Scalar.decLt

instance : DecidableLE α := Scalar.decLe

/-- Whether a value is no number at all: it differs from itself. -/
def isNaN (x : α) : Bool :=
  !(x == x)

/-- Whether a value is a number and not infinite: only then does it cancel itself. -/
def isFinite (x : α) : Bool :=
  x - x == 0.0

/-- The larger of two values; a value that is no number gives way to the other. -/
def larger (x y : α) : α :=
  if x < y then y else if isNaN x then y else x

/-- The smaller of two values; a value that is no number gives way to the other. -/
def smaller (x y : α) : α :=
  if y < x then y else if isNaN x then y else x

/-- The value if it lies above zero, and zero otherwise: also for a value that is no number, and for
a zero with a minus sign. -/
def positivePart (x : α) : α :=
  if 0.0 < x then x else 0.0

/-- The nearest value between two bounds. -/
def clamp (low high x : α) : α :=
  if x < low then low else if high < x then high else x

/-- The distance from zero. -/
def magnitude (x : α) : α :=
  if x < 0.0 then -x else x

/-- The least whole number that is not below `x`. -/
def ceiling (x : α) : Nat :=
  if (truncate x : α) < x then truncate x + 1 else truncate x

/-- The whole number nearest to `x`, a half going up; zero where `x` is negative or no number. -/
def nearest (x : α) : Nat :=
  if 0.5 ≤ x - (truncate x : α) then truncate x + 1 else truncate x

/-- A whole number as a 32-bit index, held at the last index when it is larger. -/
def index (n : Nat) : UInt32 :=
  UInt32.ofNat (min n 4294967295)

end Scalar

namespace Elementary

variable {α : Type} [Elementary α]

/-- An angle of `x` degrees, in radians. -/
def radians (x : α) : α :=
  x * (halfTurn / 180.0)

/-- The quarter turn, in radians. -/
def quarterTurn : α :=
  halfTurn / 2.0

end Elementary

end ShapeGrammar

import ShapeGrammar.Geometry.Vector

/-!
# Expressions

The arithmetic that operators take their measures from: numbers, attributes of the grammar, and
the size of the scope an operator works on. An expression is evaluated each time its operator runs,
under the attribute values of that moment.
-/
namespace ShapeGrammar

inductive BinaryOp where
  | add
  | sub
  | mul
  | div
  deriving DecidableEq, Repr

/-- An arithmetic expression. -/
inductive Expr (α : Type) where
  | number (value : α)
  | attribute (name : String)
  /-- The size of the scope along an axis. -/
  | extent (axis : Axis)
  | neg (operand : Expr α)
  | binary (op : BinaryOp) (left right : Expr α)
  deriving BEq, DecidableEq, Repr

/-- Why a measure has no value. -/
inductive EvalError (α : Type) where
  | unknownAttribute (name : String)
  | divisionByZero (dividend divisor : α)
  /-- A tile so small, or a length so great, that no number counts the tiles. -/
  | endlessRepeat (tile length : α)
  deriving DecidableEq, Repr

namespace Expr

variable {α : Type}

/-- The attributes an expression reads, from left to right. -/
def attributeNames : Expr α → List String
  | .number _ | .extent _ => []
  | .attribute name => [name]
  | .neg operand => operand.attributeNames
  | .binary _ left right => left.attributeNames ++ right.attributeNames

/-- The number of expressions around the innermost one, itself included. -/
def height : Expr α → Nat
  | .number _ | .extent _ | .attribute _ => 1
  | .neg operand => operand.height + 1
  | .binary _ left right => max left.height right.height + 1

variable [Scalar α]

/-- The opposite of an expression; the opposite of a number is a number. -/
def negate : Expr α → Expr α
  | .number value => .number (-value)
  | e => .neg e

/-- Joins two values. Only a division can fail. -/
def combine (op : BinaryOp) (a b : α) : Except (EvalError α) α :=
  match op with
  | .add => .ok (a + b)
  | .sub => .ok (a - b)
  | .mul => .ok (a * b)
  | .div => if b == 0.0 then .error (.divisionByZero a b) else .ok (a / b)

/-- The value of an expression, from the values of attributes and the size of the scope. Of two
operands the left one is evaluated first. -/
def eval (values : String → Option α) (scope : Vec3 α) : Expr α → Except (EvalError α) α
  | .number value => .ok value
  | .attribute name =>
    match values name with
    | some value => .ok value
    | none => .error (.unknownAttribute name)
  | .extent axis => .ok (scope.get axis)
  | .neg operand => do
    let a ← operand.eval values scope
    return -a
  | .binary op left right => do
    let a ← left.eval values scope
    let b ← right.eval values scope
    combine op a b

end Expr

/-- What went wrong, in words; numbers are written by `text`. -/
def EvalError.message {α : Type} (text : α → String) : EvalError α → String
  | .unknownAttribute name => "unknown attribute `" ++ name ++ "`"
  | .divisionByZero a b => "division by zero in `" ++ text a ++ " / " ++ text b ++ "`"
  | .endlessRepeat tile length =>
    "repeat of tile " ++ text tile ++ " over length " ++ text length ++ " has no finite count"

end ShapeGrammar

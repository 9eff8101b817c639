import ShapeGrammar.Grammar.Error

/-!
# Attributes

An attribute is a named number of a grammar. One with a declared range is a choice among ten evenly
spaced levels, the first at the start of the range and the last at its end; it is free until a
derivation fixes it. One without a range is a constant.
-/
namespace ShapeGrammar

/-- A named number, with its range and whether it has been committed. -/
structure Attribute (α : Type) where
  name : String
  start : α
  stop : α
  value : α
  fixed : Bool
  ranged : Bool
  deriving BEq, DecidableEq, Repr

namespace Attribute

variable {α : Type}

/-- The number of levels of a range. -/
def levels : Nat :=
  10

/-- A choice, at its lowest level. -/
def choice (name : String) (start stop : α) : Attribute α :=
  { name, start, stop, value := start, fixed := false, ranged := true }

def constant (name : String) (value : α) : Attribute α :=
  { name, start := value, stop := value, value, fixed := false, ranged := false }

/-- Whether a value may still be chosen. -/
def isFree (a : Attribute α) : Bool :=
  a.ranged && !a.fixed

def release (a : Attribute α) : Attribute α :=
  { a with fixed := false }

variable [Scalar α]

/-- The distance between neighbouring levels. -/
def unit (a : Attribute α) : α :=
  (a.stop - a.start) / 9.0

/-- The value of a level; there is none beyond the last. -/
def levelValue (a : Attribute α) (level : Nat) : α :=
  a.start + ((min level 9 : Nat) : α) * a.unit

/-- The level nearest to the value. -/
def levelIndex (a : Attribute α) : Nat :=
  if a.unit == 0.0 then 0
  else min 9 (Scalar.nearest ((a.value - a.start) / a.unit))

/-- Takes the value of a level. -/
def setLevel (a : Attribute α) (level : Nat) : Attribute α :=
  { a with value := a.levelValue level }

/-- Takes the value of a level for the rest of the derivation. -/
def commit (a : Attribute α) (level : Nat) : Attribute α :=
  { a.setLevel level with fixed := true }

/-- How far a value may lie outside its range: enough for decimals that were rounded when they were
written. -/
def slack (a : Attribute α) : α :=
  Scalar.magnitude (a.stop - a.start) * 0.0001 + 0.000001

/-- Checks that an attribute is finite and, if it is a choice, lies in a range that is one. -/
def validate (a : Attribute α) : Except (GrammarError α) Unit :=
  if !(Scalar.isFinite a.value && Scalar.isFinite a.start && Scalar.isFinite a.stop) then
    .error (.nonFinite a.name)
  else if !a.ranged then .ok ()
  else if a.stop < a.start then .error (.invalidRange a.name a.start a.stop)
  else if a.value < a.start - a.slack ∨ a.stop + a.slack < a.value then
    .error (.valueOutOfRange a.name a.value a.start a.stop)
  else .ok ()

end Attribute

end ShapeGrammar

import ShapeGrammar.Expr.Param
import ShapeGrammar.Shape.Faces

/-!
# Operators

What a rule can do to a shape. Some operators change the shape and leave it to the next one, the
others take it apart and end the rule.
-/
namespace ShapeGrammar

/-- How the size of a part is meant. -/
inductive SizeMode where
  /-- A length. -/
  | absolute
  /-- A fraction of the length that is cut. -/
  | relative
  /-- A weight in sharing what the other parts leave over. -/
  | floating
  deriving DecidableEq, Repr

/-- One part of a split. -/
structure SplitPart (α : Type) where
  size : Param α
  mode : SizeMode
  name : String
  deriving BEq, DecidableEq, Repr

/-- The names given to the sides of a box. Upright sides without a name of their own share one. -/
structure SideNames where
  front : Option String := none
  right : Option String := none
  back : Option String := none
  left : Option String := none
  top : Option String := none
  bottom : Option String := none
  side : Option String := none
  deriving DecidableEq, Repr

/-- An operation on the shape at hand. -/
inductive Operator (α : Type) where
  /-- Gives the shape a height along local z. -/
  | extrude (height : Param α)
  /-- Cuts the scope into parts along an axis. -/
  | split (axis : Axis) (parts : List (SplitPart α))
  /-- Tiles the scope along an axis with equal parts of about the given size. -/
  | tile (axis : Axis) (size : Param α) (name : String)
  | translate (offset : Vec3 (Param α))
  /-- Turns the scope about its corner, in degrees. -/
  | rotate (angles : Vec3 (Param α))
  | resize (size : Vec3 (Param α))
  /-- Takes a box apart into named sides. -/
  | decompose (names : SideNames)
  /-- Leaves a copy under a new name. -/
  | copy (name : String)
  | paint (color : Vec3 α)
  deriving BEq, DecidableEq, Repr

/-- A name that drops the part it is given to. -/
def discardName : String :=
  "NIL"

namespace SideNames

/-- The name of a side: its own, or the shared one if it is upright. -/
def name (names : SideNames) (k : Side) : Option String :=
  let own := match k with
    | .front => names.front
    | .right => names.right
    | .back => names.back
    | .left => names.left
    | .top => names.top
    | .bottom => names.bottom
  own <|> (if k.isUpright then names.side else none)

end SideNames

namespace Operator

variable {α : Type}

/-- The word for an operator in a grammar source. -/
def word : Operator α → String
  | .extrude .. => "extrude"
  | .split .. => "split"
  | .tile .. => "repeat"
  | .translate .. => "translate"
  | .rotate .. => "rotate"
  | .resize .. => "size"
  | .decompose .. => "comp"
  | .copy .. => "copy"
  | .paint .. => "color"

/-- The parameters of an operator in the order in which choices are counted. -/
def params : Operator α → List (Param α)
  | .extrude height => [height]
  | .split _ parts => parts.map (·.size)
  | .tile _ size _ => [size]
  | .translate v | .rotate v | .resize v => v.toList
  | .decompose _ | .copy _ | .paint _ => []

end Operator

end ShapeGrammar

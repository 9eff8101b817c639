import ShapeGrammar.Geometry.Matrix

/-!
# Shapes

A shape is a named scope: a local frame with its origin in one corner and a size along each of its
axes. A shape without extent along local z is a flat rectangle, any other is a box.
-/
namespace ShapeGrammar

/-- A named, coloured scope. -/
structure Shape (α : Type) where
  name : String
  transform : Matrix α
  size : Vec3 α
  color : Vec3 α
  deriving BEq, DecidableEq, Repr

namespace Shape

variable {α : Type}

section Frames

variable [Scalar α]

/-- The name of the shape that every derivation starts from. -/
def axiomName : String :=
  "Start"

/-- Whether the shape is a box. -/
def isBox (s : Shape α) : Bool :=
  0.0 < s.size.z

def rename (s : Shape α) (name : String) : Shape α :=
  { s with name }

/-- The shape with a given height along local z. -/
def extrude (s : Shape α) (height : α) : Shape α :=
  { s with size := { s.size with z := height } }

def resize (s : Shape α) (size : Vec3 α) : Shape α :=
  { s with size }

def paint (s : Shape α) (color : Vec3 α) : Shape α :=
  { s with color }

/-- Moves the scope along its own axes. -/
def translate (s : Shape α) (delta : Vec3 α) : Shape α :=
  { s with transform := s.transform.mul (Matrix.translation delta) }

/-- The part of the scope from `offset` on, `length` long, along one axis. -/
def slice (s : Shape α) (axis : Axis) (offset length : α) (name : String) : Shape α :=
  let moved := s.translate (Vec3.zero.set axis offset)
  { moved with name, size := s.size.set axis length }

end Frames

section Rotations

variable [Elementary α]

/-- The start shape: a unit square on the ground about the origin, its local z pointing up. -/
def start : Shape α where
  name := axiomName
  transform := (Matrix.rotationX (-Elementary.quarterTurn)).mul
    (Matrix.translation ⟨-0.5, -0.5, 0.0⟩)
  size := ⟨1.0, 1.0, 0.0⟩
  color := Vec3.ones

/-- Turns the scope about its corner by angles in degrees: about local x, then y, then z. -/
def rotate (s : Shape α) (degrees : Vec3 α) : Shape α :=
  let turn := degrees.map Elementary.radians
  let rotation := ((Matrix.rotationX turn.x).mul (Matrix.rotationY turn.y)).mul
    (Matrix.rotationZ turn.z)
  { s with transform := s.transform.mul rotation }

end Rotations

end Shape

end ShapeGrammar

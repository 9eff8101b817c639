import ShapeGrammar.Shape.Basic

/-!
# Faces

What is drawn of a shape: one quad for a rectangle, six for a box, turned outward. In the frame of
a box of size `(sx, sy, sz)` its sides are

* front, in the plane `y = 0`, and back, in `y = sy`;
* left, in the plane `x = 0`, and right, in `x = sx`;
* bottom, in the plane `z = 0`, and top, in `z = sz`.

Each side is a rectangle of its own. On the four upright ones local y points up, so that cutting a
facade along y cuts it into floors.
-/
namespace ShapeGrammar

/-- A planar polygon in the world. -/
structure Face (α : Type) where
  vertices : List (Vec3 α)
  normal : Vec3 α
  color : Vec3 α
  deriving BEq, DecidableEq, Repr

/-- The sides of a box. -/
inductive Side where
  | front
  | right
  | back
  | left
  | top
  | bottom
  deriving DecidableEq, Repr

namespace Side

/-- All sides, in the order in which they are taken apart. -/
def all : List Side :=
  [.front, .right, .back, .left, .top, .bottom]

/-- Whether the side stands upright. -/
def isUpright : Side → Bool
  | .front | .right | .back | .left => true
  | .top | .bottom => false

variable {α : Type} [Elementary α]

/-- The frame of a side within the frame of a box of the given size. -/
def frame (size : Vec3 α) : Side → Matrix α
  | .front => Matrix.rotationX Elementary.quarterTurn
  | .right =>
    ((Matrix.translation ⟨size.x, 0.0, 0.0⟩).mul (Matrix.rotationZ Elementary.quarterTurn)).mul
      (Matrix.rotationX Elementary.quarterTurn)
  | .back =>
    ((Matrix.translation ⟨size.x, size.y, 0.0⟩).mul (Matrix.rotationZ Elementary.halfTurn)).mul
      (Matrix.rotationX Elementary.quarterTurn)
  | .left =>
    ((Matrix.translation ⟨0.0, size.y, 0.0⟩).mul (Matrix.rotationZ (-Elementary.quarterTurn))).mul
      (Matrix.rotationX Elementary.quarterTurn)
  | .top => Matrix.translation ⟨0.0, 0.0, size.z⟩
  | .bottom =>
    (Matrix.translation ⟨0.0, size.y, 0.0⟩).mul (Matrix.rotationX Elementary.halfTurn)

/-- The size of a side of a box of the given size. -/
def extent (size : Vec3 α) : Side → Vec3 α
  | .front | .back => ⟨size.x, size.z, 0.0⟩
  | .right | .left => ⟨size.y, size.z, 0.0⟩
  | .top | .bottom => ⟨size.x, size.y, 0.0⟩

end Side

namespace Shape

variable {α : Type} [Elementary α]

/-- One side of a box as a rectangle of the same colour. -/
def side (s : Shape α) (k : Side) (name : String) : Shape α :=
  { s with name, transform := s.transform.mul (k.frame s.size), size := k.extent s.size }

/-- The corners of a rectangle in its own frame, counter-clockwise. -/
def corners (width height : α) : List (Vec3 α) :=
  [⟨0.0, 0.0, 0.0⟩, ⟨width, 0.0, 0.0⟩, ⟨width, height, 0.0⟩, ⟨0.0, height, 0.0⟩]

/-- The quad of a rectangle; a rectangle without area has none. -/
def quad (s : Shape α) : List (Face α) :=
  if s.size.x ≤ 0.0 ∨ s.size.y ≤ 0.0 then []
  else
    [{ vertices := (corners s.size.x s.size.y).map s.transform.place
       normal := (s.transform.direct ⟨0.0, 0.0, 1.0⟩).normalize
       color := s.color }]

/-- All faces of a shape. -/
def faces (s : Shape α) : List (Face α) :=
  if s.isBox then Side.all.flatMap fun k => (s.side k s.name).quad else s.quad

end Shape

end ShapeGrammar

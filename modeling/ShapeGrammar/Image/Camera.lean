import ShapeGrammar.Image.Basic
import ShapeGrammar.Shape.Faces

/-!
# The camera

The world is turned about its origin, then moved so that the camera stands at the origin; the
camera looks down the z axis. Of a vertex on the screen its inverse distance is kept, which changes
evenly across the screen.
-/
namespace ShapeGrammar

/-- A perspective camera. -/
structure Camera (α : Type) where
  /-- How far the world is turned about x, in degrees. -/
  pitch : α
  /-- How far the world is turned about y, in degrees. -/
  yaw : α
  position : Vec3 α
  /-- The angle seen from bottom to top, in degrees. -/
  fieldOfView : α
  /-- Vertices nearer than this are not drawn. -/
  near : α
  deriving BEq, DecidableEq, Repr

/-- A camera and the size of what it draws. -/
structure Viewport (α : Type) where
  width : UInt32
  height : UInt32
  camera : Camera α
  deriving BEq, DecidableEq, Repr

/-- A vertex in pixels from the top left, with its inverse distance. -/
structure ScreenVertex (α : Type) where
  x : α
  y : α
  nearness : α
  deriving DecidableEq, Repr

namespace Camera

variable {α : Type} [Elementary α]

/-- The usual view: from in front and above, with the building turned. -/
def usual : Camera α where
  pitch := 0.0
  yaw := -40.0
  position := ⟨0.0, 10.0, 50.0⟩
  fieldOfView := 45.0
  near := 0.1

/-- From the world to the camera. -/
def view (c : Camera α) : Matrix α :=
  ((Matrix.translation ⟨-c.position.x, -c.position.y, -c.position.z⟩).mul
    (Matrix.rotationX (Elementary.radians c.pitch))).mul
      (Matrix.rotationY (Elementary.radians c.yaw))

end Camera

namespace Viewport

variable {α : Type} [Elementary α]

/-- The inverse of the tangent of half the angle of view. -/
def focalLength (v : Viewport α) : α :=
  1.0 / Elementary.tan (Elementary.radians v.camera.fieldOfView / 2.0)

/-- A point of the world on the screen, from the view and the focal length; nothing if it is too
near. -/
def projectPoint (v : Viewport α) (view : Matrix α) (focal : α) (p : Vec3 α) :
    Option (ScreenVertex α) :=
  let width : α := (v.width.toNat : α)
  let height : α := (v.height.toNat : α)
  let c := view.place p
  let distance := -c.z
  if distance < v.camera.near then none
  else
    let across := focal / (width / height) * c.x / distance
    let upward := focal * c.y / distance
    some
      { x := (across + 1.0) * 0.5 * width
        y := (1.0 - upward) * 0.5 * height
        nearness := 1.0 / distance }

/-- The corners of a face on the screen; nothing if one of them is too near. -/
def project (v : Viewport α) (face : Face α) : Option (List (ScreenVertex α)) :=
  let view := v.camera.view
  let focal := v.focalLength
  face.vertices.mapM (v.projectPoint view focal)

end Viewport

end ShapeGrammar

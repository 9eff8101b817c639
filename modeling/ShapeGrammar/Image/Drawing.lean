import ShapeGrammar.Image.Raster

/-!
# Drawing faces

Two ways to draw: the visible outlines of faces, black on white, and faces filled by how much they
are turned to the light. What hides what is decided by a buffer with the greatest nearness of each
pixel so far. A canvas keeps its buffer from one image to the next and blanks it before it draws.
-/
namespace ShapeGrammar

/-- How faces are drawn. -/
inductive DrawMode where
  | line
  | shaded
  deriving DecidableEq, Repr

/-- What makes images of faces: the size of its images, and how it draws. It may keep something from
one image to the next, so how it draws may depend on the number of images it has made. -/
structure Renderer (α : Type) where
  width : UInt32
  height : UInt32
  draw : Nat → DrawMode → List (Face α) → GrayImage

/-- The greatest nearness at each pixel of an image; zero where nothing is. -/
structure DepthBuffer (α : Type) where
  width : UInt32
  cells : Array α

namespace DepthBuffer

variable {α : Type} [Scalar α]

/-- The buffer of an image on which nothing has been drawn. -/
def empty (width height : UInt32) : DepthBuffer α :=
  ⟨width, Array.replicate (cellCount width height).toNat 0.0⟩

/-- The same buffer with nothing drawn. -/
def clear (b : DepthBuffer α) : DepthBuffer α :=
  { b with cells := Array.replicate b.cells.size 0.0 }

/-- Where a pixel stands in the buffer. -/
def indexOf (b : DepthBuffer α) (x y : UInt32) : Nat :=
  (cellIndex b.width x y).toNat

def nearnessAt (b : DepthBuffer α) (x y : UInt32) : α :=
  b.cells[b.indexOf x y]?.getD 0.0

/-- Whether a fragment is nearer than all before it at its pixel. -/
def isHiding (b : DepthBuffer α) (f : Fragment α) : Bool :=
  b.nearnessAt f.x f.y < f.nearness

/-- Takes in a fragment. -/
def cover (b : DepthBuffer α) (f : Fragment α) : DepthBuffer α :=
  if b.isHiding f then
    { b with cells := b.cells.setIfInBounds (b.indexOf f.x f.y) f.nearness }
  else b

/-- Whether an outline shows at a point: it may lie a little behind the surface it bounds. -/
def shows (b : DepthBuffer α) (f : Fragment α) : Bool :=
  b.nearnessAt f.x f.y ≤ f.nearness * (1.0 + 0.001)

end DepthBuffer

namespace Viewport

variable {α : Type} [Elementary α]

/-- The faces that are in front of the camera, with their corners on the screen. -/
def projected (v : Viewport α) (faces : List (Face α)) : List (Face α × List (ScreenVertex α)) :=
  faces.filterMap fun face => (v.project face).map fun corners => (face, corners)

/-- Takes the surfaces of faces into a buffer. -/
def depth (v : Viewport α) (blank : DepthBuffer α) (polygons : List (List (ScreenVertex α))) :
    DepthBuffer α :=
  polygons.foldl
    (fun buffer corners => (ScreenVertex.polygon v.width v.height corners).foldl
      DepthBuffer.cover buffer)
    blank

/-- Draws the outlines that a buffer lets show. -/
def outlines (v : Viewport α) (buffer : DepthBuffer α)
    (polygons : List (List (ScreenVertex α))) : GrayImage :=
  polygons.foldl
    (fun image corners => (ScreenVertex.outline v.width v.height corners).foldl
      (fun image f =>
        if buffer.shows f then image.set f.x.toNat f.y.toNat 0 else image) image)
    (GrayImage.filled v.width v.height 255)

/-- Draws the visible outlines of faces. -/
def drawLines (v : Viewport α) (blank : DepthBuffer α) (faces : List (Face α)) :
    GrayImage × DepthBuffer α :=
  let polygons := (v.projected faces).map Prod.snd
  let buffer := v.depth blank polygons
  (v.outlines buffer polygons, buffer)

/-- Where the light comes from. -/
def light : Vec3 α :=
  Vec3.normalize ⟨0.3, 0.8, 0.5⟩

/-- The gray of a face: its colour's lightness, less the more it is turned from the light. -/
def shade (face : Face α) : UInt8 :=
  let facing := Scalar.magnitude (face.normal.dot light)
  let lightness := 0.299 * face.color.x + 0.587 * face.color.y + 0.114 * face.color.z
  .ofNat (Scalar.truncate
    (Scalar.clamp 0.0 255.0 ((0.25 + 0.65 * facing) * lightness * 255.0)))

/-- Takes in a fragment of a face, with its gray if it hides what was there. -/
def paint (gray : UInt8) (painted : DepthBuffer α × Array UInt8) (f : Fragment α) :
    DepthBuffer α × Array UInt8 :=
  let (buffer, grays) := painted
  if buffer.isHiding f then
    let grays := grays.setIfInBounds (buffer.indexOf f.x f.y) gray
    (buffer.cover f, grays)
  else (buffer, grays)

/-- Draws faces filled with their grays. -/
def drawShaded (v : Viewport α) (blank : DepthBuffer α) (faces : List (Face α)) :
    GrayImage × DepthBuffer α :=
  let white : Array UInt8 := Array.replicate (cellCount v.width v.height).toNat 255
  let (buffer, grays) := (v.projected faces).foldl
    (fun painted (face, corners) => (ScreenVertex.polygon v.width v.height corners).foldl
      (paint (shade face)) painted)
    (blank, white)
  (GrayImage.ofFn v.width v.height fun i => grays[i]?.getD 255, buffer)

end Viewport

/-- A view and the buffer that its images are drawn with, one after the other. -/
structure Canvas (α : Type) where
  view : Viewport α
  buffer : DepthBuffer α

namespace Canvas

variable {α : Type} [Elementary α]

/-- A canvas on which nothing has been drawn. -/
def ofView (v : Viewport α) : Canvas α :=
  ⟨v, .empty v.width v.height⟩

/-- Draws faces, and nothing of what was drawn before. -/
def draw (c : Canvas α) (mode : DrawMode) (faces : List (Face α)) : GrayImage × Canvas α :=
  let blank := c.buffer.clear
  let (image, buffer) := match mode with
    | .line => c.view.drawLines blank faces
    | .shaded => c.view.drawShaded blank faces
  (image, { c with buffer })

end Canvas

namespace Viewport

variable {α : Type} [Elementary α]

/-- Draws faces on a canvas of their own. -/
def draw (v : Viewport α) (mode : DrawMode) (faces : List (Face α)) : GrayImage :=
  ((Canvas.ofView v).draw mode faces).1

/-- Draws what is seen in a view, each image like the first. -/
def renderer (v : Viewport α) : Renderer α where
  width := v.width
  height := v.height
  draw _ := v.draw

end Viewport

end ShapeGrammar

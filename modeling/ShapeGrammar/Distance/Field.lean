import ShapeGrammar.Distance.Envelope
import ShapeGrammar.Image.Basic

/-!
# Distance fields

An edge pixel is one darker than a threshold. The distance field of an image holds for every pixel
the Euclidean distance to the nearest edge pixel. Squares of distances are found in two passes, one
down each column and one along each row, because the square of a distance is a sum over the two
directions. An image without edges has its diagonal everywhere.
-/
namespace ShapeGrammar

/-- Distances to the nearest edge, row after row. -/
structure DistanceField (α : Type) where
  width : UInt32
  height : UInt32
  cells : Array α

namespace DistanceField

/-- Whether a pixel is dark enough for an edge. -/
def isEdge (threshold gray : UInt8) : Bool :=
  gray < threshold

section Squares

variable {β : Type} [Scalar β]

/-- The square of a distance greater than any in an image. -/
def far : β :=
  100000000000000000000.0

/-- The squares of a column before the passes: nothing at an edge, far elsewhere. -/
def seeds (threshold : UInt8) (image : GrayImage) (x : Nat) : List β :=
  let here : β := 0.0
  let away : β := far
  (List.range image.height.toNat).map fun y =>
    if isEdge threshold (image.get x y) then here else away

/-- The cell at some place of a list of lines. -/
def cellOf (lines : Array (Array β)) (line place : Nat) : β :=
  (lines[line]?.getD #[])[place]?.getD 0.0

/-- The squares within the whole image, row after row: first those within each column, then along
each row of these. -/
def squares? (threshold : UInt8) (image : GrayImage) : Option (Array (Array β)) := do
  let width := image.width.toNat
  let height := image.height.toNat
  let e := Envelope.ofLength (max width height)
  let (columns, e) ← Envelope.sweep?
    ((List.range width).map fun x => (seeds threshold image x).toArray) e
  let columns := columns.toArray
  let (rows, _) ← Envelope.sweep? ((List.range height).map fun y =>
    (Array.range width).map fun x => cellOf columns x y) e
  return rows.toArray

/-- The squares within the whole image. Its buffers have room for every column and every row. -/
def squares (threshold : UInt8) (image : GrayImage) : Array (Array β) :=
  (squares? threshold image).getD #[]

end Squares

variable {α β : Type} [Scalar α] [Elementary β] [Precision α β]

/-- The square of the diagonal of an image, in a word of 64 bits. -/
def squaredDiagonal (width height : UInt32) : UInt64 :=
  width.toUInt64 * width.toUInt64 + height.toUInt64 * height.toUInt64

/-- The diagonal of an image. -/
def diagonal (width height : UInt32) : β :=
  Elementary.sqrt ((squaredDiagonal width height).toNat : β)

/-- The field of an image. -/
def ofImage (threshold : UInt8) (image : GrayImage) : DistanceField α :=
  if image.pixels.any (isEdge threshold) then
    let squared : Array (Array β) := squares threshold image
    ⟨image.width, image.height,
      squared.flatMap fun row => row.map fun square => Precision.narrow (Elementary.sqrt square)⟩
  else
    ⟨image.width, image.height,
      Array.replicate (image.width.toNat * image.height.toNat)
        (Precision.narrow (diagonal (β := β) image.width image.height))⟩

/-- The distance at a pixel, found by its index of 32 bits. -/
def get? (field : DistanceField α) (x y : UInt32) : Option α :=
  field.cells[(cellIndex field.width x y).toNat]?

/-- The number of edge pixels. -/
def edgeCount (field : DistanceField α) : Nat :=
  (field.cells.toList.filter fun d => d == 0.0).length

end DistanceField

end ShapeGrammar

import ShapeGrammar.Image.Basic
import ShapeGrammar.Number.Scalar

/-!
# Resampling

Bringing a gray image to another size. Every new pixel is a mean of the old pixels around it, whose
weights fall evenly with their distance; an image that shrinks is averaged over wider surroundings.
Columns are resampled first, then rows, and grays are rounded only at the end. Main statement: the
length of a resampled line.
-/
namespace ShapeGrammar

namespace Resample

variable {α : Type} [Scalar α]

/-- The weight of a pixel by its distance, falling from one to zero. -/
def tent (distance : α) : α :=
  if Scalar.magnitude distance < 1.0 then 1.0 - Scalar.magnitude distance else 0.0

/-- A new pixel from a line of old ones. `ratio` old pixels make a new one. -/
def pixel (line : List α) (ratio : α) (place : Nat) : α :=
  let reach := if ratio < 1.0 then 1.0 else ratio
  let centre := ((place : α) + 0.5) * ratio
  let left := min (Scalar.truncate (centre - reach)) (line.length - 1)
  let right := min (max (Scalar.ceiling (centre + reach)) (left + 1)) line.length
  let weights := (List.range (right - left)).map fun i =>
    tent ((((left + i : Nat) : α) - (centre - 0.5)) / reach)
  let sum := weights.foldl (· + ·) 0.0
  ((line.drop left).zip weights).foldl (fun total (x, w) => total + x * (w / sum)) 0.0

/-- A line brought to another length. -/
def line (length : Nat) (old : List α) : List α :=
  (List.range length).map (pixel old ((old.length : α) / (length : α)))

/-- The gray nearest to a mean. -/
def gray (x : α) : UInt8 :=
  .ofNat (Scalar.nearest (Scalar.clamp 0.0 255.0 x))

end Resample

/-- The image in another size. -/
def GrayImage.resample {α : Type} [Scalar α] (image : GrayImage) (width height : UInt32) :
    GrayImage :=
  let columns : Array (Array α) := (Array.range image.width.toNat).map fun x =>
    (Resample.line height.toNat ((List.range image.height.toNat).map fun y =>
      ((image.get x y).toNat : α))).toArray
  let rows : Array (Array α) := (Array.range height.toNat).map fun y =>
    (Resample.line width.toNat ((List.range image.width.toNat).map fun x =>
      (columns[x]?.getD #[])[y]?.getD 0.0)).toArray
  .ofFn width height fun i =>
    Resample.gray ((rows[i / width.toNat]?.getD #[])[i % width.toNat]?.getD 0.0)

end ShapeGrammar

/-!
# Images

Gray and coloured images, row after row from the top left.
-/
namespace ShapeGrammar

/-- Where a pixel of an image of some width stands in a row-major buffer, in 32-bit arithmetic. -/
def cellIndex (width x y : UInt32) : UInt32 :=
  y * width + x

/-- The number of cells of a buffer for an image, in 32-bit arithmetic. -/
def cellCount (width height : UInt32) : UInt32 :=
  width * height

/-- A gray image. Zero is black, 255 is white. -/
structure GrayImage where
  width : UInt32
  height : UInt32
  pixels : Array UInt8
  size_eq : pixels.size = width.toNat * height.toNat

namespace GrayImage

/-- An image of one gray. -/
def filled (width height : UInt32) (gray : UInt8) : GrayImage :=
  ⟨width, height, Array.replicate (width.toNat * height.toNat) gray, by simp⟩

/-- The image whose pixels are given by their place in the buffer. -/
def ofFn (width height : UInt32) (gray : Nat → UInt8) : GrayImage :=
  ⟨width, height, Array.ofFn fun i : Fin (width.toNat * height.toNat) => gray i.val, by simp⟩

/-- The gray of a pixel; white outside. -/
def get (image : GrayImage) (x y : Nat) : UInt8 :=
  image.pixels[y * image.width.toNat + x]?.getD 255

/-- Sets a pixel. -/
def set (image : GrayImage) (x y : Nat) (gray : UInt8) : GrayImage :=
  { image with
    pixels := image.pixels.setIfInBounds (y * image.width.toNat + x) gray
    size_eq := by simp [image.size_eq] }

end GrayImage

/-- Two images that should have had the same size. -/
structure SizeMismatch where
  expectedWidth : UInt32
  expectedHeight : UInt32
  width : UInt32
  height : UInt32
  deriving DecidableEq, Repr

def SizeMismatch.message (m : SizeMismatch) : String :=
  "Image size mismatch: expected " ++ toString m.expectedWidth ++ "x" ++ toString m.expectedHeight
    ++ ", got " ++ toString m.width ++ "x" ++ toString m.height

/-- A colour of three bytes. -/
structure Rgb where
  red : UInt8
  green : UInt8
  blue : UInt8
  deriving DecidableEq, Repr

/-- A coloured image. -/
structure RgbImage where
  width : UInt32
  height : UInt32
  pixels : Array Rgb

namespace RgbImage

/-- A gray image in colour. -/
def ofGray (image : GrayImage) : RgbImage :=
  ⟨image.width, image.height, image.pixels.map fun gray => ⟨gray, gray, gray⟩⟩

/-- A drawing over its target: dark pixels of the drawing in red, the target faded to light gray
under them. -/
def preview (target drawing : GrayImage) (threshold : UInt8) : Except SizeMismatch RgbImage :=
  if target.width = drawing.width ∧ target.height = drawing.height then
    .ok ⟨target.width, target.height, target.pixels.zipWith (fun gray dark =>
      if dark < threshold then ⟨220, 30, 30⟩
      else ⟨160 + gray / 3, 160 + gray / 3, 160 + gray / 3⟩) drawing.pixels⟩
  else .error ⟨target.width, target.height, drawing.width, drawing.height⟩

end RgbImage

end ShapeGrammar

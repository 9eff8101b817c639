import ShapeGrammar.Image.Camera

/-!
# Pixels of triangles and segments

A polygon is filled as a fan of triangles. A triangle covers the pixels whose centres lie in it,
each at a nearness between those of its corners; a segment touches the pixels at evenly spaced
points. Both are given as lists of points within the image, which say nothing yet about what hides
what.
-/
namespace ShapeGrammar

/-- A covered pixel and how near the surface is there. -/
structure Fragment (α : Type) where
  x : UInt32
  y : UInt32
  nearness : α
  deriving DecidableEq, Repr

namespace ScreenVertex

variable {α : Type} [Scalar α]

/-- Twice the area of a triangle, with the sign of its turning. -/
def doubleArea (a b c : ScreenVertex α) : α :=
  (b.x - a.x) * (c.y - a.y) - (b.y - a.y) * (c.x - a.x)

/-- The weight that a point gives to the corner opposite to the edge from `b` to `c`. -/
def weight (b c : ScreenVertex α) (area x y : α) : α :=
  ((b.x - x) * (c.y - y) - (b.y - y) * (c.x - x)) / area

/-- The pixel of a triangle at a place, if the centre of the pixel lies in the triangle. -/
def fragment? (a b c : ScreenVertex α) (area : α) (px py : Nat) : Option (Fragment α) :=
  let x := (px : α) + 0.5
  let y := (py : α) + 0.5
  let wa := weight b c area x y
  let wb := weight c a area x y
  let wc := 1.0 - wa - wb
  if wa < 0.0 ∨ wb < 0.0 ∨ wc < 0.0 then none
  else some
    { x := .ofNat px, y := .ofNat py
      nearness := wa * a.nearness + wb * b.nearness + wc * c.nearness }

/-- The first index of a span that starts at the least of three coordinates. -/
def spanStart (a b c : α) : Nat :=
  (Scalar.index (Scalar.truncate (Scalar.smaller (Scalar.smaller a b) c))).toNat

/-- The index after a span that ends at the greatest of three coordinates, within the image. -/
def spanStop (size : UInt32) (a b c : α) : Nat :=
  min (Scalar.index (Scalar.ceiling (Scalar.larger (Scalar.larger a b) c))).toNat size.toNat

/-- The pixels of a triangle, row after row; none if it has no area to speak of. -/
def triangle (width height : UInt32) (a b c : ScreenVertex α) : List (Fragment α) :=
  let area := doubleArea a b c
  if Scalar.magnitude area < 0.00000001 then []
  else
    let left := spanStart a.x b.x c.x
    let top := spanStart a.y b.y c.y
    let right := spanStop width a.x b.x c.x
    let bottom := spanStop height a.y b.y c.y
    (List.range' top (bottom - top)).flatMap fun py =>
      (List.range' left (right - left)).filterMap fun px => fragment? a b c area px py

/-- The pixels of a polygon, as a fan of triangles about its first corner. -/
def polygon (width height : UInt32) : List (ScreenVertex α) → List (Fragment α)
  | [] => []
  | first :: rest =>
    (rest.zip rest.tail).flatMap fun (b, c) => triangle width height first b c

/-- The number of steps that walk a segment pixel by pixel. -/
def stepCount (a b : ScreenVertex α) : Nat :=
  (Scalar.index (max 1 (Scalar.ceiling
    (Scalar.larger (Scalar.magnitude (b.x - a.x)) (Scalar.magnitude (b.y - a.y)))))).toNat

/-- The point of a segment after some of its steps, if it lies in the image. -/
def segmentPoint? (width height : UInt32) (a b : ScreenVertex α) (steps step : Nat) :
    Option (Fragment α) :=
  let t : α := (step : α) / (steps : α)
  let x := a.x + (b.x - a.x) * t
  let y := a.y + (b.y - a.y) * t
  if x < 0.0 ∨ y < 0.0 then none
  else
    let px := Scalar.index (Scalar.truncate x)
    let py := Scalar.index (Scalar.truncate y)
    if width ≤ px ∨ height ≤ py then none
    else some { x := px, y := py, nearness := a.nearness + (b.nearness - a.nearness) * t }

/-- The points of a segment after `count` or fewer steps, before the ones found already. -/
def segmentUpTo (width height : UInt32) (a b : ScreenVertex α) (steps : Nat) :
    Nat → List (Fragment α) → List (Fragment α)
  | 0, found => (segmentPoint? width height a b steps 0).toList ++ found
  | step + 1, found =>
    segmentUpTo width height a b steps step
      ((segmentPoint? width height a b steps (step + 1)).toList ++ found)

/-- The points of a segment in the image, from its start to its end. -/
def segment (width height : UInt32) (a b : ScreenVertex α) : List (Fragment α) :=
  let steps := stepCount a b
  segmentUpTo width height a b steps steps []

/-- The points of the outline of a polygon, edge after edge. -/
def outline (width height : UInt32) (corners : List (ScreenVertex α)) : List (Fragment α) :=
  match corners with
  | [] => []
  | first :: rest =>
    (corners.zip (rest ++ [first])).flatMap fun (a, b) => segment width height a b

end ScreenVertex

end ShapeGrammar

import ShapeGrammar.Operator.Basic

/-!
# Cutting a length

Absolute and relative parts take their lengths first, floating parts share the rest by their
weights. Parts that claim more than there is, beyond a small tolerance, are not cut at all.
-/
namespace ShapeGrammar

namespace Split

variable {α : Type} [Scalar α]

/-- How far the parts may exceed the length they are cut from. -/
def tolerance : α :=
  0.0001

/-- The length that the absolute and relative parts take together. -/
def claimed (total : α) (specs : List (SizeMode × α)) : α :=
  specs.foldl (fun sum (mode, size) =>
    match mode with
    | .absolute => sum + Scalar.positivePart size
    | .relative => sum + Scalar.positivePart size * total
    | .floating => sum) 0.0

/-- The weight of the floating parts together. -/
def weight (specs : List (SizeMode × α)) : α :=
  specs.foldl (fun sum (mode, size) =>
    match mode with
    | .floating => sum + Scalar.positivePart size
    | _ => sum) 0.0

/-- The length of one part, given what floating parts share. -/
def length (total weight rest : α) : SizeMode × α → α
  | (.absolute, size) => Scalar.positivePart size
  | (.relative, size) => Scalar.positivePart size * total
  | (.floating, size) =>
    if 0.0 < weight then Scalar.positivePart size / weight * rest else 0.0

/-- The lengths of all parts, or nothing if they do not fit. -/
def lengths (total : α) (specs : List (SizeMode × α)) : Option (List α) :=
  let taken := claimed total specs
  if total + tolerance < taken then none
  else
    let rest := Scalar.positivePart (total - taken)
    some (specs.map (length total (weight specs) rest))

/-- Each length with the place where it starts, one after the other. -/
def cuts (offset : α) : List α → List (α × α)
  | [] => []
  | length :: rest => (offset, length) :: cuts (offset + length) rest

end Split

end ShapeGrammar

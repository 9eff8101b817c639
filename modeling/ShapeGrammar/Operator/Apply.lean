import ShapeGrammar.Operator.Split

/-!
# Applying an operator

An operator hands the shape on, changed, or ends the rule with successors. Successors are described
before they are made: what an operator comes to does not depend on how many of them are wanted.
-/
namespace ShapeGrammar

/-- The successors of a shape: a list, or a number of tiles. -/
inductive Successors (α : Type) where
  | listed (shapes : List (Shape α))
  | tiled (count : Nat) (tile : Nat → Shape α)

namespace Successors

variable {α : Type}

/-- All successors. -/
def toList : Successors α → List (Shape α)
  | .listed shapes => shapes
  | .tiled count tile => (List.range count).map tile

end Successors

/-- What an operator does: the rule goes on with a shape, or it ends. -/
inductive Effect (α : Type) where
  | continues (shape : Shape α)
  | ends (successors : Successors α)

/-- What an application leaves: the successors it made, and the shape at hand if the rule goes
on. -/
structure Yield (α : Type) where
  emitted : List (Shape α)
  current : Option (Shape α)

namespace Operator

variable {α : Type} [Elementary α] (values : String → Option α)

/-- The values of three parameters, the first one first. -/
def evalVector (scope : Vec3 α) (v : Vec3 (Param α)) : Except (EvalError α) (Vec3 α) := do
  let x ← v.x.expr.eval values scope
  let y ← v.y.expr.eval values scope
  let z ← v.z.expr.eval values scope
  return ⟨x, y, z⟩

/-- The modes and values of the parts of a split. -/
def evalParts (scope : Vec3 α) : List (SplitPart α) → Except (EvalError α) (List (SizeMode × α))
  | [] => .ok []
  | part :: rest => do
    let size ← part.size.expr.eval values scope
    let sizes ← evalParts scope rest
    return (part.mode, size) :: sizes

/-- The parts of a split that are kept: named, and of some length. -/
def splitShapes (shape : Shape α) (axis : Axis) (parts : List (SplitPart α)) (lengths : List α) :
    List (Shape α) :=
  (parts.zip (Split.cuts 0.0 lengths)).filterMap fun (part, offset, length) =>
    if part.name ≠ discardName ∧ 0.0 < length then
      some (shape.slice axis offset length part.name)
    else none

/-- The number of tiles of a given size that fit a length, one at least. -/
def tileCount (total size : α) : Except (EvalError α) Nat :=
  let ratio := total / size
  if Scalar.isFinite ratio then .ok (max (Scalar.truncate ratio) 1)
  else .error (.endlessRepeat size total)

/-- The tiles of a scope. -/
def tiles (shape : Shape α) (axis : Axis) (name : String) (count : Nat) : Successors α :=
  let length := shape.size.get axis / (count : α)
  .tiled count fun i => shape.slice axis ((i : α) * length) length name

/-- The sides of a box that are named. -/
def sideShapes (shape : Shape α) (names : SideNames) : List (Shape α) :=
  Side.all.filterMap fun k =>
    ((names.name k).filter (· ≠ discardName)).map fun name => shape.side k name

/-- What an operator does to a shape. -/
def effect (shape : Shape α) : Operator α → Except (EvalError α) (Effect α)
  | .extrude height => do
    let h ← height.expr.eval values shape.size
    return .continues (shape.extrude (Scalar.positivePart h))
  | .split axis parts => do
    let specs ← evalParts values shape.size parts
    match Split.lengths (shape.size.get axis) specs with
    | none => return .ends (.listed [])
    | some lengths => return .ends (.listed (splitShapes shape axis parts lengths))
  | .tile axis size name => do
    let total := shape.size.get axis
    let size ← size.expr.eval values shape.size
    if total ≤ 0.0 ∨ size ≤ 0.0 then return .ends (.listed [])
    else
      let count ← tileCount total size
      return .ends (tiles shape axis name count)
  | .translate offset => do
    return .continues (shape.translate (← evalVector values shape.size offset))
  | .rotate angles => do
    return .continues (shape.rotate (← evalVector values shape.size angles))
  | .resize size => do
    let size ← evalVector values shape.size size
    return .continues (shape.resize (size.map Scalar.positivePart))
  | .decompose names =>
    if shape.isBox then .ok (.ends (.listed (sideShapes shape names)))
    else .ok (.ends (.listed []))
  | .copy name => .ok (.ends (.listed [shape.rename name]))
  | .paint color => .ok (.continues (shape.paint (color.map (Scalar.clamp 0.0 1.0))))

/-- Applies an operator without limit. -/
def apply (op : Operator α) (shape : Shape α) : Except (EvalError α) (Yield α) := do
  match ← op.effect values shape with
  | .continues shape => return ⟨[], some shape⟩
  | .ends successors => return ⟨successors.toList, none⟩

end Operator

end ShapeGrammar

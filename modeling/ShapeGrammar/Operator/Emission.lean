import ShapeGrammar.Operator.Apply

/-!
# Applying an operator onto a list

The successors of a shape are put on a list that is not to grow past a limit. What does not fit is
not made at all: a split and a box taken apart look at the list before each successor, tiles are
counted beforehand. An application that fails leaves the list as it is by then.
-/
namespace ShapeGrammar

/-- Work that puts shapes on a list and may fail. What it has put there stays. -/
abbrev Emission (α β : Type) : Type :=
  ExceptT (EvalError α) (StateM (Array (Shape α))) β

namespace Emission

variable {α β : Type}

/-- The result of some work, and the list it leaves. -/
def onto (work : Emission α β) (out : Array (Shape α)) :
    Except (EvalError α) β × Array (Shape α) :=
  work.run.run out

end Emission

namespace Operator

variable {α : Type} [Elementary α] (values : String → Option α)

/-- Puts the parts of a split on a list as far as they are kept and fit. The next part starts behind
the one before it, whether that one is put there or not. -/
def emitParts (limit : Nat) (shape : Shape α) (axis : Axis) :
    α → List (SplitPart α × α) → Array (Shape α) → Array (Shape α)
  | _, [], out => out
  | offset, (part, length) :: rest, out =>
    emitParts limit shape axis (offset + length) rest
      (if part.name ≠ discardName ∧ 0.0 < length ∧ out.size < limit then
        out.push (shape.slice axis offset length part.name)
      else out)

/-- Puts as many tiles on a list as there are and as there is room for. -/
def emitTiles (limit : Nat) (shape : Shape α) (axis : Axis) (name : String) (count : Nat)
    (out : Array (Shape α)) : Array (Shape α) :=
  let length := shape.size.get axis / (count : α)
  let room := limit - out.size
  (List.range (min count room)).foldl
    (fun out (i : Nat) => out.push (shape.slice axis ((i : α) * length) length name)) out

/-- Puts the named sides of a box on a list as far as they fit. -/
def emitSides (limit : Nat) (shape : Shape α) (names : SideNames) (out : Array (Shape α)) :
    Array (Shape α) :=
  Side.all.foldl
    (fun out k =>
      match (names.name k).filter fun name => name ≠ discardName ∧ out.size < limit with
      | some name => out.push (shape.side k name)
      | none => out) out

/-- Puts a copy on a list if it fits. -/
def emitCopy (limit : Nat) (shape : Shape α) (name : String) (out : Array (Shape α)) :
    Array (Shape α) :=
  if out.size < limit then out.push (shape.rename name) else out

/-- Applies an operator, putting its successors on the list at hand. The result is the shape the
rule goes on with, or nothing if the rule ends. -/
def applyOnto (limit : Nat) (shape : Shape α) : Operator α → Emission α (Option (Shape α))
  | .extrude height => do
    let h ← height.expr.eval values shape.size
    return some (shape.extrude (Scalar.positivePart h))
  | .split axis parts => do
    let specs ← evalParts values shape.size parts
    match Split.lengths (shape.size.get axis) specs with
    | none => return none
    | some lengths =>
      modify (emitParts limit shape axis 0.0 (parts.zip lengths))
      return none
  | .tile axis size name => do
    let total := shape.size.get axis
    let size ← size.expr.eval values shape.size
    if total ≤ 0.0 ∨ size ≤ 0.0 then return none
    else
      let count ← tileCount total size
      modify (emitTiles limit shape axis name count)
      return none
  | .translate offset => do
    let offset ← evalVector values shape.size offset
    return some (shape.translate offset)
  | .rotate angles => do
    let angles ← evalVector values shape.size angles
    return some (shape.rotate angles)
  | .resize size => do
    let size ← evalVector values shape.size size
    return some (shape.resize (size.map Scalar.positivePart))
  | .decompose names => do
    if shape.isBox then
      modify (emitSides limit shape names)
      return none
    else return none
  | .copy name => do
    modify (emitCopy limit shape name)
    return none
  | .paint color => return some (shape.paint (color.map (Scalar.clamp 0.0 1.0)))

/-- Applies an operator, making `limit` successors at most. -/
def applyWithin (limit : Nat) (op : Operator α) (shape : Shape α) :
    Except (EvalError α) (Yield α) :=
  match (op.applyOnto values limit shape).onto #[] with
  | (.error cause, _) => .error cause
  | (.ok current, emitted) => .ok ⟨emitted.toList, current⟩

end Operator

end ShapeGrammar

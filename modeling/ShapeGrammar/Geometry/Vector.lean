import ShapeGrammar.Number.Scalar

/-!
# Vectors

Points, directions, sizes and colours are triples of numbers.
-/
namespace ShapeGrammar

/-- The three directions of a local frame. -/
inductive Axis where
  | x
  | y
  | z
  deriving DecidableEq, Repr

/-- Three numbers along the axes. -/
structure Vec3 (α : Type) where
  x : α
  y : α
  z : α
  deriving BEq, DecidableEq, Repr

namespace Vec3

variable {α : Type}

def get (v : Vec3 α) : Axis → α
  | .x => v.x
  | .y => v.y
  | .z => v.z

def set (v : Vec3 α) (axis : Axis) (value : α) : Vec3 α :=
  match axis with
  | .x => { v with x := value }
  | .y => { v with y := value }
  | .z => { v with z := value }

def map {β : Type} (f : α → β) (v : Vec3 α) : Vec3 β :=
  ⟨f v.x, f v.y, f v.z⟩

def toList (v : Vec3 α) : List α :=
  [v.x, v.y, v.z]

section Arithmetic

variable [Scalar α]

def zero : Vec3 α :=
  ⟨0.0, 0.0, 0.0⟩

/-- White, as a colour. -/
def ones : Vec3 α :=
  ⟨1.0, 1.0, 1.0⟩

def sub (v w : Vec3 α) : Vec3 α :=
  ⟨v.x - w.x, v.y - w.y, v.z - w.z⟩

def dot (v w : Vec3 α) : α :=
  v.x * w.x + v.y * w.y + v.z * w.z

def cross (v w : Vec3 α) : Vec3 α :=
  ⟨v.y * w.z - v.z * w.y, v.z * w.x - v.x * w.z, v.x * w.y - v.y * w.x⟩

end Arithmetic

/-- The direction of a vector, as a vector of length one. A vector too short to have a direction
stays as it is. -/
def normalize [Elementary α] (v : Vec3 α) : Vec3 α :=
  let length := Elementary.sqrt (v.dot v)
  if length ≤ 1.1920928955078125e-7 then v
  else ⟨v.x / length, v.y / length, v.z / length⟩

end Vec3

end ShapeGrammar

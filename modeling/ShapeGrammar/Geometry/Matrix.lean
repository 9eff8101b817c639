import ShapeGrammar.Geometry.Vector

/-!
# Affine transforms

A transform is a matrix of four columns: where the three axes go, and where the origin goes.
Rotations follow the right hand and take radians.
-/
namespace ShapeGrammar

/-- One column of a matrix. -/
structure Column (α : Type) where
  x : α
  y : α
  z : α
  w : α
  deriving BEq, DecidableEq, Repr

/-- A matrix of four columns. -/
structure Matrix (α : Type) where
  xAxis : Column α
  yAxis : Column α
  zAxis : Column α
  origin : Column α
  deriving BEq, DecidableEq, Repr

namespace Matrix

variable {α : Type}

def columns (m : Matrix α) : List (Column α) :=
  [m.xAxis, m.yAxis, m.zAxis, m.origin]

/-- The entries, column after column. -/
def toList (m : Matrix α) : List α :=
  m.columns.flatMap fun c => [c.x, c.y, c.z, c.w]

section Arithmetic

variable [Scalar α]

def identity : Matrix α where
  xAxis := ⟨1.0, 0.0, 0.0, 0.0⟩
  yAxis := ⟨0.0, 1.0, 0.0, 0.0⟩
  zAxis := ⟨0.0, 0.0, 1.0, 0.0⟩
  origin := ⟨0.0, 0.0, 0.0, 1.0⟩

def translation (t : Vec3 α) : Matrix α :=
  { identity with origin := ⟨t.x, t.y, t.z, 1.0⟩ }

/-- Where a column goes. The sum starts at zero and takes the columns of the matrix in order. -/
def apply (m : Matrix α) (v : Column α) : Column α where
  x := 0.0 + m.xAxis.x * v.x + m.yAxis.x * v.y + m.zAxis.x * v.z + m.origin.x * v.w
  y := 0.0 + m.xAxis.y * v.x + m.yAxis.y * v.y + m.zAxis.y * v.z + m.origin.y * v.w
  z := 0.0 + m.xAxis.z * v.x + m.yAxis.z * v.y + m.zAxis.z * v.z + m.origin.z * v.w
  w := 0.0 + m.xAxis.w * v.x + m.yAxis.w * v.y + m.zAxis.w * v.z + m.origin.w * v.w

/-- The transform that does `n` first and `m` after it. -/
def mul (m n : Matrix α) : Matrix α where
  xAxis := m.apply n.xAxis
  yAxis := m.apply n.yAxis
  zAxis := m.apply n.zAxis
  origin := m.apply n.origin

/-- Where a direction goes: the origin plays no part. -/
def direct (m : Matrix α) (v : Vec3 α) : Vec3 α where
  x := m.xAxis.x * v.x + m.yAxis.x * v.y + m.zAxis.x * v.z
  y := m.xAxis.y * v.x + m.yAxis.y * v.y + m.zAxis.y * v.z
  z := m.xAxis.z * v.x + m.yAxis.z * v.y + m.zAxis.z * v.z

/-- Where a point goes. -/
def place (m : Matrix α) (p : Vec3 α) : Vec3 α where
  x := m.xAxis.x * p.x + m.yAxis.x * p.y + m.zAxis.x * p.z + m.origin.x
  y := m.xAxis.y * p.x + m.yAxis.y * p.y + m.zAxis.y * p.z + m.origin.y
  z := m.xAxis.z * p.x + m.yAxis.z * p.y + m.zAxis.z * p.z + m.origin.z

end Arithmetic

section Rotations

variable [Elementary α]

def rotationX (angle : α) : Matrix α :=
  let s := Elementary.sin angle
  let c := Elementary.cos angle
  { identity with yAxis := ⟨0.0, c, s, 0.0⟩, zAxis := ⟨0.0, -s, c, 0.0⟩ }

def rotationY (angle : α) : Matrix α :=
  let s := Elementary.sin angle
  let c := Elementary.cos angle
  { identity with xAxis := ⟨c, 0.0, -s, 0.0⟩, zAxis := ⟨s, 0.0, c, 0.0⟩ }

def rotationZ (angle : α) : Matrix α :=
  let s := Elementary.sin angle
  let c := Elementary.cos angle
  { identity with xAxis := ⟨c, s, 0.0, 0.0⟩, yAxis := ⟨-s, c, 0.0, 0.0⟩ }

end Rotations

end Matrix

end ShapeGrammar

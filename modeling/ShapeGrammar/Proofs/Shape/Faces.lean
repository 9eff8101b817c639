import ShapeGrammar.Shape.Faces

/-!
# Faces of sides

The faces of a box are those of its sides, and a side is a shape like any other. That the sides are
flat, whatever box they belong to, ends this after one step. Main statement: `facesWithin_one`.
-/
namespace ShapeGrammar

namespace Shape

variable {α : Type} [Elementary α]

/-- The faces of a shape as those of its sides, which are shapes again and may have sides
themselves: nothing if they lie more levels deep. -/
def facesWithin (levels : Nat) (s : Shape α) : Option (List (Face α)) :=
  if s.isBox then
    match levels with
    | 0 => none
    | below + 1 => (Side.all.mapM fun k => facesWithin below (s.side k s.name)).map List.flatten
  else some s.quad

@[simp] theorem size_side_z (s : Shape α) (k : Side) (name : String) :
    (s.side k name).size.z = 0.0 := by
  cases k <;> rfl

@[simp] theorem isBox_side (s : Shape α) (k : Side) (name : String) :
    (s.side k name).isBox = false := by
  rw [isBox, size_side_z]
  exact decide_eq_false (Scalar.lt_irrefl _)

theorem facesWithin_one (s : Shape α) : s.facesWithin 1 = some s.faces := by
  by_cases hbox : s.isBox = true
  · simp [facesWithin, faces, hbox, Side.all]
  · simp [facesWithin, faces, hbox]

theorem length_quad_le (s : Shape α) : s.quad.length ≤ 1 := by
  unfold quad
  split <;> simp

theorem length_faces_le (s : Shape α) : s.faces.length ≤ 6 := by
  unfold faces
  split
  · have hside (k : Side) := length_quad_le (s.side k s.name)
    have hfront := hside .front
    have hright := hside .right
    have hback := hside .back
    have hleft := hside .left
    have htop := hside .top
    have hbottom := hside .bottom
    simp only [Side.all, List.flatMap_cons, List.flatMap_nil, List.length_append, List.length_nil]
    omega
  · exact Nat.le_trans (length_quad_le s) (by omega)

end Shape

end ShapeGrammar

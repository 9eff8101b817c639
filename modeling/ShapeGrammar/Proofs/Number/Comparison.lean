import Mathlib.Logic.Basic
import Mathlib.Tactic.Tauto
import ShapeGrammar.Number.Machine

/-!
# Comparing machine numbers

One machine number is at most another one if both are numbers and the second is not less. So numbers
of which none is less than the other cannot be told apart by comparing them with others.
-/
namespace ShapeGrammar

namespace LinePlace

open Float.Model

theorem compare_then_isLE (e f : Int) (m n : Nat) :
    ((compare e f).then (compare m n)).isLE = true ↔ ¬(f < e ∨ e = f ∧ n < m) := by
  rw [← compare_then_eq_gt]
  cases (compare e f).then (compare m n) <;> decide

theorem compare_then_isGE (e f : Int) (m n : Nat) :
    ((compare e f).then (compare m n)).isGE = true ↔ ¬(e < f ∨ e = f ∧ m < n) := by
  rw [← compare_then_eq_lt]
  cases (compare e f).then (compare m n) <;> decide

theorem le_iff (a b : UnpackedFloat) :
    a.le b = true ↔ a.beq a = true ∧ b.beq b = true ∧ ¬b.lt a = true := by
  rw [beq_self_iff, beq_self_iff, lt_iff]
  rcases a with (_ | _) | _ | _ | ⟨_ | _, m, e, hm⟩ <;>
  rcases b with (_ | _) | _ | _ | ⟨_ | _, n, f, hn⟩ <;>
  dsimp only [UnpackedFloat.le, UnpackedFloat.compare, of?] <;>
  simp [Before, compare_then_isLE, compare_then_isGE]
  case finite.negative.finite.negative => omega
  case finite.positive.finite.positive => exact fun _ => by rw [eq_comm]
  all_goals decide

end LinePlace

namespace Scalar

/-- Scalars of which one is at most another one if both are numbers and the second is not less. -/
class LawfulLe (α : Type) [Scalar α] : Prop where
  le_iff : ∀ x y : α, x ≤ y ↔ (x == x) = true ∧ (y == y) = true ∧ ¬y < x

variable {α : Type} [Scalar α] {x y z : α}

/-- What is at most anything is a number, and so is what it is compared with. -/
theorem isNaN_eq_false_of_le [LawfulLe α] (h : x ≤ y) : isNaN x = false ∧ isNaN y = false := by
  obtain ⟨hx, hy, _⟩ := (LawfulLe.le_iff x y).mp h
  simp [isNaN, hx, hy]

theorem le_of_lt [LawfulLe α] (h : x < y) : x ≤ y := by
  obtain ⟨hx, hy⟩ := beq_self_of_lt h
  exact (LawfulLe.le_iff x y).mpr ⟨hx, hy, fun hback => lt_irrefl x (lt_trans h hback)⟩

theorem lt_of_not_le [LawfulLe α] (hx : (x == x) = true) (hy : (y == y) = true) (h : ¬x ≤ y) :
    y < x := by
  rw [LawfulLe.le_iff] at h
  tauto

/-- Numbers of which none is less than the other are at most the same values. -/
theorem le_iff_of_not_lt [LawfulLe α] (hx : (x == x) = true) (hy : (y == y) = true)
    (hxy : ¬x < y) (hyx : ¬y < x) : x ≤ z ↔ y ≤ z := by
  have hless : z < x ↔ z < y :=
    ⟨fun hz => (lt_or_lt hz hy).resolve_right hyx, fun hz => (lt_or_lt hz hx).resolve_right hxy⟩
  rw [LawfulLe.le_iff, LawfulLe.le_iff, hx, hy, hless]

end Scalar

theorem Float32.le_iff (x y : Float32) :
    x ≤ y ↔ (x == x) = true ∧ (y == y) = true ∧ ¬y < x := by
  have hlt : y.toModel.unpack.lt x.toModel.unpack = true ↔ y < x :=
    ⟨decide_eq_true, of_decide_eq_true⟩
  have hle : x ≤ y ↔ x.toModel.unpack.le y.toModel.unpack = true :=
    ⟨of_decide_eq_true, decide_eq_true⟩
  rw [hle, LinePlace.le_iff, hlt]
  rfl

instance : Scalar.LawfulLe Float32 :=
  ⟨Float32.le_iff⟩

end ShapeGrammar

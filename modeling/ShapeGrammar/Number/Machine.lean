import ShapeGrammar.Number.Binary
import ShapeGrammar.Number.Scalar

/-!
# Machine numbers as scalars

Single precision carries attributes, geometry and pixels; double precision carries distances,
scores and probabilities. The whole part of a machine number is held at the largest 64-bit word.

Machine numbers are ordered by their places on the number line, which are triples of whole numbers
in lexicographic order.
-/
namespace ShapeGrammar

namespace LinePlace

open Float.Model

/-- The place of a machine number: the part of the line it is in, then its exponent and its
mantissa, both counted down below zero. What is no number has no place. -/
def of? : UnpackedFloat → Option (Int × Int × Int)
  | .notANumber => none
  | .infinity .negative => some (-2, 0, 0)
  | .finite .negative m e _ => some (-1, -e, -m)
  | .zero _ => some (0, 0, 0)
  | .finite .positive m e _ => some (1, e, m)
  | .infinity .positive => some (2, 0, 0)

/-- Whether a place lies before another. -/
def Before (x y : Int × Int × Int) : Prop :=
  x.1 < y.1 ∨ x.1 = y.1 ∧ (x.2.1 < y.2.1 ∨ x.2.1 = y.2.1 ∧ x.2.2 < y.2.2)

theorem Before.irrefl (x : Int × Int × Int) : ¬Before x x := by
  simp [Before]

theorem Before.trans {x y z : Int × Int × Int} (h : Before x y) (k : Before y z) :
    Before x z := by
  simp only [Before] at *
  omega

theorem Before.or {x y z : Int × Int × Int} (h : Before x y) : Before x z ∨ Before z y := by
  simp only [Before] at *
  omega

theorem compare_then_eq_lt (e f : Int) (m n : Nat) :
    (compare e f).then (compare m n) = .lt ↔ e < f ∨ e = f ∧ m < n := by
  simp [Ordering.then_eq_lt, Int.compare_eq_lt, Nat.compare_eq_lt]

theorem compare_then_eq_gt (e f : Int) (m n : Nat) :
    (compare e f).then (compare m n) = .gt ↔ f < e ∨ e = f ∧ n < m := by
  simp [Ordering.then_eq_gt, Int.compare_eq_gt, Nat.compare_eq_gt]

theorem lt_iff (a b : UnpackedFloat) :
    a.lt b = true ↔ ∃ x y, of? a = some x ∧ of? b = some y ∧ Before x y := by
  rcases a with (_ | _) | _ | _ | ⟨_ | _, m, e, hm⟩ <;>
  rcases b with (_ | _) | _ | _ | ⟨_ | _, n, f, hn⟩ <;>
  dsimp only [UnpackedFloat.lt, UnpackedFloat.compare, of?] <;>
  simp [Before, compare_then_eq_lt, compare_then_eq_gt]
  decide

theorem lt_irrefl (a : UnpackedFloat) : ¬a.lt a = true := by
  intro h
  obtain ⟨x, y, hx, hy, before⟩ := (lt_iff a a).mp h
  rw [hx, Option.some.injEq] at hy
  subst hy
  exact Before.irrefl x before

theorem lt_trans {a b c : UnpackedFloat} (h : a.lt b = true) (k : b.lt c = true) :
    a.lt c = true := by
  obtain ⟨x, y, hx, hy, before⟩ := (lt_iff a b).mp h
  obtain ⟨y', z, hy', hz, before'⟩ := (lt_iff b c).mp k
  rw [hy, Option.some.injEq] at hy'
  subst hy'
  exact (lt_iff a c).mpr ⟨x, z, hx, hz, before.trans before'⟩

theorem beq_self_iff (a : UnpackedFloat) : a.beq a = true ↔ ∃ x, of? a = some x := by
  have hsame (e : Int) (m : Nat) : (compare e e).then (compare m m) = .eq := by
    simp
  rcases a with (_ | _) | _ | _ | ⟨_ | _, m, e, hm⟩
  case notANumber => exact ⟨fun h => (by cases h), fun ⟨_, h⟩ => (by cases h)⟩
  case finite.negative =>
    refine ⟨fun _ => ⟨_, rfl⟩, fun _ => ?_⟩
    show (some ((compare e e).then (compare m m)).swap == some Ordering.eq) = true
    rw [hsame]
    rfl
  case finite.positive =>
    refine ⟨fun _ => ⟨_, rfl⟩, fun _ => ?_⟩
    show (some ((compare e e).then (compare m m)) == some Ordering.eq) = true
    rw [hsame]
    rfl
  all_goals exact ⟨fun _ => ⟨_, rfl⟩, fun _ => rfl⟩

theorem beq_self_of_lt {a b : UnpackedFloat} (h : a.lt b = true) :
    a.beq a = true ∧ b.beq b = true := by
  obtain ⟨x, y, hx, hy, _⟩ := (lt_iff a b).mp h
  exact ⟨(beq_self_iff a).mpr ⟨x, hx⟩, (beq_self_iff b).mpr ⟨y, hy⟩⟩

theorem lt_or_lt {a b c : UnpackedFloat} (h : a.lt b = true) (hc : c.beq c = true) :
    a.lt c = true ∨ c.lt b = true := by
  obtain ⟨x, y, hx, hy, before⟩ := (lt_iff a b).mp h
  obtain ⟨z, hz⟩ := (beq_self_iff c).mp hc
  rcases before.or with left | right
  · exact .inl ((lt_iff a c).mpr ⟨x, z, hx, hz, left⟩)
  · exact .inr ((lt_iff c b).mpr ⟨z, y, hz, hy, right⟩)

end LinePlace

/-- The double precision number nearest to a whole number; that of a word is found in one step. -/
def nearestDouble (n : Nat) : Float :=
  if n < 18446744073709551616 then (UInt64.ofNat n).toFloat else Float.ofNat n

instance : Elementary Float32 where
  natCast := Float32.ofNat
  decLt := inferInstance
  decLe := inferInstance
  lt_irrefl x h := LinePlace.lt_irrefl x.toModel.unpack (of_decide_eq_true h)
  lt_trans h k := decide_eq_true (LinePlace.lt_trans (of_decide_eq_true h) (of_decide_eq_true k))
  beq_self_of_lt h := LinePlace.beq_self_of_lt (of_decide_eq_true h)
  lt_or_lt h hz := (LinePlace.lt_or_lt (of_decide_eq_true h) hz).imp decide_eq_true decide_eq_true
  truncate x := x.toUInt64.toNat
  ofDecimal digits places := Float32.ofDecimal false digits (-places)
  sqrt := Float32.sqrt
  sin := Float32.sin
  cos := Float32.cos
  tan := Float32.tan
  exp := Float32.exp
  log := Float32.log
  halfTurn := 3.1415927

instance : Elementary Float where
  natCast := nearestDouble
  decLt := inferInstance
  decLe := inferInstance
  lt_irrefl x h := LinePlace.lt_irrefl x.toModel.unpack (of_decide_eq_true h)
  lt_trans h k := decide_eq_true (LinePlace.lt_trans (of_decide_eq_true h) (of_decide_eq_true k))
  beq_self_of_lt h := LinePlace.beq_self_of_lt (of_decide_eq_true h)
  lt_or_lt h hz := (LinePlace.lt_or_lt (of_decide_eq_true h) hz).imp decide_eq_true decide_eq_true
  truncate x := x.toUInt64.toNat
  ofDecimal digits places := Float.ofDecimal false digits (-places)
  sqrt := Float.sqrt
  sin := Float.sin
  cos := Float.cos
  tan := Float.tan
  exp := Float.exp
  log := Float.log
  halfTurn := 3.141592653589793

instance : Precision Float32 Float where
  widen := Float32.toFloat
  narrow := Float.toFloat32

end ShapeGrammar

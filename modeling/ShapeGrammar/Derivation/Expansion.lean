import ShapeGrammar.Derivation.Tree
import ShapeGrammar.Operator.Emission

/-!
# Expanding a node

The operators of a rule work on a shape one after the other until one of them takes it apart; if
none does, the shape that is left becomes a terminal. A tree has a limit on its nodes: successors
that do not fit are dropped, and the expansion says so.
-/
namespace ShapeGrammar

/-- What the operators of a rule make of a shape. -/
structure Growth (α : Type) where
  /-- The successors that fit. -/
  successors : List (Shape α)
  /-- The shape that no operator took apart, if it fits. -/
  survivor : Option (Shape α)
  /-- Whether something did not fit. -/
  clipped : Bool

/-- How an expansion ended. -/
inductive Expansion where
  /-- The shape has no rule. -/
  | terminal
  | expanded
  /-- Successors were dropped for lack of room. -/
  | clipped
  deriving DecidableEq, Repr

namespace Growth

variable {α : Type} [Elementary α]

/-- Applies operators to a shape, with room for a number of children. One successor more than fits
is asked for, so that dropping it is noticed. -/
def ofOperators (values : String → Option α) (room : Nat) :
    List (Operator α) → Shape α → Except (EvalError α) (Growth α)
  | [], shape =>
    if room = 0 then .ok ⟨[], none, true⟩ else .ok ⟨[], some shape, false⟩
  | op :: rest, shape =>
    match op.applyWithin values (room + 1) shape with
    | .error e => .error e
    | .ok ⟨_, some shape⟩ => ofOperators values room rest shape
    | .ok ⟨emitted, none⟩ => .ok ⟨emitted.take room, none, room < emitted.length⟩

theorem length_le_room {values : String → Option α} {room : Nat} {ops : List (Operator α)}
    {shape : Shape α} {growth : Growth α} (h : ofOperators values room ops shape = .ok growth) :
    growth.successors.length + growth.survivor.toList.length ≤ room := by
  induction ops generalizing shape with
  | nil =>
    unfold ofOperators at h
    split at h
    · cases h
      simp
    · cases h
      simp
      omega
  | cons op rest ih =>
    unfold ofOperators at h
    split at h
    · cases h
    · exact ih h
    · cases h
      simp only [List.length_take, Option.toList_none, List.length_nil]
      omega

/-- The children a node gets: successors wait if they have a rule, the survivor is a terminal. -/
def children (hasRule : String → Bool) (growth : Growth α) : List (Shape α × Status) :=
  (growth.successors.map fun s => (s, if hasRule s.name then .pending else .terminal))
    ++ (growth.survivor.map fun s => (s, Status.terminal)).toList

end Growth

end ShapeGrammar

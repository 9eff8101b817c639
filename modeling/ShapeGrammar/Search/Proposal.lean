import ShapeGrammar.Grammar.Basic

/-!
# Local moves

A local move takes every choice of a grammar one level down, leaves it, or takes it one level up.
At the ends of a range the levels stay within it. The move is drawn in two steps: a direction for
each choice, and then the grammar those directions lead to.
-/
namespace ShapeGrammar

/-- The level one step in a direction: zero is down, two is up, one stays. -/
def stepLevel (direction level : Nat) : Nat :=
  if direction = 0 then level - 1
  else if direction = 2 then min (level + 1) 9
  else level

/-- A direction, each of the three as likely as the others. -/
def Generator.direction (rng : Generator) : Nat × Generator :=
  let (r, rng) := rng.below 3
  (r.toNat, rng)

/-- A number of directions. -/
def Generator.directions : Nat → Generator → List Nat × Generator
  | 0, rng => ([], rng)
  | count + 1, rng =>
    let (first, rng) := rng.direction
    let (rest, rng) := Generator.directions count rng
    (first :: rest, rng)

namespace Grammar

variable {α : Type}

/-- The number of choices, fixed or not. -/
def choiceCount (g : Grammar α) : Nat :=
  (g.attributes.values.filter (·.ranged)).length

variable [Scalar α]

/-- Moves an attribute by the first of the directions left, if it is a choice. -/
def moveAttribute (a : Attribute α) (directions : List Nat) : Attribute α × List Nat :=
  if a.ranged then
    (a.setLevel (stepLevel (directions.headD 1) a.levelIndex), directions.tail)
  else (a, directions)

/-- Moves each choice in its direction, in the order of the table. -/
def move (g : Grammar α) (directions : List Nat) : Grammar α :=
  { g with attributes := (g.attributes.thread moveAttribute directions).1 }

/-- A random local move. -/
def propose (g : Grammar α) (rng : Generator) : Grammar α × Generator :=
  let (directions, rng) := rng.directions g.choiceCount
  (g.move directions, rng)

end Grammar

end ShapeGrammar

import ShapeGrammar.Grammar.Basic

/-!
# Action spaces

The choices of a rule, counted as one number. Each attribute that a parameter names and that is
still open contributes a decimal digit, its level; the attribute named first is the last digit. A
rule with `k` open choices has `10 ^ k` actions.
-/
namespace ShapeGrammar

/-- The open choices of a rule, each once, in the order in which its parameters name them. -/
structure ActionSpace where
  free : List String
  deriving DecidableEq, Repr

namespace ActionSpace

/-- The most choices a rule may have for its actions to fit in 64 bits. -/
def maxFree : Nat :=
  19

/-- The largest number an action may be. -/
def limit : Nat :=
  18446744073709551615

/-- Names without their repetitions, each where it first stands. -/
def distinct (names : List String) : List String :=
  names.foldl (fun seen name => if seen.contains name then seen else seen ++ [name]) []

/-- The choices that are open when a shape of a name is expanded; nothing for a name without a
rule. -/
def ofShape {α : Type} (g : Grammar α) (name : String) : Option ActionSpace :=
  (g.rule? name).map fun rule => ⟨distinct (rule.namedAttributes.filter g.isFree)⟩

/-- The number of actions, held at the limit. -/
def size (s : ActionSpace) : Nat :=
  min (Nat.pow Attribute.levels s.free.length) limit

/-- The last `count` decimal digits of an action, the last one first. -/
def digits : Nat → Nat → List Nat
  | 0, _ => []
  | count + 1, action => action % 10 :: digits count (action / 10)

/-- The levels that an action stands for. -/
def levels (s : ActionSpace) (action : Nat) : List Nat :=
  digits s.free.length action

/-- The action that stands for some levels. -/
def encode (levels : List Nat) : Nat :=
  levels.foldr (fun level action => action * 10 + min level 9) 0

/-- Fixes the choices of a space at the levels of an action. -/
def decode {α : Type} [Scalar α] (s : ActionSpace) (g : Grammar α) (action : Nat) : Grammar α :=
  (s.free.zip (s.levels action)).foldl
    (fun g (name, level) => g.modify name fun a => a.commit level) g

/-- The grammar under which a shape of a name is expanded once its choices are fixed by an
action. -/
def commit {α : Type} [Scalar α] (g : Grammar α) (name : String) (action : Nat) : Grammar α :=
  match ofShape g name with
  | some space => space.decode g action
  | none => g

end ActionSpace

end ShapeGrammar

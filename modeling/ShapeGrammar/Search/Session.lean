import ShapeGrammar.Random.Generator

/-!
# Sessions

A search draws from one generator and counts what it does. Both go from call to call in a session;
a call that fails leaves the session as it was when it failed. Reports count what succeeded; a clock
is read for every derivation that is begun.
-/
namespace ShapeGrammar

/-- What a search has done so far. -/
structure Effort where
  derivations : Nat := 0
  /-- Derivations that were cut off. -/
  truncated : Nat := 0
  expansions : Nat := 0
  renders : Nat := 0
  deriving DecidableEq, Repr

/-- The generator of a search and its counts. -/
structure Session where
  rng : Generator
  effort : Effort := {}
  /-- All derivations that were begun, those that failed too. -/
  begun : Nat := 0
  deriving DecidableEq, Repr

/-- The session of a seed. -/
def Session.seeded (seed : UInt64) : Session :=
  { rng := .seeded seed }

end ShapeGrammar

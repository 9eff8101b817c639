import ShapeGrammar.Random.Generator
import Std.Data.TreeMap

/-!
# Action pools

The actions of a node that have not been tried, drawn evenly and each once. They are the entries of
an array whose drawn entries are replaced by its last one. There may be as many as a word can
count, so only the entries that differ from their place are kept.
-/
namespace ShapeGrammar

/-- The untried actions of a space. -/
structure ActionPool where
  /-- How many are left. -/
  remaining : Nat
  /-- The entries that differ from their place. -/
  moved : Std.TreeMap Nat Nat

namespace ActionPool

/-- All actions below `size`. -/
def full (size : Nat) : ActionPool :=
  ⟨size, ∅⟩

def isEmpty (p : ActionPool) : Bool :=
  p.remaining == 0

/-- The entry at a place. -/
def entry (p : ActionPool) (place : Nat) : Nat :=
  p.moved[place]?.getD place

/-- Takes the entry at a place, and puts the last one there. -/
def drawAt (p : ActionPool) (place : Nat) : Nat × ActionPool :=
  let last := p.remaining - 1
  let moved := if place = last then p.moved else p.moved.insert place (p.entry last)
  (p.entry place, ⟨last, moved.erase last⟩)

/-- Takes an entry from a place that is drawn evenly, if any is left. -/
def draw (p : ActionPool) (rng : Generator) : Option (Nat × ActionPool × Generator) :=
  if p.isEmpty then none
  else
    let (place, rng) := rng.below (.ofNat p.remaining)
    let (action, p) := p.drawAt place.toNat
    some (action, p, rng)

end ActionPool

end ShapeGrammar

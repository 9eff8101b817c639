import ShapeGrammar.Derivation.Basic
import ShapeGrammar.Json.Decode

/-!
# Limits in a configuration

Each limit that is not written has its usual value.
-/
namespace ShapeGrammar

namespace Limits

def ofJson? (j : Json) : Option Limits := do
  let r ← j.record? ["max_steps", "max_depth", "max_nodes", "max_millis"]
  let usual : Limits := {}
  let maxSteps ← r.orElse 0 (Json.natUpTo? 18446744073709551615) usual.maxSteps
  let maxDepth ← r.orElse 1 (Json.natUpTo? 4294967295) usual.maxDepth
  let maxNodes ← r.orElse 2 (Json.natUpTo? 18446744073709551615) usual.maxNodes
  let maxMillis ← r.orElse 3 (Json.orNull? (Json.natUpTo? 18446744073709551615)) usual.maxMillis
  return { maxSteps, maxDepth, maxNodes, maxMillis }

def toJson (l : Limits) : Json :=
  .object [
    ("max_steps", .ofNat l.maxSteps),
    ("max_depth", .ofNat l.maxDepth),
    ("max_nodes", .ofNat l.maxNodes),
    ("max_millis", .ofOption .ofNat l.maxMillis)]

end Limits

end ShapeGrammar

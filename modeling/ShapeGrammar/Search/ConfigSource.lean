import ShapeGrammar.Derivation.Source
import ShapeGrammar.Grammar.Source
import ShapeGrammar.Search.Config

/-!
# Configuration sources

A configuration is written as JSON and needs to name only what differs from the usual values.
-/
namespace ShapeGrammar

namespace Json

/-- A whole number of 64 bits. -/
def count? (j : Json) : Option Nat :=
  j.natUpTo? 18446744073709551615

end Json

/-! ## Reading -/

def Camera.ofJson? (j : Json) : Option (Camera Float32) := do
  let r ← j.record? ["pitch_degrees", "yaw_degrees", "position", "fov_y_degrees", "near"]
  let usual : Camera Float32 := .usual
  let pitch ← r.orElse 0 Json.float32? usual.pitch
  let yaw ← r.orElse 1 Json.float32? usual.yaw
  let position ← r.orElse 2 Vec3.ofJson? usual.position
  let fieldOfView ← r.orElse 3 Json.float32? usual.fieldOfView
  let near ← r.orElse 4 Json.float32? usual.near
  return { pitch, yaw, position, fieldOfView, near }

def Viewport.ofJson? (j : Json) : Option (Viewport Float32) := do
  let r ← j.record? ["width", "height", "camera"]
  let usual : Viewport Float32 := .usual
  let width ← r.orElse 0 Json.word32? usual.width
  let height ← r.orElse 1 Json.word32? usual.height
  let camera ← r.orElse 2 Camera.ofJson? usual.camera
  return { width, height, camera }

def Metric.ofJson? (j : Json) : Option (Metric Float) := do
  let r ← j.record? ["alpha", "beta", "edge_threshold"]
  let usual : Metric Float := .usual
  let alpha ← r.orElse 0 Json.float? usual.alpha
  let beta ← r.orElse 1 Json.float? usual.beta
  let edgeThreshold ← r.orElse 2 Json.byte? usual.edgeThreshold
  return { alpha, beta, edgeThreshold }

def TreeConfig.ofJson? (j : Json) : Option (TreeConfig Float) := do
  let r ← j.record? ["max_derivation_steps", "max_iterations", "exploration",
    "unvisited_priority", "unvisited_jitter"]
  let usual : TreeConfig Float := .usual
  let maxSteps ← r.orElse 0 Json.count? usual.maxSteps
  let maxIterations ← r.orElse 1 Json.count? usual.maxIterations
  let exploration ← r.orElse 2 Json.float? usual.exploration
  let unvisitedPriority ← r.orElse 3 Json.float? usual.unvisitedPriority
  let unvisitedJitter ← r.orElse 4 Json.count? usual.unvisitedJitter
  return { maxSteps, maxIterations, exploration, unvisitedPriority, unvisitedJitter }

def ExchangeConfig.ofJson? (j : Json) : Option (ExchangeConfig Float) := do
  let r ← j.record? ["iterations", "low_temperature", "high_temperature", "swap_probability",
    "cooling_factor", "snapshot_interval"]
  let usual : ExchangeConfig Float := .usual
  let iterations ← r.orElse 0 Json.count? usual.iterations
  let lowTemperature ← r.orElse 1 Json.float? usual.lowTemperature
  let highTemperature ← r.orElse 2 Json.float? usual.highTemperature
  let swapProbability ← r.orElse 3 Json.float? usual.swapProbability
  let coolingFactor ← r.orElse 4 Json.float? usual.coolingFactor
  let snapshotInterval ← r.orElse 5 Json.count? usual.snapshotInterval
  return { iterations, lowTemperature, highTemperature, swapProbability, coolingFactor
           snapshotInterval }

namespace SearchConfig

def ofJson? (j : Json) : Option (SearchConfig Float32 Float) := do
  let r ← j.record? ["derivation", "mcts", "mcmc", "metric", "render", "seed"]
  let usual : SearchConfig Float32 Float := .usual
  let limits ← r.orElse 0 Limits.ofJson? usual.limits
  let tree ← r.orElse 1 TreeConfig.ofJson? usual.tree
  let exchange ← r.orElse 2 ExchangeConfig.ofJson? usual.exchange
  let metric ← r.orElse 3 Metric.ofJson? usual.metric
  let view ← r.orElse 4 Viewport.ofJson? usual.view
  let seed ← r.orElse 5 (Json.orNull? Json.word64?) usual.seed
  return { limits, tree, exchange, metric, view, seed }

/-- Why a text is no configuration. -/
inductive LoadError where
  /-- The text is no JSON text of a configuration. -/
  | source
  | invalid (fault : ConfigFault)
  deriving DecidableEq, Repr

def LoadError.message : LoadError → String
  | .source => "Malformed configuration source"
  | .invalid fault => fault.message

/-- The configuration of a text. -/
def load (text : String) : Except LoadError (SearchConfig Float32 Float) :=
  match (Json.read? text).bind ofJson? with
  | none => .error .source
  | some c =>
    match c.validate with
    | .ok () => .ok c
    | .error fault => .error (.invalid fault)

end SearchConfig

/-! ## Writing -/

def Camera.toJson (c : Camera Float32) : Json :=
  .object [
    ("pitch_degrees", .ofFloat32 c.pitch),
    ("yaw_degrees", .ofFloat32 c.yaw),
    ("position", .array (c.position.toList.map Json.ofFloat32)),
    ("fov_y_degrees", .ofFloat32 c.fieldOfView),
    ("near", .ofFloat32 c.near)]

def Viewport.toJson (v : Viewport Float32) : Json :=
  .object [("width", .ofNat v.width.toNat), ("height", .ofNat v.height.toNat),
    ("camera", v.camera.toJson)]

def Metric.toJson (m : Metric Float) : Json :=
  .object [("alpha", .ofFloat m.alpha), ("beta", .ofFloat m.beta),
    ("edge_threshold", .ofNat m.edgeThreshold.toNat)]

def TreeConfig.toJson (c : TreeConfig Float) : Json :=
  .object [
    ("max_derivation_steps", .ofNat c.maxSteps),
    ("max_iterations", .ofNat c.maxIterations),
    ("exploration", .ofFloat c.exploration),
    ("unvisited_priority", .ofFloat c.unvisitedPriority),
    ("unvisited_jitter", .ofNat c.unvisitedJitter)]

def ExchangeConfig.toJson (c : ExchangeConfig Float) : Json :=
  .object [
    ("iterations", .ofNat c.iterations),
    ("low_temperature", .ofFloat c.lowTemperature),
    ("high_temperature", .ofFloat c.highTemperature),
    ("swap_probability", .ofFloat c.swapProbability),
    ("cooling_factor", .ofFloat c.coolingFactor),
    ("snapshot_interval", .ofNat c.snapshotInterval)]

def SearchConfig.toJson (c : SearchConfig Float32 Float) : Json :=
  .object [
    ("derivation", c.limits.toJson),
    ("mcts", c.tree.toJson),
    ("mcmc", c.exchange.toJson),
    ("metric", c.metric.toJson),
    ("render", c.view.toJson),
    ("seed", .ofOption (fun s => .ofNat s.toNat) c.seed)]

end ShapeGrammar

import ShapeGrammar.Derivation.Basic
import ShapeGrammar.Distance.Score
import ShapeGrammar.Image.Drawing

/-!
# Configurations

All tunable numbers of a search, each with its usual value, and the check that the algorithms can
work with them.
-/
namespace ShapeGrammar

/-- The tree search. -/
structure TreeConfig (β : Type) where
  /-- How many nodes to decide. -/
  maxSteps : Nat
  /-- How many rollouts to decide one of them with. -/
  maxIterations : Nat
  /-- The weight of what has been visited little. -/
  exploration : β
  /-- The rank of what has not been visited at all. -/
  unvisitedPriority : β
  /-- What may be added to that rank at random. -/
  unvisitedJitter : Nat
  deriving BEq, DecidableEq, Repr

/-- The sampler. -/
structure ExchangeConfig (β : Type) where
  iterations : Nat
  lowTemperature : β
  highTemperature : β
  /-- The chance of an attempt to exchange temperatures instead of a move. -/
  swapProbability : β
  /-- What a temperature is divided by after each move. -/
  coolingFactor : β
  /-- A snapshot is taken after this many iterations, none if it is zero. -/
  snapshotInterval : Nat
  deriving BEq, DecidableEq, Repr

/-- Everything that is configured. -/
structure SearchConfig (α β : Type) where
  limits : Limits
  tree : TreeConfig β
  exchange : ExchangeConfig β
  metric : Metric β
  view : Viewport α
  /-- Where the generator starts; a fresh seed if there is none. -/
  seed : Option UInt64
  deriving BEq, DecidableEq, Repr

section Usual

variable {α β : Type} [Elementary α] [Scalar β]

def TreeConfig.usual : TreeConfig β where
  maxSteps := 10
  maxIterations := 20
  exploration := 1.0
  unvisitedPriority := 10000.0
  unvisitedJitter := 1000

def ExchangeConfig.usual : ExchangeConfig β where
  iterations := 1000
  lowTemperature := 1.0
  highTemperature := 10.0
  swapProbability := 0.1
  coolingFactor := 1.0001
  snapshotInterval := 100

def Metric.usual : Metric β where
  alpha := 1000.0
  beta := 1000.0
  edgeThreshold := 128

def Viewport.usual : Viewport α where
  width := 256
  height := 256
  camera := .usual

def SearchConfig.usual : SearchConfig α β where
  limits := {}
  tree := .usual
  exchange := .usual
  metric := .usual
  view := .usual
  seed := none

end Usual

/-- What the algorithms cannot work with. -/
inductive ConfigFault where
  | emptyImage
  | temperatureNotPositive
  | temperaturesNotApart
  | noProbability
  | heating
  | negativeExploration
  | negativeWeight
  deriving DecidableEq, Repr

/-- What has to hold instead. -/
def ConfigFault.requirement : ConfigFault → String
  | .emptyImage => "render size must be non-zero"
  | .temperatureNotPositive => "chain temperatures must be positive"
  | .temperaturesNotApart => "high_temperature must exceed low_temperature"
  | .noProbability => "swap_probability must lie in [0, 1]"
  | .heating => "cooling_factor must be at least 1"
  | .negativeExploration => "exploration must be non-negative"
  | .negativeWeight => "metric weights must be non-negative"

def ConfigFault.message (fault : ConfigFault) : String :=
  "Invalid configuration: " ++ fault.requirement

namespace SearchConfig

variable {α β : Type} [Scalar β]

/-- The first fault of a configuration. Every bound is asked for as it must hold, so that what is
no number is refused. -/
def validate (c : SearchConfig α β) : Except ConfigFault Unit :=
  let chains := c.exchange
  if c.view.width = 0 ∨ c.view.height = 0 then .error .emptyImage
  else if ¬((0.0 : β) < chains.lowTemperature ∧ (0.0 : β) < chains.highTemperature) then
    .error .temperatureNotPositive
  else if ¬(chains.lowTemperature < chains.highTemperature) then .error .temperaturesNotApart
  else if ¬((0.0 : β) ≤ chains.swapProbability ∧ chains.swapProbability ≤ (1.0 : β)) then
    .error .noProbability
  else if ¬((1.0 : β) ≤ chains.coolingFactor) then .error .heating
  else if ¬((0.0 : β) ≤ c.tree.exploration) then .error .negativeExploration
  else if ¬((0.0 : β) ≤ c.metric.alpha ∧ (0.0 : β) ≤ c.metric.beta) then .error .negativeWeight
  else .ok ()

end SearchConfig

end ShapeGrammar

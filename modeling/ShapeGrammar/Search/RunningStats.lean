import ShapeGrammar.Number.Scalar

/-!
# Running statistics

Mean and variance of samples that come one at a time, without keeping them.
-/
namespace ShapeGrammar

/-- The number of samples, their mean and the sum of their squared deviations from it. -/
structure RunningStats (β : Type) where
  count : Nat
  mean : β
  deviation : β
  deriving DecidableEq, Repr

namespace RunningStats

variable {β : Type} [Scalar β]

def empty : RunningStats β :=
  ⟨0, 0.0, 0.0⟩

/-- Takes in a sample. The sum of squares grows by the product of its distances from the mean
before and the mean after. -/
def push (s : RunningStats β) (x : β) : RunningStats β :=
  let count := s.count + 1
  let delta := x - s.mean
  let mean := s.mean + delta / (count : β)
  ⟨count, mean, s.deviation + delta * (x - mean)⟩

/-- The variance of the samples as a whole population; zero for fewer than two. -/
def variance (s : RunningStats β) : β :=
  if s.count < 2 then 0.0 else s.deviation / (s.count : β)

end RunningStats

end ShapeGrammar

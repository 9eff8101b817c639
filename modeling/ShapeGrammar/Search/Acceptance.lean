import ShapeGrammar.Number.Scalar

/-!
# Acceptance

How likely a sampler at some temperature is to go on to another energy. Both probabilities are one
where the logarithm of their ratio is not negative, and its exponential otherwise.
-/
namespace ShapeGrammar

variable {β : Type} [Elementary β]

/-- The smaller of one and `exp r`. -/
def expUpToOne (r : β) : β :=
  if 0.0 ≤ r then 1.0 else Elementary.exp r

/-- The chance of moving from one energy to another at a temperature. -/
def moveAcceptance (energy next temperature : β) : β :=
  expUpToOne ((energy - next) / temperature)

/-- The chance of exchanging the temperatures of two chains. -/
def swapAcceptance (energy₁ temperature₁ energy₂ temperature₂ : β) : β :=
  expUpToOne ((energy₁ - energy₂) * (1.0 / temperature₁ - 1.0 / temperature₂))

end ShapeGrammar

import ShapeGrammar.Distance.Field

/-!
# The score of a drawing

A drawing is compared with a target through their distance fields: edges of the target that the
drawing misses cost their distance to it, and edges of the drawing that the target lacks cost
theirs. The score is never negative and zero for equal drawings; a value between zero and one falls
as the score grows.
-/
namespace ShapeGrammar

/-- What the two kinds of missing edges cost, and how dark an edge is. -/
structure Metric (β : Type) where
  /-- The cost of target edges that the drawing misses. -/
  alpha : β
  /-- The cost of drawn edges that the target lacks. -/
  beta : β
  edgeThreshold : UInt8
  deriving BEq, DecidableEq, Repr

namespace DistanceField

variable {α β : Type} [Scalar α] [Elementary β] [Precision α β]

/-- The distances in one field at the edges of another. -/
def distanceAtEdges (edges distances : DistanceField α) : β :=
  let zero : α := 0.0
  (edges.cells.zip distances.cells).foldl
    (fun sum (edge, distance) =>
      if edge == zero then sum + Precision.widen distance else sum) 0.0

/-- Half the size of an image times its circumference, which makes scores of images of different
sizes comparable. -/
def normalizer (width height : UInt32) : β :=
  let rows : β := (height.toNat : β)
  let cols : β := (width.toNat : β)
  rows * cols * (rows + cols) / 2.0

/-- The score of a candidate for a target. -/
def score (metric : Metric β) (candidate target : DistanceField α) : Except SizeMismatch β :=
  if candidate.width = target.width ∧ candidate.height = target.height then
    let missed : β := distanceAtEdges target candidate
    let excess : β := distanceAtEdges candidate target
    let z : β := normalizer target.width target.height
    .ok (metric.alpha * missed / z + metric.beta * excess / z)
  else
    .error ⟨target.width, target.height, candidate.width, candidate.height⟩

end DistanceField

/-- The value of a score: one for none, falling towards zero. -/
def scoreValue {β : Type} [Elementary β] (score : β) : β :=
  Elementary.exp (-score)

end ShapeGrammar

import ShapeGrammar.Search.Config
import ShapeGrammar.Search.Session

/-!
# Evaluators

An evaluator answers how well a building fits a target drawing: it derives the building, draws its
outlines and scores the drawing, lower being better. Two kinds of buildings are evaluated: a random
completion of a derivation in progress, and the one that a grammar with all its values describes.
Each full derivation and each drawing is counted in the session, and by its counts the renderer
knows which drawing it makes and the clock which derivation it is read for.
-/
namespace ShapeGrammar

/-- Why a search fails. -/
inductive SearchError (α : Type) where
  | grammar (cause : GrammarError α)
  | sizes (cause : SizeMismatch)
  deriving DecidableEq, Repr

namespace SearchError

variable {α : Type}

def ofEval (cause : EvalError α) : SearchError α :=
  .grammar (.evaluation cause)

/-- The error in words; numbers are written by `text`. -/
def message (text : α → String) : SearchError α → String
  | .grammar cause => cause.message text
  | .sizes cause => cause.message

end SearchError

namespace Session

/-- Counts a full derivation. -/
def countDerivation (s : Session) (outcome : Outcome) : Session :=
  { s with effort := { s.effort with
      derivations := s.effort.derivations + 1
      expansions := s.effort.expansions + outcome.expansions
      truncated := s.effort.truncated + if outcome.isTruncated then 1 else 0 } }

/-- Counts a drawing. -/
def countRender (s : Session) : Session :=
  { s with effort := { s.effort with renders := s.effort.renders + 1 } }

end Session

/-- What draws buildings, the target of the same size, how drawings are compared with it, how far
buildings are derived, and what the clock shows during each derivation. -/
structure Evaluator (α β : Type) where
  renderer : Renderer α
  target : DistanceField α
  metric : Metric β
  limits : Limits
  clock : Nat → Clock := fun _ => .stopped

namespace Evaluator

variable {α β : Type}

/-- The derivation that every building of a grammar starts from. -/
def start [Elementary α] (grammar : Grammar α) : Derivation α :=
  .start .start grammar

/-- The derivation that the grammar leads to with its values as they stand. -/
def building [Elementary α] (limits : Limits) (grammar : Grammar α) (clock : Clock := .stopped) :
    Except (EvalError α) Outcome × Derivation α :=
  (start grammar).complete limits clock

/-- A building of random levels: every choice of the grammar is opened and drawn anew. The
grammar it follows comes with it. -/
def randomBuilding [Elementary α] (limits : Limits) (grammar : Grammar α) (rng : Generator)
    (clock : Clock := .stopped) :
    Except (EvalError α) (Outcome × Derivation α) × Grammar α × Generator :=
  let (grammar, rng) := grammar.releaseAll.randomizeAll rng
  let (result, d) := building limits grammar clock
  (result.map fun outcome => (outcome, d), grammar, rng)

section Rendering

variable [Elementary α]

/-- Draws a derivation after `drawn` images, with the shapes that still wait if they are asked
for. -/
def renderDerivation (e : Evaluator α β) (mode : DrawMode) (includePending : Bool)
    (d : Derivation α) (drawn : Nat := 0) : GrayImage :=
  e.renderer.draw drawn mode (d.faces includePending)

/-- Draws the building of a grammar after `drawn` images. -/
def renderGrammar (e : Evaluator α β) (mode : DrawMode) (grammar : Grammar α) (drawn : Nat := 0)
    (clock : Clock := .stopped) : Except (SearchError α) GrayImage :=
  match building e.limits grammar clock with
  | (.error cause, _) => .error (.ofEval cause)
  | (.ok _, d) => .ok (e.renderDerivation mode false d drawn)

end Rendering

section Scoring

variable [Elementary α] [Elementary β] [Precision α β]

/-- The evaluator for a target, which must be of the size of the drawings. -/
def ofRenderer (renderer : Renderer α) (target : GrayImage) (metric : Metric β) (limits : Limits)
    (clock : Nat → Clock := fun _ => .stopped) : Except SizeMismatch (Evaluator α β) :=
  if target.width = renderer.width ∧ target.height = renderer.height then
    .ok ⟨renderer, .ofImage metric.edgeThreshold target, metric, limits, clock⟩
  else .error ⟨renderer.width, renderer.height, target.width, target.height⟩

/-- The evaluator for a target seen in a view. -/
def ofTarget (view : Viewport α) (target : GrayImage) (metric : Metric β) (limits : Limits)
    (clock : Nat → Clock := fun _ => .stopped) : Except SizeMismatch (Evaluator α β) :=
  ofRenderer view.renderer target metric limits clock

/-- The score of some faces. -/
def scoreFaces (e : Evaluator α β) (faces : List (Face α)) (s : Session) :
    Except (SearchError α) β × Session :=
  let drawing := DistanceField.ofImage e.metric.edgeThreshold
    (e.renderer.draw s.effort.renders .line faces)
  ((drawing.score e.metric e.target).mapError .sizes, s.countRender)

/-- The score of what a derivation has led to. -/
def scoreResult (e : Evaluator α β) (result : Except (EvalError α) Outcome) (d : Derivation α)
    (s : Session) : Except (SearchError α) β × Session :=
  match result with
  | .error cause => (.error (.ofEval cause), s)
  | .ok outcome => e.scoreFaces (d.faces false) (s.countDerivation outcome)

/-- The score of a random completion of a derivation. -/
def rollout (e : Evaluator α β) (d : Derivation α) (s : Session) :
    Except (SearchError α) β × Session :=
  let (result, d, rng) := d.copy.completeRandomly s.rng e.limits (e.clock s.begun)
  e.scoreResult result d { s with rng, begun := s.begun + 1 }

/-- The score of the building of a grammar. -/
def energy (e : Evaluator α β) (grammar : Grammar α) (s : Session) :
    Except (SearchError α) β × Session :=
  let (result, d) := building e.limits grammar (e.clock s.begun)
  e.scoreResult result d { s with begun := s.begun + 1 }

end Scoring

end Evaluator

end ShapeGrammar

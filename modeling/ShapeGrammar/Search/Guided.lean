import ShapeGrammar.Search.Evaluator
import ShapeGrammar.Search.Tree

/-!
# Guided derivation

Finds the levels under which a grammar builds what a target shows. The choices of one node after
another are decided: a tree search from the derivation so far, rated by random completions, picks
the action of the front node, and the search for the next node starts from where that action leads.

What was decided before a failure stays on record.
-/
namespace ShapeGrammar

/-- What a search knew of one action when it decided. -/
structure Candidate (β : Type) where
  action : Nat
  visits : Nat
  best : β
  deriving DecidableEq, Repr

/-- How the choices of one node were decided. -/
structure Decision (β : Type) where
  step : Nat
  action : Nat
  /-- The value of the action that was chosen. -/
  best : β
  /-- The rounds it took. -/
  rounds : Nat
  /-- All actions that were tried, in the order in which they were. -/
  candidates : List (Candidate β)
  deriving DecidableEq, Repr

namespace Candidate

variable {β : Type}

/-- The candidate in words; values are written by `text`. -/
def line (text : β → String) (c : Candidate β) : String :=
  toString c.action ++ "(#visits: " ++ toString c.visits ++ ", #val: " ++ text c.best ++ ")"

end Candidate

/-- The candidates of a decision in words, in one line. -/
def Decision.line {β : Type} (text : β → String) (d : Decision β) : String :=
  " ".intercalate (d.candidates.map (Candidate.line text))

/-- A derivation that is guided, and its decisions, each with the derivation it led to. -/
structure GuidedRun (α β : Type) where
  live : Derivation α
  history : List (Decision β × Derivation α)

namespace GuidedRun

variable {α β : Type}

def begin (live : Derivation α) : GuidedRun α β :=
  ⟨live, []⟩

def decisions (run : GuidedRun α β) : List (Decision β) :=
  run.history.map Prod.fst

/-- The value of the last decision; zero if there was none. -/
def best [Scalar β] (run : GuidedRun α β) : β :=
  match run.history.getLast? with
  | some (decision, _) => decision.best
  | none => 0.0

/-- Records a decision. -/
def commit (run : GuidedRun α β) (decision : Decision β) (live : Derivation α) :
    GuidedRun α β :=
  ⟨live, run.history ++ [(decision, live)]⟩

end GuidedRun

/-- What a search knew of a child of its root. -/
def SearchNode.candidate {σ β : Type} (n : SearchNode σ β) : Candidate β :=
  ⟨n.action.getD 0, n.visits, n.best⟩

/-- The decision for the best child of the root, and the state that it leads to. -/
def SearchTree.decision? {σ β : Type} [Scalar β] (t : SearchTree σ β) (step rounds : Nat) :
    Option (Decision β × σ) := do
  let root ← t.node? 0
  let chosen ← t.node? (← t.bestChild?)
  let candidates := root.children.filterMap fun id => (t.node? id).map SearchNode.candidate
  return (⟨step, chosen.action.getD 0, chosen.best, rounds, candidates⟩, chosen.state)

namespace Evaluator

variable {α β : Type} [Elementary α] [Elementary β] [Precision α β]

/-- What is searched: derivations in progress, valued by random completions. -/
def problem (e : Evaluator α β) : Problem (Derivation α) (SearchError α) β where
  actionCount d := d.actionCount
  act d action :=
    match d.copy.applyAction action e.limits.maxNodes with
    | (.error cause, _) => .error (.ofEval cause)
    | (.ok _, d) => .ok d
  assess d s :=
    let (score, s) := e.rollout d s
    (score.map scoreValue, s)

/-- The search for the choices of the front node. -/
def searchTree (e : Evaluator α β) (d : Derivation α) : SearchTree (Derivation α) β :=
  .ofRoot e.problem d.copy

/-- At most `steps` further decisions. -/
def guideFrom (e : Evaluator α β) (config : TreeConfig β) :
    Nat → GuidedRun α β → Session → Except (SearchError α) Unit × GuidedRun α β × Session
  | 0, run, s => (.ok (), run, s)
  | steps + 1, run, s =>
    let tree := e.searchTree run.live
    if run.live.isComplete || tree.isExhausted then (.ok (), run, s)
    else
      match tree.search e.problem config s with
      | (.error cause, _, s) => (.error cause, run, s)
      | (.ok rounds, tree, s) =>
        match tree.decision? run.history.length rounds with
        | none => (.ok (), run, s)
        | some (decision, live) => e.guideFrom config steps (run.commit decision live) s

/-- Decides the choices of a grammar node by node, until nothing is left to decide or the number of
steps is used up. -/
def guide (e : Evaluator α β) (config : TreeConfig β) (grammar : Grammar α) (s : Session) :
    Except (SearchError α) Unit × GuidedRun α β × Session :=
  e.guideFrom config config.maxSteps (.begin (start grammar)) s

end Evaluator

end ShapeGrammar

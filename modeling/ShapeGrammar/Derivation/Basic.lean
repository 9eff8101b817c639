import ShapeGrammar.Derivation.Expansion
import ShapeGrammar.Derivation.Queue
import ShapeGrammar.Grammar.ActionSpace

/-!
# Derivations

A derivation is a tree, the queue of its waiting nodes and the grammar they are expanded under. It
goes forward in two ways: one guided step at a time, each fixing the choices of the node it
expands, or all at once until the queue is empty or a limit is reached.

A step that fails is not undone. Every step therefore returns the derivation it leaves beside its
result.
-/
namespace ShapeGrammar

/-- What a clock shows each time it is asked: the whole milliseconds since a run began. Nothing is
said of how fast it goes. -/
abbrev Clock := Nat → Nat

namespace Clock

/-- A clock that stands still. -/
def stopped : Clock :=
  fun _ => 0

/-- What a clock shows from the second time on. -/
def later (clock : Clock) : Clock :=
  fun k => clock (k + 1)

@[simp] theorem later_stopped : stopped.later = stopped :=
  rfl

end Clock

/-- Bounds on a run that expands everything. -/
structure Limits where
  /-- Rule applications. -/
  maxSteps : Nat := 100
  /-- Nodes deeper than this are not expanded. -/
  maxDepth : Nat := 64
  /-- The tree does not grow past this. -/
  maxNodes : Nat := 20000
  /-- Milliseconds, if time is limited. -/
  maxMillis : Option Nat := none
  deriving DecidableEq, Repr

/-- Bounds no run of an ordinary grammar reaches: the largest counts of 64 and of 32 bits. -/
def Limits.unbounded : Limits where
  maxSteps := 18446744073709551615
  maxDepth := 4294967295
  maxNodes := 4294967295

/-- Why a run stopped. -/
inductive StopReason where
  | completed
  /-- The queue emptied, but nodes that were too deep were skipped. -/
  | depthBudget
  | stepBudget
  | nodeBudget
  | timeBudget
  deriving DecidableEq, Repr

/-- The name of a reason in reports. -/
def StopReason.name : StopReason → String
  | .completed => "Completed"
  | .depthBudget => "DepthBudget"
  | .stepBudget => "StepBudget"
  | .nodeBudget => "NodeBudget"
  | .timeBudget => "TimeBudget"

/-- What a run did. -/
structure Outcome where
  /-- Rule applications. -/
  expansions : Nat
  stop : StopReason
  /-- Nodes left in the queue. -/
  abandoned : Nat
  /-- Nodes skipped because they were too deep. -/
  depthPruned : Nat
  deriving DecidableEq, Repr

/-- Whether any part of a derivation was cut off. -/
def Outcome.isTruncated (o : Outcome) : Bool :=
  o.stop != .completed || 0 < o.depthPruned

/-- A derivation in progress. -/
structure Derivation (α : Type) where
  tree : Tree α
  queue : Queue Nat
  grammar : Grammar α
  deriving Repr

namespace Derivation

variable {α : Type}

/-- A derivation of which nothing is done yet. -/
def start (shape : Shape α) (grammar : Grammar α) : Derivation α :=
  ⟨Tree.ofRoot shape, .ofList [0], grammar⟩

/-- A copy to go on with elsewhere: its queue is made anew from its tree. -/
def copy (d : Derivation α) : Derivation α :=
  { d with queue := .ofList d.tree.pendingInOrder }

def isComplete (d : Derivation α) : Bool :=
  d.queue.isEmpty

/-- The node the next guided step expands. -/
def front? (d : Derivation α) : Option Nat :=
  d.queue.head?

/-- The choices of the front node; nothing if there is none or it has no rule. -/
def frontSpace? (d : Derivation α) : Option ActionSpace := do
  let id ← d.front?
  let node ← d.tree.node? id
  ActionSpace.ofShape d.grammar node.shape.name

/-- The number of actions of the front node, zero if there is nothing to choose between. -/
def actionCount (d : Derivation α) : Nat :=
  match d.frontSpace? with
  | some space => space.size
  | none => 0

/-- How much a run can still do: each expansion trades room for waiting nodes and takes one away. -/
def potential (d : Derivation α) (maxNodes : Nat) : Nat :=
  (maxNodes - d.tree.size) + d.queue.length

/-- Takes the front node from the queue. -/
def pop? (d : Derivation α) : Option (Nat × Derivation α) :=
  match d.queue.pop? with
  | none => none
  | some (id, queue) => some (id, { d with queue })

theorem potential_of_pop? {d e : Derivation α} {id : Nat} (maxNodes : Nat)
    (h : d.pop? = some (id, e)) : e.potential maxNodes + 1 = d.potential maxNodes := by
  unfold pop? at h
  split at h
  · cases h
  next taken =>
    cases h
    have list := congrArg List.length (Queue.toList_of_pop? taken)
    simp only [Queue.length_toList, List.length_cons] at list
    simp only [potential]
    omega

/-- The children that wait, when the first child gets the number `first`. -/
def waiting (first : Nat) (children : List (Shape α × Status)) : List Nat :=
  ((children.zipIdx first).filter fun child => child.1.2 == .pending).map Prod.snd

theorem length_waiting_le (first : Nat) (children : List (Shape α × Status)) :
    (waiting first children).length ≤ children.length := by
  have h := List.length_filter_le (fun child => child.1.2 == Status.pending)
    (children.zipIdx first)
  simpa [waiting] using h

/-- Adds children to a node and lets those that wait queue up. -/
def grow (d : Derivation α) (id : Nat) (children : List (Shape α × Status)) : Derivation α :=
  let waiting := waiting d.tree.size children
  { d with tree := (d.tree.setStatus id .expanded).attach id children
           queue := d.queue.append waiting }

/-- What a run has done so far. -/
structure Progress where
  /-- Rule applications. -/
  expansions : Nat := 0
  /-- The nodes that were taken from the queue but lie too deep, the last one first. -/
  tooDeep : List Nat := []
  deriving DecidableEq, Repr

/-- What a run reports when it stops. -/
def report (d : Derivation α) (done : Progress) (stop : StopReason) : Outcome where
  expansions := done.expansions
  stop := stop
  abandoned := d.queue.length
  depthPruned := done.tooDeep.length

/-- Which limit stops a run before its next node. If time is limited the clock is asked. -/
def budgetReached? (d : Derivation α) (limits : Limits) (expansions : Nat)
    (clock : Clock := .stopped) : Option StopReason :=
  if limits.maxSteps ≤ expansions then some .stepBudget
  else if limits.maxNodes ≤ d.tree.size then some .nodeBudget
  else if limits.maxMillis.any (· ≤ clock 0) then some .timeBudget
  else none

/-- Why a run stops whose queue is empty. -/
def drained (done : Progress) : StopReason :=
  if done.tooDeep.isEmpty then .completed else .depthBudget

/-- What one turn of a run comes to: the run stops, or it goes on. -/
inductive Turn (α : Type) where
  | stop (result : Except (EvalError α) StopReason) (done : Progress) (d : Derivation α)
  | next (done : Progress) (d : Derivation α)

/-- The turn that an expansion makes. -/
def Turn.ofExpansion (done : Progress) :
    Except (EvalError α) Expansion × Derivation α → Turn α
  | (.error cause, d) => .stop (.error cause) done d
  | (.ok .terminal, d) => .next done d
  | (.ok .expanded, d) => .next { done with expansions := done.expansions + 1 } d
  | (.ok .clipped, d) => .stop (.ok .nodeBudget) { done with expansions := done.expansions + 1 } d

theorem Turn.eq_of_ofExpansion_eq_next {done done' : Progress} {d : Derivation α}
    {made : Except (EvalError α) Expansion × Derivation α}
    (h : Turn.ofExpansion done made = .next done' d) : made.2 = d := by
  obtain ⟨cause | ⟨_ | _ | _⟩, e⟩ := made <;> cases h <;> rfl

section Steps

variable [Elementary α]

/-- Applies the rule of a node that is no longer in the queue. -/
def expand (d : Derivation α) (id : Nat) (maxNodes : Nat) :
    Except (EvalError α) Expansion × Derivation α :=
  match d.tree.node? id with
  | none => (.ok .terminal, d)
  | some node =>
    match d.grammar.rule? node.shape.name with
    | none => (.ok .terminal, { d with tree := d.tree.setStatus id .terminal })
    | some rule =>
      match Growth.ofOperators d.grammar.value? (maxNodes - d.tree.size) rule.operators
          node.shape with
      | .error e => (.error e, { d with tree := d.tree.setStatus id .expanded })
      | .ok growth =>
        (.ok (if growth.clipped then .clipped else .expanded),
          d.grow id (growth.children d.grammar.hasRule))

theorem potential_expand_le (d : Derivation α) (id maxNodes : Nat) :
    (d.expand id maxNodes).2.potential maxNodes ≤ d.potential maxNodes := by
  unfold expand
  split
  · exact Nat.le_refl _
  · split
    · simp [potential]
    · split
      · simp [potential]
      next growth h =>
        have fits := Growth.length_le_room h
        have count : (growth.children d.grammar.hasRule).length =
            growth.successors.length + growth.survivor.toList.length := by
          cases growth with
          | mk successors survivor clipped => cases survivor <;> simp [Growth.children]
        have wait := length_waiting_le d.tree.size (growth.children d.grammar.hasRule)
        simp only [potential, grow, Tree.size_attach, Tree.size_setStatus, Queue.length_append]
        omega

/-- A guided step: takes the front node, fixes its choices by an action and applies its rule. The
result says whether there was a node to expand. -/
def applyAction (d : Derivation α) (action maxNodes : Nat) :
    Except (EvalError α) Bool × Derivation α :=
  match d.pop? with
  | none => (.ok false, d)
  | some (id, d) =>
    match d.tree.node? id with
    | none => (.ok false, d)
    | some node =>
      if node.isVisited then (.ok false, d)
      else
        let grammar := ActionSpace.commit d.grammar node.shape.name action
        let (result, d) := ({ d with grammar } : Derivation α).expand id maxNodes
        (result.map fun _ => true, d)

/-- Expands the front node of the queue, if no limit stops the run before it. -/
def turn (limits : Limits) (d : Derivation α) (done : Progress) (clock : Clock := .stopped) :
    Turn α :=
  match d.pop? with
  | none => .stop (.ok (drained done)) done d
  | some (id, popped) =>
    match d.budgetReached? limits done.expansions clock with
    | some reason => .stop (.ok reason) done d
    | none =>
      match popped.tree.node? id with
      | none => .next done popped
      | some node =>
        if node.isVisited then .next done popped
        else if limits.maxDepth < node.depth then
          .next { done with tooDeep := id :: done.tooDeep } popped
        else .ofExpansion done (popped.expand id limits.maxNodes)

theorem potential_turn_lt {limits : Limits} {d e : Derivation α} {done done' : Progress}
    {clock : Clock} (h : turn limits d done clock = .next done' e) :
    e.potential limits.maxNodes < d.potential limits.maxNodes := by
  unfold turn at h
  split at h
  · cases h
  next id popped taken =>
    have before := potential_of_pop? limits.maxNodes taken
    split at h
    · cases h
    · split at h
      · cases h
        omega
      · split at h
        · cases h
          omega
        · split at h
          · cases h
            omega
          · have after := potential_expand_le popped id limits.maxNodes
            rw [Turn.eq_of_ofExpansion_eq_next h] at after
            omega

/-- Turn after turn, until the run stops. Each turn reads the clock anew. -/
def runFrom (limits : Limits) (d : Derivation α) (done : Progress) (clock : Clock := .stopped) :
    Except (EvalError α) StopReason × Progress × Derivation α :=
  match _turned : turn limits d done clock with
  | .stop result done d => (result, done, d)
  | .next done d => runFrom limits d done clock.later
termination_by d.potential limits.maxNodes
decreasing_by exact potential_turn_lt _turned

/-- Expands everything within limits, under the attribute values as they stand. -/
def complete (d : Derivation α) (limits : Limits) (clock : Clock := .stopped) :
    Except (EvalError α) Outcome × Derivation α :=
  let (stopped, done, d) := runFrom limits d {} clock
  (stopped.map (d.report done), d)

/-- The nodes that `complete` takes from the queue but leaves as they are because they lie deeper
than its limit, in the order in which they are taken, if no clock runs. -/
def passedOver (d : Derivation α) (limits : Limits) : List Nat :=
  (runFrom limits d {}).2.1.tooDeep.reverse

/-- Gives each open choice a random level and expands everything within limits. -/
def completeRandomly (d : Derivation α) (rng : Generator) (limits : Limits)
    (clock : Clock := .stopped) : Except (EvalError α) Outcome × Derivation α × Generator :=
  let (grammar, rng) := d.grammar.randomizeFree rng
  let (result, d) := ({ d with grammar } : Derivation α).complete limits clock
  (result, d, rng)

/-- Everything that is drawn of the derivation so far. -/
def faces (includePending : Bool) (d : Derivation α) : List (Face α) :=
  d.tree.faces includePending

end Steps

end Derivation

end ShapeGrammar

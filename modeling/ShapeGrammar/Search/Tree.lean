import ShapeGrammar.Search.Config
import ShapeGrammar.Search.Pool
import ShapeGrammar.Search.RunningStats
import ShapeGrammar.Search.Session

/-!
# Tree search

A tree of states that are reached from its root by actions. Every round goes from the root to a
node that has untried actions, tries one of them, assesses the state it leads to, and reports the
value to all nodes on the way back. On the way down the child is followed whose best value, raised
the more the less it has been visited, is greatest.

A node is settled once it has been visited, has no untried action and all its children are
settled: then nothing below it can still be found out, and it is not followed any more. Node zero
is the root, and a child always stands behind its parent.
-/
namespace ShapeGrammar

/-- What is searched: states, numbered actions that lead from one to another, and an assessment of
states that may draw random numbers. -/
structure Problem (σ ε β : Type) where
  actionCount : σ → Nat
  act : σ → Nat → Except ε σ
  assess : σ → Session → Except ε β × Session

/-- A state in a search tree. -/
structure SearchNode (σ β : Type) where
  state : σ
  /-- The action that led here; none led to the root. -/
  action : Option Nat
  parent : Option Nat
  children : List Nat
  visits : Nat
  /-- The best value seen at the node or below it. -/
  best : β
  values : RunningStats β
  isSettled : Bool
  untried : ActionPool

/-- What a round found: the value of the node at which it ended, and the way from there up to the
root. -/
structure Finding (β : Type) where
  path : List Nat
  value : β

/-- The nodes of a search, in the order in which they were made. -/
structure SearchTree (σ β : Type) where
  nodes : Array (SearchNode σ β)

namespace SearchNode

variable {σ ε β : Type} [Scalar β]

/-- A node of which nothing is known yet. -/
def fresh (p : Problem σ ε β) (state : σ) (action parent : Option Nat) : SearchNode σ β where
  state := state
  action := action
  parent := parent
  children := []
  visits := 0
  best := 0.0
  values := .empty
  isSettled := false
  untried := .full (p.actionCount state)

/-- Takes in a value. The node is settled if it has nothing left to try and `belowSettled` says
that its children are. -/
def record (n : SearchNode σ β) (value : β) (belowSettled : Bool) : SearchNode σ β :=
  { n with
    visits := n.visits + 1
    best := if n.visits = 0 ∨ n.best < value then value else n.best
    values := n.values.push value
    isSettled := n.isSettled || (n.untried.isEmpty && belowSettled) }

end SearchNode

/-- The first of those whose rank none of the others exceeds. -/
def leader {ι β : Type} [Scalar β] (ranked : List (ι × β)) : Option ι :=
  (ranked.foldl (fun best x =>
    match best with
    | none => some x
    | some y => if y.2 < x.2 then some x else some y) none).map Prod.fst

namespace SearchTree

variable {σ ε β : Type}

def size (t : SearchTree σ β) : Nat :=
  t.nodes.size

def node? (t : SearchTree σ β) (id : Nat) : Option (SearchNode σ β) :=
  t.nodes[id]?

def isSettledAt (t : SearchTree σ β) (id : Nat) : Bool :=
  (t.node? id).any (·.isSettled)

/-- The children that can still be followed. -/
def openChildren (t : SearchTree σ β) (n : SearchNode σ β) : List Nat :=
  n.children.filter fun child => !t.isSettledAt child

def modify (t : SearchTree σ β) (id : Nat) (f : SearchNode σ β → SearchNode σ β) :
    SearchTree σ β :=
  ⟨t.nodes.modify id f⟩

/-- Whether further rounds cannot change which child of the root is best. -/
def isDecided (t : SearchTree σ β) : Bool :=
  match t.node? 0 with
  | none => true
  | some root => root.isSettled || (root.untried.isEmpty && (t.openChildren root).length ≤ 1)

/-- Whether the root has no untried action. -/
def isExhausted (t : SearchTree σ β) : Bool :=
  (t.node? 0).all (·.untried.isEmpty)

section Values

variable [Scalar β]

/-- The tree of a state alone. -/
def ofRoot (p : Problem σ ε β) (state : σ) : SearchTree σ β :=
  ⟨#[.fresh p state none none]⟩

/-- Adds the state that an action of a node leads to. -/
def attach (t : SearchTree σ β) (p : Problem σ ε β) (parent action : Nat) (state : σ) :
    SearchTree σ β :=
  let linked := t.nodes.modify parent fun n => { n with children := n.children ++ [t.size] }
  ⟨linked.push (.fresh p state (some action) (some parent))⟩

/-- The child of the root with the greatest best value, the earliest of several. -/
def bestChild? (t : SearchTree σ β) : Option Nat := do
  let root ← t.node? 0
  leader (root.children.filterMap fun id => (t.node? id).map fun child => (id, child.best))

/-- Tries an action of a node. An action that fails is not tried again. Gives the new node, or
nothing if there was no action to try. -/
def expand (t : SearchTree σ β) (p : Problem σ ε β) (id : Nat) (rng : Generator) :
    Except ε (Option Nat) × SearchTree σ β × Generator :=
  match t.node? id with
  | none => (.ok none, t, rng)
  | some n =>
    match n.untried.draw rng with
    | none => (.ok none, t, rng)
    | some (action, untried, rng) =>
      let t := t.modify id fun n => { n with untried }
      match p.act n.state action with
      | .error e => (.error e, t, rng)
      | .ok state => (.ok (some t.size), t.attach p id action state, rng)

/-- Reports a value to a node. -/
def recordAt (value : β) (t : SearchTree σ β) (id : Nat) : SearchTree σ β :=
  match t.node? id with
  | none => t
  | some n => t.modify id fun m => m.record value (t.openChildren n).isEmpty

/-- Reports a value along a path, from its end to the root. -/
def backpropagate (t : SearchTree σ β) (value : β) (path : List Nat) : SearchTree σ β :=
  path.foldl (recordAt value) t

end Values

section Rounds

variable [Elementary β]

/-- The rank of a child by its best value and its share of the visits to its parent. -/
def upperBound (config : TreeConfig β) (parentVisits : Nat) (child : SearchNode σ β) : β :=
  child.best + config.exploration *
    Elementary.sqrt (2.0 * Elementary.log ((max parentVisits 1 : Nat) : β) / (child.visits : β))

/-- The rank of a child. One that has never been visited comes before all others, in random
order. -/
def rank (config : TreeConfig β) (parentVisits : Nat) (child : SearchNode σ β) (rng : Generator) :
    β × Generator :=
  if child.visits = 0 then
    let (jitter, rng) := rng.below (.ofNat (max config.unvisitedJitter 1))
    (config.unvisitedPriority + (jitter.toNat : β), rng)
  else (upperBound config parentVisits child, rng)

/-- The ranks of some children, one after the other. -/
def rankAll (t : SearchTree σ β) (config : TreeConfig β) (parentVisits : Nat) :
    List Nat → Generator → List (Nat × β) × Generator
  | [], rng => ([], rng)
  | id :: rest, rng =>
    match t.node? id with
    | none => rankAll t config parentVisits rest rng
    | some child =>
      let (r, rng) := rank config parentVisits child rng
      let (ranked, rng) := rankAll t config parentVisits rest rng
      ((id, r) :: ranked, rng)

/-- The way down from a node that lies below `above`, its end first. It ends where an action can be
tried or no child can be followed. A path has no more nodes than the tree. -/
def descend (t : SearchTree σ β) (config : TreeConfig β) :
    Nat → Nat → List Nat → Generator → (Nat × List Nat) × Generator
  | 0, id, above, rng => ((id, above), rng)
  | fuel + 1, id, above, rng =>
    match t.node? id with
    | none => ((id, above), rng)
    | some n =>
      if n.untried.isEmpty then
        let (ranked, rng) := t.rankAll config n.visits (t.openChildren n) rng
        match leader ranked with
        | none => ((id, above), rng)
        | some child => t.descend config fuel child (id :: above) rng
      else ((id, above), rng)

/-- The node to go on from, and the nodes above it up to the root. -/
def select (t : SearchTree σ β) (config : TreeConfig β) (rng : Generator) :
    (Nat × List Nat) × Generator :=
  t.descend config t.size 0 [] rng

/-- One round up to its report: tries an action and assesses the state it leads to. If that fails
the tree keeps what was done until then. -/
def probe (t : SearchTree σ β) (p : Problem σ ε β) (config : TreeConfig β) (s : Session) :
    Except ε (Option (Finding β)) × SearchTree σ β × Session :=
  let ((selected, above), rng) := t.select config s.rng
  let (expanded, t, rng) := t.expand p selected rng
  let s := { s with rng }
  match expanded with
  | .error e => (.error e, t, s)
  | .ok new? =>
    let path := match new? with
      | none => selected :: above
      | some new => new :: selected :: above
    match t.node? (new?.getD selected) with
    | none => (.ok none, t, s)
    | some leaf =>
      match p.assess leaf.state s with
      | (.error e, s) => (.error e, t, s)
      | (.ok value, s) => (.ok (some ⟨path, value⟩), t, s)

/-- One round. If it fails the tree keeps what was done until then. -/
def iterate (t : SearchTree σ β) (p : Problem σ ε β) (config : TreeConfig β) (s : Session) :
    Except ε Unit × SearchTree σ β × Session :=
  match t.probe p config s with
  | (.error e, t, s) => (.error e, t, s)
  | (.ok none, t, s) => (.ok (), t, s)
  | (.ok (some finding), t, s) => (.ok (), t.backpropagate finding.value finding.path, s)

/-- At most `rounds` rounds, until the choice at the root is decided, after `done` rounds already.
Gives the number of all rounds. -/
def searchFrom (p : Problem σ ε β) (config : TreeConfig β) :
    Nat → Nat → SearchTree σ β → Session → Except ε Nat × SearchTree σ β × Session
  | 0, done, t, s => (.ok done, t, s)
  | rounds + 1, done, t, s =>
    if t.isDecided then (.ok done, t, s)
    else
      match t.iterate p config s with
      | (.error e, t, s) => (.error e, t, s)
      | (.ok (), t, s) => searchFrom p config rounds (done + 1) t s

/-- Rounds until the choice at the root is decided or their number is used up. -/
def search (t : SearchTree σ β) (p : Problem σ ε β) (config : TreeConfig β) (s : Session) :
    Except ε Nat × SearchTree σ β × Session :=
  searchFrom p config config.maxIterations 0 t s

end Rounds

end SearchTree

end ShapeGrammar

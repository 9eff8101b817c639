import ShapeGrammar.Grammar.Basic

/-!
# Derivation trees

A tree is an array of nodes; a node knows its children by their place in the array, and node zero
is the root. Nodes are only ever added at the end, so a child always stands behind its parent.
-/
namespace ShapeGrammar

/-- Where a node is in its life. -/
inductive Status where
  /-- It waits for its rule to be applied. -/
  | pending
  /-- Its rule has been applied; what is drawn of it are its children. -/
  | expanded
  /-- It has no rule; it is drawn itself. -/
  | terminal
  deriving DecidableEq, Repr

/-- A shape in a derivation. -/
structure Node (α : Type) where
  shape : Shape α
  status : Status
  depth : Nat
  children : List Nat
  deriving BEq, DecidableEq, Repr

/-- Whether a node has been dealt with. -/
def Node.isVisited {α : Type} (n : Node α) : Bool :=
  n.status != .pending

/-- The nodes of a derivation, in the order in which they were made. -/
structure Tree (α : Type) where
  nodes : Array (Node α)
  deriving BEq, DecidableEq, Repr

namespace Tree

variable {α : Type}

/-- The tree of a single pending shape. -/
def ofRoot (shape : Shape α) : Tree α :=
  ⟨#[{ shape, status := .pending, depth := 0, children := [] }]⟩

def size (t : Tree α) : Nat :=
  t.nodes.size

def node? (t : Tree α) (id : Nat) : Option (Node α) :=
  t.nodes[id]?

def childrenOf (t : Tree α) (id : Nat) : List Nat :=
  match t.node? id with
  | some n => n.children
  | none => []

/-- Whether a node waits for its rule. -/
def isPending (t : Tree α) (id : Nat) : Bool :=
  match t.node? id with
  | some n => !n.isVisited
  | none => false

def setStatus (t : Tree α) (id : Nat) (status : Status) : Tree α :=
  ⟨t.nodes.modify id fun n => { n with status }⟩

/-- Adds children below a node, each with its status. -/
def attach (t : Tree α) (parent : Nat) (children : List (Shape α × Status)) : Tree α :=
  let depth := match t.node? parent with
    | some n => n.depth + 1
    | none => 0
  let ids := List.range' t.size children.length
  let nodes := t.nodes.modify parent fun n => { n with children := n.children ++ ids }
  ⟨nodes ++ (children.map fun (shape, status) =>
    ({ shape, status, depth, children := [] } : Node α)).toArray⟩

@[simp] theorem size_setStatus (t : Tree α) (id : Nat) (status : Status) :
    (t.setStatus id status).size = t.size := by
  simp [setStatus, size]

@[simp] theorem size_attach (t : Tree α) (parent : Nat) (children : List (Shape α × Status)) :
    (t.attach parent children).size = t.size + children.length := by
  simp [attach, size]

/-- The nodes of a level and of all levels below it, level by level. A tree has no more levels than
nodes. -/
def levelsFrom (t : Tree α) : Nat → List Nat → List Nat
  | 0, _ => []
  | _ + 1, [] => []
  | fuel + 1, level => level ++ t.levelsFrom fuel (level.flatMap t.childrenOf)

/-- All nodes in breadth-first order from the root. -/
def breadthFirst (t : Tree α) : List Nat :=
  t.levelsFrom t.size [0]

/-- The nodes that wait for their rule, in breadth-first order. -/
def pendingInOrder (t : Tree α) : List Nat :=
  t.breadthFirst.filter t.isPending

/-- Whether a node is drawn: a terminal without children, or a waiting node if those are asked
for. -/
def isDrawn (includePending : Bool) (n : Node α) : Bool :=
  n.children.isEmpty &&
    match n.status with
    | .terminal => true
    | .pending => includePending
    | .expanded => false

/-- Everything that is drawn, node after node. -/
def faces [Elementary α] (includePending : Bool) (t : Tree α) : List (Face α) :=
  (t.nodes.toList.filter (isDrawn includePending)).flatMap fun n => n.shape.faces

/-- The names of the terminals that are drawn, node after node. -/
def terminalNames (t : Tree α) : List String :=
  (t.nodes.toList.filter (isDrawn false)).map fun n => n.shape.name

end Tree

end ShapeGrammar

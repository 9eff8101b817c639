import ShapeGrammar.Grammar.Attribute
import ShapeGrammar.Operator.Basic
import ShapeGrammar.Random.Generator

/-!
# Grammars

Named attributes and named rules. Rules never change once a grammar is loaded; attributes change
in value and in whether they are fixed, in no other way.
-/
namespace ShapeGrammar

/-- What becomes of a shape of some name: the operators to apply, in order. -/
structure Rule (α : Type) where
  name : String
  operators : List (Operator α)
  deriving BEq, DecidableEq, Repr

/-- A grammar, with the attribute values of the moment. -/
structure Grammar (α : Type) where
  attributes : Table (Attribute α)
  rules : Table (Rule α)
  deriving BEq, DecidableEq, Repr

namespace Rule

variable {α : Type}

/-- The parameters of a rule, operator after operator. -/
def params (r : Rule α) : List (Param α) :=
  r.operators.flatMap Operator.params

/-- The attributes that the parameters of a rule name, in order. -/
def namedAttributes (r : Rule α) : List String :=
  r.params.filterMap Param.attributeName

/-- The attributes that a rule reads, in order. -/
def readAttributes (r : Rule α) : List String :=
  r.params.flatMap fun p => p.expr.attributeNames

end Rule

namespace Grammar

variable {α : Type}

def empty : Grammar α :=
  ⟨.empty, .empty⟩

def attribute? (g : Grammar α) (name : String) : Option (Attribute α) :=
  g.attributes.find? name

def rule? (g : Grammar α) (name : String) : Option (Rule α) :=
  g.rules.find? name

def hasRule (g : Grammar α) (name : String) : Bool :=
  g.rules.contains name

/-- The value of an attribute. -/
def value? (g : Grammar α) (name : String) : Option α :=
  (g.attribute? name).map (·.value)

/-- Changes one attribute. -/
def modify (g : Grammar α) (name : String) (f : Attribute α → Attribute α) : Grammar α :=
  { g with attributes := g.attributes.modify name f }

/-- Whether an attribute is a choice that is still open. -/
def isFree (g : Grammar α) (name : String) : Bool :=
  (g.attribute? name).any (·.isFree)

/-- Whether an attribute is a choice. -/
def isRanged (g : Grammar α) (name : String) : Bool :=
  (g.attribute? name).any (·.ranged)

/-- Opens all choices again, values staying as they are. -/
def releaseAll (g : Grammar α) : Grammar α :=
  { g with attributes := g.attributes.map Attribute.release }

/-- Names and values of the choices, in the order of the table. -/
def choices (g : Grammar α) : List (String × α) :=
  (g.attributes.values.filter (·.ranged)).map fun a => (a.name, a.value)

variable [Scalar α]

/-- Gives a random level to each attribute that `chosen` picks out, in the order of the table. -/
def randomize (chosen : Attribute α → Bool) (g : Grammar α) (rng : Generator) :
    Grammar α × Generator :=
  let (attributes, rng) := g.attributes.thread
    (fun a rng =>
      if chosen a then let (level, rng) := rng.level; (a.setLevel level, rng) else (a, rng)) rng
  ({ g with attributes }, rng)

/-- Gives a random level to each choice that is open. -/
def randomizeFree (g : Grammar α) (rng : Generator) : Grammar α × Generator :=
  g.randomize Attribute.isFree rng

/-- Gives a random level to each choice, fixed or not. -/
def randomizeAll (g : Grammar α) (rng : Generator) : Grammar α × Generator :=
  g.randomize Attribute.ranged rng

end Grammar

end ShapeGrammar

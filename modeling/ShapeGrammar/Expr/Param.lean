import ShapeGrammar.Expr.Parser
import ShapeGrammar.Number.Machine
import ShapeGrammar.Number.Text
import ShapeGrammar.Json.Decode

/-!
# Parameters

A parameter of an operator is an expression together with its text. Grammars are written and saved
with the text; a parameter that is nothing but an attribute names a choice of the rule it stands in.
-/
namespace ShapeGrammar

/-- An expression and the text it was written as. -/
structure Param (α : Type) where
  text : String
  expr : Expr α
  deriving BEq, DecidableEq, Repr

namespace Param

variable {α : Type}

/-- The attribute a parameter names, if it is nothing but an attribute. -/
def attributeName (p : Param α) : Option String :=
  match p.expr with
  | .attribute name => some name
  | _ => none

/-- The parameter of a text. Blanks around the text are not kept. -/
def parse [Scalar α] (text : String) : Except ParseFault (Param α) := do
  let expr ← Expr.parse text
  return ⟨String.ofList (CharClass.trim text.toList), expr⟩

/-- The parameter that is a number. -/
def literal (value : Float32) : Param Float32 :=
  ⟨Float32.text value, .number value⟩

/-- A parameter is saved as its text. -/
def toJson (p : Param α) : Json :=
  .text p.text

/-- A parameter is read from text, as an expression, or from a number. -/
def ofJson? (j : Json) : Option (Param Float32) :=
  match j with
  | .text text => (parse text).toOption
  | _ => (j.float32?).map literal

end Param

end ShapeGrammar

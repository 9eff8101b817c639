import ShapeGrammar.Expr.Parser

/-!
# What makes a grammar unusable

A name without a rule is no error, it is a terminal; nor is an operator that declines to go on.
-/
namespace ShapeGrammar

/-- Why a grammar cannot be loaded or derived from. -/
inductive GrammarError (α : Type) where
  /-- The source is no JSON text of a grammar. -/
  | source
  | parse (text : String) (fault : ParseFault)
  | invalidRange (name : String) (start stop : α)
  | valueOutOfRange (name : String) (value start stop : α)
  | nonFinite (name : String)
  | unknownAttribute (name rule : String)
  | tooManyFreeParameters (rule : String) (count limit : Nat)
  | ruleNameMismatch (key name : String)
  | evaluation (cause : EvalError α)
  deriving DecidableEq, Repr

/-- The error in words; numbers are written by `text`. -/
def GrammarError.message {α : Type} (text : α → String) : GrammarError α → String
  | .source => "Malformed grammar source"
  | .parse written fault => "Cannot parse expression `" ++ written ++ "`: " ++ fault.message
  | .invalidRange name start stop =>
    "Attribute `" ++ name ++ "` has an invalid range [" ++ text start ++ ", " ++ text stop ++ "]"
  | .valueOutOfRange name value start stop =>
    "Attribute `" ++ name ++ "` value " ++ text value ++ " lies outside its range ["
      ++ text start ++ ", " ++ text stop ++ "]"
  | .nonFinite name => "Attribute `" ++ name ++ "` has a non-finite value"
  | .unknownAttribute name rule =>
    "Unknown attribute `" ++ name ++ "` referenced in rule `" ++ rule ++ "`"
  | .tooManyFreeParameters rule count limit =>
    "Rule `" ++ rule ++ "` has " ++ toString count ++ " free parameters; at most "
      ++ toString limit ++ " fit in an action index"
  | .ruleNameMismatch key name =>
    "Rule name mismatch: keyed as `" ++ key ++ "` but named `" ++ name ++ "`"
  | .evaluation cause => "Expression evaluation failed: " ++ cause.message text

end ShapeGrammar

import ShapeGrammar.Grammar.ActionSpace

/-!
# Valid grammars

A grammar is valid if its attributes are, if every rule stands under its own name and reads only
attributes that exist, and if no rule has more choices than an action can count. Of several faults
the first one is reported: attributes before rules, each in the order of their table.
-/
namespace ShapeGrammar

namespace Grammar

variable {α : Type} [Scalar α]

/-- Runs a check on each item until one fails. -/
def checkAll {β ε : Type} (check : β → Except ε Unit) : List β → Except ε Unit
  | [] => .ok ()
  | x :: rest =>
    match check x with
    | .error e => .error e
    | .ok () => checkAll check rest

/-- The attributes of a rule that count towards its actions. -/
def rangedNames (g : Grammar α) (rule : Rule α) : List String :=
  ActionSpace.distinct (rule.namedAttributes.filter g.isRanged)

/-- Checks one rule. -/
def validateRule (g : Grammar α) (entry : String × Rule α) : Except (GrammarError α) Unit :=
  let (key, rule) := entry
  if key ≠ rule.name then .error (.ruleNameMismatch key rule.name)
  else
    match rule.readAttributes.find? fun name => !g.attributes.contains name with
    | some name => .error (.unknownAttribute name rule.name)
    | none =>
      let count := (g.rangedNames rule).length
      if ActionSpace.maxFree < count then
        .error (.tooManyFreeParameters rule.name count ActionSpace.maxFree)
      else .ok ()

/-- Checks a grammar. -/
def validate (g : Grammar α) : Except (GrammarError α) Unit := do
  checkAll Attribute.validate g.attributes.values
  checkAll g.validateRule g.rules.toList

end Grammar

end ShapeGrammar

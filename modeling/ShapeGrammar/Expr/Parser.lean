import ShapeGrammar.Expr.Basic
import ShapeGrammar.Expr.Token

/-!
# The notation of expressions

    sum     := product (('+' | '-') product)*
    product := operand (('*' | '/') operand)*
    operand := '-' operand | '(' sum ')' | number | attribute | measure of the scope

Operators of one rank associate to the left. At most `maxNesting` signs and parentheses may be open
at once, which is what the recursion over operands descends on.
-/
namespace ShapeGrammar

/-- Why a text is no expression. -/
inductive ParseFault where
  | nestedTooDeep
  | endOfText
  | missingClose
  | badNumber (text : String)
  | unknownName (text : String)
  | unexpected (c : Char) (position : Nat)
  deriving DecidableEq, Repr

namespace Expr

/-- How many signs and parentheses may be open at once. -/
def maxNesting : Nat :=
  64

/-- Reads an expression from the front of a list of tokens and returns what follows it. -/
abbrev Reading (α : Type) : Type :=
  List Token → Except ParseFault (Expr α × List Token)

/-- The operators of a sum. -/
def sumOp : Lexeme → Option BinaryOp
  | .symbol '+' => some .add
  | .symbol '-' => some .sub
  | _ => none

/-- The operators of a product. -/
def productOp : Lexeme → Option BinaryOp
  | .symbol '*' => some .mul
  | .symbol '/' => some .div
  | _ => none

variable {α : Type}

/-- Joins operands to `left` as long as an operator of the rank follows, in at most the given number
of rounds. Each round takes a token, so the number of tokens is enough. -/
def chain (op? : Lexeme → Option BinaryOp) (operand : Reading α) :
    Nat → Expr α → Reading α
  | 0, left, tokens => .ok (left, tokens)
  | _ + 1, left, [] => .ok (left, [])
  | rounds + 1, left, token :: rest =>
    match op? token.lexeme with
    | none => .ok (left, token :: rest)
    | some op => do
      let (right, rest) ← operand rest
      chain op? operand rounds (.binary op left right) rest

/-- Operands joined by the operators of one rank. -/
def joined (op? : Lexeme → Option BinaryOp) (operand : Reading α) (rounds : Nat) : Reading α :=
  fun tokens => do
    let (left, rest) ← operand tokens
    chain op? operand rounds left rest

/-- A sum of products of operands. -/
def sum (operand : Reading α) (rounds : Nat) : Reading α :=
  joined sumOp (joined productOp operand rounds) rounds

/-- The closing parenthesis of an expression that was read. -/
def close : Expr α × List Token → Except ParseFault (Expr α × List Token)
  | (e, token :: rest) => if token.lexeme = .symbol ')' then .ok (e, rest) else .error .missingClose
  | (_, []) => .error .missingClose

variable [Scalar α]

/-- One operand, with `levels` signs and parentheses yet to open; `rounds` is at least the number of
tokens. -/
def operand (rounds levels : Nat) : Reading α
  | [] => .error .endOfText
  | token :: rest =>
    match token.lexeme with
    | .number digits places => .ok (.number (Scalar.ofDecimal digits places), rest)
    | .badNumber text => .error (.badNumber text)
    | .attribute name => .ok (.attribute name, rest)
    | .extent axis => .ok (.extent axis, rest)
    | .badName text => .error (.unknownName text)
    | .symbol '-' =>
      match levels with
      | 0 => .error .nestedTooDeep
      | levels + 1 => do
        let (e, rest) ← operand rounds levels rest
        return (e.negate, rest)
    | .symbol '(' =>
      match levels with
      | 0 => .error .nestedTooDeep
      | levels + 1 => do
        close (← sum (operand rounds levels) rounds rest)
    | .symbol _ => .error (.unexpected token.first token.position)

/-- The expression that a whole list of tokens spells. -/
def ofTokens (tokens : List Token) : Except ParseFault (Expr α) := do
  match ← sum (operand tokens.length maxNesting) tokens.length tokens with
  | (e, []) => return e
  | (_, token :: _) => throw (.unexpected token.first token.position)

/-- The expression that a text spells. -/
def parse (text : String) : Except ParseFault (Expr α) :=
  ofTokens (Token.scan 0 text.toList)

end Expr

/-- What is wrong with a text, in words. -/
def ParseFault.message : ParseFault → String
  | .nestedTooDeep => "nested deeper than " ++ toString Expr.maxNesting ++ " levels"
  | .endOfText => "unexpected end of expression"
  | .missingClose => "missing `)`"
  | .badNumber text => "bad number `" ++ text ++ "`"
  | .unknownName text => "unknown qualified name `" ++ text ++ "`"
  | .unexpected c position =>
    "unexpected `" ++ String.singleton c ++ "` at " ++ toString position

end ShapeGrammar

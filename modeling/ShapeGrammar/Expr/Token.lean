import ShapeGrammar.Geometry.Vector
import ShapeGrammar.Text.CharClass

/-!
# Tokens of an expression

A text falls into runs: numbers made of digits and points, names made of letters, digits,
underlines and points, and single characters. Blanks separate and count for nothing else. A run
that is no number or no name is still a token: whether it is a fault depends on what stands before
it.
-/
namespace ShapeGrammar

/-- What a token says. -/
inductive Lexeme where
  /-- The number `digits / 10 ^ places`. -/
  | number (digits places : Nat)
  | badNumber (text : String)
  | attribute (name : String)
  | extent (axis : Axis)
  | badName (text : String)
  | symbol (c : Char)
  deriving DecidableEq, Repr

/-- A token with its first character and the position of that character. -/
structure Token where
  lexeme : Lexeme
  first : Char
  position : Nat
  deriving DecidableEq, Repr

namespace Token

def isNumberChar (c : Char) : Bool :=
  c.isDigit || c == '.'

def isNameStart (c : Char) : Bool :=
  CharClass.isLetter c || c == '_'

def isNameChar (c : Char) : Bool :=
  CharClass.isLetterOrNumber c || c == '_' || c == '.'

def digitsOf (cs : List Char) : Nat :=
  cs.foldl (fun total c => total * 10 + (c.toNat - 48)) 0

/-- A run of digits and points is a number if it has a digit and at most one point. -/
def ofNumberRun (run : List Char) : Lexeme :=
  let whole := run.takeWhile (· ≠ '.')
  let places := (run.dropWhile (· ≠ '.')).drop 1
  if (whole ++ places).isEmpty ∨ places.contains '.' then .badNumber (String.ofList run)
  else .number (digitsOf (whole ++ places)) places.length

/-- A run that starts like a name. A point makes it a measure of the scope, of which there are
three. -/
def ofNameRun (run : List Char) : Lexeme :=
  let name := String.ofList run
  if name = "scope.sx" then .extent .x
  else if name = "scope.sy" then .extent .y
  else if name = "scope.sz" then .extent .z
  else if run.contains '.' then .badName name
  else .attribute name

theorem length_dropWhile_le (p : Char → Bool) (cs : List Char) :
    (cs.dropWhile p).length ≤ cs.length :=
  (List.dropWhile_sublist p).length_le

/-- The tokens of a text whose first character stands at `position`. -/
def scan (position : Nat) (cs : List Char) : List Token :=
  match cs with
  | [] => []
  | c :: rest =>
    if CharClass.isBlank c then scan (position + 1) rest
    else if isNumberChar c then
      let run := c :: rest.takeWhile isNumberChar
      ⟨ofNumberRun run, c, position⟩ ::
        scan (position + run.length) (rest.dropWhile isNumberChar)
    else if isNameStart c then
      let run := c :: rest.takeWhile isNameChar
      ⟨ofNameRun run, c, position⟩ ::
        scan (position + run.length) (rest.dropWhile isNameChar)
    else ⟨.symbol c, c, position⟩ :: scan (position + 1) rest
termination_by cs.length
decreasing_by
  all_goals simp only [List.length_cons]
  all_goals first
    | exact Nat.lt_succ_self _
    | exact Nat.lt_succ_of_le (length_dropWhile_le _ _)

end Token

end ShapeGrammar

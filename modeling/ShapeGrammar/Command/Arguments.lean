/-!
# Command line arguments

Flags start with two dashes and may stand anywhere. Some of them take the argument after them as
their value, and no other meaning is then looked for in it. What is left are the operands.
-/
namespace ShapeGrammar

/-- The arguments of a command, its name first. -/
structure Arguments where
  words : List String
  deriving DecidableEq, Repr

namespace Arguments

/-- The flags that take a value. -/
def valueFlags : List String :=
  ["--config", "--seed", "--out", "--steps", "--iterations", "--count"]

/-- The name of the command. -/
def command (args : Arguments) : String :=
  args.words.headD ""

/-- The words that are neither flags nor their values. -/
def operandsOf : List String → List String
  | [] => []
  | [word] => if word.startsWith "--" then [] else [word]
  | word :: next :: rest =>
    if valueFlags.contains word then operandsOf rest
    else if word.startsWith "--" then operandsOf (next :: rest)
    else word :: operandsOf (next :: rest)

/-- The operands, in order. -/
def operands (args : Arguments) : List String :=
  operandsOf args.words.tail

/-- Whether a word is among the arguments. -/
def has (args : Arguments) (word : String) : Bool :=
  args.words.contains word

/-- The word after the first place where a flag stands. -/
def value? (args : Arguments) (flag : String) : Option String :=
  (args.words.dropWhile (· != flag)).tail.head?

/-- The value of a decimal digit. -/
def digit? (c : Char) : Option Nat :=
  if '0' ≤ c ∧ c ≤ '9' then some (c.toNat - '0'.toNat) else none

/-- A whole number of decimal digits, at least one, that fits into 64 bits. -/
def natural? : List Char → Option Nat
  | [] => none
  | digits => do
    let n := (← digits.mapM digit?).foldl (fun n d => 10 * n + d) 0
    if n < 18446744073709551616 then some n else none

/-- A number that a plus sign may stand before. -/
def number? (word : String) : Option Nat :=
  match word.toList with
  | '+' :: digits => natural? digits
  | digits => natural? digits

/-- The number after a flag; nothing if it is no number. -/
def count? (args : Arguments) (flag : String) : Option Nat :=
  (args.value? flag).bind number?

end Arguments

end ShapeGrammar

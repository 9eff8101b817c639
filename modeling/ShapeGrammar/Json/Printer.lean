import ShapeGrammar.Json.Value

/-!
# Writing JSON

Two layouts: on one line without blanks, and indented by two blanks with one member a line. Text
escapes only what has to be escaped: the quote, the backslash and the control characters.
-/
namespace ShapeGrammar

namespace Numeral

/-- The characters of a number. A positive power of ten is written with its sign. -/
def render (n : Numeral) : List Char :=
  (if n.negative then ['-'] else []) ++ Nat.toDigits 10 n.whole
    ++ (if n.fraction.isEmpty then []
        else '.' :: n.fraction.map fun digit => Nat.digitChar digit.val)
    ++ match n.exponent with
      | none => []
      | some (.ofNat e) => 'e' :: '+' :: Nat.toDigits 10 e
      | some (.negSucc e) => 'e' :: '-' :: Nat.toDigits 10 (e + 1)

end Numeral

namespace Json

/-- A control character by its code, as two hexadecimal digits. -/
def escapeCode (c : Char) : List Char :=
  ['\\', 'u', '0', '0', Nat.digitChar (c.toNat / 16), Nat.digitChar (c.toNat % 16)]

/-- One character inside quotes. -/
def escape (c : Char) : List Char :=
  if c = '"' then ['\\', '"']
  else if c = '\\' then ['\\', '\\']
  else if c = '\n' then ['\\', 'n']
  else if c = '\r' then ['\\', 'r']
  else if c = '\t' then ['\\', 't']
  else if c = '\x08' then ['\\', 'b']
  else if c = '\x0c' then ['\\', 'f']
  else if c.toNat < 32 then escapeCode c
  else [c]

/-- A text between quotes. -/
def quote (s : String) : List Char :=
  '"' :: (s.toList.flatMap escape ++ ['"'])

/-- The characters of a value that holds no other value. -/
def leaf : Json → List Char
  | .bool true => ['t', 'r', 'u', 'e']
  | .bool false => ['f', 'a', 'l', 's', 'e']
  | .number value => value.render
  | .text value => quote value
  | _ => ['n', 'u', 'l', 'l']

mutual

/-- The characters of a document on one line, before what follows it. -/
def line : Json → List Char → List Char
  | .array items, tail => '[' :: lineItems items (']' :: tail)
  | .object members, tail => '\x7b' :: lineMembers members ('\x7d' :: tail)
  | other, tail => leaf other ++ tail

def lineItems : List Json → List Char → List Char
  | [], tail => tail
  | [item], tail => line item tail
  | item :: rest, tail => line item (',' :: lineItems rest tail)

def lineMembers : List (String × Json) → List Char → List Char
  | [], tail => tail
  | [(key, item)], tail => quote key ++ (':' :: line item tail)
  | (key, item) :: rest, tail =>
    quote key ++ (':' :: line item (',' :: lineMembers rest tail))

end

/-- A line break and the blanks of an indentation level. -/
def newline (level : Nat) : List Char :=
  '\n' :: List.replicate (2 * level) ' '

mutual

/-- The characters of a document with one member a line, at a level of indentation. -/
def block (level : Nat) : Json → List Char
  | .array [] => ['[', ']']
  | .object [] => ['\x7b', '\x7d']
  | .array items => '[' :: (blockItems (level + 1) items ++ (newline level ++ [']']))
  | .object members => '\x7b' :: (blockMembers (level + 1) members ++ (newline level ++ ['\x7d']))
  | other => leaf other

def blockItems (level : Nat) : List Json → List Char
  | [] => []
  | [item] => newline level ++ block level item
  | item :: rest => newline level ++ (block level item ++ (',' :: blockItems level rest))

def blockMembers (level : Nat) : List (String × Json) → List Char
  | [] => []
  | [(key, item)] => newline level ++ (quote key ++ (':' :: ' ' :: block level item))
  | (key, item) :: rest =>
    newline level ++ (quote key ++ (':' :: ' ' :: (block level item
      ++ (',' :: blockMembers level rest))))

end

/-- A document on one line. -/
def compress (j : Json) : String :=
  String.ofList (line j [])

/-- A document with one member a line. -/
def pretty (j : Json) : String :=
  String.ofList (block 0 j)

end Json

end ShapeGrammar

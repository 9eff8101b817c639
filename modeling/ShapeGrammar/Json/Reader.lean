import ShapeGrammar.Json.Value

/-!
# Reading JSON

The strict notation: no blanks but the four of the standard, no comments, no commas before a
closing bracket, no leading zeros, nothing after the value. Every step returns what is left of the
text, and each value takes at least one character, so the length of the text bounds the nesting of
calls.
-/
namespace ShapeGrammar

namespace Json

/-- The blanks that may stand between the parts of a document. -/
def isBlank (c : Char) : Bool :=
  c = ' ' || c = '\t' || c = '\n' || c = '\r'

def skipBlanks (cs : List Char) : List Char :=
  cs.dropWhile isBlank

/-- The value of a hexadecimal digit. -/
def hexValue (c : Char) : Option Nat :=
  if '0' ≤ c ∧ c ≤ '9' then some (c.toNat - 48)
  else if 'a' ≤ c ∧ c ≤ 'f' then some (c.toNat - 87)
  else if 'A' ≤ c ∧ c ≤ 'F' then some (c.toNat - 55)
  else none

/-- Four hexadecimal digits. -/
def hexCode : List Char → Option (Nat × List Char)
  | a :: b :: c :: d :: rest => do
    let a ← hexValue a
    let b ← hexValue b
    let c ← hexValue c
    let d ← hexValue d
    return (((a * 16 + b) * 16 + c) * 16 + d, rest)
  | _ => none

/-- The character of an escape that is a single letter. -/
def letterEscape (c : Char) : Option Char :=
  match c with
  | '"' => some '"'
  | '\\' => some '\\'
  | '/' => some '/'
  | 'b' => some '\x08'
  | 'f' => some '\x0c'
  | 'n' => some '\n'
  | 'r' => some '\r'
  | 't' => some '\t'
  | _ => none

def isHighSurrogate (code : Nat) : Bool :=
  0xd800 ≤ code && code < 0xdc00

def isLowSurrogate (code : Nat) : Bool :=
  0xdc00 ≤ code && code < 0xe000

/-- The character a code escape stands for and the text after it; a leading half of a pair needs
its other half behind it. No character where the halves do not fit. -/
def codeEscape (code : Nat) (rest : List Char) : Option Char × List Char :=
  if isHighSurrogate code then
    match rest with
    | '\\' :: 'u' :: tail =>
      match hexCode tail with
      | some (low, tail) =>
        if isLowSurrogate low then
          (some (Char.ofNat (0x10000 + (code - 0xd800) * 0x400 + (low - 0xdc00))), tail)
        else (none, rest)
      | none => (none, rest)
    | _ => (none, rest)
  else if isLowSurrogate code then (none, rest)
  else (some (Char.ofNat code), rest)

/-- The characters up to the closing quote, in reverse, and what follows it. `sound` tells whether
all escapes so far named characters. -/
def stringTail : Nat → Bool → List Char → List Char → Option (Option String × List Char)
  | 0, _, _, _ => none
  | fuel + 1, sound, done, cs =>
    match cs with
    | [] => none
    | '"' :: rest => some (if sound then some (String.ofList done.reverse) else none, rest)
    | '\\' :: 'u' :: rest =>
      match hexCode rest with
      | none => none
      | some (code, rest) =>
        match codeEscape code rest with
        | (some c, rest) => stringTail fuel sound (c :: done) rest
        | (none, rest) => stringTail fuel false done rest
    | '\\' :: c :: rest =>
      match letterEscape c with
      | some c => stringTail fuel sound (c :: done) rest
      | none => none
    | c :: rest => if c.toNat < 32 then none else stringTail fuel sound (c :: done) rest

/-- The digits at the start of a text. -/
def digitRun (cs : List Char) : List Char × List Char :=
  (cs.takeWhile Char.isDigit, cs.dropWhile Char.isDigit)

def digitsValue (cs : List Char) : Nat :=
  cs.foldl (fun total c => total * 10 + (c.toNat - 48)) 0

def digitOf (c : Char) : Fin 10 :=
  ⟨(c.toNat - 48) % 10, Nat.mod_lt _ (by decide)⟩

/-- The digits before the point: a zero only if it stands alone. -/
def wholePart (cs : List Char) : Option (Nat × List Char) :=
  match digitRun cs with
  | ([], _) => none
  | (['0'], rest) => some (0, rest)
  | ('0' :: _, _) => none
  | (run, rest) => some (digitsValue run, rest)

/-- The point and the digits after it, if there is a point. -/
def fractionPart : List Char → Option (List (Fin 10) × List Char)
  | '.' :: cs =>
    match digitRun cs with
    | ([], _) => none
    | (run, rest) => some (run.map digitOf, rest)
  | cs => some ([], cs)

/-- The power of ten, if one is written. -/
def exponentPart (cs : List Char) : Option (Option Int × List Char) :=
  let written (negative : Bool) (cs : List Char) : Option (Option Int × List Char) :=
    match digitRun cs with
    | ([], _) => none
    | (run, rest) =>
      some (some (if negative then -(digitsValue run : Int) else digitsValue run), rest)
  match cs with
  | 'e' :: '-' :: rest | 'E' :: '-' :: rest => written true rest
  | 'e' :: '+' :: rest | 'E' :: '+' :: rest => written false rest
  | 'e' :: rest | 'E' :: rest => written false rest
  | _ => some (none, cs)

/-- A number without its sign. -/
def magnitude (negative : Bool) (cs : List Char) : Option (Json × List Char) := do
  let (whole, cs) ← wholePart cs
  let (fraction, cs) ← fractionPart cs
  let (exponent, cs) ← exponentPart cs
  return (.number { negative, whole, fraction, exponent }, cs)

mutual

/-- One value at the start of a text. -/
def value : Nat → List Char → Option (Json × List Char)
  | 0, _ => none
  | fuel + 1, cs =>
    match skipBlanks cs with
    | '\x7b' :: rest =>
      match skipBlanks rest with
      | '\x7d' :: rest => some (.object [], rest)
      | rest => members fuel true [] rest
    | '[' :: rest =>
      match skipBlanks rest with
      | ']' :: rest => some (.array [], rest)
      | rest => items fuel [] rest
    | '"' :: rest =>
      match stringTail fuel true [] rest with
      | some (some s, rest) => some (.text s, rest)
      | some (none, rest) => some (.garbled, rest)
      | none => none
    | 'n' :: 'u' :: 'l' :: 'l' :: rest => some (.null, rest)
    | 't' :: 'r' :: 'u' :: 'e' :: rest => some (.bool true, rest)
    | 'f' :: 'a' :: 'l' :: 's' :: 'e' :: rest => some (.bool false, rest)
    | '-' :: rest => magnitude true rest
    | rest => magnitude false rest

/-- The values up to a closing bracket. -/
def items : Nat → List Json → List Char → Option (Json × List Char)
  | 0, _, _ => none
  | fuel + 1, done, cs =>
    match value fuel cs with
    | none => none
    | some (item, rest) =>
      match skipBlanks rest with
      | ',' :: rest => items fuel (item :: done) rest
      | ']' :: rest => some (.array (item :: done).reverse, rest)
      | _ => none

/-- The members up to a closing brace. `sound` tells whether all keys so far were texts. -/
def members : Nat → Bool → List (String × Json) → List Char → Option (Json × List Char)
  | 0, _, _, _ => none
  | fuel + 1, sound, done, cs =>
    match skipBlanks cs with
    | '"' :: rest =>
      match stringTail fuel true [] rest with
      | some (key, rest) =>
        match skipBlanks rest with
        | ':' :: rest =>
          match value fuel rest with
          | none => none
          | some (item, rest) =>
            let sound := sound && key.isSome
            let done := (key.getD "", item) :: done
            match skipBlanks rest with
            | ',' :: rest => members fuel sound done rest
            | '\x7d' :: rest => some (if sound then .object done.reverse else .garbled, rest)
            | _ => none
        | _ => none
      | none => none
    | _ => none

end

/-- The document a text holds, if it holds exactly one. -/
def read? (s : String) : Option Json :=
  let cs := s.toList
  match value (2 * cs.length + 2) cs with
  | some (j, rest) => if (skipBlanks rest).isEmpty then some j else none
  | none => none

end Json

end ShapeGrammar

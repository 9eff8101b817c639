import ShapeGrammar.Json.Rounding
import ShapeGrammar.Table

/-!
# Reading values out of JSON

Each reader takes a JSON value and returns what it stands for, or nothing where it has the wrong
form. A record may be written as an object, with its fields in any order and other members ignored,
or as an array of its fields in order.
-/
namespace ShapeGrammar

namespace Json

def bool? : Json → Option Bool
  | .bool value => some value
  | _ => none

def text? : Json → Option String
  | .text value => some value
  | _ => none

/-- A whole number up to a bound, written as one. -/
def natUpTo? (bound : Nat) : Json → Option Nat
  | .number n => if n.isInteger ∧ n.negative = false ∧ n.whole ≤ bound then some n.whole else none
  | _ => none

def byte? (j : Json) : Option UInt8 :=
  (j.natUpTo? 255).map .ofNat

def word32? (j : Json) : Option UInt32 :=
  (j.natUpTo? 4294967295).map .ofNat

def word64? (j : Json) : Option UInt64 :=
  (j.natUpTo? 18446744073709551615).map .ofNat

/-- A double precision number; a literal beyond the largest finite one is refused. -/
def float? : Json → Option Float
  | .number n => n.doubleBits?.map fun bits => .ofBits (.ofNat bits)
  | _ => none

/-- Whether a numeral is a whole number of at most 64 bits, with or without a sign. -/
def isWord (n : Numeral) : Bool :=
  n.isInteger && (if n.negative then n.whole ≤ 9223372036854775808
    else n.whole ≤ 18446744073709551615)

/-- A single precision number. Whole numbers of 64 bits are rounded once; all other literals are
read at double precision first. -/
def float32? : Json → Option Float32
  | .number n =>
    if isWord n then some (Float32.ofDecimal n.negative n.whole 0)
    else n.doubleBits?.map fun bits => .ofBits (.ofNat (BinaryFormat.double.convert .single bits))
  | _ => none

/-- Whether every text in a document is one and every number is within double precision, also where
nobody reads them. -/
def isSound : Json → Bool
  | .garbled => false
  | .number n => n.doubleBits?.isSome
  | .array items => soundItems items
  | .object members => soundMembers members
  | _ => true
where
  soundItems : List Json → Bool
    | [] => true
    | item :: rest => isSound item && soundItems rest
  soundMembers : List (String × Json) → Bool
    | [] => true
    | (_, item) :: rest => isSound item && soundMembers rest

/-- Something, or nothing written as `null`. -/
def orNull? {β : Type} (read : Json → Option β) : Json → Option (Option β)
  | .null => some none
  | j => (read j).map some

/-- Every item of an array. -/
def list? {β : Type} (read : Json → Option β) : Json → Option (List β)
  | .array items => items.mapM read
  | _ => none

/-- The members of an object; the last one written under a name counts. -/
def table? {β : Type} (read : Json → Option β) : Json → Option (Table β)
  | .object members => do
    let entries ← members.mapM fun (key, item) => return (key, ← read item)
    return Table.ofList entries
  | _ => none

/-- The fields of a record in the order of its declaration. -/
structure Record where
  /-- Whether the record was written as an array. -/
  positional : Bool
  slots : List (Option Json)

/-- How often a name occurs among the members of an object. -/
def occurrences (name : String) (members : List (String × Json)) : Nat :=
  (members.filter (·.1 == name)).length

/-- The record with the given field names. A name may not occur twice, and an array may not have
more items than there are fields. -/
def record? (names : List String) : Json → Option Record
  | .object members =>
    if names.all fun name => occurrences name members ≤ 1 then
      some ⟨false, names.map fun name => members.lookup name⟩
    else none
  | .array items =>
    if items.length ≤ names.length then
      some ⟨true, (List.range names.length).map fun i => items[i]?⟩
    else none
  | _ => none

namespace Record

variable {β : Type} (r : Record) (i : Nat) (read : Json → Option β)

/-- The field as it was written, if it was. -/
def slot : Option Json :=
  (r.slots[i]?).join

/-- A field that must be there. -/
def required : Option β :=
  (r.slot i).bind read

/-- A field with a value of its own when it is missing. -/
def orElse (default : β) : Option β :=
  match r.slot i with
  | none => some default
  | some j => read j

/-- A field that may be `null` and may be missing, from an array only at the end of none. -/
def optional : Option (Option β) :=
  match r.slot i with
  | none => if r.positional then none else some none
  | some j => orNull? read j

end Record

end Json

end ShapeGrammar

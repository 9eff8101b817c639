import ShapeGrammar.Number.Shortest

/-!
# JSON values

A document is kept as it was written: object members in order with repetitions, numbers by their
digits. What a number or a repetition means is for whoever reads the document to say.
-/
namespace ShapeGrammar

/-- A JSON number by its digits: `whole`, then the digits of the fraction if one is written, then
the power of ten if one is written. -/
structure Numeral where
  negative : Bool := false
  whole : Nat
  fraction : List (Fin 10) := []
  exponent : Option Int := none
  deriving DecidableEq, Repr

/-- A JSON value. -/
inductive Json where
  | null
  | bool (value : Bool)
  | number (value : Numeral)
  | text (value : String)
  /-- Text with an escape that names half of a surrogate pair, or an object with such a key: no
  value at all, but it may still be skipped. -/
  | garbled
  | array (items : List Json)
  | object (members : List (String × Json))
  deriving Repr

namespace Numeral

/-- Whether the number is written as a whole number. -/
def isInteger (n : Numeral) : Bool :=
  n.fraction.isEmpty && n.exponent.isNone

/-- A whole number. -/
def ofNat (n : Nat) : Numeral :=
  { whole := n }

/-- The decimal digits of a number below `10 ^ count`, first digit first. -/
def digitList (n : Nat) : Nat → List (Fin 10)
  | 0 => []
  | count + 1 => digitList (n / 10) count ++ [Fin.ofNat 10 n]

/-- The notation of a decimal: positional while the exponent of its first digit is in the window,
always with a fraction there, and with an exponent outside. -/
def ofDecimal (window : Int × Int) (negative : Bool) (d : Decimal) : Numeral :=
  if d.digits = 0 then { negative, whole := 0, fraction := [0] }
  else if window.1 ≤ d.lead ∧ d.lead ≤ window.2 then
    match d.exponent with
    | .ofNat e => { negative, whole := d.digits * Nat.pow 10 e, fraction := [0] }
    | .negSucc e =>
      { negative, whole := d.digits / Nat.pow 10 (e + 1), fraction := digitList d.digits (e + 1) }
  else
    let tail := Decimal.width d.digits - 1
    { negative, whole := d.digits / Nat.pow 10 tail, fraction := digitList d.digits tail
      exponent := some d.lead }

end Numeral

namespace Json

/-- A count or an identifier. -/
def ofNat (n : Nat) : Json :=
  .number (.ofNat n)

/-- A machine value in its shortest notation; what is no finite number is written as nothing. -/
def ofValue (f : BinaryFormat) (window : Int × Int) : BinaryFormat.Value → Json
  | .notANumber | .infinite _ => .null
  | .finite negative mantissa exponent =>
    .number (.ofDecimal window negative (Decimal.shortest f .toEven mantissa exponent))

/-- A single precision number: positional from a millionth to below ten billions. -/
def ofFloat32 (x : Float32) : Json :=
  ofValue .single (-6, 12) (BinaryFormat.single.decode x.toBits.toNat)

/-- A double precision number: positional from a hundred-thousandth to sixteen digits. -/
def ofFloat (x : Float) : Json :=
  ofValue .double (-5, 15) (BinaryFormat.double.decode x.toBits.toNat)

/-- Something that may be missing. -/
def ofOption {β : Type} (f : β → Json) : Option β → Json
  | none => .null
  | some x => f x

/-- The number of containers around the innermost value. -/
def depth : Json → Nat
  | .array items => 1 + depthOfItems items
  | .object members => 1 + depthOfMembers members
  | _ => 0
where
  depthOfItems : List Json → Nat
    | [] => 0
    | item :: rest => max (depth item) (depthOfItems rest)
  depthOfMembers : List (String × Json) → Nat
    | [] => 0
    | (_, item) :: rest => max (depth item) (depthOfMembers rest)

end Json

end ShapeGrammar

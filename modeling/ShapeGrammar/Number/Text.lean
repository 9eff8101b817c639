import ShapeGrammar.Number.Shortest

/-!
# Numbers in messages and reports

Messages write a number with the fewest digits that read back, always positionally and without a
fraction part where there is none to write. Reports write a fixed count of places, rounded from the
exact value.
-/
namespace ShapeGrammar

namespace Decimal

/-- A run of zeros. -/
def zeros (count : Nat) : String :=
  String.ofList (List.replicate count '0')

/-- The decimal written without an exponent. -/
def positional (d : Decimal) : String :=
  let text := toString d.digits
  match d.exponent with
  | .ofNat e => if d.digits = 0 then "0" else text ++ zeros e
  | .negSucc e =>
    let places := e + 1
    let padded := zeros (places + 1 - width d.digits) ++ text
    let split := padded.length - places
    String.ofList (padded.toList.take split) ++ "." ++ String.ofList (padded.toList.drop split)

end Decimal

namespace BinaryFormat

/-- A value as messages write it. -/
def Value.text (f : BinaryFormat) : Value → String
  | .notANumber => "NaN"
  | .infinite negative => if negative then "-inf" else "inf"
  | .finite negative mantissa exponent =>
    (if negative then "-" else "") ++ (Decimal.shortest f .up mantissa exponent).positional

/-- A value with a fixed number of places, a half going to the even neighbour. -/
def Value.fixed (places : Nat) : Value → String
  | .notANumber => "NaN"
  | .infinite negative => if negative then "-inf" else "inf"
  | .finite negative mantissa exponent =>
    let (n, d) := scale mantissa 1 exponent
    let units := roundHalfEven (n * Nat.pow 10 places) d
    (if negative then "-" else "") ++ Decimal.positional ⟨units, -places⟩

end BinaryFormat

/-- A single precision number as messages write it. -/
def Float32.text (x : Float32) : String :=
  (BinaryFormat.single.decode x.toBits.toNat).text .single

/-- A double precision number as messages write it. -/
def Float.text (x : Float) : String :=
  (BinaryFormat.double.decode x.toBits.toNat).text .double

/-- A double precision number with a fixed number of places. -/
def Float.fixed (places : Nat) (x : Float) : String :=
  (BinaryFormat.double.decode x.toBits.toNat).fixed places

/-- A single precision number with a fixed number of places. -/
def Float32.fixed (places : Nat) (x : Float32) : String :=
  (BinaryFormat.single.decode x.toBits.toNat).fixed places

end ShapeGrammar

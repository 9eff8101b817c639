/-!
# Binary floating point formats, exactly

A finite value of a binary format is a whole number of units, each a power of two. This module
reads that pair off a bit pattern and finds the pattern nearest to a given fraction, in exact
arithmetic on natural numbers.
-/
namespace ShapeGrammar

/-- An IEEE 754 binary interchange format, by the widths of its two unsigned fields. -/
structure BinaryFormat where
  fractionBits : Nat
  exponentBits : Nat
  deriving DecidableEq, Repr

namespace BinaryFormat

def single : BinaryFormat := ⟨23, 8⟩

def double : BinaryFormat := ⟨52, 11⟩

/-- The power of two that subnormal values are multiples of. -/
def leastExponent (f : BinaryFormat) : Int :=
  2 - Nat.pow 2 (f.exponentBits - 1) - f.fractionBits

/-- The magnitude bits of infinity; greater ones are no number. -/
def infinityBits (f : BinaryFormat) : Nat :=
  (Nat.pow 2 f.exponentBits - 1) * Nat.pow 2 f.fractionBits

def signBit (f : BinaryFormat) : Nat :=
  Nat.pow 2 (f.exponentBits + f.fractionBits)

/-- What a bit pattern stands for. -/
inductive Value where
  | notANumber
  | infinite (negative : Bool)
  /-- The value `mantissa * 2 ^ exponent`, or its opposite. -/
  | finite (negative : Bool) (mantissa : Nat) (exponent : Int)
  deriving DecidableEq, Repr

/-- Reads the value of a bit pattern. -/
def decode (f : BinaryFormat) (bits : Nat) : Value :=
  let negative := f.signBit ≤ bits
  let magnitude := bits % f.signBit
  let fraction := magnitude % Nat.pow 2 f.fractionBits
  let exponent := magnitude / Nat.pow 2 f.fractionBits
  if f.infinityBits < magnitude then .notANumber
  else if magnitude = f.infinityBits then .infinite negative
  else if exponent = 0 then .finite negative fraction f.leastExponent
  else
    .finite negative (fraction + Nat.pow 2 f.fractionBits)
      (f.leastExponent + (exponent - 1 : Nat))

/-- A fraction of natural numbers scaled by a power of two. -/
def scale (num den : Nat) (exponent : Int) : Nat × Nat :=
  match exponent with
  | .ofNat e => (num * Nat.pow 2 e, den)
  | .negSucc e => (num, den * Nat.pow 2 (e + 1))

/-- A quotient rounded to the nearest whole number, a half going to the even neighbour. -/
def roundHalfEven (num den : Nat) : Nat :=
  let q := num / den
  let r := num % den
  if 2 * r < den then q
  else if den < 2 * r then q + 1
  else if q % 2 = 0 then q else q + 1

/-- The exponent of the unit in which a value of the size of `num / den` is written. -/
def unitExponent (f : BinaryFormat) (num den : Nat) : Int :=
  let guess : Int := (Nat.log2 num : Int) - Nat.log2 den
  let (n, d) := scale num den (-guess)
  let lead := if n < d then guess - 1 else guess
  max (lead - f.fractionBits) f.leastExponent

/-- The magnitude bits of the value nearest to `num / den`, a half going to the even neighbour;
values past the largest finite one become infinite. -/
def nearestBits (f : BinaryFormat) (num den : Nat) : Nat :=
  if num = 0 then 0 else
  let unit := f.unitExponent num den
  let (n, d) := scale num den (-unit)
  let mantissa := roundHalfEven n d
  let bits :=
    if mantissa < Nat.pow 2 f.fractionBits then mantissa
    else (unit - f.leastExponent + 1).toNat * Nat.pow 2 f.fractionBits
      + (mantissa - Nat.pow 2 f.fractionBits)
  min bits f.infinityBits

/-- The bits of the value nearest to a signed fraction. -/
def encode (f : BinaryFormat) (negative : Bool) (num den : Nat) : Nat :=
  (if negative then f.signBit else 0) + f.nearestBits num den

/-- The bits of the value nearest to the signed decimal `digits * 10 ^ exponent`. Exponents too
large or too small to matter are not expanded. -/
def ofDecimal (f : BinaryFormat) (negative : Bool) (digits : Nat) (exponent : Int) : Nat :=
  let size : Int := Nat.log2 digits / 3 + 1
  if digits = 0 ∨ exponent + size < -2000 then f.encode negative 0 1
  else match exponent with
    | .ofNat e =>
      if 2000 < e then (if negative then f.signBit else 0) + f.infinityBits
      else f.encode negative (digits * Nat.pow 10 e) 1
    | .negSucc e => f.encode negative digits (Nat.pow 10 (e + 1))

/-- The bits in format `g` of the value nearest to the one `bits` stands for in format `f`. -/
def convert (f g : BinaryFormat) (bits : Nat) : Nat :=
  match f.decode bits with
  | .notANumber => g.infinityBits + 1
  | .infinite negative => (if negative then g.signBit else 0) + g.infinityBits
  | .finite negative mantissa exponent =>
    let (n, d) := scale mantissa 1 exponent
    g.encode negative n d

/-- The fraction that the magnitude bits of a finite value stand for. -/
def fraction (f : BinaryFormat) (bits : Nat) : Nat × Nat :=
  match f.decode bits with
  | .finite _ mantissa exponent => scale mantissa 1 exponent
  | _ => (0, 1)

/-- The magnitude bits of the value nearest to the product of two finite magnitudes. -/
def product (f : BinaryFormat) (a b : Nat) : Nat :=
  let (n, d) := f.fraction a
  let (m, e) := f.fraction b
  f.nearestBits (n * m) (d * e)

/-- The magnitude bits of the value nearest to the quotient of two finite magnitudes, of which the
second is not zero. -/
def quotient (f : BinaryFormat) (a b : Nat) : Nat :=
  let (n, d) := f.fraction a
  let (m, e) := f.fraction b
  f.nearestBits (n * e) (d * m)

end BinaryFormat

/-- The single precision number nearest to a decimal. -/
def Float32.ofDecimal (negative : Bool) (digits : Nat) (exponent : Int) : Float32 :=
  .ofBits (.ofNat (BinaryFormat.single.ofDecimal negative digits exponent))

/-- The double precision number nearest to a decimal. -/
def Float.ofDecimal (negative : Bool) (digits : Nat) (exponent : Int) : Float :=
  .ofBits (.ofNat (BinaryFormat.double.ofDecimal negative digits exponent))

end ShapeGrammar

import ShapeGrammar.Number.Binary

/-!
# Shortest decimals

A machine number stands for every real that rounds to it: an interval around its value. Its
shortest decimal is the one of fewest digits in that interval, and of those the nearest to the
value. A point of a decimal grid lies in the interval only if one of the two grid points around the
value does, so only those two are tried, for one digit, two digits and so on.
-/
namespace ShapeGrammar

/-- A decimal magnitude `digits * 10 ^ exponent`. -/
structure Decimal where
  digits : Nat
  exponent : Int
  deriving DecidableEq, Repr

namespace Decimal

/-- Where the shortest decimal is exactly half way between two grid points, the one to take. -/
inductive Tie where
  | up
  | toEven
  deriving DecidableEq, Repr

/-- The number of decimal digits of a natural number. -/
def width (n : Nat) : Nat :=
  (Nat.toDigits 10 n).length

/-- A fraction divided by a power of ten. -/
def shift (num den : Nat) (exponent : Int) : Nat × Nat :=
  match exponent with
  | .ofNat e => (num, den * Nat.pow 10 e)
  | .negSucc e => (num * Nat.pow 10 (e + 1), den)

/-- The exponent of the first digit of `num / den`: the power of ten just below it. -/
def leadExponent (num den : Nat) : Int :=
  let guess : Int := (width num : Int) - width den
  let (n, d) := shift num den guess
  if n < d then guess - 1 else guess

/-- The reals that round to a machine number, as fractions over a common denominator. -/
structure Interval where
  low : Nat
  value : Nat
  high : Nat
  den : Nat
  /-- Whether the two ends themselves round to the number. -/
  closed : Bool

/-- The rounding interval of `mantissa * 2 ^ exponent`. Below a power of two the neighbours are
half as far away, unless they are subnormal already. -/
def Interval.ofMantissa (f : BinaryFormat) (mantissa : Nat) (exponent : Int) : Interval :=
  let below := if mantissa = Nat.pow 2 f.fractionBits ∧ f.leastExponent < exponent then 1 else 2
  let (unit, den) := BinaryFormat.scale 1 1 (exponent - 2)
  { low := (4 * mantissa - below) * unit
    value := 4 * mantissa * unit
    high := (4 * mantissa + 2) * unit
    den := den
    closed := mantissa % 2 = 0 }

/-- Whether `n / d` lies in the interval. -/
def Interval.contains (i : Interval) (n d : Nat) : Bool :=
  if i.closed then i.low * d ≤ n * i.den ∧ n * i.den ≤ i.high * d
  else i.low * d < n * i.den ∧ n * i.den < i.high * d

/-- The multiple of `10 ^ exponent` in the interval that is nearest to the value, if there is
one. -/
def Interval.gridPoint (i : Interval) (tie : Tie) (exponent : Int) : Option Nat :=
  let (n, d) := shift i.value i.den exponent
  let down := n / d
  let up := down + 1
  let inside (k : Nat) : Bool :=
    match exponent with
    | .ofNat e => i.contains (k * Nat.pow 10 e) 1
    | .negSucc e => i.contains k (Nat.pow 10 (e + 1))
  let remainder := n % d
  let preferUp := d < 2 * remainder ∨ d = 2 * remainder ∧ (tie = .up ∨ down % 2 = 1)
  match inside down, inside up with
  | true, true => some (if preferUp then up else down)
  | true, false => some down
  | false, true => some up
  | false, false => none

/-- The first grid with a point in the interval, from grids of `count` digits on. -/
def Interval.search (i : Interval) (tie : Tie) (lead : Int) (count : Nat) : Nat → Option Decimal
  | 0 => none
  | fuel + 1 =>
    let exponent := lead + 1 - count
    match i.gridPoint tie exponent with
    | some digits => some ⟨digits, exponent⟩
    | none => i.search tie lead (count + 1) fuel

/-- Removes zeros from the end of the digits. -/
def normalize (d : Decimal) : Nat → Decimal
  | 0 => d
  | fuel + 1 =>
    if d.digits ≠ 0 ∧ d.digits % 10 = 0 then
      normalize ⟨d.digits / 10, d.exponent + 1⟩ fuel
    else d

/-- The shortest decimal that rounds to `mantissa * 2 ^ exponent` in the format. Seventeen digits
tell any two double precision numbers apart. -/
def shortest (f : BinaryFormat) (tie : Tie) (mantissa : Nat) (exponent : Int) : Decimal :=
  if mantissa = 0 then ⟨0, 0⟩ else
  let i := Interval.ofMantissa f mantissa exponent
  let found := i.search tie (leadExponent i.value i.den) 1 17
  (found.getD ⟨0, 0⟩).normalize 17

/-- The exponent of the first digit. -/
def lead (d : Decimal) : Int :=
  d.exponent + width d.digits - 1

end Decimal

end ShapeGrammar

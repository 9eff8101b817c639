import ShapeGrammar.Json.Value

/-!
# The machine value of a numeral

A numeral is rounded in steps, not once. Its leading digits, as many as a 64-bit word holds, are
rounded to double precision, and the result is multiplied or divided by a power of ten that is
itself rounded. Numerals of few digits and a small exponent lose nothing on the way; others may end
one or two places beside the nearest value.
-/
namespace ShapeGrammar

namespace Numeral

/-- The largest whole number that a word holds. -/
def wordLimit : Nat :=
  18446744073709551615

/-- Drops digits from the end of a whole number until it fits a word, and counts them. -/
def leadingWord (n : Nat) : Nat × Nat :=
  if n ≤ wordLimit then (n, 0)
  else
    let (word, dropped) := leadingWord (n / 10)
    (word, dropped + 1)
termination_by n
decreasing_by
  simp only [wordLimit] at *
  omega

/-- Appends digits up to the first one that does not fit a word any more, and counts them. -/
def appendFitting (word : Nat) : List (Fin 10) → Nat × Nat
  | [] => (word, 0)
  | digit :: rest =>
    if word * 10 + digit.val ≤ wordLimit then
      let (word, appended) := appendFitting (word * 10 + digit.val) rest
      (word, appended + 1)
    else (word, 0)

/-- The digits of a numeral that are kept, and the power of ten that they count. Whole digits that
are dropped count as factors of ten, digits of the fraction that are dropped do not count. -/
def significant (n : Numeral) : Nat × Int :=
  let (word, dropped) := leadingWord n.whole
  let (word, appended) := appendFitting word n.fraction
  (word, n.exponent.getD 0 + dropped - appended)

/-- The greatest exponent of a power of ten at double precision. -/
def greatestPower : Nat :=
  308

/-- The magnitude bits of a power of ten. -/
def powerBits (exponent : Nat) : Nat :=
  BinaryFormat.double.ofDecimal false 1 exponent

/-- Divides a magnitude by a power of ten, by the greatest power first as long as there is more to
divide by. -/
def shrink (bits exponent : Nat) : Nat :=
  if exponent ≤ greatestPower then BinaryFormat.double.quotient bits (powerBits exponent)
  else if bits = 0 then 0
  else shrink (BinaryFormat.double.quotient bits (powerBits greatestPower))
    (exponent - greatestPower)
termination_by exponent
decreasing_by
  simp only [greatestPower] at *
  omega

/-- Multiplies a magnitude by a power of ten; nothing if that leads past the largest finite
value. -/
def enlarge (bits exponent : Nat) : Option Nat :=
  if exponent ≤ greatestPower then
    let product := BinaryFormat.double.product bits (powerBits exponent)
    if product < BinaryFormat.double.infinityBits then some product else none
  else if bits = 0 then some 0
  else none

/-- The magnitude bits of the double precision value of a numeral, if it is finite. -/
def magnitudeBits? (n : Numeral) : Option Nat :=
  let (word, exponent) := n.significant
  let bits := BinaryFormat.double.nearestBits word 1
  match exponent with
  | .ofNat e => enlarge bits e
  | .negSucc e => some (shrink bits (e + 1))

/-- The bits of the double precision value of a numeral, if it is finite. -/
def doubleBits? (n : Numeral) : Option Nat :=
  n.magnitudeBits?.map fun bits =>
    (if n.negative then BinaryFormat.double.signBit else 0) + bits

end Numeral

end ShapeGrammar

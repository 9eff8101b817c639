import ShapeGrammar.Text.CharTables

/-!
# Character classes

The classes that the notation of expressions is written in: blanks, letters, and letters or digits
of any script.
-/
namespace ShapeGrammar

namespace CharClass

/-- Whether a code point lies in one of the ranges from `low` on and below `high`, which are in
increasing order: the range in the middle says in which half to look on. -/
def searchRanges (ranges : Array (Nat × Nat)) (code : Nat) : Nat → Nat → Nat → Bool
  | 0, _, _ => false
  | fuel + 1, low, high =>
    if high ≤ low then false
    else
      let middle := (low + high) / 2
      match ranges[middle]? with
      | none => false
      | some (first, last) =>
        if code < first then searchRanges ranges code fuel low middle
        else if last < code then searchRanges ranges code fuel (middle + 1) high
        else true

/-- Whether a character lies in one of the ranges of a table. -/
def inRanges (ranges : Array (Nat × Nat)) (c : Char) : Bool :=
  searchRanges ranges c.toNat (ranges.size.log2 + 1) 0 ranges.size

/-- Characters of the property White_Space. -/
def isBlank (c : Char) : Bool :=
  let code := c.toNat
  (9 ≤ code && code ≤ 13) || code == 0x20 || code == 0x85 || code == 0xa0 || code == 0x1680
    || (0x2000 ≤ code && code ≤ 0x200a) || code == 0x2028 || code == 0x2029 || code == 0x202f
    || code == 0x205f || code == 0x3000

/-- Characters of the property Alphabetic. -/
def isLetter (c : Char) : Bool :=
  if c.toNat < 128 then c.isAlpha else inRanges CharTables.alphabetic c

/-- Letters, and digits and other numbers of any script. -/
def isLetterOrNumber (c : Char) : Bool :=
  if c.toNat < 128 then c.isAlphanum
  else inRanges CharTables.alphabetic c || inRanges CharTables.numeric c

/-- The text without blanks at its two ends. -/
def trim (cs : List Char) : List Char :=
  ((cs.dropWhile isBlank).reverse.dropWhile isBlank).reverse

end CharClass

end ShapeGrammar

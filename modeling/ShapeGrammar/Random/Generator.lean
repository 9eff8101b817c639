import ShapeGrammar.Json.Decode
import ShapeGrammar.Number.Scalar

/-!
# The random generator

All randomness is drawn from one generator of 64-bit words, xoshiro256++, and every draw returns
the generator it leaves behind. A run is thereby a function of its seed. Drawing below a bound
rejects the few words that would make some results likelier than others.
-/
namespace ShapeGrammar

/-- The state of the generator: 256 bits in four words. -/
structure Generator where
  s0 : UInt64
  s1 : UInt64
  s2 : UInt64
  s3 : UInt64
  deriving DecidableEq, Repr

/-- The bits of a word moved left in a circle. -/
def rotateLeft (x : UInt64) (count : UInt64) : UInt64 :=
  (x <<< count) ||| (x >>> (64 - count))

/-- The finishing step of SplitMix64: mixes the bits of a counter. -/
def splitMix (counter : UInt64) : UInt64 :=
  let z := (counter ^^^ (counter >>> 30)) * 0xbf58476d1ce4e5b9
  let z := (z ^^^ (z >>> 27)) * 0x94d049bb133111eb
  z ^^^ (z >>> 31)

/-- The step between two counters of SplitMix64. -/
def splitMixStep : UInt64 :=
  0x9e3779b97f4a7c15

namespace Generator

/-- The generator of a seed: four mixed words of a counter that starts there. -/
def seeded (seed : UInt64) : Generator where
  s0 := splitMix (seed + splitMixStep)
  s1 := splitMix (seed + splitMixStep + splitMixStep)
  s2 := splitMix (seed + splitMixStep + splitMixStep + splitMixStep)
  s3 := splitMix (seed + splitMixStep + splitMixStep + splitMixStep + splitMixStep)

/-- The word a state gives out. -/
def output (g : Generator) : UInt64 :=
  rotateLeft (g.s0 + g.s3) 23 + g.s0

/-- The state after a word. -/
def advance (g : Generator) : Generator :=
  let s2 := g.s2 ^^^ g.s0
  let s3 := g.s3 ^^^ g.s1
  { s0 := g.s0 ^^^ s3
    s1 := g.s1 ^^^ s2
    s2 := s2 ^^^ (g.s1 <<< 17)
    s3 := rotateLeft s3 45 }

/-- The next word. -/
def next (g : Generator) : UInt64 × Generator :=
  (g.output, g.advance)

/-- The next number of the unit interval, one excluded: the upper 53 bits of a word. -/
def unit {β : Type} [Scalar β] (g : Generator) : β × Generator :=
  (((g.output >>> 11).toNat : β) / 9007199254740992.0, g.advance)

/-- The remainder of all words by `range`: how many words are one too many for an even share. -/
def surplus (range : UInt64) : UInt64 :=
  (0 - range) % range

/-- What a word gives below `range`; nothing if the word is rejected. Masking serves a power of
two, the remainder all other ranges once the surplus words are rejected. -/
def accept (range word : UInt64) : Option UInt64 :=
  if range &&& (range - 1) = 0 then some (word &&& (range - 1))
  else if word < surplus range then none
  else some (word % range)

/-- The result of the first accepted word among `attempts`, and zero if there is none. -/
def firstAccepted (range : UInt64) : Nat → Generator → UInt64 × Generator
  | 0, g => (0, g)
  | attempts + 1, g =>
    match accept range g.output with
    | some r => (r, g.advance)
    | none => firstAccepted range attempts g.advance

/-- How many words a draw may look at: as many as a generator has states. If it has accepted none of
them, no word that follows is another one. -/
def attempts : Nat :=
  Nat.pow 2 256

/-- An evenly distributed number below `range`, which is not zero. -/
def below (range : UInt64) (g : Generator) : UInt64 × Generator :=
  firstAccepted range attempts g

/-- An interval to draw from that holds no number. -/
inductive RangeError where
  | empty
  deriving DecidableEq, Repr

def RangeError.message : RangeError → String
  | .empty => "range_u64: low must be less than high"

/-- An evenly distributed number from `low` on and below `high`. No word is drawn from an empty
interval. -/
def between (low high : UInt64) (g : Generator) : Except RangeError (UInt64 × Generator) :=
  if low < high then
    let (r, g) := g.below (high - low)
    .ok (low + r, g)
  else .error .empty

/-- One of the ten levels of an attribute. -/
def level (g : Generator) : Nat × Generator :=
  let (r, g) := g.below 10
  (r.toNat, g)

/-- True with the given chance. -/
def chance {β : Type} [Scalar β] (p : β) (g : Generator) : Bool × Generator :=
  (g.unit.1 < p, g.advance)

/-- The saved form of a generator. -/
def toJson (g : Generator) : Json :=
  .object [("s", .array ([g.s0, g.s1, g.s2, g.s3].map fun s => .ofNat s.toNat))]

/-- The generator of a saved form. -/
def ofJson? (j : Json) : Option Generator := do
  let r ← j.record? ["s"]
  let words ← r.required 0 (Json.list? Json.word64?)
  match words with
  | [s0, s1, s2, s3] => return ⟨s0, s1, s2, s3⟩
  | _ => none

end Generator

end ShapeGrammar

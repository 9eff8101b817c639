/-!
# Compressed data

Reads data in the DEFLATE format: blocks that are stored, or that consist of symbols of two Huffman
codes, one for bytes and for lengths of repetitions, one for how far back they lie. The codes are
either fixed or written before their block. Bits are taken from each byte lowest first.
-/
namespace ShapeGrammar

namespace Deflate

/-- Bytes, read bit by bit. -/
structure BitReader where
  data : ByteArray
  position : Nat

namespace BitReader

/-- How many bits are left. -/
def left (r : BitReader) : Nat :=
  8 * r.data.size - r.position

def bit? (r : BitReader) : Option (Nat × BitReader) := do
  let byte ← r.data[r.position / 8]?
  return (byte.toNat / Nat.pow 2 (r.position % 8) % 2, { r with position := r.position + 1 })

/-- A number of `count` bits, its lowest first. -/
def bits? : Nat → BitReader → Option (Nat × BitReader)
  | 0, r => some (0, r)
  | count + 1, r => do
    let (low, r) ← r.bit?
    let (high, r) ← bits? count r
    return (low + 2 * high, r)

/-- Skips to the next whole byte. -/
def align (r : BitReader) : BitReader :=
  { r with position := (r.position + 7) / 8 * 8 }

end BitReader

/-- A canonical Huffman code: how many symbols have each length from one on, and the symbols by
length. -/
structure Code where
  counts : List Nat
  symbols : Array Nat

namespace Code

/-- The longest a code word can be. -/
def maxLength : Nat :=
  15

/-- The code in which each symbol has a given length, or none if that is zero. -/
def ofLengths (lengths : List Nat) : Code :=
  let having (length : Nat) : List Nat :=
    ((lengths.zipIdx).filter fun entry => entry.1 == length).map Prod.snd
  let groups := (List.range maxLength).map fun i => having (i + 1)
  ⟨groups.map List.length, groups.flatten.toArray⟩

/-- Reads on in a code word. `word` is what was read of it, `first` the first code word of the
next length, and `index` the place of its symbol. -/
def decodeFrom (symbols : Array Nat) :
    List Nat → Nat → Nat → Nat → BitReader → Option (Nat × BitReader)
  | [], _, _, _, _ => none
  | count :: counts, word, first, index, r => do
    let (bit, r) ← r.bit?
    let word := 2 * word + bit
    let first := 2 * first
    if word < first + count then return (← symbols[index + (word - first)]?, r)
    else decodeFrom symbols counts word (first + count) (index + count) r

/-- The next symbol. -/
def decode (c : Code) (r : BitReader) : Option (Nat × BitReader) :=
  decodeFrom c.symbols c.counts 0 0 0 r

end Code

/-- The codes of a block. -/
structure Codes where
  literals : Code
  distances : Code

/-- The codes that need not be written. -/
def Codes.fixed : Codes where
  literals := .ofLengths (List.replicate 144 8 ++ List.replicate 112 9 ++ List.replicate 24 7
    ++ List.replicate 8 8)
  distances := .ofLengths (List.replicate 30 5)

/-- The order in which the lengths of the code for lengths are written. -/
def lengthOrder : List Nat :=
  [16, 17, 18, 0, 8, 7, 9, 6, 10, 5, 11, 4, 12, 3, 13, 2, 14, 1, 15]

/-- A number of numbers of three bits. -/
def readTriples : Nat → BitReader → Option (List Nat × BitReader)
  | 0, r => some ([], r)
  | count + 1, r => do
    let (x, r) ← r.bits? 3
    let (rest, r) ← readTriples count r
    return (x :: rest, r)

/-- Reads lengths of code words until there are `wanted` of them; `found` are those so far. -/
def readLengths (code : Code) (wanted : Nat) :
    Nat → List Nat → BitReader → Option (List Nat × BitReader)
  | 0, _, _ => none
  | fuel + 1, found, r =>
    if wanted ≤ found.length then some (found, r)
    else do
      let (symbol, r) ← code.decode r
      if symbol < 16 then readLengths code wanted fuel (found ++ [symbol]) r
      else
        let repeated ← if symbol = 16 then found.getLast? else some 0
        let (base, width) := if symbol = 16 then (3, 2) else if symbol = 17 then (3, 3) else (11, 7)
        let (extra, r) ← r.bits? width
        readLengths code wanted fuel (found ++ List.replicate (base + extra) repeated) r

/-- The codes written before a block. -/
def readCodes (r : BitReader) : Option (Codes × BitReader) := do
  let (literals, r) ← r.bits? 5
  let (distances, r) ← r.bits? 5
  let (triples, r) ← r.bits? 4
  let (lengths, r) ← readTriples (triples + 4) r
  let pairs := lengthOrder.zip lengths
  let code := Code.ofLengths ((List.range 19).map fun symbol => (pairs.lookup symbol).getD 0)
  let literals := literals + 257
  let wanted := literals + distances + 1
  let (lengths, r) ← readLengths code wanted (wanted + 1) [] r
  return (⟨.ofLengths (lengths.take literals), .ofLengths ((lengths.take wanted).drop literals)⟩, r)

/-- The least length and the number of further bits of each length symbol from 257 on. -/
def lengthTable : Array (Nat × Nat) :=
  #[(3, 0), (4, 0), (5, 0), (6, 0), (7, 0), (8, 0), (9, 0), (10, 0), (11, 1), (13, 1), (15, 1),
    (17, 1), (19, 2), (23, 2), (27, 2), (31, 2), (35, 3), (43, 3), (51, 3), (59, 3), (67, 4),
    (83, 4), (99, 4), (115, 4), (131, 5), (163, 5), (195, 5), (227, 5), (258, 0)]

/-- The least distance and the number of further bits of each distance symbol. -/
def distanceTable : Array (Nat × Nat) :=
  #[(1, 0), (2, 0), (3, 0), (4, 0), (5, 1), (7, 1), (9, 2), (13, 2), (17, 3), (25, 3), (33, 4),
    (49, 4), (65, 5), (97, 5), (129, 6), (193, 6), (257, 7), (385, 7), (513, 8), (769, 8),
    (1025, 9), (1537, 9), (2049, 10), (3073, 10), (4097, 11), (6145, 11), (8193, 12), (12289, 12),
    (16385, 13), (24577, 13)]

/-- A number whose least value and number of further bits are in a table. -/
def readFrom (table : Array (Nat × Nat)) (symbol : Nat) (r : BitReader) :
    Option (Nat × BitReader) := do
  let (base, width) ← table[symbol]?
  let (extra, r) ← r.bits? width
  return (base + extra, r)

/-- Repeats `length` bytes from `distance` bytes back. -/
def repeatBack (distance : Nat) : Nat → ByteArray → Option ByteArray
  | 0, out => some out
  | length + 1, out =>
    if distance ≤ out.size then do
      repeatBack distance length (out.push (← out[out.size - distance]?))
    else none

/-- Reads symbols up to the end of their block. Each takes a bit at least. -/
def readSymbols (codes : Codes) : Nat → ByteArray → BitReader → Option (ByteArray × BitReader)
  | 0, _, _ => none
  | fuel + 1, out, r => do
    let (symbol, r) ← codes.literals.decode r
    if symbol < 256 then readSymbols codes fuel (out.push (.ofNat symbol)) r
    else if symbol = 256 then return (out, r)
    else
      let (length, r) ← readFrom lengthTable (symbol - 257) r
      let (symbol, r) ← codes.distances.decode r
      let (distance, r) ← readFrom distanceTable symbol r
      readSymbols codes fuel (← repeatBack distance length out) r

/-- Reads a stored block. -/
def readStored (out : ByteArray) (r : BitReader) : Option (ByteArray × BitReader) := do
  let (length, r) ← r.align.bits? 16
  let (turned, r) ← r.bits? 16
  let start := r.position / 8
  if length + turned = 65535 ∧ start + length ≤ r.data.size then
    return (out ++ r.data.extract start (start + length),
      { r with position := r.position + 8 * length })
  else none

/-- Reads blocks up to the last one. -/
def readBlocks : Nat → ByteArray → BitReader → Option ByteArray
  | 0, _, _ => none
  | fuel + 1, out, r => do
    let (last, r) ← r.bits? 1
    let (kind, r) ← r.bits? 2
    let (out, r) ← match kind with
      | 0 => readStored out r
      | 1 => readSymbols .fixed r.left out r
      | 2 => do
        let (codes, r) ← readCodes r
        readSymbols codes r.left out r
      | _ => none
    if last = 1 then return out else readBlocks fuel out r

/-- The data of a sequence of blocks. -/
def inflate? (data : ByteArray) : Option ByteArray :=
  let r : BitReader := ⟨data, 0⟩
  readBlocks (r.left + 1) .empty r

end Deflate

end ShapeGrammar

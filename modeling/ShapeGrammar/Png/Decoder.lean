import ShapeGrammar.Image.Basic
import ShapeGrammar.Png.Encoder
import ShapeGrammar.Png.Inflate

/-!
# Reading PNG files

Gray, coloured and indexed images of all depths, with or without transparency, are read as gray;
interlaced images are not read. Transparency does not count.
-/
namespace ShapeGrammar

namespace Png

/-- A word of four bytes at a place, its highest first. -/
def wordAt? (data : ByteArray) (place : Nat) : Option Nat := do
  let a ← data[place]?
  let b ← data[place + 1]?
  let c ← data[place + 2]?
  let d ← data[place + 3]?
  return ((a.toNat * 256 + b.toNat) * 256 + c.toNat) * 256 + d.toNat

/-- The chunks from a place on, up to the end of the file. Each takes twelve bytes at least. -/
def chunksFrom (data : ByteArray) : Nat → Nat → Option (List (String × ByteArray))
  | 0, _ => some []
  | fuel + 1, place =>
    if data.size ≤ place then some []
    else do
      let length ← wordAt? data place
      let kind ← String.fromUTF8? (data.extract (place + 4) (place + 8))
      if data.size < place + 12 + length then none
      else
        let rest ← chunksFrom data fuel (place + 12 + length)
        return (kind, data.extract (place + 8) (place + 8 + length)) :: rest

/-- What the header of a file says. -/
structure Header where
  width : Nat
  height : Nat
  depth : Nat
  colorType : Nat

namespace Header

def ofChunk? (data : ByteArray) : Option Header := do
  let width ← wordAt? data 0
  let height ← wordAt? data 4
  let depth ← data[8]?
  let colorType ← data[9]?
  let interlaced ← data[12]?
  if interlaced = 0 ∧ [1, 2, 4, 8, 16].contains depth.toNat then
    return ⟨width, height, depth.toNat, colorType.toNat⟩
  else none

/-- How many samples a pixel has. -/
def channels? (h : Header) : Option Nat :=
  match h.colorType with
  | 0 | 3 => some 1
  | 2 => some 3
  | 4 => some 2
  | 6 => some 4
  | _ => none

end Header

/-- Of three neighbours, the one nearest to what their differences predict. -/
def paeth (left above corner : Nat) : Nat :=
  let prediction : Int := left + above - corner
  let away (x : Nat) : Nat := (prediction - x).natAbs
  if away left ≤ away above ∧ away left ≤ away corner then left
  else if away above ≤ away corner then above
  else corner

/-- A byte of a row from what is written for it and its neighbours. -/
def unfilter (filter written left above corner : Nat) : UInt8 :=
  .ofNat (written + match filter with
    | 1 => left
    | 2 => above
    | 3 => (left + above) / 2
    | 4 => paeth left above corner
    | _ => 0)

/-- A row from its filter, what is written for it and the row above; a byte's left neighbour lies
`step` bytes before it. -/
def rowOf (filter step : Nat) (above written : ByteArray) : ByteArray :=
  (List.range written.size).foldl (fun row i =>
    let before (bytes : ByteArray) : Nat :=
      if i < step then 0 else (bytes[i - step]?.getD 0).toNat
    row.push (unfilter filter (written[i]?.getD 0).toNat (before row)
      (above[i]?.getD 0).toNat (before above))) .empty

/-- The rows of an image, each of `length` bytes, after the one above. -/
def rowsFrom (data : ByteArray) (length step : Nat) : Nat → Nat → ByteArray →
    Option (List ByteArray)
  | 0, _, _ => some []
  | count + 1, place, above => do
    let filter ← data[place]?
    if data.size < place + 1 + length then none
    else
      let row := rowOf filter.toNat step above (data.extract (place + 1) (place + 1 + length))
      let rest ← rowsFrom data length step count (place + 1 + length) row
      return row :: rest

/-- A sample of a row; those of less than a byte stand highest first. -/
def sample (depth : Nat) (row : ByteArray) (i : Nat) : Nat :=
  let byte (place : Nat) : Nat := (row[place]?.getD 0).toNat
  if depth = 16 then byte (2 * i) * 256 + byte (2 * i + 1)
  else
    let place := i * depth
    byte (place / 8) / Nat.pow 2 (8 - depth - place % 8) % Nat.pow 2 depth

/-- A sample as a byte. -/
def toByte (depth x : Nat) : Nat :=
  if depth = 16 then (x + 128) / 257 else x * 255 / (Nat.pow 2 depth - 1)

/-- The lightness of a colour. -/
def luma (red green blue : Nat) : Nat :=
  (2126 * red + 7152 * green + 722 * blue) / 10000

/-- The gray of a pixel of a row. -/
def grayAt (h : Header) (channels : Nat) (palette row : ByteArray) (x : Nat) : UInt8 :=
  let channel (i : Nat) : Nat := sample h.depth row (x * channels + i)
  let entry (i : Nat) : Nat := (palette[3 * channel 0 + i]?.getD 0).toNat
  .ofNat (match h.colorType with
    | 0 | 4 => toByte h.depth (channel 0)
    | 3 => luma (entry 0) (entry 1) (entry 2)
    | _ => luma (toByte h.depth (channel 0)) (toByte h.depth (channel 1))
      (toByte h.depth (channel 2)))

/-- The gray image of a file. -/
def toGray? (data : ByteArray) : Option GrayImage :=
  if data.extract 0 8 != signature then none
  else do
    let chunks ← chunksFrom data data.size 8
    let h ← Header.ofChunk? (← chunks.lookup "IHDR")
    let channels ← h.channels?
    let palette := (chunks.lookup "PLTE").getD .empty
    let packed := (chunks.filter (·.1 == "IDAT")).foldl (fun all c => all ++ c.2) ByteArray.empty
    let unpacked ← Deflate.inflate? (packed.extract 2 packed.size)
    let bits := h.depth * channels
    let rows ← rowsFrom unpacked ((h.width * bits + 7) / 8) (max 1 (bits / 8)) h.height 0 .empty
    let rows := rows.toArray
    return .ofFn (.ofNat h.width) (.ofNat h.height) fun i =>
      grayAt h channels palette (rows[i / h.width]?.getD .empty) (i % h.width)

end Png

end ShapeGrammar

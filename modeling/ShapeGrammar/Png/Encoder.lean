import ShapeGrammar.Image.Basic
import ShapeGrammar.Png.Checksum

/-!
# Writing PNG files

Images of eight bits a channel, without filters, their data stored without compression.
-/
namespace ShapeGrammar

namespace Png

/-- The bytes every PNG file starts with. -/
def signature : ByteArray :=
  ⟨#[0x89, 0x50, 0x4e, 0x47, 0x0d, 0x0a, 0x1a, 0x0a]⟩

/-- A chunk: its length, its kind, its data and a checksum. -/
def chunk (kind : String) (data : ByteArray) : ByteArray :=
  let body := kind.toUTF8 ++ data
  bigEndian (.ofNat data.size) ++ body ++ bigEndian (crc32 body)

/-- The longest block of stored data. -/
def maxStored : Nat :=
  65535

/-- A stored block: whether it is the last one, its length twice, once with every bit turned, and
its data. -/
def storedBlock (isLast : Bool) (data : ByteArray) : ByteArray :=
  let length : UInt16 := .ofNat data.size
  let turned := length ^^^ 0xffff
  ⟨#[if isLast then 1 else 0, length.toUInt8, (length >>> 8).toUInt8, turned.toUInt8,
    (turned >>> 8).toUInt8]⟩ ++ data

/-- The data from a block on, of `count` blocks after it. -/
def storedBlocks (data : ByteArray) : Nat → Nat → ByteArray
  | 0, start => storedBlock true (data.extract start data.size)
  | count + 1, start =>
    storedBlock false (data.extract start (start + maxStored))
      ++ storedBlocks data count (start + maxStored)

/-- Data in a wrapper for compressed data, stored as it is. -/
def stored (data : ByteArray) : ByteArray :=
  ⟨#[0x78, 0x01]⟩ ++ storedBlocks data ((data.size - 1) / maxStored) 0
    ++ bigEndian (adler32 data)

/-- A file of an image of some colour type from its rows, each of which starts with the number of
its filter. -/
def file (width height : UInt32) (colorType : UInt8) (rows : ByteArray) : ByteArray :=
  signature
    ++ chunk "IHDR" (bigEndian width ++ bigEndian height ++ ⟨#[8, colorType, 0, 0, 0]⟩)
    ++ chunk "IDAT" (stored rows)
    ++ chunk "IEND" .empty

/-- The rows of a buffer, each after a zero. -/
def rowsOf {β : Type} (width height : Nat) (pixels : Array β) (bytes : β → List UInt8) :
    ByteArray :=
  (List.range height).foldl (fun rows y =>
    (pixels.extract (y * width) ((y + 1) * width)).foldl
      (fun rows p => (bytes p).foldl ByteArray.push rows) (rows.push 0)) .empty

/-- The file of a gray image. -/
def ofGray (image : GrayImage) : ByteArray :=
  file image.width image.height 0
    (rowsOf image.width.toNat image.height.toNat image.pixels fun gray => [gray])

/-- The file of a coloured image. -/
def ofColor (image : RgbImage) : ByteArray :=
  file image.width image.height 2
    (rowsOf image.width.toNat image.height.toNat image.pixels fun p =>
      [p.red, p.green, p.blue])

end Png

end ShapeGrammar

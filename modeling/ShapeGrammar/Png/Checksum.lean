/-!
# Checksums

The two checksums that guard a PNG file: CRC-32 over each chunk and Adler-32 over the data before
compression.
-/
namespace ShapeGrammar

namespace Png

/-- Divides a remainder by the generator polynomial, bit after bit. -/
def crcBits : Nat → UInt32 → UInt32
  | 0, r => r
  | count + 1, r =>
    crcBits count (if r &&& 1 = 1 then (r >>> 1) ^^^ 0xedb88320 else r >>> 1)

/-- The remainder of the bytes so far with another one. -/
def crcByte (r : UInt32) (byte : UInt8) : UInt32 :=
  crcBits 8 ((r ^^^ byte.toUInt32) &&& 0xff) ^^^ (r >>> 8)

/-- CRC-32. -/
def crc32 (bytes : ByteArray) : UInt32 :=
  bytes.foldl crcByte 0xffffffff ^^^ 0xffffffff

/-- The two sums of Adler-32 with another byte. -/
def adlerByte (sums : Nat × Nat) (byte : UInt8) : Nat × Nat :=
  let low := (sums.1 + byte.toNat) % 65521
  (low, (sums.2 + low) % 65521)

/-- Adler-32. -/
def adler32 (bytes : ByteArray) : UInt32 :=
  let (low, high) := bytes.foldl adlerByte (1, 0)
  .ofNat (high * 65536 + low)

/-- A word of four bytes, its highest first. -/
def bigEndian (word : UInt32) : ByteArray :=
  ⟨#[(word >>> 24).toUInt8, (word >>> 16).toUInt8, (word >>> 8).toUInt8, word.toUInt8]⟩

end Png

end ShapeGrammar

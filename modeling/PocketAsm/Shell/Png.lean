/-
  Shell/Png.lean --- pictures as the bytes of a PNG file.

  The pixels are grey values of one byte.  They are stored without
  compression: the zlib stream is made of stored blocks.
-/
import PocketAsm.Isa.Parva.Display

set_option autoImplicit false

namespace PocketAsm.Shell

/-- A number as four bytes, the most significant one first. -/
def bigEndian32 (n : Nat) : List UInt8 :=
  [(n / 0x1000000).toUInt8, (n / 0x10000).toUInt8, (n / 0x100).toUInt8, n.toUInt8]

/-- A number as two bytes, the least significant one first. -/
def littleEndian16 (n : Nat) : List UInt8 := [n.toUInt8, (n / 256).toUInt8]

/-! ## Checksums -/

/-- A bit further in the cyclic redundancy check. -/
def crcBit (c : UInt32) : UInt32 :=
  if c &&& 1 = 1 then (c >>> 1) ^^^ 0xEDB88320 else c >>> 1

/-- A byte further in the cyclic redundancy check. -/
def crcByte (c : UInt32) (b : UInt8) : UInt32 :=
  (List.range 8).foldl (fun c _ => crcBit c) (c ^^^ b.toUInt32)

/-- The cyclic redundancy check of a chunk. -/
def crc (bytes : List UInt8) : Nat := (bytes.foldl crcByte 0xFFFFFFFF ^^^ 0xFFFFFFFF).toNat

/-- The checksum of a zlib stream: two sums modulo the greatest prime below 65536. -/
def adler (bytes : List UInt8) : Nat :=
  let (a, b) := bytes.foldl (fun (a, b) x =>
    let a := (a + x.toNat) % 65521
    (a, (b + a) % 65521)) (1, 0)
  b * 65536 + a

/-! ## Files -/

/-- Blocks of bytes that are stored as they are; the last one is marked. -/
def storedBlocks : List (List UInt8) → List UInt8
  | [] => []
  | block :: rest =>
    (if rest.isEmpty then 1 else 0) ::
      (littleEndian16 block.length ++ littleEndian16 (65535 - block.length) ++ block ++
        storedBlocks rest)

/-- A chunk of the file. -/
def pngChunk (kind : String) (body : List UInt8) : List UInt8 :=
  let content := kind.toList.map (fun c => c.toNat.toUInt8) ++ body
  bigEndian32 body.length ++ content ++ bigEndian32 (crc content)

/-- The picture as the bytes of a file. -/
def pngBytes (p : Parva.Picture) : List UInt8 :=
  let scanlines := p.rows.flatMap fun row => 0 :: row.map fun lit => if lit then 255 else 0
  let stream := [0x78, 0x01] ++ storedBlocks (Bits.pieces 65535 scanlines) ++
    bigEndian32 (adler scanlines)
  [0x89, 0x50, 0x4E, 0x47, 0x0D, 0x0A, 0x1A, 0x0A] ++
    pngChunk "IHDR" (bigEndian32 p.width ++ bigEndian32 p.height ++ [8, 0, 0, 0, 0]) ++
    pngChunk "IDAT" stream ++ pngChunk "IEND" []

end PocketAsm.Shell

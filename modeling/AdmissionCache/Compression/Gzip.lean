import AdmissionCache.Compression.Checksum
import AdmissionCache.Compression.Deflate

namespace AdmissionCache.Gzip

def magic : List UInt8 := [0x1f, 0x8b]

/-- Skips a text that ends with a zero byte. -/
def skipText? : List UInt8 → Option (List UInt8)
  | [] => none
  | b :: rest => if b = 0 then some rest else skipText? rest

/-- Skips the optional parts of a header that `flags` announce, up to the checksum of
the header. -/
def skipOptional? (flags : Nat) (bytes : List UInt8) : Option (List UInt8) := do
  let bytes ←
    if flags.testBit 2 then do
      let (length, rest) ← Bits.takeLittleEndian? 2 bytes
      let (_, rest) ← Bits.takeBytes? length rest
      some rest
    else some bytes
  let bytes ← if flags.testBit 3 then skipText? bytes else some bytes
  if flags.testBit 4 then skipText? bytes else some bytes

/-- Skips a header. Its flags may use five bits, and its checksum must be right. -/
def skipHeader? (bytes : List UInt8) : Option (List UInt8) := do
  let (fixed, rest) ← Bits.takeBytes? 10 bytes
  match fixed with
  | 0x1f :: 0x8b :: 0x08 :: flags :: _ =>
    if 32 ≤ flags then none
    else
      let rest ← skipOptional? flags.toNat rest
      if flags.toNat.testBit 1 then
        let header := bytes.take (bytes.length - rest.length)
        let (check, rest) ← Bits.takeLittleEndian? 2 rest
        if Checksum.crc32 header % 65536 = check then some rest else none
      else some rest
  | _ => none

/-- The content of the first member. -/
def decode? (bytes : List UInt8) : Option (List UInt8) := do
  let rest ← skipHeader? bytes
  let (content, rest) ← Deflate.decode? rest
  let (check, rest) ← Bits.takeLittleEndian? 4 rest
  let (size, _) ← Bits.takeLittleEndian? 4 rest
  if Checksum.crc32 content = check ∧ content.length % (1 <<< 32) = size then some content else none

/-- Writes a member with a plain header. -/
def encode (content : List UInt8) : List UInt8 :=
  [0x1f, 0x8b, 0x08, 0, 0, 0, 0, 0, 0, 0xff] ++ Deflate.encode content ++
    Bits.toLittleEndian 4 (Checksum.crc32 content) ++ Bits.toLittleEndian 4 content.length

end AdmissionCache.Gzip

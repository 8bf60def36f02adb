import AdmissionCache.Compression.Bits
import AdmissionCache.Compression.PrefixCode

namespace AdmissionCache.Deflate

/-- The code words of the fixed code have these lengths. -/
def fixedLengths : List Nat :=
  List.replicate 144 8 ++ List.replicate 112 9 ++ List.replicate 24 7 ++ List.replicate 8 8

def longestWord : Nat := 15

/-- The two codes of a block: literals with lengths, and distances. -/
structure Codes where
  literals : PrefixCode
  distances : PrefixCode

def fixedCodes : Codes :=
  ⟨.ofLengths longestWord fixedLengths, .ofLengths longestWord (List.replicate 30 5)⟩

/-- Base and number of extra bits of each length symbol, from symbol 257 on. -/
def lengthTable : List (Nat × Nat) :=
  [(3, 0), (4, 0), (5, 0), (6, 0), (7, 0), (8, 0), (9, 0), (10, 0), (11, 1), (13, 1), (15, 1),
    (17, 1), (19, 2), (23, 2), (27, 2), (31, 2), (35, 3), (43, 3), (51, 3), (59, 3), (67, 4),
    (83, 4), (99, 4), (115, 4), (131, 5), (163, 5), (195, 5), (227, 5), (258, 0)]

/-- Base and number of extra bits of each distance symbol. -/
def distanceTable : List (Nat × Nat) :=
  [(1, 0), (2, 0), (3, 0), (4, 0), (5, 1), (7, 1), (9, 2), (13, 2), (17, 3), (25, 3), (33, 4),
    (49, 4), (65, 5), (97, 5), (129, 6), (193, 6), (257, 7), (385, 7), (513, 8), (769, 8),
    (1025, 9), (1537, 9), (2049, 10), (3073, 10), (4097, 11), (6145, 11), (8193, 12),
    (12289, 12), (16385, 13), (24577, 13)]

/-- Reads a value given by a table entry and its extra bits. -/
def extended? (table : List (Nat × Nat)) (index : Nat) (bits : List Bool) :
    Option (Nat × List Bool) := do
  let (base, extra) ← table[index]?
  let (n, bits) ← Bits.take? extra bits
  some (base + n, bits)

/-- Reads the symbols of a block up to its end; the first argument bounds their number. -/
def symbols? (codes : Codes) : Nat → List Bool → Array UInt8 → Option (List Bool × Array UInt8)
  | 0, _, _ => none
  | fuel + 1, bits, out => do
    let (symbol, bits) ← codes.literals.decode bits
    if symbol < 256 then symbols? codes fuel bits (out.push (.ofNat symbol))
    else if symbol = 256 then some (bits, out)
    else
      let (length, bits) ← extended? lengthTable (symbol - 257) bits
      let (index, bits) ← codes.distances.decode bits
      let (distance, bits) ← extended? distanceTable index bits
      if out.size < distance then none
      else symbols? codes fuel bits (Bits.copyBack length distance out)

/-- The order in which the lengths of the length code are sent. -/
def lengthOrder : List Nat := [16, 17, 18, 0, 8, 7, 9, 6, 10, 5, 11, 4, 12, 3, 13, 2, 14, 1, 15]

/-- Reads `count` numbers of three bits. -/
def triples? : Nat → List Bool → Option (List Nat × List Bool)
  | 0, bits => some ([], bits)
  | count + 1, bits => do
    let (n, bits) ← Bits.take? 3 bits
    let (rest, bits) ← triples? count bits
    some (n :: rest, bits)

/-- Reads `count` code lengths, last one first in the result; the first argument bounds
the number of steps. -/
def lengths? (code : PrefixCode) :
    Nat → Nat → List Bool → List Nat → Option (List Nat × List Bool)
  | 0, _, _, _ => none
  | fuel + 1, count, bits, acc =>
    if count = 0 then some (acc, bits)
    else do
      let (symbol, bits) ← code.decode bits
      let again (length least width : Nat) (bits : List Bool) : Option (List Nat × List Bool) := do
        let (n, bits) ← Bits.take? width bits
        if count < least + n then none
        else lengths? code fuel (count - (least + n)) bits (List.replicate (least + n) length ++ acc)
      if symbol < 16 then lengths? code fuel (count - 1) bits (symbol :: acc)
      else if symbol = 16 then
        match acc with
        | [] => none
        | last :: _ => again last 3 2 bits
      else if symbol = 17 then again 0 3 3 bits
      else again 0 11 7 bits

/-- Whether a code is complete, or has at most one word. -/
def usable (lengths : List Nat) : Bool :=
  PrefixCode.complete longestWord lengths || (lengths.filter (· ≠ 0)).length ≤ 1

/-- Reads the transmitted codes of a block. -/
def transmittedCodes? (bits : List Bool) : Option (Codes × List Bool) := do
  let (literalCount, bits) ← Bits.take? 5 bits
  let (distanceCount, bits) ← Bits.take? 5 bits
  let (lengthCount, bits) ← Bits.take? 4 bits
  let literalCount := literalCount + 257
  let distanceCount := distanceCount + 1
  if 286 < literalCount || 30 < distanceCount then none
  else
    let (sent, bits) ← triples? (lengthCount + 4) bits
    let pairs := lengthOrder.zip sent
    let codeLengths := (List.range 19).map fun i => (pairs.lookup i).getD 0
    if !PrefixCode.complete 7 codeLengths then none
    else
      let total := literalCount + distanceCount
      let (all, bits) ← lengths? (.ofLengths 7 codeLengths) (total + 1) total bits []
      let all := all.reverse
      let literals := all.take literalCount
      let distances := all.drop literalCount
      if usable literals && usable distances then
        some (⟨.ofLengths longestWord literals, .ofLengths longestWord distances⟩, bits)
      else none

def storedBytes? : Nat → List Bool → Array UInt8 → Option (List Bool × Array UInt8)
  | 0, bits, out => some (bits, out)
  | count + 1, bits, out => do
    let (b, bits) ← Bits.take? 8 bits
    storedBytes? count bits (out.push (.ofNat b))

/-- Reads a stored block, which starts at the next byte. -/
def stored? (bits : List Bool) (out : Array UInt8) : Option (List Bool × Array UInt8) := do
  let bits := bits.drop (bits.length % 8)
  let (count, bits) ← Bits.take? 16 bits
  let (check, bits) ← Bits.take? 16 bits
  if count + check = 0xffff then storedBytes? count bits out else none

/-- Reads blocks up to the last one; the first argument bounds their number. -/
def blocks? : Nat → List Bool → Array UInt8 → Option (List Bool × Array UInt8)
  | 0, _, _ => none
  | fuel + 1, bits, out => do
    let (last, bits) ← Bits.take? 1 bits
    let (kind, bits) ← Bits.take? 2 bits
    let (bits, out) ←
      if kind = 0 then stored? bits out
      else if kind = 1 then symbols? fixedCodes (bits.length + 1) bits out
      else if kind = 2 then do
        let (codes, bits) ← transmittedCodes? bits
        symbols? codes (bits.length + 1) bits out
      else none
    if last = 1 then some (bits, out) else blocks? fuel bits out

/-- Decodes a deflate stream at the start of a byte string; gives the content and the
bytes after the stream. -/
def decode? (bytes : List UInt8) : Option (List UInt8 × List UInt8) := do
  let bits := Bits.ofBytes bytes
  let (rest, out) ← blocks? (bits.length + 1) bits #[]
  some (out.toList, bytes.drop (bytes.length - rest.length / 8))

def storedLimit : Nat := 65535

/-- Stored blocks for a byte string, the last one marked; the first argument bounds
their number. -/
def storedBlocks : Nat → List UInt8 → List UInt8
  | 0, _ => []
  | fuel + 1, bytes =>
    let block := bytes.take storedLimit
    let rest := bytes.drop storedLimit
    let last : UInt8 := if rest.isEmpty then 1 else 0
    [last] ++ Bits.toLittleEndian 2 block.length ++
      Bits.toLittleEndian 2 (0xffff - block.length) ++ block ++
      (if rest.isEmpty then [] else storedBlocks fuel rest)

/-- Writes a byte string as a deflate stream of stored blocks. -/
def encode (bytes : List UInt8) : List UInt8 := storedBlocks (bytes.length + 1) bytes

end AdmissionCache.Deflate

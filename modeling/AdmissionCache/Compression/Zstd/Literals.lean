import AdmissionCache.Compression.Zstd.Fse

namespace AdmissionCache.Zstd

/-- A prefix code as the table of all words padded to `log` bits: the symbol and the
length of its word. -/
structure LiteralCode where
  log : Nat
  words : Array (UInt8 × Nat)

namespace LiteralCode

/-- Words have at most this many bits. -/
def maxLog : Nat := 12

/-- The highest sum of a description's symbols. -/
def maxSymbols : Nat := 255

/-- Reads weights from a finite-state code with two alternating states, until the bits
do not suffice for the next state; last weight first. -/
def weightSymbols? (t : FseTable) :
    Nat → FseState → FseState → List Bool → List Nat → Option (List Nat)
  | 0, _, _, _, _ => none
  | room + 1, s, other, bits, acc =>
    match t.next? s bits with
    | none => some (other.symbol :: s.symbol :: acc)
    | some (next, bits) => weightSymbols? t room other next bits (s.symbol :: acc)

/-- Reads weights given by a finite-state code. -/
def codedWeights? (bytes : List UInt8) : Option (List Nat) := do
  let (t, rest) ← FseTable.ofBytes? 6 255 bytes
  let bits ← Bits.reversed? rest
  let (first, bits) ← t.start? bits
  let (second, bits) ← t.start? bits
  let weights ← weightSymbols? t (maxSymbols - 1) first second bits []
  some weights.reverse

/-- Reads all weights but the last; gives them and the bytes that follow. -/
def weights? : List UInt8 → Option (List Nat × List UInt8)
  | [] => none
  | head :: rest =>
    if 128 ≤ head then do
      let count := head.toNat - 127
      let (packed, rest) ← Bits.takeBytes? ((count + 1) / 2) rest
      some ((packed.flatMap fun b => [b.toNat / 16, b.toNat % 16]).take count, rest)
    else do
      let (coded, rest) ← Bits.takeBytes? head.toNat rest
      some (← codedWeights? coded, rest)

/-- The number of words that a weight stands for. -/
def span (weight : Nat) : Nat := if weight = 0 then 0 else 1 <<< (weight - 1)

/-- The code for all weights but the last, which fills the words up to a power of two.
Symbols of the least weight have the first words. -/
def ofWeights? (weights : List Nat) : Option LiteralCode :=
  let total := (weights.map span).foldr (· + ·) 0
  if total = 0 || weights.any (maxLog < ·) then none
  else
    let log := Nat.log2 total + 1
    let left := 1 <<< log - total
    let last := Nat.log2 left + 1
    let all := weights ++ [last]
    let least := (all.filter (· = 1)).length
    if maxLog < log || 1 <<< Nat.log2 left ≠ left || least < 2 || least % 2 = 1 then none
    else
      let words := (List.range log).flatMap fun w =>
        all.zipIdx.flatMap fun (weight, symbol) =>
          if weight = w + 1 then List.replicate (1 <<< w) (UInt8.ofNat symbol, log - w) else []
      some ⟨log, words.toArray⟩

def ofBytes? (bytes : List UInt8) : Option (LiteralCode × List UInt8) := do
  let (weights, rest) ← weights? bytes
  some (← ofWeights? weights, rest)

/-- The number that the next bits stand for, highest first, the missing ones zero. -/
def peek (count : Nat) (bits : List Bool) : Nat :=
  let front := bits.take count
  front.foldl (fun acc b => 2 * acc + b.toNat) 0 <<< (count - front.length)

/-- Reads `count` symbols, which must use up all bits; last symbol first. -/
def symbols? (c : LiteralCode) : Nat → List Bool → List UInt8 → Option (List UInt8)
  | 0, bits, acc => if bits.isEmpty then some acc else none
  | count + 1, bits, acc =>
    match c.words[peek c.log bits]? with
    | none => none
    | some (symbol, width) =>
      if (bits.take width).length < width then none
      else symbols? c count (bits.drop width) (symbol :: acc)

/-- Reads a string of `count` symbols that takes up the given bytes. -/
def stream? (c : LiteralCode) (count : Nat) (bytes : List UInt8) : Option (List UInt8) := do
  let bits ← Bits.reversed? bytes
  let symbols ← c.symbols? count bits []
  some symbols.reverse

/-- Reads four strings that follow a table of the sizes of the first three. -/
def fourStreams? (c : LiteralCode) (count : Nat) (bytes : List UInt8) : Option (List UInt8) := do
  let (size1, rest) ← Bits.takeLittleEndian? 2 bytes
  let (size2, rest) ← Bits.takeLittleEndian? 2 rest
  let (size3, rest) ← Bits.takeLittleEndian? 2 rest
  let (bytes1, rest) ← Bits.takeBytes? size1 rest
  let (bytes2, rest) ← Bits.takeBytes? size2 rest
  let (bytes3, bytes4) ← Bits.takeBytes? size3 rest
  let part := (count + 3) / 4
  let out1 ← c.stream? part bytes1
  let out2 ← c.stream? part bytes2
  let out3 ← c.stream? part bytes3
  let out4 ← c.stream? (count - 3 * part) bytes4
  some (out1 ++ out2 ++ out3 ++ out4)

end LiteralCode

/-- The literals of a block, the code to reuse in later blocks, and the bytes that
follow. -/
structure Literals where
  content : List UInt8
  code : Option LiteralCode
  rest : List UInt8

namespace Literals

/-- The size of plain literals, from a header of one to three bytes. -/
def plainHeader? (head : UInt8) (bytes : List UInt8) : Option (Nat × List UInt8) :=
  match head.toNat / 4 % 4 with
  | 1 => (Bits.takeLittleEndian? 2 bytes).map fun (n, rest) => (n / 16, rest)
  | 3 => (Bits.takeLittleEndian? 3 bytes).map fun (n, rest) => (n / 16, rest)
  | _ => some (head.toNat / 8, bytes.drop 1)

/-- Number of strings, size and coded size of coded literals, from a header of three to
five bytes. -/
def codedHeader? (head : UInt8) (bytes : List UInt8) :
    Option (Bool × Nat × Nat × List UInt8) := do
  let form := head.toNat / 4 % 4
  let (bytesUsed, width) := if form = 2 then (4, 14) else if form = 3 then (5, 18) else (3, 10)
  let (n, rest) ← Bits.takeLittleEndian? bytesUsed bytes
  some (form != 0, n / 16 % (1 <<< width), n >>> (4 + width), rest)

/-- The fewest literals that four strings hold. -/
def fourStreamsLeast : Nat := 6

/-- Reads the literals of a block that may have at most `limit` bytes of content.
`previous` is the code of an earlier block, which coded literals may use again. -/
def ofBytes? (limit : Nat) (previous : Option LiteralCode) (bytes : List UInt8) :
    Option Literals := do
  let head ← bytes.head?
  let kind := head.toNat % 4
  if kind ≤ 1 then
    let (size, rest) ← plainHeader? head bytes
    if limit < size then none
    else if kind = 0 then
      let (content, rest) ← Bits.takeBytes? size rest
      some ⟨content, previous, rest⟩
    else
      let (content, rest) ← Bits.takeBytes? 1 rest
      some ⟨content.flatMap (List.replicate size), previous, rest⟩
  else
    let (four, size, codedSize, rest) ← codedHeader? head bytes
    if limit < size || four && size < fourStreamsLeast then none
    else
      let (coded, rest) ← Bits.takeBytes? codedSize rest
      let (code, coded) ← if kind = 2 then LiteralCode.ofBytes? coded else previous.map (·, coded)
      let content ← if four then code.fourStreams? size coded else code.stream? size coded
      some ⟨content, some code, rest⟩

end Literals

end AdmissionCache.Zstd

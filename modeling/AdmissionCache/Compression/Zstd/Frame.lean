import AdmissionCache.Compression.Checksum
import AdmissionCache.Compression.Zstd.Literals
import AdmissionCache.Compression.Zstd.Sequences

namespace AdmissionCache.Zstd

def magic : List UInt8 := [0x28, 0xb5, 0x2f, 0xfd]

/-- No block has more content than this. -/
def blockLimit : Nat := 128 * 1024

/-- The largest window that is read. -/
def windowLimit : Nat := 1 <<< 27 + 1

/-- A frame that announces no more content than this is taken as a whole: its window
does not matter, and it has no empty coded blocks. -/
def wholeLimit : Nat := 32

structure Header where
  window : Nat
  contentSize : Option Nat
  checksum : Bool
  deriving DecidableEq, Repr

namespace Header

/-- Whether the frame is taken as a whole. -/
def whole (h : Header) : Bool :=
  match h.contentSize with
  | some n => n ≤ wholeLimit
  | none => false

/-- The largest content of one of the frame's blocks. -/
def blockBound (h : Header) : Nat := Nat.min h.window blockLimit

/-- The window that a byte describes: a power of two and eighths of it. -/
def windowOf (b : UInt8) : Nat :=
  let size := 1 <<< (10 + b.toNat / 8)
  size + size / 8 * (b.toNat % 8)

/-- Reads the content size, in a field whose width `form` gives. -/
def contentSize? (form : Nat) (single : Bool) (bytes : List UInt8) :
    Option (Option Nat × List UInt8) :=
  match form with
  | 0 =>
    if single then (Bits.takeLittleEndian? 1 bytes).map fun (n, rest) => (some n, rest)
    else some (none, bytes)
  | 1 => (Bits.takeLittleEndian? 2 bytes).map fun (n, rest) => (some (n + 256), rest)
  | 2 => (Bits.takeLittleEndian? 4 bytes).map fun (n, rest) => (some n, rest)
  | _ => (Bits.takeLittleEndian? 8 bytes).map fun (n, rest) =>
      (if n = 1 <<< 64 - 1 then none else some n, rest)

/-- Reads a header after the magic bytes. A frame that needs a dictionary or too large a
window is refused. -/
def ofBytes? : List UInt8 → Option (Header × List UInt8)
  | [] => none
  | flags :: rest => do
    let flags := flags.toNat
    let single := flags.testBit 5
    if flags.testBit 3 then none
    else
      let (window, rest) ←
        if single then some (0, rest)
        else
          match rest with
          | [] => none
          | b :: rest => if 21 < b.toNat / 8 then none else some (windowOf b, rest)
      let dictionaryBytes := if flags % 4 = 3 then 4 else flags % 4
      let (dictionary, rest) ← Bits.takeLittleEndian? dictionaryBytes rest
      let (contentSize, rest) ← contentSize? (flags / 64) single rest
      let window := if single then contentSize.getD (1 <<< 64) else window
      let header : Header := ⟨window, contentSize, flags.testBit 2⟩
      if dictionary ≠ 0 || windowLimit < window && !header.whole then none
      else some (header, rest)

end Header

/-- What the blocks of a frame have produced so far, and what later blocks may use
again. -/
structure FrameState where
  content : Array UInt8 := #[]
  literalCode : Option LiteralCode := none
  codes : Option SequenceCodes := none
  recent : Recent := {}

namespace FrameState

/-- Adds the content of a coded block. -/
def codedBlock? (bound : Nat) (s : FrameState) (bytes : List UInt8) : Option FrameState := do
  if bytes.length < 2 then none
  else
    let literals ← Literals.ofBytes? bound s.literalCode bytes
    let (count, rest) ← Sequence.count? literals.rest
    let s := { s with literalCode := literals.code }
    if count = 0 then
      if rest.isEmpty then some { s with content := s.content ++ literals.content } else none
    else
      let (codes, rest) ← Sequence.codes? s.codes rest
      let (sequences, recent) ← Sequence.ofBytes? codes count s.recent rest
      let added := (sequences.map fun q => q.literals + q.length).foldr (· + ·) 0
      if bound < added then none
      else
        let (left, content) ← Sequence.execute? sequences literals.content s.content
        some { s with content := content ++ left, codes := some codes, recent }

/-- Reads a block after its header; gives the bytes after it. -/
def block? (h : Header) (kind size : Nat) (s : FrameState) (bytes : List UInt8) :
    Option (FrameState × List UInt8) := do
  match kind with
  | 0 =>
    let (plain, rest) ← Bits.takeBytes? size bytes
    if h.blockBound < size then none
    else some ({ s with content := s.content ++ plain }, rest)
  | 1 =>
    let (unit, rest) ← Bits.takeBytes? 1 bytes
    if h.blockBound < size then none
    else some ({ s with content := s.content ++ unit.flatMap (List.replicate size) }, rest)
  | 2 =>
    let (coded, rest) ← Bits.takeBytes? size bytes
    if size = 0 && !h.whole then some (s, rest)
    else if h.blockBound < size then none
    else
      let next ← codedBlock? h.blockBound s coded
      if h.blockBound < next.content.size - s.content.size then none else some (next, rest)
  | _ => none

/-- Reads blocks up to the last one; the first argument bounds their number. -/
def blocks? (h : Header) : Nat → FrameState → List UInt8 → Option (FrameState × List UInt8)
  | 0, _, _ => none
  | fuel + 1, s, bytes => do
    let (n, rest) ← Bits.takeLittleEndian? 3 bytes
    let (s, rest) ← block? h (n / 2 % 4) (n / 8) s rest
    if n % 2 = 1 then some (s, rest) else blocks? h fuel s rest

end FrameState

/-- Reads a frame after its magic bytes; gives its content and the bytes after it. -/
def frame? (bytes : List UInt8) : Option (List UInt8 × List UInt8) := do
  let (header, rest) ← Header.ofBytes? bytes
  let (s, rest) ← FrameState.blocks? header (rest.length + 1) {} rest
  let content := s.content.toList
  if header.contentSize.any (· ≠ content.length) then none
  else if header.checksum then
    let (check, rest) ← Bits.takeLittleEndian? 4 rest
    if Checksum.xxHash64 content % (1 <<< 32) = check then some (content, rest) else none
  else some (content, rest)

/-- Skips a frame without content, after its magic bytes. -/
def skipFrame? (bytes : List UInt8) : Option (List UInt8) := do
  let (size, rest) ← Bits.takeLittleEndian? 4 bytes
  let (_, rest) ← Bits.takeBytes? size rest
  some rest

/-- Reads frames up to the end of the bytes; the first argument bounds their number. -/
def frames? : Nat → List UInt8 → Option (List UInt8)
  | _, [] => some []
  | 0, _ :: _ => none
  | fuel + 1, bytes => do
    let (head, rest) ← Bits.takeBytes? 4 bytes
    if head = magic then
      let (content, rest) ← frame? rest
      some (content ++ (← frames? fuel rest))
    else
      match head with
      | [b, 0x2a, 0x4d, 0x18] => if b.toNat / 16 = 5 then frames? fuel (← skipFrame? rest) else none
      | _ => none

/-- The content of a chain of frames; frames that hold no content may stand between them. -/
def decode? (bytes : List UInt8) : Option (List UInt8) := frames? bytes.length bytes

/-- Plain blocks for a content, the last one marked; the first argument bounds their
number. -/
def plainBlocks : Nat → List UInt8 → List UInt8
  | 0, _ => []
  | fuel + 1, content =>
    let block := content.take blockLimit
    let rest := content.drop blockLimit
    let last := if rest.isEmpty then 1 else 0
    Bits.toLittleEndian 3 (block.length * 8 + last) ++ block ++
      (if rest.isEmpty then [] else plainBlocks fuel rest)

/-- Writes one frame of plain blocks, with a window as large as a block. -/
def encode (content : List UInt8) : List UInt8 :=
  magic ++ [0x00, 0x38] ++ plainBlocks (content.length + 1) content

end AdmissionCache.Zstd

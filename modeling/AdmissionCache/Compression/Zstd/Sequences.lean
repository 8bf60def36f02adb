import AdmissionCache.Compression.Zstd.Fse

namespace AdmissionCache.Zstd

/-- One step of a block: take over `literals` bytes, then repeat `length` bytes from
`distance` bytes back. -/
structure Sequence where
  literals : Nat
  length : Nat
  distance : Nat
  deriving DecidableEq, Repr

/-- The three codes of a block's sequences. -/
structure SequenceCodes where
  literals : FseTable
  distances : FseTable
  lengths : FseTable

/-- The last three distances, latest first. -/
structure Recent where
  first : Nat := 1
  second : Nat := 4
  third : Nat := 8
  deriving DecidableEq, Repr

/-- The distance that a value stands for, and the recent distances after it. The three
least values mean recent distances, shifted by one after no literals. The distance zero
means nothing. -/
def Recent.resolve? (r : Recent) (value literals : Nat) : Option (Nat × Recent) :=
  let place := if literals = 0 then value + 1 else value
  if 3 < value then some (value - 3, ⟨value - 3, r.first, r.second⟩)
  else if place = 1 then some (r.first, r)
  else if place = 2 then some (r.second, ⟨r.second, r.first, r.third⟩)
  else
    let distance := if place = 3 then r.third else r.first - 1
    if distance = 0 then none else some (distance, ⟨distance, r.first, r.second⟩)

/-- A field of the sequences: how its code is described, and which value and number of
extra bits a symbol stands for. -/
structure SequenceField where
  maxLog : Nat
  lastSymbol : Nat
  presetLog : Nat
  preset : List Share
  meaning : Nat → Nat × Nat

namespace SequenceField

def literalTable : List (Nat × Nat) :=
  [(16, 1), (18, 1), (20, 1), (22, 1), (24, 2), (28, 2), (32, 3), (40, 3), (48, 4), (64, 6),
    (128, 7), (256, 8), (512, 9), (1024, 10), (2048, 11), (4096, 12), (8192, 13), (16384, 14),
    (32768, 15), (65536, 16)]

def lengthTable : List (Nat × Nat) :=
  [(35, 1), (37, 1), (39, 1), (41, 1), (43, 2), (47, 2), (51, 3), (59, 3), (67, 4), (83, 4),
    (99, 5), (131, 7), (259, 8), (515, 9), (1027, 10), (2051, 11), (4099, 12), (8195, 13),
    (16387, 14), (32771, 15), (65539, 16)]

/-- Shares from numbers; zero stands for a rare symbol. -/
def presetShares (counts : List Nat) : List Share :=
  counts.map fun n => if n = 0 then .rare else .states n

def literals : SequenceField where
  maxLog := 9
  lastSymbol := 35
  presetLog := 6
  preset := presetShares
    [4, 3, 2, 2, 2, 2, 2, 2, 2, 2, 2, 2, 2, 1, 1, 1, 2, 2, 2, 2, 2, 2, 2, 2, 2, 3, 2, 1, 1, 1, 1, 1,
      0, 0, 0, 0]
  meaning := fun symbol =>
    if symbol < 16 then (symbol, 0) else (literalTable[symbol - 16]?).getD (0, 0)

def lengths : SequenceField where
  maxLog := 9
  lastSymbol := 52
  presetLog := 6
  preset := presetShares
    [1, 4, 3, 2, 2, 2, 2, 2, 2, 1, 1, 1, 1, 1, 1, 1, 1, 1, 1, 1, 1, 1, 1, 1, 1, 1, 1, 1, 1, 1, 1, 1,
      1, 1, 1, 1, 1, 1, 1, 1, 1, 1, 1, 1, 1, 1, 0, 0, 0, 0, 0, 0, 0]
  meaning := fun symbol =>
    if symbol < 32 then (symbol + 3, 0) else (lengthTable[symbol - 32]?).getD (0, 0)

def distances : SequenceField where
  maxLog := 8
  lastSymbol := 31
  presetLog := 5
  preset := presetShares
    [1, 1, 1, 1, 1, 1, 2, 2, 2, 1, 1, 1, 1, 1, 1, 1, 1, 1, 1, 1, 1, 1, 1, 1, 0, 0, 0, 0, 0]
  meaning := fun symbol => (1 <<< symbol, symbol)

/-- Reads a field's code in one of four ways: preset, one symbol only, described here,
or that of an earlier block. -/
def code? (f : SequenceField) (way : Nat) (previous : Option FseTable) (bytes : List UInt8) :
    Option (FseTable × List UInt8) :=
  match way with
  | 0 => some (.ofShares f.presetLog f.preset, bytes)
  | 1 =>
    match bytes with
    | [] => none
    | b :: rest => if f.lastSymbol < b.toNat then none else some (.constant b.toNat, rest)
  | 2 => FseTable.ofBytes? f.maxLog f.lastSymbol bytes
  | _ => previous.map (·, bytes)

/-- Reads the value of a field in the given state. -/
def value? (f : SequenceField) (s : FseState) (bits : List Bool) : Option (Nat × List Bool) := do
  let (base, extra) := f.meaning s.symbol
  let (n, rest) ← Bits.takeHigh? extra bits
  some (base + n, rest)

end SequenceField

namespace Sequence

/-- Reads the number of sequences of a block. -/
def count? : List UInt8 → Option (Nat × List UInt8)
  | [] => none
  | a :: rest =>
    if a < 128 then some (a.toNat, rest)
    else if a = 255 then (Bits.takeLittleEndian? 2 rest).map fun (n, rest) => (n + 0x7f00, rest)
    else
      match rest with
      | [] => none
      | b :: rest => some ((a.toNat - 128) * 256 + b.toNat, rest)

/-- Reads the codes of a block's sequences. -/
def codes? (previous : Option SequenceCodes) (bytes : List UInt8) :
    Option (SequenceCodes × List UInt8) := do
  let ways ← bytes.head?
  let ways := ways.toNat
  if ways % 4 ≠ 0 then none
  else
    let (literals, rest) ←
      SequenceField.literals.code? (ways / 64) (previous.map (·.literals)) (bytes.drop 1)
    let (distances, rest) ←
      SequenceField.distances.code? (ways / 16 % 4) (previous.map (·.distances)) rest
    let (lengths, rest) ←
      SequenceField.lengths.code? (ways / 4 % 4) (previous.map (·.lengths)) rest
    some (⟨literals, distances, lengths⟩, rest)

/-- The states of the three fields. -/
structure States where
  literals : FseState
  distances : FseState
  lengths : FseState

/-- Reads `count` sequences, which must use up all bits; last sequence first. -/
def read? (codes : SequenceCodes) :
    Nat → States → Recent → List Bool → List Sequence → Option (List Sequence × Recent)
  | 0, _, recent, bits, acc => if bits.isEmpty then some (acc, recent) else none
  | count + 1, s, recent, bits, acc => do
    let (value, bits) ← SequenceField.distances.value? s.distances bits
    let (length, bits) ← SequenceField.lengths.value? s.lengths bits
    let (literals, bits) ← SequenceField.literals.value? s.literals bits
    let (distance, recent) ← recent.resolve? value literals
    let acc := ⟨literals, length, distance⟩ :: acc
    if count = 0 then read? codes count s recent bits acc
    else
      let (nextLiterals, bits) ← codes.literals.next? s.literals bits
      let (nextLengths, bits) ← codes.lengths.next? s.lengths bits
      let (nextDistances, bits) ← codes.distances.next? s.distances bits
      read? codes count ⟨nextLiterals, nextDistances, nextLengths⟩ recent bits acc

/-- Reads `count` sequences from bytes that are read backward. -/
def ofBytes? (codes : SequenceCodes) (count : Nat) (recent : Recent) (bytes : List UInt8) :
    Option (List Sequence × Recent) := do
  let bits ← Bits.reversed? bytes
  let (literals, bits) ← codes.literals.start? bits
  let (distances, bits) ← codes.distances.start? bits
  let (lengths, bits) ← codes.lengths.start? bits
  let (sequences, recent) ← read? codes count ⟨literals, distances, lengths⟩ recent bits []
  some (sequences.reverse, recent)

/-- Carries out sequences: gives the content with what they add, and the literals left
over. -/
def execute? : List Sequence → List UInt8 → Array UInt8 → Option (List UInt8 × Array UInt8)
  | [], literals, out => some (literals, out)
  | s :: rest, literals, out =>
    let front := literals.take s.literals
    let out := out ++ front
    if front.length < s.literals || out.size < s.distance then none
    else execute? rest (literals.drop s.literals) (Bits.copyBack s.length s.distance out)

end Sequence

end AdmissionCache.Zstd

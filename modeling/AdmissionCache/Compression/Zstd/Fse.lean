import AdmissionCache.Compression.Bits

namespace AdmissionCache.Zstd

/-- How many states a symbol has. A `rare` symbol has one state at the end of the
space. -/
inductive Share
  | rare
  | states (count : Nat)
  deriving DecidableEq, Repr

/-- The number of states of a share. -/
def Share.size : Share → Nat
  | .rare => 1
  | .states count => count

/-- A state: its symbol, and the number of bits that, added to `base`, give the next
state. -/
structure FseState where
  symbol : Nat
  width : Nat
  base : Nat
  deriving DecidableEq, Repr

/-- The `2 ^ log` states of a code. -/
structure FseTable where
  log : Nat
  states : Array FseState

namespace FseTable

/-- Reads one coded share when `left - 1` states are still to be given away. The code
saves a bit on the least values. -/
def shareCode? (left : Nat) (bits : List Bool) : Option (Nat × List Bool) := do
  let width := Nat.log2 left
  let spare := 1 <<< (width + 1) - 1 - left
  let (low, rest) ← Bits.take? width bits
  if low < spare then some (low, rest)
  else
    let (high, rest) ← Bits.take? 1 rest
    if high = 0 then some (low, rest) else some (low + 1 <<< width - spare, rest)

/-- Reads how many symbols without states follow one without states: groups of three,
up to a group that is not full. -/
def emptyRun? : List Bool → Option (Nat × List Bool)
  | true :: true :: rest => (emptyRun? rest).map fun (n, rest) => (n + 3, rest)
  | a :: b :: rest => some (a.toNat + 2 * b.toNat, rest)
  | _ => none

/-- Reads the shares of at most `room` symbols until all states are given away, last
symbol first. -/
def shares? (room left : Nat) (bits : List Bool) (acc : List Share) :
    Option (List Share × List Bool) :=
  if left ≤ 1 then some (acc, bits)
  else
    match room with
    | 0 => none
    | room + 1 =>
      match shareCode? left bits with
      | none => none
      | some (0, bits) => shares? room (left - 1) bits (.rare :: acc)
      | some (1, bits) =>
        match emptyRun? bits with
        | none => none
        | some (n, bits) =>
          shares? (room - n) left bits (List.replicate n (.states 0) ++ .states 0 :: acc)
      | some (code, bits) => shares? room (left - (code - 1)) bits (.states (code - 1) :: acc)
termination_by room

/-- The places of the state space in the order in which they are given to the symbols
that are not rare. -/
def places (log rareCount : Nat) : List Nat :=
  let size := 1 <<< log
  let step := size / 2 + size / 8 + 3
  ((List.range size).map fun k => k * step % size).filter (· < size - rareCount)

/-- Which symbol each state stands for. -/
def symbolsInPlace (log : Nat) (shares : List Share) : Array Nat :=
  let size := 1 <<< log
  let rares := (shares.zipIdx.filter fun e => e.1 = .rare).map (·.2)
  let others := shares.zipIdx.flatMap fun e =>
    match e.1 with
    | .rare => []
    | .states count => List.replicate count e.2
  let spread := (places log rares.length).zip others
  let ends := rares.zipIdx.map fun (symbol, i) => (size - 1 - i, symbol)
  (spread ++ ends).foldl (fun table e => table.setIfInBounds e.1 e.2) (Array.replicate size 0)

/-- Numbers the states of each symbol from its share on, which fixes their bits. -/
def number (log : Nat) : List Nat → Array Nat → List FseState
  | [], _ => []
  | symbol :: rest, next =>
    let n := next[symbol]?.getD 1
    let width := log - Nat.log2 n
    ⟨symbol, width, n <<< width - 1 <<< log⟩ ::
      number log rest (next.setIfInBounds symbol (n + 1))

def ofShares (log : Nat) (shares : List Share) : FseTable :=
  ⟨log, (number log (symbolsInPlace log shares).toList (shares.map Share.size).toArray).toArray⟩

/-- The code with one symbol and one state. -/
def constant (symbol : Nat) : FseTable := ⟨0, #[⟨symbol, 0, 0⟩]⟩

/-- Reads the description of a code for the symbols up to `lastSymbol`; gives the code
and the bytes after its description. -/
def ofBytes? (maxLog lastSymbol : Nat) (bytes : List UInt8) : Option (FseTable × List UInt8) := do
  let bits := Bits.ofBytes bytes
  let (low, rest) ← Bits.take? 4 bits
  let log := low + 5
  if maxLog < log then none
  else
    let (shares, rest) ← shares? (lastSymbol + 1) (1 <<< log + 1) rest []
    if lastSymbol + 1 < shares.length then none
    else some (ofShares log shares.reverse, bytes.drop (bytes.length - rest.length / 8))

/-- The state with the given number. -/
def state (t : FseTable) (n : Nat) : FseState := t.states[n]?.getD ⟨0, 0, 0⟩

def start? (t : FseTable) (bits : List Bool) : Option (FseState × List Bool) :=
  (Bits.takeHigh? t.log bits).map fun (n, rest) => (t.state n, rest)

def next? (t : FseTable) (s : FseState) (bits : List Bool) : Option (FseState × List Bool) :=
  (Bits.takeHigh? s.width bits).map fun (n, rest) => (t.state (s.base + n), rest)

end FseTable

end AdmissionCache.Zstd

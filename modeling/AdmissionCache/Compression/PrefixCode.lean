namespace AdmissionCache

/-- A canonical prefix code: for the lengths one, two, and so on, the symbols with code
words of that length, in order. -/
structure PrefixCode where
  levels : List (List Nat)

namespace PrefixCode

/-- The code whose symbol `i` has a word of `lengths[i]` bits; zero stands for no word. -/
def ofLengths (longest : Nat) (lengths : List Nat) : PrefixCode where
  levels := (List.range longest).map fun n =>
    lengths.zipIdx.filterMap fun (length, symbol) => if length = n + 1 then some symbol else none

/-- How much of the space of words of `longest` bits a list of lengths takes up. -/
def weight (longest : Nat) (lengths : List Nat) : Nat :=
  (lengths.map fun n => if n = 0 then 0 else 1 <<< (longest - n)).foldr (· + ·) 0

/-- Whether the words fill their space exactly. -/
def complete (longest : Nat) (lengths : List Nat) : Bool :=
  weight longest lengths == 1 <<< longest

/-- Walks down the levels bit by bit. `word` is the word read so far and `first` the first
word of the next level. -/
def decodeFrom : List (List Nat) → Nat → Nat → List Bool → Option (Nat × List Bool)
  | [], _, _, _ => none
  | _, _, _, [] => none
  | symbols :: levels, word, first, b :: bits =>
    let word := 2 * word + b.toNat
    match symbols[word - first]? with
    | some symbol => some (symbol, bits)
    | none => decodeFrom levels word (2 * (first + symbols.length)) bits

def decode (c : PrefixCode) (bits : List Bool) : Option (Nat × List Bool) :=
  decodeFrom c.levels 0 0 bits

end PrefixCode

end AdmissionCache

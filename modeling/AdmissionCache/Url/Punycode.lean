namespace AdmissionCache.Punycode

def digit (d : Nat) : Char :=
  if d < 26 then Char.ofNat (0x61 + d) else Char.ofNat (0x30 + (d - 26))

/-- The least value that ends a number at place `k`. -/
def threshold (k bias : Nat) : Nat :=
  if k ≤ bias then 1 else if bias + 26 ≤ k then 26 else k - bias

def halvings (delta k : Nat) : Nat × Nat :=
  if 455 < delta then halvings (delta / 35) (k + 36) else (delta, k)
termination_by delta
decreasing_by omega

/-- The bias after a number `delta` that was the first or a later one. -/
def adapt (delta count : Nat) (first : Bool) : Nat :=
  let scaled := if first then delta / 700 else delta / 2
  let (delta, k) := halvings (scaled + scaled / count) 0
  k + 36 * delta / (delta + 38)

/-- The digits of a number, lowest first; the first argument bounds their count. -/
def digits : Nat → Nat → Nat → Nat → List Char
  | 0, _, _, _ => []
  | fuel + 1, bias, k, n =>
    let t := threshold k bias
    if n < t then [digit n]
    else digit (t + (n - t) % (36 - t)) :: digits fuel bias (k + 36) ((n - t) / (36 - t))

structure State where
  out : List Char := []
  delta : Nat := 0
  bias : Nat := 72
  handled : Nat

/-- Passes one character of the label while the code point `n` is written. -/
def pass (basic n : Nat) (s : State) (c : Char) : State :=
  if c.toNat < n then { s with delta := s.delta + 1 }
  else if c.toNat = n then
    { out := s.out ++ digits (s.delta + 1) s.bias 36 s.delta
      delta := 0
      bias := adapt s.delta (s.handled + 1) (s.handled == basic)
      handled := s.handled + 1 }
  else s

/-- Writes the code points `points`, of which each occurs in the label; `next` is the
least that may still occur. -/
def passes (label : List Char) (basic : Nat) : List Nat → Nat → State → State
  | [], _, s => s
  | n :: rest, next, s =>
    let s := { s with delta := s.delta + (n - next) * (s.handled + 1) }
    let s := label.foldl (pass basic n) s
    passes label basic rest (n + 1) { s with delta := s.delta + 1 }

/-- The label written with ASCII letters and digits. The characters beyond ASCII are taken in the
order of their code points, and each is given by the number of places and code points passed over
since the one before. -/
def encode (label : List Char) : List Char :=
  let basic := label.filter (·.toNat < 128)
  let points := ((label.filter (128 ≤ ·.toNat)).map (·.toNat)).mergeSort.eraseDups
  (if basic.isEmpty then [] else basic ++ ['-']) ++
    (passes label basic.length points 128 { handled := basic.length }).out

def digitValue? (c : Char) : Option Nat :=
  if 'a' ≤ c && c ≤ 'z' then some (c.toNat - 0x61)
  else if '0' ≤ c && c ≤ '9' then some (c.toNat - 0x30 + 26)
  else none

/-- Reads a number and adds it, `weight` times its first digit and so on, to a sum. -/
def number? (bias : Nat) : List Char → Nat → Nat → Nat → Option (Nat × List Char)
  | [], _, _, _ => none
  | c :: rest, sum, weight, k => do
    let d ← digitValue? c
    let t := threshold k bias
    let sum := sum + d * weight
    if d < t then some (sum, rest) else number? bias rest sum (weight * (36 - t)) (k + 36)

/-- The character with a code point, if it is one. -/
def char? (n : Nat) : Option Char := if n.isValidChar then some (.ofNat n) else none

/-- Inserts the characters that the numbers in a text stand for; the first argument bounds
their count. -/
def insertions? : Nat → List Char → Nat → Nat → Nat → List Char → Option (List Char)
  | _, [], _, _, _, out => some out
  | 0, _ :: _, _, _, _, _ => none
  | fuel + 1, digits, position, n, bias, out => do
    let (sum, rest) ← number? bias digits position 1 36
    let count := out.length + 1
    let n := n + sum / count
    let place := sum % count
    let c ← char? n
    insertions? fuel rest (place + 1) n (adapt (sum - position) count (position == 0))
      (out.take place ++ c :: out.drop place)

/-- The label that a text stands for. -/
def decode? (text : List Char) : Option (List Char) :=
  let digits := (text.reverse.takeWhile (· ≠ '-')).reverse
  let basic := (text.take (text.length - digits.length)).dropLast
  insertions? digits.length digits 0 128 72 basic

end AdmissionCache.Punycode

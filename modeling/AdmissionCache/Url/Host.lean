import AdmissionCache.Url.Percent
import AdmissionCache.Url.Punycode

namespace AdmissionCache

inductive Host
  | name (text : String)
  | ipv4 (address : Nat)
  | ipv6 (pieces : List Nat)
  deriving DecidableEq, Repr

namespace Host

/-- Splits at every occurrence of a separator. -/
def splitAt (separator : Char → Bool) : List Char → List (List Char)
  | [] => [[]]
  | c :: rest =>
    if separator c then [] :: splitAt separator rest
    else
      match splitAt separator rest with
      | [] => [[c]]
      | part :: parts => (c :: part) :: parts

def digitValue? (base : Nat) (c : Char) : Option Nat :=
  let v :=
    if '0' ≤ c && c ≤ '9' then c.toNat - 0x30
    else if 'a' ≤ c && c ≤ 'f' then c.toNat - 0x61 + 10
    else if 'A' ≤ c && c ≤ 'F' then c.toNat - 0x41 + 10
    else base
  if v < base then some v else none

def number? (base : Nat) (cs : List Char) : Option Nat :=
  cs.foldl (fun acc c => do some ((← acc) * base + (← digitValue? base c))) (some 0)

/-- A part of a four-byte address: decimal, octal after a zero, or hexadecimal. -/
def addressPart? : List Char → Option Nat
  | [] => none
  | ['0'] => some 0
  | '0' :: 'x' :: rest => number? 16 rest
  | '0' :: 'X' :: rest => number? 16 rest
  | '0' :: rest => number? 8 rest
  | cs => number? 10 cs

/-- The parts of a name between dots; a dot at the end makes no part. -/
def dottedParts (cs : List Char) : List (List Char) :=
  let parts := splitAt (· = '.') cs
  if 1 < parts.length && parts.getLast? == some [] then parts.dropLast else parts

/-- Whether a name ends in a number, so that it has to be an address. -/
def endsInNumber (cs : List Char) : Bool :=
  match (dottedParts cs).getLast? with
  | some part =>
    (!part.isEmpty && part.all Char.isDigit) ||
      match part with
      | '0' :: x :: rest => (x == 'x' || x == 'X') && (number? 16 rest).isSome
      | _ => false
  | none => false

/-- A four-byte address in one to four parts, of which the last fills up the address. -/
def ipv4? (cs : List Char) : Option Nat := do
  let parts ← (dottedParts cs).mapM addressPart?
  let last ← parts.getLast?
  let front := parts.dropLast
  if 4 < parts.length || front.any (255 < ·) || 1 <<< (8 * (5 - parts.length)) ≤ last then none
  else some (last + (front.zipIdx.map fun (n, i) => n <<< (8 * (3 - i))).foldr (· + ·) 0)

/-- Up to four hexadecimal digits of one piece. -/
def piece? (cs : List Char) : Option Nat :=
  if cs.isEmpty || 4 < cs.length then none else number? 16 cs

/-- The two pieces of a four-byte address at the end. -/
def embedded? (cs : List Char) : Option (List Nat) := do
  let parts ← (splitAt (· = '.') cs).mapM fun part =>
    match part with
    | '0' :: _ :: _ => none
    | [] => none
    | _ => number? 10 part
  match parts with
  | [a, b, c, d] =>
    if parts.any (255 < ·) then none else some [a * 256 + b, c * 256 + d]
  | _ => none

/-- Pieces between colons; the last may be a four-byte address. -/
def pieces? : List (List Char) → Option (List Nat)
  | [] => some []
  | [part] => if part.contains '.' then embedded? part else (piece? part).map ([·])
  | part :: rest => do
    let n ← piece? part
    some (n :: (← pieces? rest))

/-- Splits at the first two colons in a row. -/
def atDoubleColon : List Char → Option (List Char × List Char)
  | ':' :: ':' :: rest => some ([], rest)
  | c :: rest => (atDoubleColon rest).map fun (a, b) => (c :: a, b)
  | [] => none

def half? (cs : List Char) : Option (List Nat) :=
  if cs.isEmpty then some [] else pieces? (splitAt (· = ':') cs)

/-- A sixteen-byte address; two colons in a row stand for zeros. -/
def ipv6? (cs : List Char) : Option (List Nat) := do
  match atDoubleColon cs with
  | none =>
    let pieces ← half? cs
    if pieces.length = 8 then some pieces else none
  | some (front, back) =>
    let a ← if front.contains '.' then none else half? front
    let b ← half? back
    if a.length + b.length < 8 then
      some (a ++ List.replicate (8 - a.length - b.length) 0 ++ b)
    else none

/-- Characters that no host contains as they are. -/
def forbidden (c : Char) : Bool :=
  c.toNat = 0 || c = '\t' || c = '\n' || c = '\r' || c = ' ' ||
    ['#', '/', ':', '<', '>', '?', '@', '[', '\\', ']', '^', '|'].contains c

def forbiddenInDomain (c : Char) : Bool :=
  forbidden c || c.toNat < 0x20 || c = '%' || c.toNat = 0x7f

/-- The small letter of a letter in the alphabets with cases, and the plain form of a
wide character. -/
def fold (c : Char) : List Char :=
  let n := c.toNat
  if 0x41 ≤ n && n ≤ 0x5a then [Char.ofNat (n + 32)]
  else if n < 0x80 then [c]
  else if n = 0xad || n = 0x200b || n = 0x2060 || n = 0xfeff then []
  else if n = 0x3002 || n = 0xff0e || n = 0xff61 then ['.']
  else if 0xc0 ≤ n && n ≤ 0xde && n ≠ 0xd7 then [Char.ofNat (n + 32)]
  else if 0x100 ≤ n && n ≤ 0x137 && n % 2 = 0 && n ≠ 0x130 then [Char.ofNat (n + 1)]
  else if 0x139 ≤ n && n ≤ 0x148 && n % 2 = 1 then [Char.ofNat (n + 1)]
  else if 0x14a ≤ n && n ≤ 0x177 && n % 2 = 0 then [Char.ofNat (n + 1)]
  else if 0x391 ≤ n && n ≤ 0x3a9 then [Char.ofNat (n + 32)]
  else if 0x410 ≤ n && n ≤ 0x42f then [Char.ofNat (n + 32)]
  else if 0x400 ≤ n && n ≤ 0x40f then [Char.ofNat (n + 80)]
  else if 0xff21 ≤ n && n ≤ 0xff3a then [Char.ofNat (n - 0xff21 + 0x61)]
  else if 0xff01 ≤ n && n ≤ 0xff5e then [Char.ofNat (n - 0xff01 + 0x21)]
  else [c]

/-- What a label in Punycode starts with. -/
def punycodeMark : List Char := ['x', 'n', '-', '-']

/-- Whether a character beyond ASCII may stand in a label, apart from its case. -/
def inLabel (c : Char) : Bool := c.toNat < 0x80 || 0xa0 < c.toNat

/-- Whether a text after the mark is the Punycode of a label that needs it. -/
def isPunycode (text : List Char) : Bool :=
  match Punycode.decode? text with
  | some label =>
    label.any (128 ≤ ·.toNat) && label.flatMap fold == label && label.all inLabel &&
      Punycode.encode label == text
  | none => false

/-- A label in ASCII. A label in Punycode has to be right. -/
def labelText? (label : List Char) : Option (List Char) :=
  if !label.all inLabel then none
  else if !label.all (·.toNat < 128) then some (punycodeMark ++ Punycode.encode label)
  else if punycodeMark.isPrefixOf label && !isPunycode (label.drop 4) then none
  else some label

/-- A domain in ASCII: small letters, and labels beyond ASCII in Punycode. -/
def domain? (bytes : List UInt8) : Option (List Char) := do
  let text ← String.fromUTF8? ⟨bytes.toArray⟩
  let folded := text.toList.flatMap fold
  if folded.any forbiddenInDomain then none
  else some (List.intercalate ['.'] (← (splitAt (· = '.') folded).mapM labelText?))

/-- The host of a URL. A special scheme wants a domain or an address, any other scheme
takes nearly every text. -/
def parse? (special : Bool) (cs : List Char) : Option Host :=
  match cs with
  | '[' :: rest =>
    if rest.getLast? = some ']' then (ipv6? rest.dropLast).map .ipv6 else none
  | _ =>
    if special then do
      let domain ← domain? (Percent.decode (String.ofList cs).toUTF8.toList)
      if domain.isEmpty then none
      else if endsInNumber domain then (ipv4? domain).map .ipv4
      else some (.name (String.ofList domain))
    else if cs.any forbidden then none
    else some (.name (String.ofList (Percent.encode (fun _ => false) cs)))

def hexText (n : Nat) : String := String.ofList (Nat.toDigits 16 n)

/-- The number of zeros at the front. -/
def zeros (pieces : List Nat) : Nat := (pieces.takeWhile (· = 0)).length

/-- Place and length of the longest run of at least two zeros, the first of the
longest. -/
def longestZeros (pieces : List Nat) : Option (Nat × Nat) :=
  let runs := (List.range pieces.length).map fun i => (i, zeros (pieces.drop i))
  runs.foldl (fun best run =>
    match best with
    | none => if 2 ≤ run.2 then some run else none
    | some b => if b.2 < run.2 then some run else some b) none

def colons (pieces : List Nat) : String := String.intercalate ":" (pieces.map hexText)

def renderPieces (pieces : List Nat) : String :=
  match longestZeros pieces with
  | none => colons pieces
  | some (start, length) =>
    colons (pieces.take start) ++ "::" ++ colons (pieces.drop (start + length))

def render : Host → String
  | .name text => text
  | .ipv4 n =>
    String.intercalate "." ([n >>> 24, n >>> 16 % 256, n / 256 % 256, n % 256].map toString)
  | .ipv6 pieces => "[" ++ renderPieces pieces ++ "]"

end Host

end AdmissionCache

import AdmissionCache.Json.Literal

namespace AdmissionCache

/-- A JSON text as written. A string is `none` if it is not Unicode text. -/
inductive Written
  | null
  | bool (value : Bool)
  | number (literal : NumberLiteral)
  | string (text : Option String)
  | array (items : List Written)
  | object (members : List (Option String × Written))
  deriving Repr

namespace Written

/-- One piece of a string: a byte as it stands or a 16-bit unit from an escape. -/
inductive Piece
  | byte (value : UInt8)
  | unit (value : Nat)
  deriving DecidableEq, Repr

def isBlank (b : UInt8) : Bool := b == 0x20 || b == 0x09 || b == 0x0a || b == 0x0d

def skipBlanks (s : List UInt8) : List UInt8 := s.dropWhile isBlank

def digit? (b : UInt8) : Option Nat :=
  if 0x30 ≤ b && b ≤ 0x39 then some (b.toNat - 0x30) else none

def isDigit (b : UInt8) : Bool := (digit? b).isSome

def hexDigit? (b : UInt8) : Option Nat :=
  if 0x30 ≤ b && b ≤ 0x39 then some (b.toNat - 0x30)
  else if 0x61 ≤ b && b ≤ 0x66 then some (b.toNat - 0x61 + 10)
  else if 0x41 ≤ b && b ≤ 0x46 then some (b.toNat - 0x41 + 10)
  else none

/-- The byte that a one-letter escape stands for. -/
def simpleEscape? (b : UInt8) : Option UInt8 :=
  if b == 0x22 || b == 0x5c || b == 0x2f then some b
  else if b == 0x62 then some 0x08
  else if b == 0x66 then some 0x0c
  else if b == 0x6e then some 0x0a
  else if b == 0x72 then some 0x0d
  else if b == 0x74 then some 0x09
  else none

/-- Reads the pieces of a string up to its closing quote, last piece first. -/
def pieces : List UInt8 → List Piece → Option (List Piece × List UInt8)
  | [], _ => none
  | 0x22 :: rest, acc => some (acc, rest)
  | 0x5c :: 0x75 :: a :: b :: c :: d :: rest, acc =>
    match hexDigit? a, hexDigit? b, hexDigit? c, hexDigit? d with
    | some a, some b, some c, some d =>
      pieces rest (.unit (((a * 16 + b) * 16 + c) * 16 + d) :: acc)
    | _, _, _, _ => none
  | 0x5c :: e :: rest, acc =>
    match simpleEscape? e with
    | some b => pieces rest (.byte b :: acc)
    | none => none
  | b :: rest, acc => if b < 0x20 then none else pieces rest (.byte b :: acc)

/-- The bytes that pieces stand for. Two units of a surrogate pair make one character;
a surrogate without its partner stands for nothing. -/
def pieceBytes : List Piece → Option (List UInt8)
  | [] => some []
  | .byte b :: rest => (pieceBytes rest).map (b :: ·)
  | .unit n :: rest =>
    if 0xd800 ≤ n && n < 0xdc00 then
      match rest with
      | .unit m :: rest' =>
        if 0xdc00 ≤ m && m < 0xe000 then
          let c := Char.ofNat (0x10000 + (n - 0xd800) * 0x400 + (m - 0xdc00))
          (pieceBytes rest').map (String.utf8EncodeChar c ++ ·)
        else none
      | _ => none
    else if 0xdc00 ≤ n && n < 0xe000 then none
    else (pieceBytes rest).map (String.utf8EncodeChar (Char.ofNat n) ++ ·)

/-- The text of pieces, if they are Unicode text. -/
def pieceText (ps : List Piece) : Option String :=
  (pieceBytes ps).bind fun bytes => String.fromUTF8? ⟨bytes.toArray⟩

/-- Reads a string whose opening quote has been read. -/
def text? (s : List UInt8) : Option (Option String × List UInt8) :=
  (pieces s []).map fun (ps, rest) => (pieceText ps.reverse, rest)

/-- Reads one or more decimal digits. -/
def digits? (s : List UInt8) : Option (List Nat × List UInt8) :=
  let ds := s.takeWhile isDigit
  if ds.isEmpty then none else some (ds.filterMap digit?, s.dropWhile isDigit)

/-- Reads the digits in front of the point; a leading zero stands alone. -/
def whole? (s : List UInt8) : Option (List Nat × List UInt8) := do
  let (ds, rest) ← digits? s
  if ds.head? = some 0 ∧ 1 < ds.length then none else some (ds, rest)

def fraction? : List UInt8 → Option (List Nat × List UInt8)
  | 0x2e :: rest => digits? rest
  | s => some ([], s)

def exponent? (s : List UInt8) : Option (Option Int × List UInt8) :=
  let signed (negative : Bool) (s : List UInt8) : Option (Option Int × List UInt8) := do
    let (ds, rest) ← digits? s
    let n : Nat := ds.foldl (fun acc d => acc * 10 + d) 0
    some (some (if negative then -(n : Int) else n), rest)
  match s with
  | e :: rest =>
    if e == 0x65 || e == 0x45 then
      match rest with
      | 0x2b :: rest => signed false rest
      | 0x2d :: rest => signed true rest
      | rest => signed false rest
    else some (none, s)
  | [] => some (none, [])

def number? (s : List UInt8) : Option (NumberLiteral × List UInt8) := do
  let (negative, s) :=
    match s with
    | 0x2d :: rest => (true, rest)
    | s => (false, s)
  let (whole, s) ← whole? s
  let (fraction, s) ← fraction? s
  let (exponent, s) ← exponent? s
  some (⟨negative, whole, fraction, exponent⟩, s)

mutual

/-- Reads one value; the first argument bounds the depth of the calls. -/
def value? : Nat → List UInt8 → Option (Written × List UInt8)
  | 0, _ => none
  | fuel + 1, s =>
    match skipBlanks s with
    | 0x6e :: 0x75 :: 0x6c :: 0x6c :: rest => some (.null, rest)
    | 0x74 :: 0x72 :: 0x75 :: 0x65 :: rest => some (.bool true, rest)
    | 0x66 :: 0x61 :: 0x6c :: 0x73 :: 0x65 :: rest => some (.bool false, rest)
    | 0x22 :: rest => (text? rest).map fun (t, rest) => (.string t, rest)
    | 0x5b :: rest =>
      match skipBlanks rest with
      | 0x5d :: rest => some (.array [], rest)
      | rest => (items? fuel rest).map fun (items, rest) => (.array items, rest)
    | 0x7b :: rest =>
      match skipBlanks rest with
      | 0x7d :: rest => some (.object [], rest)
      | rest => (members? fuel rest).map fun (members, rest) => (.object members, rest)
    | s => (number? s).map fun (l, rest) => (.number l, rest)

/-- Reads the items of an array up to its closing bracket. -/
def items? : Nat → List UInt8 → Option (List Written × List UInt8)
  | 0, _ => none
  | fuel + 1, s => do
    let (item, rest) ← value? fuel s
    match skipBlanks rest with
    | 0x2c :: rest => (items? fuel rest).map fun (items, rest) => (item :: items, rest)
    | 0x5d :: rest => some ([item], rest)
    | _ => none

/-- Reads the members of an object up to its closing brace. -/
def members? : Nat → List UInt8 → Option (List (Option String × Written) × List UInt8)
  | 0, _ => none
  | fuel + 1, s =>
    match skipBlanks s with
    | 0x22 :: rest => do
      let (key, rest) ← text? rest
      match skipBlanks rest with
      | 0x3a :: rest => do
        let (value, rest) ← value? fuel rest
        match skipBlanks rest with
        | 0x2c :: rest =>
          (members? fuel rest).map fun (members, rest) => ((key, value) :: members, rest)
        | 0x7d :: rest => some ([(key, value)], rest)
        | _ => none
      | _ => none
    | _ => none

end

/-- Reads a whole document; only blanks may follow the value. -/
def ofBytes? (bytes : List UInt8) : Option Written := do
  let (value, rest) ← value? (2 * bytes.length + 2) bytes
  if (skipBlanks rest).isEmpty then some value else none

/-- Arrays and objects may be nested less deep than this. -/
def depthBound : Nat := 128

mutual

/-- The value of a text that lies inside `depth` arrays and objects, where at most
`bound` may be nested. -/
def meaning (bound : Nat) : Nat → Written → Option Json
  | _, .null => some .null
  | _, .bool b => some (.bool b)
  | _, .number l => l.meaning.map .number
  | _, .string t => t.map .string
  | depth, .array items =>
    if depth + 1 < bound then (meaningItems bound (depth + 1) items).map .array else none
  | depth, .object members =>
    if depth + 1 < bound then (meaningMembers bound (depth + 1) members).map .ofMembers else none

def meaningItems (bound : Nat) : Nat → List Written → Option (List Json)
  | _, [] => some []
  | depth, item :: rest => do
    let value ← meaning bound depth item
    let values ← meaningItems bound depth rest
    some (value :: values)

def meaningMembers (bound : Nat) :
    Nat → List (Option String × Written) → Option (List (String × Json))
  | _, [] => some []
  | depth, (key, item) :: rest => do
    let key ← key
    let value ← meaning bound depth item
    let values ← meaningMembers bound depth rest
    some ((key, value) :: values)

end

end Written

/-- The value of a JSON document. -/
def Json.ofBytes? (bytes : List UInt8) : Option Json :=
  (Written.ofBytes? bytes).bind (Written.meaning Written.depthBound 0)

end AdmissionCache

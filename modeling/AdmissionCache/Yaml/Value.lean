import AdmissionCache.Numeric.Shortest
import AdmissionCache.Record
import AdmissionCache.Yaml.Node

namespace AdmissionCache.Yaml

namespace Plain

def isNull (s : String) : Bool := ["null", "Null", "NULL", "~"].contains s

def bool? (s : String) : Option Bool :=
  if ["true", "True", "TRUE"].contains s then some true
  else if ["false", "False", "FALSE"].contains s then some false
  else none

/-- The number that digits of a base below 37 write. -/
def digits? (base : Nat) (cs : List Char) : Option Nat :=
  if cs.isEmpty then none
  else cs.foldl (fun acc c => do
    let d ← Quoted.hexValue? c
    if d < base then some ((← acc) * base + d) else none) (some 0)

/-- Digits after a leading zero, which are text. -/
def paddedDigits (cs : List Char) : Bool :=
  let cs := match cs with
    | '-' :: rest => rest
    | '+' :: rest => rest
    | _ => cs
  1 < cs.length && cs.head? == some '0' && cs.all Char.isDigit

/-- The number after the mark of its base. -/
def marked? : List Char → Option Nat
  | '0' :: 'x' :: rest => digits? 16 rest
  | '0' :: 'o' :: rest => digits? 8 rest
  | '0' :: 'b' :: rest => digits? 2 rest
  | _ => none

/-- A number without a minus sign. -/
def natural? (cs : List Char) : Option Nat :=
  let unsigned := match cs with
    | '+' :: rest => rest
    | _ => cs
  match marked? unsigned with
  | some n => some n
  | none => if paddedDigits cs then none else digits? 10 unsigned

/-- A number with a minus sign. -/
def negative? : List Char → Option Nat
  | '-' :: rest =>
    match marked? rest with
    | some n => some n
    | none => if paddedDigits rest then none else digits? 10 rest
  | _ => none

/-- A decimal number with optional point and exponent. -/
def decimal? (cs : List Char) : Option Decimal := do
  let whole := cs.takeWhile Char.isDigit
  let rest := cs.dropWhile Char.isDigit
  let (fraction, rest) :=
    match rest with
    | '.' :: rest => (rest.takeWhile Char.isDigit, rest.dropWhile Char.isDigit)
    | _ => ([], rest)
  if whole.isEmpty && fraction.isEmpty then none
  else
    let exponent ← match rest with
      | [] => some (0 : Int)
      | e :: rest =>
        if e ≠ 'e' && e ≠ 'E' then none
        else
          match rest with
          | '-' :: rest => (digits? 10 rest).map fun n => -(n : Int)
          | '+' :: rest => (digits? 10 rest).map fun n => (n : Int)
          | rest => (digits? 10 rest).map fun n => (n : Int)
    let significand := (digits? 10 (whole ++ fraction)).getD 0
    some ⟨significand, exponent - fraction.length⟩

/-- The number nearest to a decimal; far exponents are decided without computing the
power. -/
def nearest (negative : Bool) (d : Decimal) : Binary64 :=
  let size : Int := (Nat.toDigits 10 d.digits).length + d.exponent
  if d.digits = 0 || size < -400 then .zero negative
  else if 400 < size then .infinite negative
  else d.toBinary64 negative

/-- A fraction, an infinity, or no number. A decimal beyond binary64 is none of these. -/
def fraction? (s : String) : Option Binary64 :=
  let cs := s.toList
  let unsigned := match cs with
    | '+' :: rest => rest
    | _ => cs
  if [".inf", ".Inf", ".INF"].contains (String.ofList unsigned) then some (.infinite false)
  else if ["-.inf", "-.Inf", "-.INF"].contains s then some (.infinite true)
  else if [".nan", ".NaN", ".NAN"].contains s then some .nan
  else
    let (negative, magnitude) :=
      match cs with
      | '+' :: rest => (false, rest)
      | '-' :: rest => (true, rest)
      | _ => (false, cs)
    match decimal? magnitude with
    | some d =>
      let x := nearest negative d
      if x.isFinite then some x else none
    | none => none

end Plain

/-- A value. Scalars that are no text have their meaning. -/
inductive Value
  | null
  | bool (value : Bool)
  | integer (value : Int)
  | fraction (value : Binary64)
  | text (value : String)
  | items (values : List Value)
  | members (values : List (Value × Value))
  deriving Repr

namespace Value

/-- The integer that a plain scalar stands for. One that 64 bits cannot hold, but 128
can, is refused. -/
def ofInteger? (cs : List Char) : Option (Option Value) :=
  match Plain.natural? cs with
  | some n =>
    if n < 1 <<< 64 then some (some (.integer n)) else if n < 1 <<< 128 then some none else none
  | none =>
    match Plain.negative? cs with
    | some n =>
      if n ≤ 1 <<< 63 then some (some (.integer (-(n : Int))))
      else if n ≤ 1 <<< 127 then some none
      else none
    | none => none

/-- The value of a plain scalar without a tag. -/
def ofPlain (s : String) : Option Value :=
  if s.isEmpty || Plain.isNull s then some .null
  else
    match Plain.bool? s with
    | some b => some (.bool b)
    | none =>
      match ofInteger? s.toList with
      | some v => v
      | none =>
        match (if Plain.paddedDigits s.toList then none else Plain.fraction? s) with
        | some x => some (.fraction x)
        | none => some (.text s)

def coreTag (name : String) : String := "tag:yaml.org,2002:" ++ name

/-- The value of a scalar. A tag of the core types wants a scalar of that type, and a
local tag is refused. -/
def ofScalar (tag : Option String) (style : ScalarStyle) (s : String) : Option Value :=
  match tag with
  | none => if style = .plain then ofPlain s else some (.text s)
  | some tag =>
    if tag.startsWith "!" then none
    else if tag = coreTag "bool" then (Plain.bool? s).map .bool
    else if tag = coreTag "int" then (ofInteger? s.toList).join
    else if tag = coreTag "float" then (Plain.fraction? s).map .fraction
    else if tag = coreTag "null" then if Plain.isNull s then some .null else none
    else some (.text s)

/-- Collections may be nested this deep. -/
def depthBound : Nat := 128

def isLocal (tag : Option String) : Bool := tag.any (·.startsWith "!")

mutual

/-- The value of a node inside `depth` collections. `follows` is how often an alias may
still be followed; the rest of it is given back. -/
def ofNode (depth follows : Nat) : Node → Option (Value × Nat)
  | .scalar tag style s => (ofScalar tag style s).map (·, follows)
  | .sequence tag nodes =>
    if isLocal tag || depthBound ≤ depth then none
    else (ofItems (depth + 1) follows nodes).map fun (values, n) => (.items values, n)
  | .mapping tag pairs =>
    if isLocal tag || depthBound ≤ depth then none
    else (ofMembers (depth + 1) follows pairs).map fun (values, n) => (.members values, n)
  | .alias target =>
    match follows with
    | 0 => none
    | follows + 1 => ofNode depth follows target
  | .loop => none

def ofItems (depth follows : Nat) : List Node → Option (List Value × Nat)
  | [] => some ([], follows)
  | item :: rest => do
    let (value, follows) ← ofNode depth follows item
    let (values, follows) ← ofItems depth follows rest
    some (value :: values, follows)

def ofMembers (depth follows : Nat) : List (Node × Node) → Option (List (Value × Value) × Nat)
  | [] => some ([], follows)
  | (k, v) :: rest => do
    let (key, follows) ← ofNode depth follows k
    let (value, follows) ← ofNode depth follows v
    let (values, follows) ← ofMembers depth follows rest
    some ((key, value) :: values, follows)

end

/-- How a key names a member. -/
def memberName : Value → MemberName
  | .text s => .text s
  | .integer (.ofNat n) => .position n
  | _ => .nameless

def view : Value → View Value
  | .null => .null
  | .bool b => .bool b
  | .integer i => .integer i
  | .fraction x => .fraction x
  | .text s => .text s
  | .items values => .items values
  | .members values => .members (values.map fun m => (m.1.memberName, m.2))

end Value

instance : Readable Value where
  view v := .ok v.view

end AdmissionCache.Yaml

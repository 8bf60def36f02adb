import AdmissionCache.Text.Blank

namespace AdmissionCache.LogFilter

/-- Punctuation and symbols beyond ASCII, which start no directive. -/
def isSymbol (n : Nat) : Bool :=
  n < 0xaa || 0xab ≤ n && n ≤ 0xb1 || n = 0xb4 || 0xb6 ≤ n && n ≤ 0xb8 || n = 0xbb || n = 0xbf ||
    n = 0xd7 || n = 0xf7 || 0x2000 ≤ n && n ≤ 0x206f || 0x20a0 ≤ n && n ≤ 0x20cf ||
    0x2190 ≤ n && n ≤ 0x245f || 0x2500 ≤ n && n ≤ 0x2775 || 0x2794 ≤ n && n ≤ 0x2bff ||
    0x3000 ≤ n && n ≤ 0x3004 || 0x3008 ≤ n && n ≤ 0x3020 || 0xe000 ≤ n && n ≤ 0xf8ff ||
    0xfe00 ≤ n && n ≤ 0xfe6f || 0xff01 ≤ n && n ≤ 0xff0f || 0x1f000 ≤ n && n ≤ 0x1f12f ||
    0x1f18a ≤ n && n ≤ 0x1fbef

def isAlphanumeric (c : Char) : Bool :=
  if c.toNat < 0x80 then c.isAlphanum else !isSymbol c.toNat

def startsDirective (c : Char) : Bool := c = '-' || c = ':' || c = '_' || isAlphanumeric c

def levelNames : List String := ["error", "warn", "info", "debug", "trace", "off"]

/-- A number from zero to five, with or without a plus sign. -/
def isLevelNumber (cs : List Char) : Bool :=
  let digits := match cs with
    | '+' :: rest => rest
    | _ => cs
  !digits.isEmpty && digits.all Char.isDigit &&
    digits.foldl (fun acc d => acc * 10 + (d.toNat - 0x30)) 0 ≤ 5

def isLevel (cs : List Char) : Bool :=
  cs.isEmpty || isLevelNumber cs || levelNames.contains (String.ofList cs).toLower

/-- Where in a directive the reading is. A level carries the place of its first
character. -/
inductive Part
  | start
  | levelOrTarget
  | span
  | field (empty : Bool)
  | fields
  | target
  | level (place : Nat)
  deriving DecidableEq, Repr

/-- Reads one character, which stands at `place`. -/
def Part.next? (p : Part) (place : Nat) (c : Char) : Option Part :=
  match p with
  | .start => if c = '[' then some .span else if startsDirective c then some .levelOrTarget else none
  | .levelOrTarget =>
    if c = '=' then some (.level (place + 1)) else if c = '[' then some .span else some .levelOrTarget
  | .span => if c = ']' then some .target else if c = '\x7b' then some (.field true) else some .span
  | .field empty =>
    if c = '\x7d' then if empty then none else some .fields else some (.field false)
  | .fields => if c = ']' then some .target else none
  | .target => if c = '=' then some (.level (place + 1)) else none
  | .level first => some (.level first)

def read? : Part → Nat → List Char → Option Part
  | p, _, [] => some p
  | p, place, c :: rest => do read? (← p.next? place c) (place + 1) rest

/-- Whether a directive is well formed. Blanks around it do not count, but the level is
looked up in the directive as it stands, blanks included. -/
def validDirective (cs : List Char) : Bool :=
  let trimmed := (Text.trim (String.ofList cs)).toList
  match read? .start 0 trimmed with
  | some .levelOrTarget => true
  | some .target => true
  | some (.level place) => isLevel (cs.drop place)
  | _ => false

def directives : List Char → List (List Char)
  | [] => [[]]
  | c :: rest =>
    if c = ',' then [] :: directives rest
    else
      match directives rest with
      | [] => [[c]]
      | d :: ds => (c :: d) :: ds

/-- Whether a filter is well formed. The empty one is. -/
def isValid (filter : String) : Bool :=
  filter.isEmpty || (directives filter.toList).all validDirective

end AdmissionCache.LogFilter

import AdmissionCache.Yaml.Scalar

namespace AdmissionCache.Yaml

/-- A token of a YAML text. Block structure shows in tokens of its own, which follow from the
columns; a key in front of a colon is announced by a token before it. -/
inductive Token
  | versionDirective (major minor : Nat)
  | tagDirective (handle start : String)
  | documentStart
  | documentEnd
  | blockSequenceStart
  | blockMappingStart
  | blockEnd
  | flowSequenceStart
  | flowSequenceEnd
  | flowMappingStart
  | flowMappingEnd
  | blockEntry
  | flowEntry
  | key
  | value
  | alias (name : String)
  | anchor (name : String)
  | tag (handle suffix : String)
  | scalar (style : ScalarStyle) (text : String)
  | streamEnd
  deriving DecidableEq, Repr

/-- A place at which a key may have started: where its token would go, and whether only a
key can stand there. -/
structure KeyPlace where
  tokens : Nat
  line : Nat
  column : Nat
  index : Nat
  required : Bool

/-- A scan under way. `margins` are the columns of the open blocks, innermost first, and
`places` holds one entry for every open flow collection and one for the blocks. Tokens
are kept latest first. -/
structure Scan where
  cursor : Cursor
  tokens : List Token := []
  margins : List Nat := []
  places : List (Option KeyPlace) := [none]
  keyAllowed : Bool := true

namespace Scan

def inFlow (s : Scan) : Bool := 1 < s.places.length

/-- The column from which on a line belongs to the innermost block. -/
def margin (s : Scan) : Nat :=
  match s.margins with
  | [] => 0
  | column :: _ => column + 1

def push (s : Scan) (t : Token) : Scan := { s with tokens := t :: s.tokens }

/-- Puts a token after the first `count` tokens. -/
def insert (s : Scan) (count : Nat) (t : Token) : Scan :=
  let later := s.tokens.length - count
  { s with tokens := s.tokens.take later ++ t :: s.tokens.drop later }

/-- Closes the blocks right of a column. -/
def closeBlocks (column : Nat) : List Nat → List Token → List Nat × List Token
  | [], tokens => ([], tokens)
  | m :: margins, tokens =>
    if column < m then closeBlocks column margins (.blockEnd :: tokens) else (m :: margins, tokens)

def unroll (s : Scan) (column : Nat) : Scan :=
  if s.inFlow then s
  else
    let (margins, tokens) := closeBlocks column s.margins s.tokens
    { s with margins, tokens }

def unrollAll (s : Scan) : Scan :=
  if s.inFlow then s
  else { s with margins := [], tokens := s.margins.map (fun _ => .blockEnd) ++ s.tokens }

/-- Opens a block at a column, unless one is open there; its token goes after the first
`count` tokens. -/
def roll (s : Scan) (column count : Nat) (t : Token) : Scan :=
  if s.inFlow || column < s.margin then s
  else { s.insert count t with margins := column :: s.margins }

/-- Gives up the place of a key. That is a fault if only a key can stand there. -/
def dropPlace (s : Scan) : Option Scan :=
  match s.places with
  | some place :: places => if place.required then none else some { s with places := none :: places }
  | _ => some s

/-- Remembers that a key may start here. -/
def savePlace (s : Scan) : Option Scan :=
  if s.keyAllowed then do
    let s ← s.dropPlace
    let c := s.cursor
    let required := !s.inFlow && s.margins.head? == some c.column
    some { s with places := some ⟨s.tokens.length, c.line, c.column, c.index, required⟩ :: s.places.drop 1 }
  else some s

/-- The place of the key that a colon here belongs to. A key lies in one line and has at
most 1024 characters; it is a fault if an older place could only hold a key. -/
def keyPlace (s : Scan) : Option (Option KeyPlace) :=
  match s.places with
  | some place :: _ =>
    if place.line < s.cursor.line || place.index + 1024 < s.cursor.index then
      if place.required then none else some none
    else some (some place)
  | _ => some none

/-- Passes blanks, comments and line ends. A tab may not stand where a block could
start. The first argument bounds the number of lines. -/
def skipBlanks : Nat → Scan → Scan
  | 0, s => s
  | fuel + 1, s =>
    let c := s.cursor.skipWhile fun b => b = ' ' || (s.inFlow || !s.keyAllowed) && b = '\t'
    let c := c.skipComment
    if c.head?.any isBreak then
      skipBlanks fuel { s with cursor := c.newline.2, keyAllowed := s.keyAllowed || !s.inFlow }
    else { s with cursor := c }

/-- One to nine digits. -/
def versionNumber? (c : Cursor) : Option (Nat × Cursor) :=
  let (digits, c) := c.span Char.isDigit
  if digits.isEmpty || 9 < digits.length then none
  else some (digits.foldl (fun acc d => acc * 10 + (d.toNat - 0x30)) 0, c)

/-- Decodes the percent escapes of a tag. -/
def unescape : List Char → Option (List UInt8)
  | [] => some []
  | '%' :: a :: b :: rest => do
    let x ← Quoted.hexValue? a
    let y ← Quoted.hexValue? b
    some (UInt8.ofNat (x * 16 + y) :: (← unescape rest))
  | '%' :: _ => none
  | c :: rest => (unescape rest).map (String.utf8EncodeChar c ++ ·)

def inUri (verbatim : Bool) (c : Char) : Bool :=
  isWord c || [';', '/', '?', ':', '@', '&', '=', '+', '$', '.', '%', '!', '~', '*', '\'', '(', ')'].contains c ||
    verbatim && [',', '[', ']'].contains c

/-- A piece of a tag; `start` goes in front. -/
def uri? (verbatim : Bool) (start : List Char) (c : Cursor) : Option (String × Cursor) := do
  let (cs, c) := c.span (inUri verbatim)
  let text ← String.fromUTF8? ⟨(← unescape cs).toArray⟩
  some (String.ofList start ++ text, c)

/-- The handle of a tag: an exclamation mark, or a name between two. -/
def handle? (c : Cursor) : Option (List Char × Cursor) :=
  if c.at? '!' then
    let (name, after) := (c.skip 1).span isWord
    if after.at? '!' then some ('!' :: name ++ ['!'], after.skip 1) else some ('!' :: name, after)
  else none

/-- Reads a directive after its percent sign. -/
def directive? (c : Cursor) : Option (Token × Cursor) := do
  let (name, c) := c.span isWord
  if name.isEmpty || !blankAhead c.rest then none
  else
    let c := c.skipWhile isBlank
    let (token, c) ←
      if name = "YAML".toList then do
        let (major, c) ← versionNumber? c
        if !c.at? '.' then none
        else
          let (minor, c) ← versionNumber? (c.skip 1)
          some (Token.versionDirective major minor, c)
      else if name = "TAG".toList then do
        let (handle, c) ← handle? c
        if handle.length ≠ 1 && handle.getLast? ≠ some '!' || !c.head?.any isBlank then none
        else
          let (start, c) ← uri? true [] (c.skipWhile isBlank)
          if start.isEmpty || !blankAhead c.rest then none
          else some (Token.tagDirective (String.ofList handle) start, c)
      else none
    let c := (c.skipWhile isBlank).skipComment
    if c.rest.isEmpty || c.head?.any isBreak then some (token, c.newline.2) else none

def tag? (inFlow : Bool) (c : Cursor) : Option (Token × Cursor) := do
  let (token, c) ←
    match c.rest with
    | '!' :: '<' :: _ => do
      let (suffix, c) ← uri? true [] (c.skip 2)
      if suffix.isEmpty || !c.at? '>' then none else some (Token.tag "" suffix, c.skip 1)
    | _ => do
      let (handle, c) ← handle? c
      if 1 < handle.length && handle.getLast? = some '!' then
        let (suffix, c) ← uri? false [] c
        if suffix.isEmpty then none else some (Token.tag (String.ofList handle) suffix, c)
      else
        let (suffix, c) ← uri? false (handle.drop 1) c
        some (if suffix.isEmpty then Token.tag "" "!" else Token.tag "!" suffix, c)
  if blankAhead c.rest || inFlow && c.at? ',' then some (token, c) else none

/-- The name of an anchor or alias. -/
def anchorName? (c : Cursor) : Option (String × Cursor) :=
  let (name, c) := c.span isWord
  let ends := blankAhead c.rest || c.head?.any ['?', ':', ',', ']', '\x7d', '%', '@', '\x60'].contains
  if name.isEmpty || !ends then none else some (String.ofList name, c)

/-- Adds a token of `n` characters that starts no key. -/
def mark (s : Scan) (n : Nat) (t : Token) (keyAllowed : Bool) : Option Scan := do
  let s ← s.dropPlace
  some { s.push t with cursor := s.cursor.skip n, keyAllowed }

/-- Adds a token that may start a key. -/
def node (s : Scan) (read : Cursor → Option (Token × Cursor)) : Option Scan := do
  let s ← s.savePlace
  let (t, cursor) ← read s.cursor
  some { s.push t with cursor, keyAllowed := false }

def blockEntry (s : Scan) : Option Scan :=
  if s.inFlow then s.mark 1 .blockEntry true
  else if s.keyAllowed then
    (s.roll s.cursor.column s.tokens.length .blockSequenceStart).mark 1 .blockEntry true
  else none

def complexKey (s : Scan) : Option Scan :=
  if s.inFlow then s.mark 1 .key false
  else if s.keyAllowed then
    (s.roll s.cursor.column s.tokens.length .blockMappingStart).mark 1 .key true
  else none

/-- A colon: announces its key, or stands alone. -/
def colon (s : Scan) : Option Scan := do
  match ← s.keyPlace with
  | some place =>
    let s := s.insert place.tokens .key
    let s := s.roll place.column place.tokens .blockMappingStart
    some { s.push .value with
      cursor := s.cursor.skip 1, places := none :: s.places.drop 1, keyAllowed := false }
  | none =>
    if s.inFlow then some { s.push .value with cursor := s.cursor.skip 1, keyAllowed := false }
    else if s.keyAllowed then
      let s := s.roll s.cursor.column s.tokens.length .blockMappingStart
      some { s.push .value with cursor := s.cursor.skip 1, keyAllowed := true }
    else none

def flowStart (s : Scan) (t : Token) : Option Scan := do
  let s ← s.savePlace
  some { s.push t with cursor := s.cursor.skip 1, places := none :: s.places, keyAllowed := true }

def flowEnd (s : Scan) (t : Token) : Option Scan := do
  let s ← s.dropPlace
  let places := if s.inFlow then s.places.drop 1 else s.places
  some { s.push t with cursor := s.cursor.skip 1, places, keyAllowed := false }

def plain (s : Scan) : Option Scan := do
  let s ← s.savePlace
  let (text, broken, cursor) ← Plain.read? s.inFlow s.margin s.cursor
  some { s.push (.scalar .plain (String.ofList text)) with cursor, keyAllowed := broken }

def quoted (s : Scan) (single : Bool) : Option Scan :=
  s.node fun c => (Quoted.read? single (c.skip 1)).map fun (text, c) =>
    (.scalar .quoted (String.ofList text), c)

def block (s : Scan) (literal : Bool) : Option Scan := do
  let s ← s.dropPlace
  let (text, cursor) ← Block.read? literal s.margin (s.cursor.skip 1)
  let style := if literal then ScalarStyle.literal else .quoted
  some { s.push (.scalar style (String.ofList text)) with cursor, keyAllowed := true }

/-- Characters that start no plain scalar, whatever follows. -/
def indicators : List Char :=
  ['-', '?', ':', ',', '[', ']', '\x7b', '\x7d', '#', '&', '*', '!', '|', '>', '\'', '"', '%', '@', '\x60']

/-- Whether a plain scalar may start here. -/
def startsPlain (inFlow : Bool) : List Char → Bool
  | [] => false
  | c :: rest =>
    !(isBlank c || isBreak c || indicators.contains c) ||
      c = '-' && !rest.head?.any isBlank ||
      !inFlow && (c = '?' || c = ':') && !blankAhead rest

/-- Adds the next token at the cursor, which is at no blank and not at the end. -/
def next (s : Scan) : Option Scan :=
  let c := s.cursor
  match c.rest with
  | [] => none
  | b :: rest =>
    if c.column = 0 && b = '%' then do
      let s ← s.unrollAll.dropPlace
      let (t, cursor) ← directive? (c.skip 1)
      some { s.push t with cursor, keyAllowed := false }
    else if c.documentMark then
      s.unrollAll.mark 3 (if b = '-' then .documentStart else .documentEnd) false
    else if b = '[' then s.flowStart .flowSequenceStart
    else if b = '\x7b' then s.flowStart .flowMappingStart
    else if b = ']' then s.flowEnd .flowSequenceEnd
    else if b = '\x7d' then s.flowEnd .flowMappingEnd
    else if b = ',' then s.mark 1 .flowEntry true
    else if b = '-' && blankAhead rest then s.blockEntry
    else if b = '?' && (s.inFlow || blankAhead rest) then s.complexKey
    else if b = ':' && (s.inFlow || blankAhead rest) then s.colon
    else if b = '*' then
      s.node fun c => (anchorName? (c.skip 1)).map fun (name, c) => (.alias name, c)
    else if b = '&' then
      s.node fun c => (anchorName? (c.skip 1)).map fun (name, c) => (.anchor name, c)
    else if b = '!' then s.node (tag? s.inFlow)
    else if b = '|' && !s.inFlow then s.block true
    else if b = '>' && !s.inFlow then s.block false
    else if b = '\'' then s.quoted true
    else if b = '"' then s.quoted false
    else if startsPlain s.inFlow c.rest then s.plain
    else none

def finish (s : Scan) : Option Scan := do
  let s ← s.unrollAll.dropPlace
  some (s.push .streamEnd)

/-- Scans to the end of the text, or up to the first fault. The first argument bounds the
number of tokens. -/
def run : Nat → Scan → Scan
  | 0, s => s
  | fuel + 1, s =>
    let s := skipBlanks (s.cursor.rest.length + 1) s
    let s := s.unroll s.cursor.column
    if s.cursor.rest.isEmpty then s.finish.getD s
    else
      match s.next with
      | some s => run fuel s
      | none => s

end Scan

/-- The tokens of a text. A text without fault ends with `streamEnd`; otherwise the
tokens before the fault are given. -/
def Token.ofText (text : String) : List Token :=
  let cs := text.toList
  let cs := if cs.head? = some '\ufeff' then cs.drop 1 else cs
  if cs.all isAllowed then ((Scan.run (cs.length + 1) { cursor := { rest := cs } }).tokens).reverse
  else []

end AdmissionCache.Yaml

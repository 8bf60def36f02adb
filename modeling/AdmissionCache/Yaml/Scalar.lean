import AdmissionCache.Yaml.Cursor

namespace AdmissionCache.Yaml

/-- How a scalar is written, as far as it matters to its meaning. -/
inductive ScalarStyle
  | plain
  | literal
  | quoted
  deriving DecidableEq, Repr

/-- The blanks and line ends between two words. -/
structure Gap where
  blanks : List Char := []
  first : List Char := []
  more : List Char := []
  broken : Bool := false

namespace Gap

/-- What a gap contributes to the scalar: one line end folds into a space, and further
line ends stay. -/
def text (g : Gap) : List Char :=
  if !g.broken then g.blanks
  else if g.first = ['\n'] then if g.more.isEmpty then [' '] else g.more
  else g.first ++ g.more

/-- Reads a gap. After a line end, a tab before the column `margin` is a fault. The
second argument bounds the number of steps. -/
def read? (margin : Nat) : Nat → Gap → Cursor → Option (Gap × Cursor)
  | 0, g, c => some (g, c)
  | fuel + 1, g, c =>
    match c.head? with
    | none => some (g, c)
    | some b =>
      if isBlank b then
        if g.broken then
          if b = '\t' && c.column < margin then none else read? margin fuel g (c.skip 1)
        else read? margin fuel { g with blanks := g.blanks ++ [b] } (c.skip 1)
      else if isBreak b then
        let (text, c) := c.newline
        if g.broken then read? margin fuel { g with more := g.more ++ text } c
        else read? margin fuel { g with blanks := [], first := text, broken := true } c
      else some (g, c)

end Gap

namespace Plain

def flowIndicators : List Char := [',', '[', ']', '\x7b', '\x7d']

/-- The characters up to a blank, a line end or an indicator that ends a plain scalar. In
a flow collection a colon must not stand before an indicator. -/
def word? (inFlow : Bool) : List Char → Option (List Char)
  | [] => some []
  | c :: rest =>
    if isBlank c || isBreak c then some []
    else if inFlow && c = ':' && rest.head?.any ('?' :: flowIndicators).contains then none
    else if c = ':' && blankAhead rest then some []
    else if inFlow && flowIndicators.contains c then some []
    else (word? inFlow rest).map (c :: ·)

/-- Reads words and gaps; `gap` is the one after the last word. Gives the scalar and
whether a line end follows it. -/
def words? (inFlow : Bool) (margin : Nat) :
    Nat → List Char → Gap → Cursor → Option (List Char × Bool × Cursor)
  | 0, acc, gap, c => some (acc, gap.broken, c)
  | fuel + 1, acc, gap, c =>
    if c.documentMark || c.at? '#' then some (acc, gap.broken, c)
    else do
      let word ← word? inFlow c.rest
      if word.isEmpty then some (acc, gap.broken, c)
      else
        let acc := acc ++ gap.text ++ word
        let c := c.skip word.length
        if !c.head?.any (fun b => isBlank b || isBreak b) then some (acc, false, c)
        else
          let (gap, c) ← Gap.read? margin c.rest.length {} c
          if !inFlow && c.column < margin then some (acc, gap.broken, c)
          else words? inFlow margin fuel acc gap c

/-- Reads a plain scalar whose further lines are indented to `margin`. -/
def read? (inFlow : Bool) (margin : Nat) (c : Cursor) : Option (List Char × Bool × Cursor) :=
  words? inFlow margin (c.rest.length + 1) [] {} c

end Plain

namespace Quoted

/-- The character that a one-letter escape stands for. -/
def simpleEscape? (c : Char) : Option Char :=
  let table : List (Char × Nat) :=
    [('0', 0), ('a', 7), ('b', 8), ('t', 9), ('\t', 9), ('n', 10), ('v', 11), ('f', 12), ('r', 13),
      ('e', 0x1b), (' ', 0x20), ('"', 0x22), ('/', 0x2f), ('\\', 0x5c), ('N', 0x85), ('_', 0xa0),
      ('L', 0x2028), ('P', 0x2029)]
  (table.lookup c).map Char.ofNat

/-- The number of hexadecimal digits after an escape letter. -/
def escapeWidth? (c : Char) : Option Nat :=
  if c = 'x' then some 2 else if c = 'u' then some 4 else if c = 'U' then some 8 else none

def hexValue? (c : Char) : Option Nat :=
  if '0' ≤ c && c ≤ '9' then some (c.toNat - 0x30)
  else if 'a' ≤ c && c ≤ 'f' then some (c.toNat - 0x61 + 10)
  else if 'A' ≤ c && c ≤ 'F' then some (c.toNat - 0x41 + 10)
  else none

/-- The character with the code point that exactly `width` hexadecimal digits give. -/
def codePoint? (width : Nat) (cs : List Char) : Option Char := do
  let digits ← (cs.take width).mapM hexValue?
  let n := digits.foldl (fun acc d => acc * 16 + d) 0
  if digits.length < width || 0xd800 ≤ n && n ≤ 0xdfff || 0x10ffff < n then none
  else some (Char.ofNat n)

/-- Reads up to a blank, a line end or the closing quote. An escaped line end counts as
the start of a gap, which the second component tells. -/
def word? (single : Bool) : Nat → List Char → Cursor → Option (List Char × Bool × Cursor)
  | 0, acc, c => some (acc, false, c)
  | fuel + 1, acc, c =>
    match c.rest with
    | [] => some (acc, false, c)
    | '\'' :: rest =>
      if !single then word? single fuel (acc ++ ['\'']) (c.skip 1)
      else if rest.head? = some '\'' then word? single fuel (acc ++ ['\'']) (c.skip 2)
      else some (acc, false, c)
    | '"' :: _ => if single then word? single fuel (acc ++ ['"']) (c.skip 1) else some (acc, false, c)
    | '\\' :: rest =>
      if single then word? single fuel (acc ++ ['\\']) (c.skip 1)
      else
        match rest with
        | [] => none
        | e :: digits =>
          if isBreak e then some (acc, true, (c.skip 1).newline.2)
          else
            match escapeWidth? e with
            | some width => do
              let x ← codePoint? width digits
              word? single fuel (acc ++ [x]) (c.skip (2 + width))
            | none => do
              let x ← simpleEscape? e
              word? single fuel (acc ++ [x]) (c.skip 2)
    | b :: _ =>
      if isBlank b || isBreak b then some (acc, false, c)
      else word? single fuel (acc ++ [b]) (c.skip 1)

/-- Reads up to the closing quote and passes it. -/
def words? (single : Bool) : Nat → List Char → Cursor → Option (List Char × Cursor)
  | 0, _, _ => none
  | fuel + 1, acc, c =>
    if c.documentMark || c.rest.isEmpty then none
    else do
      let (word, broken, c) ← word? single (c.rest.length + 1) [] c
      let acc := acc ++ word
      if c.at? (if single then '\'' else '"') then some (acc, c.skip 1)
      else
        let (gap, c) ← Gap.read? 0 c.rest.length { broken } c
        words? single fuel (acc ++ gap.text) c

/-- Reads a quoted scalar after its opening quote. -/
def read? (single : Bool) (c : Cursor) : Option (List Char × Cursor) :=
  words? single (c.rest.length + 1) [] c

end Quoted

namespace Block

/-- What becomes of the line ends at the end of a block. -/
inductive Chomping
  | strip
  | clip
  | keep
  deriving DecidableEq, Repr

def chomping? (c : Char) : Option Chomping :=
  if c = '+' then some .keep else if c = '-' then some .strip else none

/-- A digit that gives an indentation. Zero is none. -/
def indentation? (c : Char) : Option (Option Nat) :=
  if c = '0' then none else if c.isDigit then some (some (c.toNat - 0x30)) else some none

/-- Reads the chomping and the indentation of a block, in either order. -/
def header? (c : Cursor) : Option (Chomping × Option Nat × Cursor) := do
  match c.head?.bind chomping? with
  | some chomping =>
    let c := c.skip 1
    match c.head? with
    | some d =>
      match ← indentation? d with
      | some n => some (chomping, some n, c.skip 1)
      | none => some (chomping, none, c)
    | none => some (chomping, none, c)
  | none =>
    match c.head? with
    | some d =>
      match ← indentation? d with
      | some n =>
        let c := c.skip 1
        match c.head?.bind chomping? with
        | some chomping => some (chomping, some n, c.skip 1)
        | none => some (.clip, some n, c)
      | none => some (.clip, none, c)
    | none => some (.clip, none, c)

/-- Reads empty lines. While the indentation is not known, all spaces count as
indentation; gives the greatest column reached. A tab in the indentation is a fault. -/
def emptyLines? (indent : Option Nat) :
    Nat → Nat → List Char → Cursor → Option (Nat × List Char × Cursor)
  | 0, widest, acc, c => some (widest, acc, c)
  | fuel + 1, widest, acc, c =>
    let spaces := (c.rest.takeWhile (· = ' ')).length
    let c := c.skip (match indent with
      | some n => min spaces (n - c.column)
      | none => spaces)
    let widest := max widest c.column
    if c.at? '\t' && (match indent with
        | some n => decide (c.column < n)
        | none => true) then none
    else if c.head?.any isBreak then
      let (text, c) := c.newline
      emptyLines? indent fuel widest (acc ++ text) c
    else some (widest, acc, c)

/-- Reads the lines of a block. `ended` is the line end of the line before, `empty` are
the empty lines after it, and `wasBlank` tells whether that line began with a blank. -/
def lines? (literal : Bool) (chomping : Chomping) (indent : Nat) :
    Nat → List Char → List Char → List Char → Bool → Cursor → Option (List Char × Cursor)
  | 0, acc, _, _, _, c => some (acc, c)
  | fuel + 1, acc, ended, empty, wasBlank, c =>
    if c.column = indent && !c.rest.isEmpty then do
      let isBlankLine := c.head?.any isBlank
      let joined :=
        if !literal && ended.head? = some '\n' && !wasBlank && !isBlankLine then
          if empty.isEmpty then [' '] else []
        else ended
      let (line, c) := c.span (!isBreak ·)
      let (ended, c) := c.newline
      let next := acc ++ joined ++ empty ++ line
      let (_, empty, c) ← emptyLines? (some indent) (c.rest.length + 1) 0 [] c
      lines? literal chomping indent fuel next ended empty isBlankLine c
    else
      match chomping with
      | .strip => some (acc, c)
      | .clip => some (acc ++ ended, c)
      | .keep => some (acc ++ ended ++ empty, c)

/-- Reads a block after its indicator; `margin` is the least column of the content. -/
def read? (literal : Bool) (margin : Nat) (c : Cursor) : Option (List Char × Cursor) := do
  let (chomping, increment, c) ← header? c
  let c := (c.skipWhile isBlank).skipComment
  if !c.rest.isEmpty && !c.head?.any isBreak then none
  else
    let c := c.newline.2
    let given := increment.map fun n => if margin = 0 then n else margin - 1 + n
    let (widest, empty, c) ← emptyLines? given (c.rest.length + 1) 0 [] c
    let indent := given.getD (max (max widest margin) 1)
    lines? literal chomping indent (c.rest.length + 1) [] [] empty false c

end Block

end AdmissionCache.Yaml

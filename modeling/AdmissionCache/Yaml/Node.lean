import AdmissionCache.Yaml.Token

namespace AdmissionCache.Yaml

/-- `loop` stands for a node inside itself. -/
inductive Node
  | scalar (tag : Option String) (style : ScalarStyle) (text : String)
  | sequence (tag : Option String) (items : List Node)
  | mapping (tag : Option String) (members : List (Node × Node))
  | alias (target : Node)
  | loop
  deriving Repr

/-- Composing under way: the tokens left, the tag handles in force, and for every anchor
name its latest number. `finished` holds the nodes of the numbers that are complete. -/
structure Composer where
  tokens : List Token
  handles : List (String × String) := []
  anchors : List (String × Nat) := []
  finished : List (Nat × Node) := []
  count : Nat := 0

namespace Composer

def peek (c : Composer) : Option Token := c.tokens.head?

def drop (c : Composer) : Composer := { c with tokens := c.tokens.drop 1 }

/-- Whether one of the given tokens comes next. -/
def isAt (c : Composer) (ts : List Token) : Bool := c.peek.any ts.contains

/-- Gives an anchor name a new number. -/
def announce (c : Composer) : Option String → Composer
  | none => c
  | some name => { c with anchors := (name, c.count) :: c.anchors, count := c.count + 1 }

/-- Keeps the node of an anchor that got `number`. -/
def keep (c : Composer) (anchor : Option String) (number : Nat) (n : Node) : Composer :=
  if anchor.isSome then { c with finished := (number, n) :: c.finished } else c

/-- The node that an alias stands for; an anchor without a finished node lies around the
alias. -/
def target? (c : Composer) (name : String) : Option Node :=
  (c.anchors.lookup name).map fun number => (c.finished.lookup number).elim .loop .alias

/-- Reads anchor and tag in either order. -/
def properties (c : Composer) : Option String × Option (String × String) × Composer :=
  match c.tokens with
  | .anchor a :: .tag h s :: rest => (some a, some (h, s), { c with tokens := rest })
  | .tag h s :: .anchor a :: rest => (some a, some (h, s), { c with tokens := rest })
  | .anchor a :: rest => (some a, none, { c with tokens := rest })
  | .tag h s :: rest => (none, some (h, s), { c with tokens := rest })
  | _ => (none, none, c)

/-- The tag that a handle and a suffix make. A handle has to be known. -/
def resolveTag (c : Composer) : Option (String × String) → Option (Option String)
  | none => some none
  | some (handle, suffix) =>
    if handle.isEmpty then some (some suffix)
    else (c.handles.lookup handle).map fun start => some (start ++ suffix)

def emptyNode : Node := .scalar none .plain ""

mutual

/-- Reads a node. `inBlock` allows block collections, and `indentless` a sequence at the
column of its key. The first argument bounds the number of steps. -/
def node? : Nat → Bool → Bool → Composer → Option (Node × Composer)
  | 0, _, _, _ => none
  | fuel + 1, inBlock, indentless, c =>
    match c.tokens with
    | .alias name :: _ => (c.target? name).map fun n => (n, c.drop)
    | _ => do
      let (anchor, handle, c) := c.properties
      let tag ← c.resolveTag handle
      let number := c.count
      let c := c.announce anchor
      let (n, c) ←
        match c.peek with
        | some .blockEntry =>
          if indentless then (indentlessItems? fuel c).map fun (items, c) => (.sequence tag items, c)
          else bare? anchor tag c
        | some (.scalar style text) =>
          some (.scalar (if tag = some "!" then none else tag) style text, c.drop)
        | some .flowSequenceStart =>
          (flowItems? fuel true c.drop).map fun (items, c) => (.sequence tag items, c)
        | some .flowMappingStart =>
          (flowMembers? fuel true c.drop).map fun (members, c) => (.mapping tag members, c)
        | some .blockSequenceStart =>
          if inBlock then (blockItems? fuel c.drop).map fun (items, c) => (.sequence tag items, c)
          else bare? anchor tag c
        | some .blockMappingStart =>
          if inBlock then (blockMembers? fuel c.drop).map fun (members, c) => (.mapping tag members, c)
          else bare? anchor tag c
        | _ => bare? anchor tag c
      some (n, c.keep anchor number n)

/-- A node without content, which needs an anchor or a tag. -/
def bare? (anchor tag : Option String) (c : Composer) : Option (Node × Composer) :=
  if anchor.isSome || tag.isSome then some (.scalar tag .plain "", c) else none

/-- Reads a node, or none if one of the tokens in `ends` comes next. -/
def nodeBefore? : Nat → List Token → Bool → Bool → Composer → Option (Node × Composer)
  | 0, _, _, _, _ => none
  | fuel + 1, ends, inBlock, indentless, c =>
    if c.isAt ends then some (emptyNode, c) else node? fuel inBlock indentless c

def blockItems? : Nat → Composer → Option (List Node × Composer)
  | 0, _ => none
  | fuel + 1, c =>
    match c.peek with
    | some .blockEntry => do
      let (n, c) ← nodeBefore? fuel [.blockEntry, .blockEnd] true false c.drop
      let (rest, c) ← blockItems? fuel c
      some (n :: rest, c)
    | some .blockEnd => some ([], c.drop)
    | _ => none

def indentlessItems? : Nat → Composer → Option (List Node × Composer)
  | 0, _ => none
  | fuel + 1, c =>
    match c.peek with
    | some .blockEntry => do
      let (n, c) ← nodeBefore? fuel [.blockEntry, .key, .value, .blockEnd] true false c.drop
      let (rest, c) ← indentlessItems? fuel c
      some (n :: rest, c)
    | _ => some ([], c)

def blockMembers? : Nat → Composer → Option (List (Node × Node) × Composer)
  | 0, _ => none
  | fuel + 1, c =>
    match c.peek with
    | some .key => do
      let (k, c) ← nodeBefore? fuel [.key, .value, .blockEnd] true true c.drop
      let (v, c) ←
        if c.isAt [.value] then nodeBefore? fuel [.key, .value, .blockEnd] true true c.drop
        else some (emptyNode, c)
      let (rest, c) ← blockMembers? fuel c
      some ((k, v) :: rest, c)
    | some .blockEnd => some ([], c.drop)
    | _ => none

/-- Reads the items of a flow sequence; items after the first follow a comma. A key makes
a mapping of one member. -/
def flowItems? : Nat → Bool → Composer → Option (List Node × Composer)
  | 0, _, _ => none
  | fuel + 1, first, c =>
    if c.isAt [.flowSequenceEnd] then some ([], c.drop)
    else if !first && !c.isAt [.flowEntry] then none
    else
      let c := if first then c else c.drop
      match c.peek with
      | some .flowSequenceEnd => some ([], c.drop)
      | some .key => do
        let c := c.drop
        let (k, c) ←
          if c.isAt [.value, .flowEntry, .flowSequenceEnd] then some (emptyNode, c.drop)
          else node? fuel false false c
        let (v, c) ←
          if c.isAt [.value] then nodeBefore? fuel [.flowEntry, .flowSequenceEnd] false false c.drop
          else some (emptyNode, c)
        let (rest, c) ← flowItems? fuel false c
        some (.mapping none [(k, v)] :: rest, c)
      | _ => do
        let (n, c) ← node? fuel false false c
        let (rest, c) ← flowItems? fuel false c
        some (n :: rest, c)

/-- Reads the members of a flow mapping; members after the first follow a comma. A node
that is no key has no value. -/
def flowMembers? : Nat → Bool → Composer → Option (List (Node × Node) × Composer)
  | 0, _, _ => none
  | fuel + 1, first, c =>
    if c.isAt [.flowMappingEnd] then some ([], c.drop)
    else if !first && !c.isAt [.flowEntry] then none
    else
      let c := if first then c else c.drop
      match c.peek with
      | some .flowMappingEnd => some ([], c.drop)
      | some .key => do
        let (k, c) ← nodeBefore? fuel [.value, .flowEntry, .flowMappingEnd] false false c.drop
        let (v, c) ←
          if c.isAt [.value] then nodeBefore? fuel [.flowEntry, .flowMappingEnd] false false c.drop
          else some (emptyNode, c)
        let (rest, c) ← flowMembers? fuel false c
        some ((k, v) :: rest, c)
      | _ => do
        let (k, c) ← node? fuel false false c
        let (rest, c) ← flowMembers? fuel false c
        some ((k, emptyNode) :: rest, c)

end

/-- The handles that need no directive. -/
def usualHandles : List (String × String) := [("!", "!"), ("!!", "tag:yaml.org,2002:")]

/-- Reads the directives in front of a document. There is one version at most, and no
handle is declared twice. -/
def directives? : List Token → Bool → List (String × String) →
    Option (List (String × String) × List Token)
  | .versionDirective major minor :: rest, versioned, handles =>
    if versioned || major ≠ 1 || minor ≠ 1 && minor ≠ 2 then none else directives? rest true handles
  | .tagDirective handle start :: rest, versioned, handles =>
    if (handles.lookup handle).isSome then none
    else directives? rest versioned ((handle, start) :: handles)
  | tokens, _, handles => some (handles ++ usualHandles, tokens)

def isDirective : Token → Bool
  | .versionDirective .. => true
  | .tagDirective .. => true
  | _ => false

end Composer

/-- The first document of a text: its node, if the text holds one, the number of its
parts, and whether nothing follows. -/
structure Document where
  root : Option Node
  parts : Nat
  alone : Bool

namespace Document

/-- Whether a token begins a node or closes none, so that it counts as a part. -/
def isPart : Token → Bool
  | .alias _ => true
  | .scalar .. => true
  | .flowSequenceStart => true
  | .flowSequenceEnd => true
  | .flowMappingStart => true
  | .flowMappingEnd => true
  | .blockSequenceStart => true
  | .blockMappingStart => true
  | .blockEnd => true
  | .value => true
  | _ => false

/-- Reads the document that starts at `tokens`. -/
def node? (handles : List (String × String)) (tokens : List Token) : Option (Node × List Token) :=
  match tokens with
  | [] => none
  | t :: _ =>
    if Composer.isDirective t || [Token.documentStart, .documentEnd, .streamEnd].contains t then
      some (Composer.emptyNode, tokens)
    else
      (Composer.node? (4 * tokens.length + 8) true false { tokens, handles }).map fun (n, c) =>
        (n, c.tokens)

/-- Reads the first document of a text. -/
def ofText? (text : String) : Option Document := do
  let tokens := Token.ofText text
  let parts := (tokens.filter isPart).length
  match tokens with
  | [] => none
  | [.streamEnd] => some ⟨none, 0, true⟩
  | t :: _ =>
    let (root, rest) ←
      if Composer.isDirective t || t = .documentStart then do
        let (handles, rest) ← Composer.directives? tokens false []
        match rest with
        | .documentStart :: rest => node? handles rest
        | _ => none
      else node? Composer.usualHandles tokens
    let alone := rest.dropWhile (· = .documentEnd) = [.streamEnd]
    some ⟨some root, parts, alone⟩

end Document

end AdmissionCache.Yaml

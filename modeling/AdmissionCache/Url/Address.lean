import AdmissionCache.Url.Host

namespace AdmissionCache

/-- A path is a list of segments, or a text without structure that nothing can be
relative to. -/
inductive UrlPath
  | plain (text : String)
  | segments (parts : List String)
  deriving DecidableEq, Repr

/-- A URL in its normal form. -/
structure Url where
  scheme : String
  username : String := ""
  password : String := ""
  host : Option Host := none
  portNumber : Option Nat := none
  path : UrlPath
  query : Option String := none
  fragment : Option String := none
  deriving DecidableEq, Repr

namespace Url

/-- The schemes with a fixed form of authority, and their usual port numbers. -/
def specialSchemes : List (String × Option Nat) :=
  [("http", some 80), ("https", some 443), ("ws", some 80), ("wss", some 443), ("ftp", some 21),
    ("file", none)]

def isSpecial (scheme : String) : Bool := (specialSchemes.lookup scheme).isSome

def usualPort (scheme : String) : Option Nat := (specialSchemes.lookup scheme).join

def inQuery (c : Char) : Bool := [' ', '"', '#', '<', '>'].contains c

def inSpecialQuery (c : Char) : Bool := inQuery c || c = '\''

def inFragment (c : Char) : Bool := [' ', '"', '<', '>', '\x60'].contains c

def inPath (c : Char) : Bool := inFragment c || ['#', '?', '\x7b', '\x7d'].contains c

def inUserinfo (c : Char) : Bool :=
  inPath c || ['/', ':', ';', '=', '@', '[', '\\', ']', '^', '|'].contains c

def encodeText (encoded : Char → Bool) (cs : List Char) : String :=
  String.ofList (Percent.encode encoded cs)

/-- The characters that count: blanks and control characters at both ends do not, nor do
tabs and line ends anywhere. -/
def significant (s : String) : List Char :=
  let outer (c : Char) : Bool := c.toNat ≤ 0x20
  let trimmed := ((s.toList.dropWhile outer).reverse.dropWhile outer).reverse
  trimmed.filter fun c => c ≠ '\t' && c ≠ '\n' && c ≠ '\r'

def schemeChar (c : Char) : Bool := c.isAlphanum || c = '+' || c = '-' || c = '.'

/-- Takes the scheme, in small letters, and its colon off the front. -/
def scheme? (cs : List Char) : Option (String × List Char) :=
  match cs.dropWhile schemeChar with
  | ':' :: rest =>
    match cs with
    | c :: _ =>
      if c.isAlpha then some (String.ofList ((cs.takeWhile schemeChar).map Char.toLower), rest)
      else none
    | [] => none
  | _ => none

def isSlash (special : Bool) (c : Char) : Bool := c = '/' || special && c = '\\'

def endsAuthority (special : Bool) (c : Char) : Bool := isSlash special c || c = '?' || c = '#'

/-- Splits at the last at-sign. -/
def userinfo (cs : List Char) : Option (List Char) × List Char :=
  if cs.contains '@' then
    let host := (cs.reverse.takeWhile (· ≠ '@')).reverse
    (some (cs.take (cs.length - host.length - 1)), host)
  else (none, cs)

/-- Splits the host from the text after its first colon outside brackets. -/
def hostAndPort : Bool → List Char → List Char × Option (List Char)
  | _, [] => ([], none)
  | inBrackets, c :: rest =>
    if c = ':' && !inBrackets then ([], some rest)
    else
      let (host, after) := hostAndPort (c = '[' || inBrackets && c ≠ ']') rest
      (c :: host, after)

/-- The port number, `none` in it if it is left out or the usual one. -/
def portNumber? (scheme : String) : Option (List Char) → Option (Option Nat)
  | none => some none
  | some digits =>
    if digits.isEmpty then some none
    else do
      let n ← Host.number? 10 digits
      if 65535 < n then none else some (if usualPort scheme = some n then none else some n)

/-- A letter and a colon or bar, as at the start of some file paths. -/
def isDrive : List Char → Bool
  | [a, b] => a.isAlpha && (b = ':' || b = '|')
  | _ => false

def isDot (s : String) : Bool := s == "." || s.toLower == "%2e"

def isDoubleDot (s : String) : Bool :=
  ["..", ".%2e", "%2e.", "%2e%2e"].contains s.toLower

/-- Drops the last segment. A file path keeps its drive. -/
def shorten (scheme : String) (parts : List String) : List String :=
  match parts with
  | [only] =>
    if scheme == "file" && isDrive only.toList && only.toList.getLast? == some ':' then [only]
    else []
  | _ => parts.dropLast

/-- Adds segments one by one, and resolves those of dots. -/
def addSegments (scheme : String) : List (List Char) → List String → List String
  | [], parts => parts
  | cs :: rest, parts =>
    let text := encodeText inPath cs
    let parts :=
      if isDoubleDot text then
        shorten scheme parts ++ (if rest.isEmpty then [""] else [])
      else if isDot text then parts ++ (if rest.isEmpty then [""] else [])
      else if scheme == "file" && parts.isEmpty && isDrive cs then
        [String.ofList (cs.take 1 ++ [':'])]
      else parts ++ [text]
    addSegments scheme rest parts

/-- The segments of a path; a slash in front starts the first one. -/
def segments (scheme : String) (cs : List Char) : List String :=
  let special := isSpecial scheme
  let inner :=
    match cs with
    | c :: rest => if isSlash special c then rest else cs
    | [] => []
  if cs.isEmpty && !special then []
  else addSegments scheme (Host.splitAt (isSlash special) inner) []

/-- Splits a text into path, query and fragment, the latter two encoded. -/
def pathAndRest (special : Bool) (cs : List Char) : List Char × Option String × Option String :=
  let (body, fragment) :=
    match cs.dropWhile (· ≠ '#') with
    | _ :: rest => (cs.takeWhile (· ≠ '#'), some (encodeText inFragment rest))
    | [] => (cs, none)
  let (path, query) :=
    match body.dropWhile (· ≠ '?') with
    | _ :: rest =>
      (body.takeWhile (· ≠ '?'), some (encodeText (if special then inSpecialQuery else inQuery) rest))
    | [] => (body, none)
  (path, query, fragment)

/-- Reads authority, path, query and fragment. -/
def withAuthority? (scheme : String) (cs : List Char) : Option Url := do
  let special := isSpecial scheme
  let authority := cs.takeWhile (!endsAuthority special ·)
  let (path, query, fragment) := pathAndRest special (cs.dropWhile (!endsAuthority special ·))
  let (user, place) := userinfo authority
  if user.isSome && place.isEmpty then none
  else
    let (name, after) := hostAndPort false place
    if name.isEmpty && (special || after.isSome) then none
    else
      let host ← Host.parse? special name
      let portNumber ← portNumber? scheme after
      let user := user.getD []
      some {
        scheme
        username := encodeText inUserinfo (user.takeWhile (· ≠ ':'))
        password := encodeText inUserinfo ((user.dropWhile (· ≠ ':')).drop 1)
        host := some host
        portNumber
        path := .segments (segments scheme path)
        query
        fragment }

/-- Reads a URL of a file. The host of this machine is left out. -/
def file? (cs : List Char) : Option Url := do
  let build (host : String) (cs : List Char) : Url :=
    let (path, query, fragment) := pathAndRest true cs
    { scheme := "file", host := some (.name host), path := .segments (segments "file" path), query,
      fragment }
  match cs with
  | a :: b :: rest =>
    if isSlash true a && isSlash true b then
      let name := rest.takeWhile (!endsAuthority true ·)
      if isDrive name then some (build "" ('/' :: rest))
      else if name.isEmpty then some (build "" rest)
      else
        let host ← Host.parse? true name
        let url := build "" (rest.dropWhile (!endsAuthority true ·))
        some (if host = .name "localhost" then url else { url with host := some host })
    else some (build "" (if isSlash true a then cs else '/' :: cs))
  | _ => some (build "" (if cs.any (isSlash true) then cs else '/' :: cs))

/-- Reads a URL that stands for itself. -/
def parse? (s : String) : Option Url := do
  let (scheme, rest) ← scheme? (significant s)
  if scheme == "file" then file? rest
  else if isSpecial scheme then withAuthority? scheme (rest.dropWhile (isSlash true))
  else
    match rest with
    | '/' :: '/' :: rest => withAuthority? scheme rest
    | _ =>
      let (path, query, fragment) := pathAndRest false rest
      let path :=
        match rest with
        | '/' :: _ => UrlPath.segments (segments scheme path)
        | _ => .plain (encodeText (fun _ => false) path)
      some { scheme, path, query, fragment }

def pathText (u : Url) : String :=
  match u.path with
  | .plain text => text
  | .segments parts => String.join (parts.map ("/" ++ ·))

def credentialsText (u : Url) : String :=
  if u.username.isEmpty && u.password.isEmpty then ""
  else u.username ++ (if u.password.isEmpty then "" else ":" ++ u.password) ++ "@"

/-- The text between scheme and path. -/
def authorityText (u : Url) : String :=
  match u.host with
  | some host =>
    "//" ++ u.credentialsText ++ host.render ++
      (match u.portNumber with
        | some n => ":" ++ toString n
        | none => "")
  | none =>
    match u.path with
    | .segments ("" :: _ :: _) => "/."
    | _ => ""

def render (u : Url) : String :=
  u.scheme ++ ":" ++ u.authorityText ++ u.pathText ++
    (match u.query with
      | some q => "?" ++ q
      | none => "") ++
    (match u.fragment with
      | some f => "#" ++ f
      | none => "")

/-- Replaces the path by what is read from a text that is not empty, all of it path. A path without
structure stays. -/
def setPath (u : Url) (text : String) : Url :=
  match u.path with
  | .plain _ => u
  | .segments _ => { u with path := .segments (segments u.scheme text.toList) }

/-- What a relative reference stands for that is a path only and does not start with a slash: it
replaces the last segment, or for a drive of its own the whole path. A path without structure has
nothing relative to it. -/
def resolve? (u : Url) (reference : String) : Option Url :=
  match u.path with
  | .plain _ => none
  | .segments parts =>
    let added := Host.splitAt (isSlash (isSpecial u.scheme)) reference.toList
    let ownDrive := u.scheme == "file" && added.head?.any isDrive
    let kept := if ownDrive then [] else shorten u.scheme parts
    some { u with path := .segments (addSegments u.scheme added kept), query := none, fragment := none }

/-- Adds a pair to the query, whose name and value need no encoding. -/
def appendPair (u : Url) (name value : String) : Url :=
  let before :=
    match u.query with
    | none => ""
    | some q => if q.isEmpty then "" else q ++ "&"
  { u with query := some (before ++ name ++ "=" ++ value) }

end Url

end AdmissionCache

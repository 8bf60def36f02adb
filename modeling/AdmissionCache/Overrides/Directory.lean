namespace AdmissionCache

/-- The name of a file: any bytes. -/
abbrev FileName := List UInt8

namespace FileName

def dot : UInt8 := 0x2e

/-- The name without its last dot and what follows, and what follows. A dot at the front
of the name parts nothing. -/
def stemAndExtension (name : FileName) : FileName × Option FileName :=
  match (name.reverse.dropWhile (· ≠ dot)).drop 1 with
  | [] => (name, none)
  | stem => (stem.reverse, some ((name.reverse.takeWhile (· ≠ dot)).reverse))

/-- What the name of a document's file says about its project: the name without its
extension, which has to be `json`, if it is text. -/
def documentStem? (name : FileName) : Option String :=
  let (stem, extension) := name.stemAndExtension
  if extension = some "json".toUTF8.toList then String.fromUTF8? ⟨stem.toArray⟩ else none

end FileName

/-- An entry of a directory. Entries that are no readable files have no content. -/
structure DirectoryEntry where
  name : FileName
  content : Option (List UInt8)
  deriving DecidableEq, Repr

/-- A directory: its entries in the order in which they are listed, or that it does not
exist, or that its listing breaks off after some entries, if there are any. -/
inductive Directory
  | entries (list : List DirectoryEntry)
  | missing
  | broken (listed : List DirectoryEntry)
  deriving DecidableEq, Repr

namespace Directory

def list : Directory → List DirectoryEntry
  | .entries list => list
  | _ => []

/-- Replaces the entry of that name, or adds it at the end. -/
def put (d : Directory) (entry : DirectoryEntry) : Directory :=
  match d with
  | .entries list =>
    if list.any (·.name = entry.name) then
      .entries (list.map fun e => if e.name = entry.name then entry else e)
    else .entries (list ++ [entry])
  | d => d

def remove (d : Directory) (name : FileName) : Directory :=
  match d with
  | .entries list => .entries (list.filter (·.name ≠ name))
  | d => d

/-- Creates the directory where there is none. -/
def create : Directory → Directory
  | .missing => .entries []
  | d => d

end Directory

end AdmissionCache

import AdmissionCache.Json.Written
import AdmissionCache.Numeric.Shortest
import AdmissionCache.Time

namespace AdmissionCache

/-- Why a value is refused. `badDuration` carries the number of seconds that is no
duration, and `durationOverflow` stands for a number of seconds beyond 64 bits, at
which reading ends for good. -/
inductive ReadFault
  | malformed
  | badDuration (seconds : Binary64)
  | durationOverflow
  deriving DecidableEq, Repr

/-- The text of a fault that has one of its own. -/
def ReadFault.message? : ReadFault → Option String
  | .badDuration seconds =>
    some ("duration must be a non-negative number of seconds, got " ++ seconds.plainText)
  | _ => none

/-- How a member of a mapping is named: by text or by the position of a field. Nothing
else names a field. -/
inductive MemberName
  | text (name : String)
  | position (index : Nat)
  | nameless
  deriving DecidableEq, Repr

/-- One level of a structured value. -/
inductive View (β : Type)
  | null
  | bool (value : Bool)
  | integer (value : Int)
  | fraction (value : Binary64)
  | text (value : String)
  | items (values : List β)
  | members (values : List (MemberName × β))

/-- Values that can be read level by level. -/
class Readable (β : Type) where
  view : β → Except ReadFault (View β)

/-- Values that hold whole JSON documents. -/
class HoldsDocuments (β : Type) where
  document : β → Except ReadFault Json

instance : Readable Json where
  view
    | .null => .ok .null
    | .bool b => .ok (.bool b)
    | .number (.integer i) => .ok (.integer i)
    | .number (.fraction x) => .ok (.fraction x)
    | .string s => .ok (.text s)
    | .array items => .ok (.items items)
    | .object members => .ok (.members (members.map fun m => (.text m.1, m.2)))

instance : HoldsDocuments Json where
  document := .ok

/-- A written value together with the number of arrays and objects around it. -/
structure Nested where
  depth : Nat
  value : Written

namespace Nested

def memberNames :
    List (Option String × Written) → Nat → Except ReadFault (List (MemberName × Nested))
  | [], _ => .ok []
  | (none, _) :: _, _ => .error .malformed
  | (some key, value) :: rest, depth => do
    let rest ← memberNames rest depth
    .ok ((.text key, ⟨depth, value⟩) :: rest)

def view (n : Nested) : Except ReadFault (View Nested) :=
  match n.value with
  | .null => .ok .null
  | .bool b => .ok (.bool b)
  | .number l =>
    match l.meaning with
    | some (.integer i) => .ok (.integer i)
    | some (.fraction x) => .ok (.fraction x)
    | none => .error .malformed
  | .string (some s) => .ok (.text s)
  | .string none => .error .malformed
  | .array items =>
    if n.depth + 1 < Written.depthBound then .ok (.items (items.map (⟨n.depth + 1, ·⟩)))
    else .error .malformed
  | .object members =>
    if n.depth + 1 < Written.depthBound then
      (memberNames members (n.depth + 1)).map .members
    else .error .malformed

end Nested

instance : Readable Nested where
  view := Nested.view

instance : HoldsDocuments Nested where
  document n :=
    match n.value.meaning Written.depthBound n.depth with
    | some document => .ok document
    | none => .error .malformed

section Scalars

variable {β : Type} [Readable β]

def readText (b : β) : Except ReadFault String := do
  match ← Readable.view b with
  | .text s => .ok s
  | _ => .error .malformed

def readBool (b : β) : Except ReadFault Bool := do
  match ← Readable.view b with
  | .bool v => .ok v
  | _ => .error .malformed

/-- A natural number below `bound`; a fraction is none, whatever its value. -/
def readNat (bound : Nat) (b : β) : Except ReadFault Nat := do
  match ← Readable.view b with
  | .integer (.ofNat n) => if n < bound then .ok n else .error .malformed
  | _ => .error .malformed

def readNumber (b : β) : Except ReadFault Binary64 := do
  match ← Readable.view b with
  | .integer i => .ok (.ofInt i)
  | .fraction x => .ok x
  | _ => .error .malformed

/-- `null` stands for an absent value. -/
def readOption {α : Type} (read : β → Except ReadFault α) (b : β) : Except ReadFault (Option α) := do
  match ← Readable.view b with
  | .null => .ok none
  | _ => (read b).map some

def readAll {α : Type} (read : β → Except ReadFault α) : List β → Except ReadFault (List α)
  | [] => .ok []
  | b :: rest => do
    let value ← read b
    let values ← readAll read rest
    .ok (value :: values)

def readList {α : Type} (read : β → Except ReadFault α) (b : β) : Except ReadFault (List α) := do
  match ← Readable.view b with
  | .items values => readAll read values
  | _ => .error .malformed

def readEntries {α : Type} (read : β → Except ReadFault α) :
    List (MemberName × β) → Except ReadFault (List (String × α))
  | [] => .ok []
  | (.text key, b) :: rest => do
    let value ← read b
    let values ← readEntries read rest
    .ok ((key, value) :: values)
  | (_, _) :: _ => .error .malformed

def readDuration (b : β) : Except ReadFault Duration := do
  let seconds ← readNumber b
  if !seconds.isFinite || seconds.lt .zero then .error (.badDuration seconds)
  else
    match Duration.ofSeconds? seconds with
    | some d => .ok d
    | none => .error .durationOverflow

/-- A whole number of milliseconds below `2 ^ 64`. -/
def readMillis (b : β) : Except ReadFault Duration := (readNat (1 <<< 64) b).map .ofMillis

end Scalars

/-- Whether a field has to be there: always, in a sequence only, or never. -/
inductive Presence
  | required
  | inSequences
  | optional
  deriving DecidableEq, Repr

/-- A field of a record under construction: its name, whether it has to be there, and
how a value for it is entered. -/
structure Field (β σ : Type) where
  name : String
  presence : Presence
  enter : β → σ → Except ReadFault σ

namespace Field

variable {β σ : Type}

/-- The field that a member name means, if it means one. -/
def named (fields : List (Field β σ)) : MemberName → Except ReadFault (Option Nat)
  | .text name => .ok (fields.findIdx? fun f => f.name == name)
  | .position index => .ok (if index < fields.length then some index else none)
  | .nameless => .error .malformed

/-- Enters members in their order; `seen` lists the fields entered before. Unknown members are
ignored without being looked at, and a member that occurs twice is a fault. -/
def enterMembers (fields : List (Field β σ)) :
    List (MemberName × β) → List Nat → σ → Except ReadFault (List Nat × σ)
  | [], seen, record => .ok (seen, record)
  | (name, b) :: rest, seen, record => do
    match ← named fields name with
    | none => enterMembers fields rest seen record
    | some index =>
      if seen.contains index then .error .malformed
      else
        match fields[index]? with
        | none => .error .malformed
        | some field => do
          let record ← field.enter b record
          enterMembers fields rest (index :: seen) record

/-- Whether every field that a mapping has to hold has been seen. -/
def complete (fields : List (Field β σ)) (seen : List Nat) : Bool :=
  fields.zipIdx.all fun (f, index) => f.presence != .required || seen.contains index

/-- Enters values by position; fields at the end may be left out if they have a
default. -/
def enterItems : List (Field β σ) → List β → σ → Except ReadFault σ
  | [], [], record => .ok record
  | [], _ :: _, _ => .error .malformed
  | fields, [], record =>
    if fields.all (·.presence == .optional) then .ok record else .error .malformed
  | field :: fields, b :: rest, record => do
    let record ← field.enter b record
    enterItems fields rest record

end Field

/-- Reads a record from a mapping, starting with the defaults. -/
def readMembers {β σ : Type} (fields : List (Field β σ)) (record : σ)
    (members : List (MemberName × β)) : Except ReadFault σ := do
  let (seen, record) ← Field.enterMembers fields members [] record
  if Field.complete fields seen then .ok record else .error .malformed

/-- Reads a record from a mapping or a sequence, starting with the defaults. -/
def readRecord {β σ : Type} [Readable β] (fields : List (Field β σ)) (record : σ) (b : β) :
    Except ReadFault σ := do
  match ← Readable.view b with
  | .members members => readMembers fields record members
  | .items values => Field.enterItems fields values record
  | _ => .error .malformed

end AdmissionCache

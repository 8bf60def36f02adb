import AdmissionCache.Numeric.Binary64

namespace AdmissionCache

/-- A JSON number: an integer from `-2 ^ 63` to `2 ^ 64 - 1`, or a fraction. -/
inductive JsonNumber
  | integer (value : Int)
  | fraction (value : Binary64)
  deriving DecidableEq, Repr

/-- A JSON value. The members of an object are in key order and no key occurs twice. -/
inductive Json
  | null
  | bool (value : Bool)
  | number (value : JsonNumber)
  | string (value : String)
  | array (items : List Json)
  | object (members : List (String × Json))
  deriving Repr

namespace JsonNumber

/-- Integers and fractions differ; the two zero fractions are the same. -/
def same : JsonNumber → JsonNumber → Bool
  | .integer a, .integer b => a == b
  | .fraction a, .fraction b => a.sameValue b
  | _, _ => false

def toBinary64 : JsonNumber → Binary64
  | .integer i => .ofInt i
  | .fraction x => x

end JsonNumber

namespace Json

mutual

/-- Whether two values mean the same. -/
def same : Json → Json → Bool
  | .null, .null => true
  | .bool a, .bool b => a == b
  | .number a, .number b => a.same b
  | .string a, .string b => a == b
  | .array as, .array bs => sameItems as bs
  | .object as, .object bs => sameMembers as bs
  | _, _ => false

def sameItems : List Json → List Json → Bool
  | [], [] => true
  | a :: as, b :: bs => a.same b && sameItems as bs
  | _, _ => false

def sameMembers : List (String × Json) → List (String × Json) → Bool
  | [], [] => true
  | (k, a) :: as, (l, b) :: bs => k == l && a.same b && sameMembers as bs
  | _, _ => false

end

/-- The member list with `key` set to `value`, in key order. -/
def setMember : List (String × Json) → String → Json → List (String × Json)
  | [], key, value => [(key, value)]
  | (k, v) :: rest, key, value =>
    if key < k then (key, value) :: (k, v) :: rest
    else if key = k then (key, value) :: rest
    else (k, v) :: setMember rest key value

/-- An object from members in any order; of two members with one key the later counts. -/
def ofMembers (members : List (String × Json)) : Json :=
  .object (members.foldl (fun acc m => setMember acc m.1 m.2) [])

/-- The member `key` of an object. -/
def member? (key : String) : Json → Option Json
  | .object members => members.lookup key
  | _ => none

def bool? : Json → Option Bool
  | .bool b => some b
  | _ => none

def string? : Json → Option String
  | .string s => some s
  | _ => none

def array? : Json → Option (List Json)
  | .array items => some items
  | _ => none

def ofNat (n : Nat) : Json := .number (.integer n)

def ofOption {α : Type} (f : α → Json) : Option α → Json
  | none => .null
  | some a => f a

end Json

end AdmissionCache

import AdmissionCache.Numeric.Binary64

namespace AdmissionCache

/-- The decimal number `digits * 10 ^ exponent`. -/
structure Decimal where
  digits : Nat
  exponent : Int
  deriving DecidableEq, Repr

namespace Decimal

/-- The binary64 number nearest to a decimal. -/
def toBinary64 (negative : Bool) (d : Decimal) : Binary64 :=
  if 0 ≤ d.exponent then .nearest negative (d.digits * Nat.pow 10 d.exponent.toNat) 1
  else .nearest negative d.digits (Nat.pow 10 (-d.exponent).toNat)

/-- Whether `10 ^ t ≤ num / den`. -/
def powerReached (num den : Nat) (t : Int) : Bool :=
  if 0 ≤ t then den * Nat.pow 10 t.toNat ≤ num else den ≤ num * Nat.pow 10 (-t).toNat

/-- The integer `t` with `10 ^ t ≤ num / den < 10 ^ (t + 1)`, for positive arguments.
The binary logarithm gives it up to one or two. -/
def ratioLog10 (num den : Nat) : Int :=
  let guess := Int.fdiv (Binary64.ratioLog2 num den * 30103) 100000
  ([guess + 2, guess + 1, guess, guess - 1].find? (powerReached num den)).getD (guess - 2)

/-- The neighbour of `num / den` on the grid of multiples of `10 ^ k` that reads back
as `target`, the nearer one if both do. -/
def neighbourOnGrid? (target : Binary64) (num den : Nat) (k : Int) : Option Decimal :=
  let top := if 0 ≤ k then num else num * Nat.pow 10 (-k).toNat
  let bottom := if 0 ≤ k then den * Nat.pow 10 k.toNat else den
  let below : Decimal := ⟨top / bottom, k⟩
  let above : Decimal := ⟨top / bottom + 1, k⟩
  let belowReads := below.toBinary64 false = target
  let aboveReads := above.toBinary64 false = target
  if belowReads ∧ aboveReads then
    if 2 * (top % bottom) ≤ bottom then some below else some above
  else if belowReads then some below
  else if aboveReads then some above
  else none

/-- The decimal with the fewest digits that reads back as the positive number
`m * 2 ^ e`, the nearest of those. Seventeen digits always suffice. -/
def shortest (m : Nat) (e : Int) : Decimal :=
  let num := if 0 ≤ e then m <<< e.toNat else m
  let den := if 0 ≤ e then 1 else 1 <<< (-e).toNat
  let lead := ratioLog10 num den
  let target : Binary64 := .finite false m e
  ((List.range 17).findSome? fun n : Nat => neighbourOnGrid? target num den (lead - n)).getD
    ⟨num / den, 0⟩

/-- Decimal digits without an exponent; no point if the value is an integer. -/
def positional (d : Decimal) : String :=
  let text := toString d.digits
  if 0 ≤ d.exponent then text ++ String.ofList (List.replicate d.exponent.toNat '0')
  else
    let places := (-d.exponent).toNat
    let chars := text.toList
    let padded := List.replicate (places + 1 - chars.length) '0' ++ chars
    let whole := padded.take (padded.length - places)
    let fraction := padded.drop (padded.length - places)
    String.ofList whole ++ "." ++ String.ofList fraction

end Decimal

namespace Binary64

/-- The shortest text without an exponent, as in messages: `1`, `0.0000001`, `-0`,
`NaN`, `inf`. -/
def plainText : Binary64 → String
  | .nan => "NaN"
  | .infinite negative => if negative then "-inf" else "inf"
  | .finite negative m e =>
    (if negative then "-" else "") ++ if m = 0 then "0" else (Decimal.shortest m e).positional

/-- The shortest text that reads as a fractional number, as in documents. -/
def documentText (x : Binary64) : String :=
  match x with
  | .finite .. => if x.plainText.contains '.' then x.plainText else x.plainText ++ ".0"
  | _ => "null"

end Binary64

end AdmissionCache

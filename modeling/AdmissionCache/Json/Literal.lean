import AdmissionCache.Json.Value

namespace AdmissionCache

/-- A number as written. `whole` and `fraction` are decimal digits; `fraction` is empty
if there is no point. -/
structure NumberLiteral where
  negative : Bool
  whole : List Nat
  fraction : List Nat
  exponent : Option Int
  deriving DecidableEq, Repr

namespace NumberLiteral

def significandBound : Nat := 1 <<< 64

/-- Takes digits into the significand until the next one does not fit; gives the
significand and the digits left over. -/
def fill : Nat → List Nat → Nat × List Nat
  | significand, [] => (significand, [])
  | significand, d :: rest =>
    if significand * 10 + d < significandBound then fill (significand * 10 + d) rest
    else (significand, d :: rest)

/-- The greatest power of ten that one step scales by. -/
def stepExponent : Nat := 308

def powerOfTen (k : Nat) : Binary64 := .ofNat (Nat.pow 10 k)

/-- `x / 10 ^ k`, by steps of at most `10 ^ 308`; zero needs no further step. -/
def scaleDown (x : Binary64) (k : Nat) : Binary64 :=
  if _small : k ≤ stepExponent then x.div (powerOfTen k)
  else if x.sameValue (.zero) then x
  else scaleDown (x.div (powerOfTen stepExponent)) (k - stepExponent)
termination_by k
decreasing_by simp only [stepExponent] at *; omega

/-- `significand * 10 ^ exponent` in rounded steps, if it is finite. -/
def assemble (negative : Bool) (significand : Nat) (exponent : Int) : Option Binary64 :=
  let x := Binary64.ofNat significand
  let magnitude :=
    if exponent < 0 then scaleDown x (-exponent).toNat
    else if exponent.toNat ≤ stepExponent then x.mul (powerOfTen exponent.toNat)
    else if significand = 0 then x
    else .infinite false
  if magnitude.isFinite then some (if negative then magnitude.neg else magnitude) else none

/-- The number that a literal stands for. -/
def meaning (l : NumberLiteral) : Option JsonNumber :=
  let (significand, beyond) := fill 0 l.whole
  if beyond.isEmpty && l.fraction.isEmpty && l.exponent.isNone then
    if !l.negative then some (.integer significand)
    else if significand ≠ 0 && significand ≤ 1 <<< 63 then some (.integer (-(significand : Int)))
    else (assemble true significand 0).map .fraction
  else
    let (filled, left) := fill significand l.fraction
    let places : Int := beyond.length - (l.fraction.length - left.length : Nat)
    (assemble l.negative filled (places + l.exponent.getD 0)).map .fraction

end NumberLiteral

end AdmissionCache

namespace AdmissionCache

/-- A binary64 number. `finite negative m e` is `m * 2 ^ e` with a sign. Canonical
values have `m < 2 ^ 53`, `-1074 ≤ e ≤ 971`, and `2 ^ 52 ≤ m` unless `e = -1074`. -/
inductive Binary64
  | finite (negative : Bool) (mantissa : Nat) (exponent : Int)
  | infinite (negative : Bool)
  | nan
  deriving DecidableEq, Repr

/-- `num / den` rounded to the nearest integer, a half to the even neighbour. -/
def roundHalfEven (num den : Nat) : Nat :=
  let quotient := num / den
  let rest := num % den
  if 2 * rest < den then quotient
  else if den < 2 * rest then quotient + 1
  else quotient + quotient % 2

namespace Binary64

/-- The least exponent of a finite number. -/
def minExponent : Int := -1074

/-- The greatest exponent of a finite number. -/
def maxExponent : Int := 971

def zero (negative : Bool := false) : Binary64 := .finite negative 0 minExponent

/-- The integer `k` with `2 ^ k ≤ num / den < 2 ^ (k + 1)`, for positive arguments. -/
def ratioLog2 (num den : Nat) : Int :=
  let guess : Int := (Nat.log2 num : Int) - (Nat.log2 den : Int)
  let reaches : Bool :=
    if 0 ≤ guess then den <<< guess.toNat ≤ num else den ≤ num <<< (-guess).toNat
  if reaches then guess else guess - 1

/-- The binary64 number nearest to `num / den`; `den` is positive. -/
def nearest (negative : Bool) (num den : Nat) : Binary64 :=
  if num = 0 then zero negative
  else
    let exponent := max (ratioLog2 num den - 52) minExponent
    let mantissa :=
      if 0 ≤ exponent then roundHalfEven num (den <<< exponent.toNat)
      else roundHalfEven (num <<< (-exponent).toNat) den
    let (mantissa, exponent) :=
      if mantissa = 1 <<< 53 then (1 <<< 52, exponent + 1) else (mantissa, exponent)
    if maxExponent < exponent then .infinite negative else .finite negative mantissa exponent

/-- `m * 2 ^ e` rounded to binary64. -/
def scaled (negative : Bool) (m : Nat) (e : Int) : Binary64 :=
  if 0 ≤ e then nearest negative (m <<< e.toNat) 1 else nearest negative m (1 <<< (-e).toNat)

def ofNat (n : Nat) : Binary64 := nearest false n 1

def ofInt (i : Int) : Binary64 := nearest (i < 0) i.natAbs 1

def isNegative : Binary64 → Bool
  | .finite negative _ _ => negative
  | .infinite negative => negative
  | .nan => false

def isFinite : Binary64 → Bool
  | .finite .. => true
  | _ => false

def neg : Binary64 → Binary64
  | .finite negative m e => .finite (!negative) m e
  | .infinite negative => .infinite (!negative)
  | .nan => .nan

def mul : Binary64 → Binary64 → Binary64
  | .nan, _ => .nan
  | _, .nan => .nan
  | .infinite s, .infinite t => .infinite (s != t)
  | .infinite s, .finite t m _ => if m = 0 then .nan else .infinite (s != t)
  | .finite s m _, .infinite t => if m = 0 then .nan else .infinite (s != t)
  | .finite s m e, .finite t n f => scaled (s != t) (m * n) (e + f)

def div : Binary64 → Binary64 → Binary64
  | .nan, _ => .nan
  | _, .nan => .nan
  | .infinite _, .infinite _ => .nan
  | .infinite s, .finite t _ _ => .infinite (s != t)
  | .finite s _ _, .infinite t => zero (s != t)
  | .finite s m e, .finite t n f =>
    if n = 0 then if m = 0 then .nan else .infinite (s != t)
    else if f ≤ e then nearest (s != t) (m <<< (e - f).toNat) n
    else nearest (s != t) m (n <<< (f - e).toNat)

/-- The signed integer `m * 2 ^ (e - base)` of a finite number whose exponent is
at least `base`. -/
def alignedTo (base : Int) (negative : Bool) (m : Nat) (e : Int) : Int :=
  let magnitude : Int := (m <<< (e - base).toNat : Nat)
  if negative then -magnitude else magnitude

def add : Binary64 → Binary64 → Binary64
  | .nan, _ => .nan
  | _, .nan => .nan
  | .infinite s, .infinite t => if s = t then .infinite s else .nan
  | .infinite s, .finite .. => .infinite s
  | .finite .., .infinite t => .infinite t
  | .finite s m e, .finite t n f =>
    let base := min e f
    let total := alignedTo base s m e + alignedTo base t n f
    if total = 0 then zero (s && t)
    else scaled (total < 0) total.natAbs base

/-- The numeric order; false as soon as one side is not a number. -/
def lt : Binary64 → Binary64 → Bool
  | .nan, _ => false
  | _, .nan => false
  | .infinite s, .infinite t => s && !t
  | .infinite s, .finite .. => s
  | .finite .., .infinite t => !t
  | .finite s m e, .finite t n f =>
    let base := min e f
    alignedTo base s m e < alignedTo base t n f

/-- Numeric equality: the two zeros are equal, and nothing equals a NaN. -/
def sameValue : Binary64 → Binary64 → Bool
  | .finite s m e, .finite t n f => (m == 0 && n == 0) || (s == t && m == n && e == f)
  | .infinite s, .infinite t => s == t
  | _, _ => false

/-- Repeated squaring from the least significant bit of the exponent: the running
square is multiplied in for every bit that is set. -/
def powLoop (square result : Binary64) (n : Nat) : Binary64 :=
  let result := if n % 2 = 1 then result.mul square else result
  if h : n / 2 = 0 then result else powLoop (square.mul square) result (n / 2)
termination_by n
decreasing_by omega

/-- The `n`-th power by repeated squaring, one rounding for each product. -/
def pow (x : Binary64) (n : Nat) : Binary64 := powLoop x (ofNat 1) n

/-- The sign bit, the eleven exponent bits and the 52 fraction bits. -/
def toBits : Binary64 → Nat
  | .nan => 0x7ff8000000000000
  | .infinite negative => (if negative then 1 <<< 63 else 0) + 0x7ff0000000000000
  | .finite negative m e =>
    let field := if m < 1 <<< 52 then 0 else (e + 1075).toNat
    (if negative then 1 <<< 63 else 0) + field <<< 52 + m % (1 <<< 52)

end Binary64

end AdmissionCache

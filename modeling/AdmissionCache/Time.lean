import AdmissionCache.Numeric.Binary64

namespace AdmissionCache

/-- A length of time. Durations have 64 bits for the seconds and instants 63, so sums are partial:
`Duration.add?` and `Instant.add?` are `none` where the sum does not fit. -/
@[ext] structure Duration where
  nanos : Nat
  deriving DecidableEq, Repr, Inhabited

/-- A point in time, counted from the start of the clock. -/
@[ext] structure Instant where
  nanos : Nat
  deriving DecidableEq, Repr, Inhabited

namespace Duration

def nanosPerSecond : Nat := 1000000000

def nanosPerMilli : Nat := 1000000

/-- Every duration has fewer nanoseconds than this. -/
def bound : Nat := 1 <<< 64 * nanosPerSecond

def ofSecs (n : Nat) : Duration := ⟨n * nanosPerSecond⟩

def ofMillis (n : Nat) : Duration := ⟨n * nanosPerMilli⟩

def zero : Duration := ⟨0⟩

def isZero (d : Duration) : Bool := d.nanos == 0

def min (a b : Duration) : Duration := ⟨Nat.min a.nanos b.nanos⟩

/-- The sum of two durations, if it is one. -/
def add? (a b : Duration) : Option Duration :=
  if a.nanos + b.nanos < bound then some ⟨a.nanos + b.nanos⟩ else none

/-- The exact number of seconds, rounded to a whole number of nanoseconds, a half to
the even one. There is none for a negative number, an infinity, a NaN or a number of
seconds beyond 64 bits. -/
def ofSeconds? : Binary64 → Option Duration
  | .finite negative m e =>
    if negative && m ≠ 0 then none
    else
      let nanos :=
        if 0 ≤ e then m <<< e.toNat * nanosPerSecond
        else roundHalfEven (m * nanosPerSecond) (1 <<< (-e).toNat)
      if nanos < bound then some ⟨nanos⟩ else none
  | _ => none

/-- Whole seconds and the fraction of a second, each rounded to binary64 and added. -/
def toSeconds (d : Duration) : Binary64 :=
  (Binary64.ofNat (d.nanos / nanosPerSecond)).add
    ((Binary64.ofNat (d.nanos % nanosPerSecond)).div (.ofNat nanosPerSecond))

end Duration

namespace Instant

/-- Every instant lies fewer nanoseconds than this after the start of the clock. -/
def bound : Nat := 1 <<< 63 * Duration.nanosPerSecond

def origin : Instant := ⟨0⟩

def ofMillis (n : Nat) : Instant := ⟨n * Duration.nanosPerMilli⟩

/-- Whole milliseconds since the start of the clock. -/
def millis (t : Instant) : Nat := t.nanos / Duration.nanosPerMilli

/-- The instant `d` after `t`, if the clock can show it. -/
def add? (t : Instant) (d : Duration) : Option Instant :=
  if t.nanos + d.nanos < bound then some ⟨t.nanos + d.nanos⟩ else none

/-- The instant `d` after `t` on an unbounded clock. -/
def after (t : Instant) (d : Duration) : Instant := ⟨t.nanos + d.nanos⟩

/-- The time from `earlier` to `t`, zero if `earlier` lies ahead. -/
def since (t earlier : Instant) : Duration := ⟨t.nanos - earlier.nanos⟩

/-- The first whole millisecond at or after `t`, when a timer set for `t` fires. -/
def ceilMilli (t : Instant) : Instant :=
  .ofMillis ((t.nanos + (Duration.nanosPerMilli - 1)) / Duration.nanosPerMilli)

theorem le_ceilMilli (t : Instant) : t.nanos ≤ t.ceilMilli.nanos := by
  simp only [ceilMilli, ofMillis, Duration.nanosPerMilli]
  omega

theorem ceilMilli_lt (t : Instant) : t.ceilMilli.nanos < t.nanos + Duration.nanosPerMilli := by
  simp only [ceilMilli, ofMillis, Duration.nanosPerMilli]
  omega

theorem ceilMilli_mono {s t : Instant} (le : s.nanos ≤ t.nanos) : s.ceilMilli.nanos ≤ t.ceilMilli.nanos := by
  simp only [ceilMilli, ofMillis, Duration.nanosPerMilli]
  omega

/-- The clock shows a whole millisecond when a timer has fired. -/
theorem ceilMilli_ceilMilli (t : Instant) : t.ceilMilli.ceilMilli = t.ceilMilli := by
  ext
  simp only [ceilMilli, ofMillis, Duration.nanosPerMilli]
  omega

end Instant

end AdmissionCache

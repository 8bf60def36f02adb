import AdmissionCache.Time

namespace AdmissionCache

/-- A source of ticks. The next one is never due if the clock cannot show its instant. -/
structure Ticker where
  period : Duration
  due : Option Instant
  deriving DecidableEq, Repr

namespace Ticker

/-- A tick is late if it comes more than this after it was due. -/
def tolerance : Duration := .ofMillis 5

/-- Ticks of which the first is due at once. -/
def fromNow (period : Duration) (now : Instant) : Ticker := ⟨period, some now⟩

/-- Ticks of which the first is due after one period. -/
def afterPeriod (period : Duration) (now : Instant) : Ticker := ⟨period, now.add? period⟩

def wake? (t : Ticker) : Option Instant := t.due.map (·.ceilMilli)

def isDue (t : Ticker) (now : Instant) : Bool := t.wake?.any fun wake => wake.nanos ≤ now.nanos

/-- The ticks that follow the one that came at `now`: one period after it was due, or
after it came if it came late. -/
def next (t : Ticker) (now : Instant) : Ticker :=
  { t with due := t.due.bind fun due =>
    if (due.after tolerance).nanos < now.nanos then now.add? t.period else due.add? t.period }

end Ticker

end AdmissionCache

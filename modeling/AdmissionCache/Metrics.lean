namespace AdmissionCache

inductive MetricKind
  | counter
  | gauge
  | histogram
  deriving DecidableEq, Repr

def MetricKind.name : MetricKind → String
  | .counter => "Counter"
  | .gauge => "Gauge"
  | .histogram => "Histogram"

/-- The metrics that the service records. -/
inductive Metric
  | lookup
  | cacheSize
  | evictions
  | fetchScheduled
  | batchSize
  | fetchResult
  | requestDuration
  | requestAttempts
  | requestFailures
  | sharedResult
  | overridesReload
  | overridesChanged
  | globalFetch
  | admissionRejected
  deriving DecidableEq, Repr

namespace Metric

/-- All metrics, in the order in which they are announced. -/
def all : List Metric :=
  [.lookup, .cacheSize, .evictions, .fetchScheduled, .batchSize, .fetchResult, .requestDuration,
    .requestAttempts, .requestFailures, .sharedResult, .overridesReload, .overridesChanged,
    .globalFetch, .admissionRejected]

def name : Metric → String
  | .lookup => "project_cache.lookup"
  | .cacheSize => "project_cache.size"
  | .evictions => "project_cache.evictions"
  | .fetchScheduled => "project_cache.fetch.scheduled"
  | .batchSize => "project_cache.fetch.batch_size"
  | .fetchResult => "project_cache.fetch.result"
  | .requestDuration => "upstream.request.duration"
  | .requestAttempts => "upstream.request.attempts"
  | .requestFailures => "upstream.request.failures"
  | .sharedResult => "shared_cache.result"
  | .overridesReload => "overrides.reload"
  | .overridesChanged => "overrides.changed"
  | .globalFetch => "global_config.fetch"
  | .admissionRejected => "admission.rejected"

def kind : Metric → MetricKind
  | .cacheSize => .gauge
  | .batchSize => .histogram
  | .requestDuration => .histogram
  | .requestAttempts => .histogram
  | _ => .counter

def description : Metric → String
  | .lookup => "Number of project cache reads, tagged by decision"
  | .cacheSize => "Number of project keys held in the cache"
  | .evictions => "Number of expired entries removed from the cache"
  | .fetchScheduled => "Number of project keys queued for a fetch"
  | .batchSize => "Number of project keys resolved in a single batch"
  | .fetchResult => "Resolved project keys, tagged by source and result"
  | .requestDuration => "Time to complete an upstream query including retries in seconds"
  | .requestAttempts => "Number of attempts made for a single upstream query"
  | .requestFailures => "Number of upstream queries that failed, tagged by error kind"
  | .sharedResult => "Shared cache reads, tagged by hit, miss, or error"
  | .overridesReload => "Number of override directory scans"
  | .overridesChanged => "Number of project configs changed by an override reload"
  | .globalFetch => "Global config fetches, tagged by result"
  | .admissionRejected => "Number of rejected items, tagged by reason"

end Metric

/-- Labels, in the order of their names. -/
abbrev Labels := List (String × String)

/-- One recording: an increment of a counter, a new value of a gauge, or a value of a
histogram, which for durations is a number of nanoseconds. -/
structure Sample where
  metric : Metric
  labels : Labels := []
  value : Nat
  deriving DecidableEq, Repr

/-- The sum of what a counter recorded under the given labels. -/
def counterTotal (samples : List Sample) (metric : Metric) (labels : Labels) : Nat :=
  let mine := samples.filter fun s => s.metric = metric ∧ s.labels = labels
  (mine.map (·.value)).foldr (· + ·) 0

/-- A line of a report: the samples that share a metric and labels. -/
structure MetricRow where
  metric : Metric
  labels : Labels
  value : Nat ⊕ List Nat

namespace MetricRow

def labelText (labels : Labels) : String :=
  String.intercalate "," (labels.map fun l => l.1 ++ "=" ++ l.2)

/-- Adds one group to the groups found so far, if it is new. -/
def addGroup (groups : List (Metric × Labels)) (s : Sample) : List (Metric × Labels) :=
  if groups.contains (s.metric, s.labels) then groups else (s.metric, s.labels) :: groups

/-- The row of one group. A histogram lists the values among the `recent` samples in
order, a gauge shows its last value, and a counter the sum of all. -/
def ofGroup (samples recent : List Sample) (group : Metric × Labels) : MetricRow :=
  let mine := fun s : Sample => decide (s.metric = group.1 ∧ s.labels = group.2)
  match group.1.kind with
  | .histogram =>
    ⟨group.1, group.2, .inr (((recent.filter mine).map (·.value)).mergeSort (· ≤ ·))⟩
  | .gauge => ⟨group.1, group.2, .inl (((samples.filter mine).map (·.value)).getLast?.getD 0)⟩
  | .counter => ⟨group.1, group.2, .inl (counterTotal samples group.1 group.2)⟩

def before (a b : MetricRow) : Bool :=
  if a.metric.name = b.metric.name then labelText a.labels ≤ labelText b.labels
  else a.metric.name ≤ b.metric.name

/-- A row for every metric and label set that was ever recorded, by name and labels. -/
def report (samples recent : List Sample) : List MetricRow :=
  ((samples.foldl addGroup []).map (ofGroup samples recent)).mergeSort before

end MetricRow

end AdmissionCache

import AdmissionCache.Admission
import AdmissionCache.Cache.Locked
import AdmissionCache.Cache.Slot
import AdmissionCache.Cache.Table
import AdmissionCache.Cache.Threads
import AdmissionCache.CommandLine.Invocation
import AdmissionCache.CommandLine.LogFilter
import AdmissionCache.CommandLine.Startup
import AdmissionCache.Compression.Bits
import AdmissionCache.Compression.Checksum
import AdmissionCache.Compression.Deflate
import AdmissionCache.Compression.Format
import AdmissionCache.Compression.Gzip
import AdmissionCache.Compression.PrefixCode
import AdmissionCache.Compression.Zstd.Frame
import AdmissionCache.Compression.Zstd.Fse
import AdmissionCache.Compression.Zstd.Literals
import AdmissionCache.Compression.Zstd.Sequences
import AdmissionCache.Freshness
import AdmissionCache.Json.Literal
import AdmissionCache.Json.Printer
import AdmissionCache.Json.Value
import AdmissionCache.Json.Written
import AdmissionCache.KeyMap
import AdmissionCache.Main
import AdmissionCache.Metrics
import AdmissionCache.Numeric.Binary64
import AdmissionCache.Numeric.Shortest
import AdmissionCache.Overrides.Directory
import AdmissionCache.Overrides.Snapshot
import AdmissionCache.Project.Config
import AdmissionCache.Proofs.Cache.Completions
import AdmissionCache.Proofs.Cache.Eviction
import AdmissionCache.Proofs.Cache.Linearization
import AdmissionCache.Proofs.Cache.Operations
import AdmissionCache.Proofs.Cache.Unwinding
import AdmissionCache.Proofs.Cache.Views
import AdmissionCache.Proofs.Compression.Bits
import AdmissionCache.Proofs.Compression.Storing
import AdmissionCache.Proofs.Compression.Transparency
import AdmissionCache.Proofs.Json.Sameness
import AdmissionCache.Proofs.Numeric.Arithmetic
import AdmissionCache.Proofs.Overrides.Authority
import AdmissionCache.Proofs.Overrides.Enumeration
import AdmissionCache.Proofs.Overrides.Mirroring
import AdmissionCache.Proofs.Overrides.Removal
import AdmissionCache.Proofs.Query.Attempts
import AdmissionCache.Proofs.Query.Budget
import AdmissionCache.Proofs.Query.Placement
import AdmissionCache.Proofs.Query.Retries
import AdmissionCache.Proofs.Query.Waits
import AdmissionCache.Proofs.Query.Wire
import AdmissionCache.Proofs.Record.Faults
import AdmissionCache.Proofs.Record.Mappings
import AdmissionCache.Proofs.Service.Accounting
import AdmissionCache.Proofs.Service.Batches
import AdmissionCache.Proofs.Service.Chronicle
import AdmissionCache.Proofs.Service.Completion
import AdmissionCache.Proofs.Service.Deferral
import AdmissionCache.Proofs.Service.Evidence
import AdmissionCache.Proofs.Service.Finishing
import AdmissionCache.Proofs.Service.Learning
import AdmissionCache.Proofs.Service.Lifetime
import AdmissionCache.Proofs.Service.Moves
import AdmissionCache.Proofs.Service.Outage
import AdmissionCache.Proofs.Service.Ownership
import AdmissionCache.Proofs.Service.Parallel
import AdmissionCache.Proofs.Service.Precedence
import AdmissionCache.Proofs.Service.Provenance
import AdmissionCache.Proofs.Service.Revisions
import AdmissionCache.Proofs.Service.Revival
import AdmissionCache.Proofs.Service.Samples
import AdmissionCache.Proofs.Service.Shutdown
import AdmissionCache.Proofs.Service.Spacing
import AdmissionCache.Proofs.Service.Splitting
import AdmissionCache.Proofs.Service.Sweeping
import AdmissionCache.Proofs.Service.Verdicts
import AdmissionCache.Proofs.Settings.Loading
import AdmissionCache.Proofs.Shared.Separation
import AdmissionCache.Proofs.Timeline.Errands
import AdmissionCache.Proofs.Timeline.Runs
import AdmissionCache.Proofs.Url.Paths
import AdmissionCache.Query.Course
import AdmissionCache.Query.Endpoint
import AdmissionCache.Query.Fault
import AdmissionCache.Query.Request
import AdmissionCache.Query.Response
import AdmissionCache.Query.RetryPlan
import AdmissionCache.Query.Status
import AdmissionCache.Record
import AdmissionCache.Service.Client
import AdmissionCache.Service.Event
import AdmissionCache.Service.Resolution
import AdmissionCache.Service.Route
import AdmissionCache.Service.State
import AdmissionCache.Service.Worker
import AdmissionCache.Settings.Gateway
import AdmissionCache.Settings.Sections
import AdmissionCache.Settings.Service
import AdmissionCache.Settings.Sources
import AdmissionCache.Shared.Store
import AdmissionCache.Text.Blank
import AdmissionCache.Time
import AdmissionCache.Timeline.Authority
import AdmissionCache.Timeline.Basic
import AdmissionCache.Timeline.Ticker
import AdmissionCache.Url.Address
import AdmissionCache.Url.Host
import AdmissionCache.Url.Percent
import AdmissionCache.Url.Punycode
import AdmissionCache.Yaml.Cursor
import AdmissionCache.Yaml.Node
import AdmissionCache.Yaml.Scalar
import AdmissionCache.Yaml.Token
import AdmissionCache.Yaml.Value

import AdmissionCache.Query.Course
import AdmissionCache.Query.Endpoint
import AdmissionCache.Settings.Service

namespace AdmissionCache

/-- The sources in use. A shared store is given by what its keys start with, overrides by
their directory. -/
structure SourceSettings where
  endpoint : Url
  query : QuerySettings
  shared : Option String
  overrides : Option String
  deriving DecidableEq, Repr

/-- Why no service can be built from the settings. -/
inductive SourceFault
  | authority (fault : EndpointFault)
  deriving DecidableEq, Repr

def SourceFault.message : SourceFault → String
  | .authority fault => "could not set up upstream transport: " ++ fault.message

/-- The sources of the settings. A shared store that does not answer is left out. -/
def Settings.sources (s : Settings) (storeAnswers : Bool) : Except SourceFault SourceSettings :=
  match s.authority.url.endpoint with
  | .error fault => .error (.authority fault)
  | .ok endpoint => .ok {
      endpoint
      query := ⟨s.limits.queryTimeout, s.authority.timeout, s.authority.plan⟩
      shared := if storeAnswers then s.shared.map (·.keyPrefix) else none
      overrides := s.overrides.map (·.path) }

end AdmissionCache

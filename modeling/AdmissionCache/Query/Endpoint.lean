import AdmissionCache.Url.Address

namespace AdmissionCache

/-- The URL of the authority has no path below which an endpoint could lie. -/
inductive EndpointFault
  | noPath
  deriving DecidableEq, Repr

def EndpointFault.message : EndpointFault → String
  | .noPath => "invalid upstream url: relative URL with a cannot-be-a-base base"

/-- The path of the endpoint below the authority's own. -/
def endpointPath : String := "api/0/relays/projectconfigs/"

namespace Url

/-- The URL with a path that counts as a directory. -/
def asDirectory (base : Url) : Url :=
  if base.pathText.toList.getLast? = some '/' then base else base.setPath (base.pathText ++ "/")

/-- The endpoint below a URL. Query and fragment of the URL are not kept. -/
def endpoint (base : Url) : Except EndpointFault Url :=
  match base.asDirectory.resolve? endpointPath with
  | some url => .ok (url.appendPair "version" "3")
  | none => .error .noPath

end Url

end AdmissionCache

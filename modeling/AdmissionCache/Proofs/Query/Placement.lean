import AdmissionCache.Proofs.Url.Paths
import AdmissionCache.Query.Endpoint

namespace AdmissionCache

namespace Url

/-- Whether something can be relative to a URL. -/
def CanBeBase (u : Url) : Prop := ∃ parts, u.path = .segments parts

/-- Two URLs with the same scheme, credentials, host and port. -/
structure SameAuthority (u v : Url) : Prop where
  scheme : u.scheme = v.scheme
  username : u.username = v.username
  password : u.password = v.password
  host : u.host = v.host
  portNumber : u.portNumber = v.portNumber

/-- The segments of the endpoint's path. -/
def endpointParts : List String := ["api", "0", "relays", "projectconfigs", ""]

/-- The segments of a path up to its last slash, if it ends in one, and all of them otherwise. -/
def directory (parts : List String) : List String := if parts.getLast? = some "" then parts.dropLast else parts

theorem directory_append_empty (parts : List String) : directory (parts ++ [""]) = parts := by
  rw [directory, List.getLast?_concat, if_pos rfl, List.dropLast_concat]

/-- A path that ends in a slash is its directory with that slash, and any other one is a directory by itself. -/
theorem directory_cases {scheme : String} {parts : List String} (normal : NormalPath scheme parts) :
    ((written parts).toList.getLast? = some '/' ∧ directory parts ++ [""] = parts) ∨
      ((written parts).toList.getLast? ≠ some '/' ∧ directory parts = parts) := by
  rw [ne_eq, written_getLast? normal]
  by_cases ended : parts.getLast? = some ""
  · obtain ⟨front, rfl⟩ := List.getLast?_eq_some_iff.mp ended
    rw [directory_append_empty]
    exact .inl ⟨ended, rfl⟩
  · exact .inr ⟨ended, if_neg ended⟩

theorem splitAt_endpointPath (special : Bool) :
    Host.splitAt (isSlash special) endpointPath.toList = endpointParts.map String.toList := by
  cases special <;> decide

theorem normalSegment_endpointParts (special : Bool) : ∀ p ∈ endpointParts, NormalSegment special p := by
  have encoded : ∀ p ∈ endpointParts, encodeText inPath p.toList = p := by decide
  have whole : ∀ p ∈ endpointParts, p.toList.any (isSlash special) = false := by cases special <;> decide
  have notDot : ∀ p ∈ endpointParts, ¬ (p.toList = ['.'] ∨ p.toList.map Char.toLower = ['%', '2', 'e']) := by decide
  have notDoubleDot : ∀ p ∈ endpointParts, p.toList.map Char.toLower ∉
      [['.', '.'], ['.', '%', '2', 'e'], ['%', '2', 'e', '.'], ['%', '2', 'e', '%', '2', 'e']] := by decide
  exact fun p member => ⟨encoded p member,
    fun c inside => Bool.eq_false_iff.mpr (List.any_eq_false.mp (whole p member) c inside),
    Bool.eq_false_iff.mpr (mt isDot_iff.mp (notDot p member)),
    Bool.eq_false_iff.mpr (mt isDoubleDot_iff.mp (notDoubleDot p member))⟩

theorem not_isDrive_endpointParts : ∀ p ∈ endpointParts, isDrive p.toList = false := by decide

theorem written_empty : written [""] = "/" := by decide

theorem written_endpointParts : written endpointParts = "/" ++ endpointPath := by decide

theorem shorten_append_empty (scheme : String) (parts : List String) : shorten scheme (parts ++ [""]) = parts := by
  rcases parts with _ | ⟨p, _ | ⟨q, rest⟩⟩
  · simp [shorten]
  · rfl
  · have dropped : (p :: q :: rest ++ [""]).dropLast = p :: q :: rest := List.dropLast_concat
    exact dropped

variable {u : Url} {parts : List String}

/-- What ends in a slash keeps all its other segments below it. -/
theorem resolve?_endpointPath (path : u.path = .segments (parts ++ [""])) (normal : NormalPath u.scheme parts) :
    u.resolve? endpointPath =
      some { u with path := .segments (parts ++ endpointParts), query := none, fragment := none } := by
  have ownDrive : (endpointParts.map String.toList).head?.any isDrive = false := by decide
  have extended : NormalPath u.scheme (parts ++ endpointParts) :=
    normal.append (normalSegment_endpointParts _) fun _ _ p member drive => by
      rw [not_isDrive_endpointParts p member] at drive
      cases drive
  rw [resolve?, path]
  simp only [splitAt_endpointPath, ownDrive, Bool.and_false, Bool.false_eq_true, if_false, shorten_append_empty,
    addSegments_of_normal extended]

theorem directory_normal {scheme : String} (normal : NormalPath scheme parts) : NormalPath scheme (directory parts) := by
  rcases directory_cases normal with ⟨_, whole⟩ | ⟨_, same⟩
  · exact normal.front ⟨[""], whole⟩
  · rwa [same]

theorem asDirectory_of_segments (path : u.path = .segments parts) (normal : NormalPath u.scheme parts) :
    u.asDirectory = { u with path := .segments (directory parts ++ [""]) } := by
  rw [asDirectory, pathText_of_segments path]
  rcases directory_cases normal with ⟨ended, whole⟩ | ⟨notEnded, same⟩
  · rw [if_pos ended, whole, ← path]
  · have text : written parts ++ "/" = written (parts ++ [""]) := by rw [written_append, written_empty]
    have reread : segments u.scheme (written (parts ++ [""])).toList = parts ++ [""] :=
      segments_written normal.append_empty (by simp)
    rw [if_neg notEnded, same, setPath, path]
    simp only [text, reread]

/-- The endpoint lies in the directory that the URL stands for. -/
theorem endpoint_of_segments (path : u.path = .segments parts) (normal : NormalPath u.scheme parts) :
    u.endpoint = .ok { u with
      path := .segments (directory parts ++ endpointParts), query := some "version=3", fragment := none } := by
  rw [endpoint, asDirectory_of_segments path normal]
  have resolved := resolve?_endpointPath (u := { u with path := .segments (directory parts ++ [""]) }) rfl
    (directory_normal normal)
  rw [resolved]
  rfl

theorem written_directory {scheme : String} (normal : NormalPath scheme parts) :
    written (directory parts ++ endpointParts) =
      written parts ++ (if (written parts).toList.getLast? = some '/' then "" else "/") ++ endpointPath := by
  rw [written_append, written_endpointParts]
  rcases directory_cases normal with ⟨ended, whole⟩ | ⟨notEnded, same⟩
  · have text : written parts = written (directory parts) ++ "/" := by
      rw [← written_empty, ← written_append, whole]
    rw [if_pos ended, text, String.append_empty, String.append_assoc]
  · rw [if_neg notEnded, same, String.append_assoc]

theorem endpoint_of_plain {text : String} (path : u.path = .plain text) : u.endpoint = .error .noPath := by
  have directory : u.asDirectory.path = .plain text := by
    rw [asDirectory, setPath, path]
    split <;> exact path
  rw [endpoint, resolve?, directory]

/-- Queries go below the path of the authority, all of it. If something can be relative to the URL of the
authority, the endpoint has its scheme, credentials, host and port. Its path is that of the authority, with
a slash put at its end if it has none there, and the path of the endpoint after it; its query says nothing
but the version, and it has no fragment, whatever query and fragment the authority has. So a slash at the
end of the authority's path makes no difference. To a URL that nothing can be relative to there is no
endpoint. -/
theorem endpoint_keeps_base {text : String} {base : Url} (parsed : parse? text = some base) :
    (¬ base.CanBeBase → base.endpoint = .error .noPath) ∧
      (base.CanBeBase →
        (∃ e, base.endpoint = .ok e ∧ SameAuthority e base ∧
          e.pathText = base.pathText ++ (if base.pathText.toList.getLast? = some '/' then "" else "/") ++
            "api/0/relays/projectconfigs/" ∧
          e.query = some "version=3" ∧ e.fragment = none) ∧
        ∀ text' twin, parse? text' = some twin → twin.CanBeBase → SameAuthority twin base →
          base.pathText.toList.getLast? ≠ some '/' → twin.pathText = base.pathText ++ "/" →
          twin.endpoint = base.endpoint) := by
  constructor
  · intro useless
    cases path : base.path with
    | plain text => exact endpoint_of_plain path
    | segments parts => exact absurd ⟨parts, path⟩ useless
  · rintro ⟨parts, path⟩
    have normal := parse?_normal parsed path
    have below := endpoint_of_segments path normal
    rw [pathText_of_segments path]
    refine ⟨⟨_, below, ⟨rfl, rfl, rfl, rfl, rfl⟩, written_directory normal, rfl, rfl⟩, ?_⟩
    rintro text' twin parsed' ⟨parts', path'⟩ ⟨scheme, username, password, host, portNumber⟩ notEnded slashed
    have normal' := parse?_normal parsed' path'
    rw [pathText_of_segments path', ← written_empty, ← written_append] at slashed
    have longer : parts' = parts ++ [""] := written_inj normal' (scheme ▸ normal.append_empty) slashed
    have same : directory parts' = directory parts := by
      rw [longer, directory_append_empty]
      exact ((directory_cases normal).resolve_left fun ended => notEnded ended.1).2.symm
    rw [endpoint_of_segments path' normal', below, scheme, username, password, host, portNumber, same]

/-- The path of an authority is kept, with or without a slash at its end, and its query is not. -/
theorem endpoint_below_prefix :
    let base : Url := {
      scheme := "http", host := some (.name "sentry.internal"), path := .segments ["prefix"],
      query := some "a=1", fragment := some "b" }
    let twin : Url := { scheme := "http", host := some (.name "sentry.internal"), path := .segments ["prefix", ""] }
    parse? "http://sentry.internal/prefix?a=1#b" = some base ∧ parse? "http://sentry.internal/prefix/" = some twin ∧
      base.CanBeBase ∧ twin.CanBeBase ∧ SameAuthority twin base ∧ base.pathText.toList.getLast? ≠ some '/' ∧
      twin.pathText = base.pathText ++ "/" ∧ twin.endpoint = base.endpoint ∧
      ∃ e, base.endpoint = .ok e ∧ e.pathText = "/prefix/api/0/relays/projectconfigs/" := by
  intro base twin
  have parsed : parse? "http://sentry.internal/prefix?a=1#b" = some base := by decide +kernel
  have parsedTwin : parse? "http://sentry.internal/prefix/" = some twin := by decide +kernel
  have same : SameAuthority twin base := ⟨rfl, rfl, rfl, rfl, rfl⟩
  have notEnded : base.pathText.toList.getLast? ≠ some '/' := by decide
  have slashed : twin.pathText = base.pathText ++ "/" := by decide
  obtain ⟨⟨e, below, _, path, _⟩, twins⟩ := (endpoint_keeps_base parsed).2 ⟨_, rfl⟩
  rw [if_neg notEnded] at path
  exact ⟨parsed, parsedTwin, ⟨_, rfl⟩, ⟨_, rfl⟩, same, notEnded, slashed,
    twins _ twin parsedTwin ⟨_, rfl⟩ same notEnded slashed, e, below, path⟩

end Url

end AdmissionCache

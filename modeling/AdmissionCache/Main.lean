import AdmissionCache.CommandLine.Startup

open AdmissionCache

/-- What lies at a path of this machine. -/
def fileState (path : String) : IO FileState := do
  try
    return .file (← IO.FS.readFile path)
  catch
    | .inappropriateType .. => return .directory
    | _ => return .missing

/-- This machine, as far as it is known without any connection. -/
def thisMachine (path : String) : IO Machine := do
  let state ← fileState path
  let logFilter ← IO.getEnv "RUST_LOG"
  return {
    file := fun _ => state
    logFilter
    resolves := Machine.resolvesAlone
    canListen := Machine.canListenBeside [] }

def main (args : List String) : IO UInt32 := do
  let invocation := Invocation.ofArgs args
  let path := match invocation with
    | .command _ path => path
    | _ => ""
  match invocation.exit? (← thisMachine path) with
  | some exit =>
    IO.print exit.out
    IO.eprint exit.err
    return .ofNat exit.code
  | none => return 0

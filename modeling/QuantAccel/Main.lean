import QuantAccel.CommandLine

/-!
# The program

Reads the files that the arguments name, runs, and writes the transcript. Events
go to the error output, as far as the environment asks for them.
-/

open QuantAccel

/-- The number of an error of the operating system, which comes with either
sign. -/
def errorNumber (code : UInt32) : UInt32 :=
  min code (0 - code)

/-- The text of a file, or why it cannot be read. -/
def readText (path : String) : IO (Except ReadFault String) := do
  try
    return .ok (← IO.FS.readFile path)
  catch
    | .noFileOrDirectory .. => return .error .missing
    | .permissionDenied .. => return .error .denied
    | .inappropriateType _ code _ =>
      return .error (if errorNumber code = 20 then .notDirectory else .directory)
    | .userError _ => return .error .notText
    | e@(.invalidArgument _ code _) =>
      return .error (if errorNumber code = 36 then .nameTooLong else .other (toString e))
    | e => return .error (.other (toString e))

def main (arguments : List String) : IO UInt32 := do
  let paths := match CommandLine.Options.read {} arguments with
    | .ok o => o.hardwarePath.toList ++ o.simulationPath.toList
    | .error _ => []
  let texts ← paths.mapM fun path => return (path, ← readText path)
  let files : CommandLine.Files := fun path =>
    (texts.lookup path).getD (.error .missing)
  let transcript := CommandLine.run files arguments
  if let some level := (← IO.getEnv "RUST_LOG").bind Level.ofName? then
    for e in transcript.events do
      if e.level.rank ≤ level.rank then IO.eprintln e.line
  for line in transcript.output do
    IO.println line
  for line in transcript.errors do
    IO.eprintln line
  return UInt32.ofNat transcript.status

import ApiCommands.Program

/-!
# The command line program

Reads the environment and the file that the document's source names, runs, and writes what the run
says.
-/

namespace ApiCommands.Program

def findEntry (path : String) : IO Source.Entry := do
  try
    let bytes ← IO.FS.readBinFile path
    return .file bytes.toList
  catch e =>
    match e with
    | .inappropriateType .. => return .folder
    | _ => return .missing

/-- The variables that a run looks at. -/
def variableNames : List String :=
  [sourceVariable, Settings.serverVariable, Settings.tokenVariable, Settings.outputVariable,
    timeoutVariable]

def readVariables : List String → IO (List (String × String))
  | [] => return []
  | name :: rest => do
    let others ← readVariables rest
    match ← IO.getEnv name with
    | some value => return (name, value) :: others
    | none => return others

def noticeLine (n : Notice) : String :=
  match n.level with
  | .warn => "WARN " ++ n.text
  | .debug => "DEBUG " ++ n.text

def write (text : String) : IO Sink := do
  try
    let out ← IO.getStdout
    out.putStr text
    out.flush
    return .takesAll
  catch e =>
    match e with
    | .resourceVanished .. => return .closed
    | _ => return .full

end ApiCommands.Program

open ApiCommands Program in
def main (words : List String) : IO UInt32 := do
  let env ← readVariables variableNames
  let source := Text.trim ((env.lookup sourceVariable).getD "")
  let entry ← findEntry (Source.pathOf source)
  let world : World :=
    { places := ⟨fun _ => entry, fun _ => none⟩, carrier := noNetwork, env := (env.lookup ·) }
  let (notices, report) := run world .takesAll words
  for n in shownNotices words notices do
    IO.eprintln (noticeLine n)
  let sink ← write report.stdout
  let (_, report) := run world sink words
  IO.eprint report.stderr
  return report.exitCode.toUInt32

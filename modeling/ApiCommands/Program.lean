import ApiCommands.Command.Compile
import ApiCommands.Command.Written
import ApiCommands.Completion.Bash
import ApiCommands.Completion.Fish
import ApiCommands.Completion.Zsh
import ApiCommands.Output
import ApiCommands.Source.Load
import ApiCommands.Surface.Invocation

namespace ApiCommands

/-!
# The program

A run loads and compiles the document, parses the words of the command line, and then shows the
tree, writes a completion script or sends the request of a command. What is written and the exit
status are values.
-/

/-- The completion script of a command line for a shell. -/
def Completion.script (c : Spec) (shell : Shell) : String :=
  let ms := menus [] [] c
  match shell with
  | .bash => Bash.script c.name ms
  | .zsh => Zsh.script c.name ms
  | .fish => Fish.script c.name ms

namespace Program

def sourceVariable : String := "DOT_AI_SPEC"

structure World where
  places : Source.Places
  carrier : Carrier
  env : String → Option String

/-- The bytes of the document; a source that cannot be read counts as an empty one. -/
def loadDocument (w : World) : List UInt8 × List Notice :=
  match Source.load w.places (w.env sourceVariable) with
  | .ok bytes => (bytes, [])
  | .error f => ([], [.sourceUnreadable f.fullMessage])

/-- The tree of a document; an empty one or one that does not compile has no commands. -/
def compileTree (bytes : List UInt8) : Tree × List Notice :=
  if bytes.isEmpty then ([], [])
  else
    match compile {} bytes with
    | .ok (commands, noticed) =>
      let (tree, renamed) := Tree.build commands
      (tree, noticed ++ renamed)
    | .error f => ([], [.documentUnreadable f.message])

structure Startup where
  bytes : List UInt8
  tree : Tree
  version : String
  notices : List Notice

def startup (w : World) : Startup :=
  let (bytes, loaded) := loadDocument w
  let (tree, compiled) := compileTree bytes
  let counted := if tree.isEmpty then [.noCommands] else []
  ⟨bytes, tree, Document.version bytes, loaded ++ compiled ++ counted⟩

inductive Ending where
  /-- The text is printed as a line. -/
  | print (text : String)
  | rejected (reason : Rejection)
  | failed (failure : Failure)
  /-- The command line names no command; parsing does not let this happen. -/
  | unknownCommand

def ofOutcome : Outcome String → Ending
  | .ok text => .print text
  | .error f => .failed f

def runNode (w : World) (settings : Settings) (n : Node) (values : Values) : Outcome String :=
  match n.endpoint with
  | none => .error (.misuse (.needsSubcommand n.name))
  | some e =>
    (Surface.invoke w.carrier settings e values).map (Output.response settings.output)

/-- Runs what the command line names, which needs the settings. -/
def runNamed (w : World) (tree : Tree) (m : Matches) : Ending :=
  match Settings.resolve m.globalFlags w.env with
  | .error f => .failed f
  | .ok settings =>
    match Surface.findNode tree m with
    | some n => ofOutcome (runNode w settings n m.lastValues)
    | none =>
      if Surface.builtIn? m = some Surface.treeCommand then
        .print (Output.value settings.output (Tree.toValue tree))
      else .unknownCommand

def complete (c : Spec) (shell : Shell) : Ending :=
  if Completion.isWellNamed [] c then .print (Text.trimEnd (Completion.script c shell))
  else .rejected .misnamed

/-- Runs a command line. A completion script needs no settings. -/
def dispatch (w : World) (s : Startup) (m : Matches) : Ending :=
  match Surface.findNode s.tree m, Surface.shell? m with
  | none, some shell => complete (Surface.build s.tree s.version) shell
  | _, _ => runNamed w s.tree m

def ending (w : World) (s : Startup) (words : List String) : Ending :=
  match Surface.parse (Surface.build s.tree s.version) words with
  | .error r => .rejected r
  | .ok m => dispatch w s m

inductive Sink where
  | takesAll
  /-- Nobody reads it. -/
  | closed
  /-- It has no room. -/
  | full
deriving DecidableEq, Repr

structure Report where
  exitCode : Nat
  stdout : String
  stderr : String
deriving DecidableEq, Repr

def errorLine (text : String) : String := "error: " ++ text ++ "\n"

/-- How a program is called. These lines, like the screens below, are worded here in short, not as
an option parser words them. -/
def usage (c : Spec) : String :=
  "Usage: " ++ c.name ++ " [OPTIONS] <COMMAND>\n\nCommands:\n" ++
    String.join (c.subcommands.map fun s => "  " ++ s.name ++ "  " ++ s.about.getD "" ++ "\n")

/-- The screen that stands for a rejection. Its wording is this library's own; that there is one, and
where it goes, is what a run is about. -/
def rejectionText (c : Spec) : Rejection → String
  | .displayHelp => c.about.getD "" ++ "\n\n" ++ usage c
  | .displayVersion => c.name ++ " " ++ c.version.getD "" ++ "\n"
  | .helpForMissing => usage c
  | .missingSubcommand => errorLine "a subcommand is required" ++ "\n" ++ usage c
  | .invalidSubcommand => errorLine "unrecognized subcommand" ++ "\n" ++ usage c
  | .unknownArgument => errorLine "unexpected argument" ++ "\n" ++ usage c
  | .missingRequired => errorLine "a required argument is missing" ++ "\n" ++ usage c
  | .repeated => errorLine "an argument cannot be used twice" ++ "\n" ++ usage c
  | .invalidValue => errorLine "invalid value for an argument" ++ "\n" ++ usage c
  | .unreadableValue => errorLine "unreadable value for an argument" ++ "\n" ++ usage c
  | .needlessValue => errorLine "unexpected value for a flag" ++ "\n" ++ usage c
  | .misnamed => errorLine "the names of a command do not go together"

/-- Prints a line. A reader that has gone ends the run quietly; a full device is an error. -/
def printLine (sink : Sink) (text : String) : Report :=
  let line := Output.line text
  if line = "" then ⟨0, "", ""⟩
  else
    match sink with
    | .takesAll => ⟨0, line, ""⟩
    | .closed => ⟨0, "", ""⟩
    | .full => ⟨1, "", errorLine "No space left on device (os error 28)"⟩

/-- A screen goes to standard output where it was asked for; a write that fails is no error. -/
def printScreen (sink : Sink) (c : Spec) (r : Rejection) : Report :=
  let text := rejectionText c r
  if r.isRequest then ⟨r.exitCode, if sink = .takesAll then text else "", ""⟩
  else ⟨r.exitCode, "", text⟩

def report (sink : Sink) (c : Spec) : Ending → Report
  | .print text => printLine sink text
  | .rejected r => printScreen sink c r
  | .failed f => ⟨f.exitCode, "", errorLine f.message⟩
  | .unknownCommand => ⟨1, "", errorLine "unknown command"⟩

/-- A run: the notices of its start, and what it writes at its end. -/
def run (w : World) (sink : Sink) (words : List String) : List Notice × Report :=
  let s := startup w
  (s.notices, report sink (Surface.build s.tree s.version) (ending w s words))

/-- The notices that are shown: all of them where debugging is asked for, else the warnings. -/
def shownNotices (words : List String) (notices : List Notice) : List Notice :=
  if words.contains "--debug" then notices else notices.filter (·.level == .warn)

end Program

end ApiCommands

import ApiCommands.Decimal.Reading
import ApiCommands.Failure
import ApiCommands.Text.Blank

namespace ApiCommands

/-!
# Settings

Each setting comes from the command line, else from the environment, else from a default. Empty
texts count as not given.
-/

inductive Format where
  | json
  | yaml
deriving DecidableEq, Repr

namespace Format

def name : Format → String
  | json => "json"
  | yaml => "yaml"

def parse (s : String) : Outcome Format :=
  if s = "json" then .ok .json
  else if s = "yaml" then .ok .yaml
  else .error (.misuse (.unsupportedFormat s))

end Format

structure GlobalFlags where
  serverUrl : Option String := none
  token : Option String := none
  output : Option String := none
  timeout : Option Nat := none
deriving DecidableEq, Repr

structure Settings where
  serverUrl : String
  token : Option String
  output : Format
  /-- The seconds after which a request is given up, if it ever is. -/
  timeout : Option Nat
deriving DecidableEq, Repr

namespace Settings

def serverVariable : String := "DOT_AI_URL"

def tokenVariable : String := "DOT_AI_AUTH_TOKEN"

def outputVariable : String := "DOT_AI_OUTPUT_FORMAT"

def defaultServer : String := "http://localhost:3456"

def defaultTimeout : Nat := 300

/-- The text of a flag, else of a variable, that is not empty. -/
def pick (flag fromEnv : Option String) : Option String :=
  Text.unlessEmpty flag <|> Text.unlessEmpty fromEnv

def readTimeout (raw : String) : Outcome Nat :=
  match Decimal.readNat (Nat.pow 2 64) (Text.trim raw) with
  | some n => .ok n
  | none => .error (.misuse (.invalidTimeout raw))

/-- The settings of a run; `env` looks up a variable. -/
def resolve (flags : GlobalFlags) (env : String → Option String) : Outcome Settings := do
  let output ← match pick flags.output (env outputVariable) with
    | some raw => Format.parse raw
    | none => .ok .yaml
  let seconds ← match flags.timeout with
    | some n => .ok n
    | none => match Text.unlessEmpty (env timeoutVariable) with
      | some raw => readTimeout raw
      | none => .ok defaultTimeout
  .ok
    { serverUrl := (pick flags.serverUrl (env serverVariable)).getD defaultServer
      token := pick flags.token (env tokenVariable)
      output := output
      timeout := if seconds = 0 then none else some seconds }

end Settings

end ApiCommands

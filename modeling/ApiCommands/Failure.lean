import ApiCommands.Json.Fault
import ApiCommands.Text.Printable

namespace ApiCommands

/-!
# Failures

What can go wrong between a command line and its answer, the message for the user, and the exit
status of the program.
-/

/-- A request that cannot be made because of how the program is used. -/
inductive Misuse where
  | unsupportedMethod (method : String)
  | missingPathParam (name : String)
  | invalidToken
  | invalidTimeout (raw : String)
  | unsupportedFormat (raw : String)
  | needsSubcommand (command : String)
  | other (text : String)
deriving DecidableEq, Repr

inductive Failure where
  | unreadableDocument (fault : Json.Fault)
  | valueNotAllowed (flag value : String) (allowed : List String)
  | misuse (cause : Misuse)
  | unreachable (server : String)
  | timedOut (server : String) (seconds : Nat)
  | unauthorized
  | notFound (detail : Option String)
  | refused (status : Nat) (detail : Option String)
  | transport (text : String)
deriving DecidableEq, Repr

abbrev Outcome (α : Type) := Except Failure α

def timeoutVariable : String := "DOT_AI_TIMEOUT"

def Misuse.message : Misuse → String
  | unsupportedMethod method => "unsupported method " ++ method
  | missingPathParam name => "missing required path parameter: " ++ name
  | invalidToken => "invalid bearer token"
  | invalidTimeout raw =>
    "invalid " ++ timeoutVariable ++ " value " ++ Text.quote raw ++ ": expected whole seconds"
  | unsupportedFormat raw =>
    "unsupported output format: " ++ Text.quote raw ++ " (valid: json, yaml)"
  | needsSubcommand command => command ++ " requires a subcommand"
  | other text => text

def faultText : Json.Fault → String
  | .cutShort => "unexpected end of the text"
  | .malformed => "not JSON"
  | .wrongShape => "JSON of another shape"

namespace Failure

def message : Failure → String
  | unreadableDocument fault => "failed to parse OpenAPI spec: " ++ faultText fault
  | valueNotAllowed flag value allowed =>
    "invalid value " ++ Text.quote value ++ " for --" ++ flag ++ ": must be one of: " ++
      String.intercalate ", " allowed
  | misuse cause => cause.message
  | unreachable server =>
    "cannot connect to server at " ++ server ++
      ".\nSet the server URL with --server-url or DOT_AI_URL."
  | timedOut server seconds =>
    "request to " ++ server ++ " timed out after " ++ toString seconds ++
      "s.\nRaise the deadline with --timeout or DOT_AI_TIMEOUT (0 disables it)."
  | unauthorized => "authentication failed (401). Check your --token or DOT_AI_AUTH_TOKEN."
  | notFound (some detail) => "not found (404): " ++ detail
  | notFound none => "resource not found (404)."
  | refused status detail =>
    let code := "(" ++ toString status ++ ")"
    match decide (500 ≤ status), detail with
    | true, some detail => "server error " ++ code ++ ": " ++ detail
    | true, none => "server error " ++ code ++ ". The server encountered an internal error."
    | false, some detail => "request failed " ++ code ++ ": " ++ detail
    | false, none => "request failed " ++ code ++ "."
  | transport text => text

/-- The exit status: 3 for a command line or document that cannot be used, 2 for a server that
cannot be reached, 1 for all else. -/
def exitCode : Failure → Nat
  | unreadableDocument _ => 3
  | valueNotAllowed .. => 3
  | misuse _ => 3
  | unreachable _ => 2
  | timedOut .. => 2
  | _ => 1

end Failure

section Except

variable {ε α β : Type} {x : Except ε α}

theorem Except.bind_eq_ok_iff {f : α → Except ε β} {b : β} :
    x.bind f = .ok b ↔ ∃ a, x = .ok a ∧ f a = .ok b := by
  cases x <;> simp [Except.bind]

theorem Except.bind_eq_error_iff {f : α → Except ε β} {e : ε} :
    x.bind f = .error e ↔ x = .error e ∨ ∃ a, x = .ok a ∧ f a = .error e := by
  cases x <;> simp [Except.bind]

theorem Except.map_eq_ok_iff {f : α → β} {b : β} :
    x.map f = .ok b ↔ ∃ a, x = .ok a ∧ f a = b := by
  cases x <;> simp [Except.map]

end Except

end ApiCommands

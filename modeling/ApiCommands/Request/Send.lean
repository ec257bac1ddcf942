import ApiCommands.Request.Answer
import ApiCommands.Request.Basic
import ApiCommands.Settings

namespace ApiCommands

/-!
# Sending a request

A request is prepared, signed with the token and handed to a carrier; the carrier's reply is a
body or a failure.
-/

structure Call where
  method : String
  url : String
  token : Option String
  body : Option String
  timeout : Option Nat
deriving DecidableEq, Repr

structure Reply where
  status : Nat
  body : List UInt8
deriving DecidableEq, Repr

inductive Lost where
  | noConnection
  | timedOut
  | brokenOff (reason : String)
deriving DecidableEq, Repr

abbrev Carrier := Call → Except Lost Reply

/-- The carrier of a machine without a network. -/
def noNetwork : Carrier := fun _ => .error .noConnection

namespace Request

/-- A header holds no control characters but the tab. -/
def isHeaderText (s : String) : Bool :=
  s.toList.all fun c => (0x20 ≤ c.toNat && c.toNat != 0x7F) || c == '\t'

def checkToken (token : Option String) : Outcome (Option String) :=
  match Text.unlessEmpty token with
  | none => .ok none
  | some t => if isHeaderText t then .ok (some t) else .error (.misuse .invalidToken)

def lostFailure (settings : Settings) : Lost → Failure
  | .noConnection => .unreachable settings.serverUrl
  | .timedOut => match settings.timeout with
    | some seconds => .timedOut settings.serverUrl seconds
    | none => .unreachable settings.serverUrl
  | .brokenOff reason => .transport ("failed to read response: " ++ reason)

/-- The request as it goes out, or why it cannot. -/
def call (settings : Settings) (method template : String) (given : List Given) : Outcome Call := do
  let prepared ← prepare method template given
  let token ← checkToken settings.token
  .ok
    { method := prepared.method
      url := url settings.serverUrl prepared.path
      token := token
      body := prepared.body.map Json.Value.compact
      timeout := settings.timeout }

/-- Sends one request and returns the body of the reply. -/
def execute (carrier : Carrier) (settings : Settings) (method template : String)
    (given : List Given) : Outcome (List UInt8) := do
  let c ← call settings method template given
  match carrier c with
  | .error l => .error (lostFailure settings l)
  | .ok reply =>
    if 400 ≤ reply.status then .error (Answer.failure reply.status reply.body) else .ok reply.body

end Request

end ApiCommands

import ApiCommands.Failure
import ApiCommands.Json.Shape
import ApiCommands.Text.Blank

namespace ApiCommands

/-!
# Answers that report a failure

The body of such an answer may say what went wrong: in its `error`, which is a text or an object
with a `message`, else in its own `message`.
-/

namespace Answer

open Json (Shape Records Outline Value)

def bodyFields : List (String × Shape Unit) := [("error", .anything), ("message", .text)]

def bodyRecords : Records Unit := ⟨fun () => bodyFields, fun () => false⟩

def errorText : Value → Option String
  | .string s => some s
  | .object members => (members.lookup "message").bind Value.string?
  | _ => none

def detailOf (o : Outline) : Option String :=
  Text.unlessEmpty ((o.field bodyFields "error").bind fun e => errorText e.plainValue) <|>
    Text.unlessEmpty ((o.field bodyFields "message").map Outline.text)

/-- What a body says; one of another shape says nothing. -/
def detail (body : List UInt8) : Option String :=
  match Json.readWhole (fun o =>
      (o.check bodyRecords Json.nestingLimit (.record ())).map fun () => detailOf o) body with
  | .ok d => d
  | .error _ => none

def failure (status : Nat) (body : List UInt8) : Failure :=
  let detail := detail body
  if status = 401 then .unauthorized
  else if status = 404 then .notFound detail
  else .refused status detail

end Answer

end ApiCommands

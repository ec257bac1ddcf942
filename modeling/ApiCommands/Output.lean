import ApiCommands.Json.Printer
import ApiCommands.Settings
import ApiCommands.Yaml.Printer

namespace ApiCommands

/-!
# Output

What is printed for a response and for a value of the program.
-/

namespace Output

/-- JSON is passed on as it came; as YAML a response is written anew where it is JSON. -/
def response (format : Format) (body : List UInt8) : String :=
  match format with
  | .json => Text.Utf8.decodeLossy body
  | .yaml =>
    match Json.parse body with
    | .ok v => Yaml.render v
    | .error _ => Text.Utf8.decodeLossy body

def value (format : Format) (v : Json.Value) : String :=
  match format with
  | .json => v.pretty
  | .yaml => Yaml.render v

def line (text : String) : String := if text = "" then "" else text ++ "\n"

end Output

end ApiCommands

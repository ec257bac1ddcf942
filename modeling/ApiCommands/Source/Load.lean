import ApiCommands.Source.Builtin
import ApiCommands.Text.Blank

namespace ApiCommands

/-!
# Loading a document

The source of a document is a web address, a path, a path after an `@`, or a file address. Without
one the built-in document is taken.
-/

namespace Source

inductive Entry where
  | missing
  | folder
  | file (bytes : List UInt8)
deriving DecidableEq, Repr

/-- Where documents come from: the files by their paths, and the web, which may not answer. -/
structure Places where
  entry : String → Entry
  download : String → Option (List UInt8)

inductive Fault where
  | notFound (source : String)
  | isFolder (path : String)
  | noDownload
deriving DecidableEq, Repr

namespace Fault

def message : Fault → String
  | notFound source => "file not found: " ++ source
  | isFolder path => "read " ++ path
  | noDownload => "download url"

/-- What could not be done, and why. -/
def fullMessage : Fault → String
  | isFolder path => "read " ++ path ++ ": Is a directory (os error 21)"
  | f => f.message

end Fault

def startsWith (mark s : String) : Bool := mark.toList.isPrefixOf s.toList

def after (mark s : String) : String := String.ofList (s.toList.drop mark.length)

def isAddress (s : String) : Bool := startsWith "http://" s || startsWith "https://" s

def pathOf (s : String) : String :=
  if startsWith "@" s then after "@" s
  else if startsWith "file://" s then after "file://" s
  else s

def read (places : Places) (source : String) : Except Fault (List UInt8) :=
  if isAddress source then
    match places.download source with
    | some bytes => .ok bytes
    | none => .error .noDownload
  else
    match places.entry (pathOf source) with
    | .missing => .error (.notFound source)
    | .folder => .error (.isFolder (pathOf source))
    | .file bytes => .ok bytes

/-- The document that a source names, blanks around it aside, or the built-in one. -/
def load (places : Places) (source : Option String) : Except Fault (List UInt8) :=
  match Text.unlessEmpty (source.map Text.trim) with
  | some s => read places s
  | none => .ok builtin

end Source

end ApiCommands

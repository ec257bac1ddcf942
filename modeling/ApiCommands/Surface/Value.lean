import ApiCommands.Decimal.Layout
import ApiCommands.Decimal.Reading
import ApiCommands.Surface.Basic

namespace ApiCommands

/-!
# Values of arguments

The text after an argument is read by the kind of the argument; a value can be written as text
again.
-/

/-- Why a command line is not run. Two of the reasons are what the user asked for. -/
inductive Rejection where
  | displayHelp
  | displayVersion
  /-- Nothing is given where something has to be. -/
  | helpForMissing
  | missingSubcommand
  | invalidSubcommand
  | unknownArgument
  | missingRequired
  | repeated
  | invalidValue
  | unreadableValue
  | needlessValue
  /-- The words come to a command whose own names the parser does not put up with. -/
  | misnamed
deriving DecidableEq, Repr

namespace Rejection

def isRequest : Rejection → Bool
  | displayHelp => true
  | displayVersion => true
  | _ => false

/-- The exit status. A parser that does not put up with a command breaks the run off. -/
def exitCode : Rejection → Nat
  | displayHelp => 0
  | displayVersion => 0
  | misnamed => 101
  | _ => 3

end Rejection

inductive ValueType where
  | switch
  | text
  | int64
  | nat64
  | binary64
deriving DecidableEq, Repr

def ValueKind.type : ValueKind → ValueType
  | switch => .switch
  | text => .text
  | suggested _ => .text
  | oneOf _ => .text
  | int64 => .int64
  | nat64 => .nat64
  | binary64 => .binary64

inductive ArgValue where
  | on
  | text (s : String)
  | int64 (i : Int)
  | nat64 (n : Nat)
  | binary64 (x : Decimal.Binary64)
deriving DecidableEq, Repr

namespace ArgValue

def type : ArgValue → ValueType
  | on => .switch
  | text _ => .text
  | int64 _ => .int64
  | nat64 _ => .nat64
  | binary64 _ => .binary64

def raw : ArgValue → String
  | on => "true"
  | text s => s
  | int64 i => String.ofList (Decimal.intText i)
  | nat64 n => String.ofList (Decimal.natDigits n)
  | binary64 x => x.text Decimal.plain

def rawAs (wanted : ValueType) (v : ArgValue) : Option String :=
  if v.type = wanted then some v.raw else none

end ArgValue

def ValueKind.read (kind : ValueKind) (s : String) : Except Rejection ArgValue :=
  match kind with
  | switch => .ok .on
  | text => .ok (.text s)
  | suggested _ => .ok (.text s)
  | oneOf choices => if choices.contains s then .ok (.text s) else .error .invalidValue
  | int64 => match Decimal.readInt64 s with
    | some i => .ok (.int64 i)
    | none => .error .unreadableValue
  | nat64 => match Decimal.readNat (Nat.pow 2 64) s with
    | some n => .ok (.nat64 n)
    | none => .error .unreadableValue
  | binary64 => match Decimal.readBinary64 s with
    | some x => .ok (.binary64 x)
    | none => .error .unreadableValue

theorem ValueKind.type_read {kind : ValueKind} {s : String} {v : ArgValue}
    (h : kind.read s = .ok v) : v.type = kind.type := by
  cases kind <;> simp only [ValueKind.read] at h <;> (try split at h) <;>
    first
    | (cases h; rfl)
    | simp at h

end ApiCommands

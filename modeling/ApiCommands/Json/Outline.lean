import ApiCommands.Json.Token

namespace ApiCommands.Json

/-!
# The outline of a JSON text

The outline is the tree of a text with its faults left where they stand. Whether a fault counts,
and which one comes first, is settled by what is read out of the outline.
-/

inductive Outline where
  | null
  | bool (value : Bool)
  | number (kept : Reading Number)
  | string (kept : Reading String)
  /-- There is no value here. -/
  | broken (cut : Cut)
  /-- `stop` says why the items end before a closing bracket. -/
  | array (items : List Outline) (stop : Option Fault)
  /-- `stop` says why the members end before a closing brace. -/
  | object (members : List (Reading String × Outline)) (stop : Option Cut)

namespace Outline

/-- The fault of expecting something else than the next token, or than the end. -/
def unexpected : List Token → Fault
  | [] => .cutShort
  | _ :: _ => .malformed

/-- Continues after an item or a member: `none` where the container is closed, the tokens of the
next one, or the fault. -/
def afterItem (isClose : Token → Bool) :
    List Token → Except Fault (Option (List Token) × List Token)
  | [] => .error .cutShort
  | t :: rest =>
    if isClose t then .ok (none, rest)
    else
      match t with
      | .comma => .ok (some rest, rest)
      | _ => .error .malformed

def isCloseArray : Token → Bool
  | .closeArray => true
  | _ => false

def isCloseObject : Token → Bool
  | .closeObject => true
  | _ => false

mutual

/-- The value that the tokens begin with, and the tokens after it. Each call takes a token, so
`limit` never runs out when it is the number of tokens. -/
def ofTokens : Nat → List Token → Outline × List Token
  | 0, ts => (.broken (.both (unexpected ts)), ts)
  | _, [] => (.broken (.both .cutShort), [])
  | limit + 1, t :: rest =>
    match t with
    | .null => (.null, rest)
    | .bool b => (.bool b, rest)
    | .number kept => (.number kept, rest)
    | .string kept => (.string kept, rest)
    | .brokenString cut => (.broken cut, [])
    | .broken cut => (.broken cut, [])
    | .openArray =>
      match rest with
      | .closeArray :: rest => (.array [] none, rest)
      | [] => (.array [] (some .cutShort), [])
      | rest =>
        let (xs, stop, rest) := itemsOfTokens limit rest
        (.array xs stop, rest)
    | .openObject =>
      match rest with
      | .closeObject :: rest => (.object [] none, rest)
      | rest =>
        let (ms, stop, rest) := membersOfTokens limit rest
        (.object ms stop, rest)
    | _ => (.broken (.both .malformed), rest)

/-- The items of an array from one of them on. -/
def itemsOfTokens : Nat → List Token → List Outline × Option Fault × List Token
  | 0, ts => ([], some (unexpected ts), ts)
  | limit + 1, ts =>
    let (v, rest) := ofTokens limit ts
    match afterItem isCloseArray rest with
    | .error f => ([v], some f, rest)
    | .ok (none, rest) => ([v], none, rest)
    | .ok (some rest, _) =>
      let (vs, stop, rest) := itemsOfTokens limit rest
      (v :: vs, stop, rest)

/-- The members of an object from one of them on. -/
def membersOfTokens : Nat → List Token → List (Reading String × Outline) × Option Cut × List Token
  | 0, ts => ([], some (.both (unexpected ts)), ts)
  | limit + 1, ts =>
    match ts with
    | .string key :: .colon :: rest =>
      let (v, rest) := ofTokens limit rest
      match afterItem isCloseObject rest with
      | .error f => ([(key, v)], some (.both f), rest)
      | .ok (none, rest) => ([(key, v)], none, rest)
      | .ok (some rest, _) =>
        let (ms, stop, rest) := membersOfTokens limit rest
        ((key, v) :: ms, stop, rest)
    | .string key :: rest => ([(key, .broken (.both (unexpected rest)))], none, rest)
    | .brokenString cut :: _ => ([], some cut, [])
    | ts => ([], some (.both (unexpected ts)), ts)

end

/-- The outline of a text, and whether something follows its value. -/
def ofBytes (bytes : List UInt8) : Outline × Bool :=
  let ts := tokens bytes
  let (v, rest) := ofTokens (2 * ts.length + 1) ts
  (v, !rest.isEmpty)

end Outline

end ApiCommands.Json

import ApiCommands.Surface.Value
import ApiCommands.Text.Similarity

namespace ApiCommands

/-!
# Parsing a command line

The words are read one by one at the level of a command. A word is the name of a subcommand, which
opens the next level, a flag, the value that a flag waits for, or a positional argument. The value
of an argument is read when the next argument comes or the level ends. Before a level is read, the
names of its command are looked at, and where they do not go together nothing is read at all.
-/

/-- The values given at one level, by the ids of their arguments. -/
abbrev Values := List (String × ArgValue)

/-- A subcommand that was named, with what was given to it. -/
structure Step where
  command : String
  values : Values
deriving DecidableEq, Repr

/-- What a command line says: the values given before the first subcommand, and the subcommands
from the outermost on. -/
structure Matches where
  values : Values
  steps : List Step
deriving DecidableEq, Repr

namespace Surface

/-- A command and the global arguments of the commands around it. -/
structure Scope where
  spec : Spec
  inherited : List Arg := []

structure Progress where
  values : Values := []
  /-- An argument whose value is not read yet, and the value where it is there. -/
  pending : Option (Arg × Option String) := none
  /-- How many positional arguments have been met. -/
  position : Nat := 0
  /-- Whether two dashes have ended the flags. -/
  trailing : Bool := false

namespace Scope

def args (s : Scope) : List Arg := s.spec.args ++ s.inherited

def enter (s : Scope) (sub : Spec) : Scope := ⟨sub, s.args.filter (·.global)⟩

def long? (s : Scope) (name : String) : Option Arg := s.args.find? (·.long == some name)

/-- The first argument with the id of an argument. -/
def leader (s : Scope) (a : Arg) : Arg := (s.args.find? (·.id == a.id)).getD a

def hasSubcommands (s : Scope) : Bool := !s.spec.subcommands.isEmpty

/-- The name of the help command, which every command with subcommands has. -/
def helpName : String := "help"

def subcommandNames (s : Scope) : List String :=
  if s.hasSubcommands then s.spec.subcommands.map (·.name) ++ [helpName] else []

/-- The long names of the flags that every command has, and that a command with a version has. -/
def builtInLongs (s : Scope) : List String :=
  if s.spec.version.isSome then ["help", "version"] else ["help"]

def longs (s : Scope) : List String := s.args.filterMap (·.long) ++ s.builtInLongs

/-- What is taken for granted of the names of a command. The help command has its name to itself,
and the dashes of a long flag are no part of its name. -/
structure WellNamed (s : Scope) : Prop where
  ids : (s.spec.args.map (·.id)).Nodup
  longs : s.longs.Nodup
  dashes : ∀ long ∈ s.longs, long.toList.head? ≠ some '-'
  places : (s.spec.args.filterMap (·.index)).Nodup
  subcommands : s.subcommandNames.Nodup

instance (s : Scope) : Decidable s.WellNamed :=
  decidable_of_iff
    ((s.spec.args.map (·.id)).Nodup ∧ s.longs.Nodup ∧
      (∀ long ∈ s.longs, long.toList.head? ≠ some '-') ∧
      (s.spec.args.filterMap (·.index)).Nodup ∧ s.subcommandNames.Nodup)
    ⟨fun ⟨ids, longs, dashes, places, subcommands⟩ => ⟨ids, longs, dashes, places, subcommands⟩,
      fun h => ⟨h.ids, h.longs, h.dashes, h.places, h.subcommands⟩⟩

end Scope

namespace Progress

def waiting (p : Progress) : Option Arg :=
  match p.pending with
  | some (a, none) => some a
  | _ => none

/-- Puts a value of an argument to those given; no argument is given twice. -/
def store (p : Progress) (a : Arg) (text : String) : Except Rejection Progress :=
  if p.values.any (·.1 == a.id) then .error .repeated
  else (a.kind.read text).map fun v => { p with values := p.values ++ [(a.id, v)] }

def settle (p : Progress) : Except Rejection Progress :=
  match p.pending with
  | none => .ok p
  | some (_, none) => .error .invalidValue
  | some (a, some text) => { p with pending := none }.store a text

end Progress

inductive Move where
  | goOn (p : Progress)
  | enter (sub : Spec)
  | help
  | stop (r : Rejection)

def Move.ofExcept : Except Rejection Progress → Move
  | .ok p => .goOn p
  | .error r => .stop r

/-- Answers a request for help or for the version, after the value before it is read. -/
def asked (p : Progress) (r : Rejection) : Move :=
  match p.settle with
  | .ok _ => .stop r
  | .error e => .stop e

/-- The name of a long flag and the value after its first equals sign. -/
def splitFlag (cs : List Char) : String × Option String :=
  let name := cs.takeWhile (· != '=')
  match cs.dropWhile (· != '=') with
  | [] => (String.ofList name, none)
  | _ :: value => (String.ofList name, some (String.ofList value))

def knownFlag (s : Scope) (p : Progress) (a : Arg) (value : Option String) : Move :=
  if a.kind.takesValue then
    match value with
    | some v => .ofExcept (p.settle.bind fun p => p.store a v)
    | none => .ofExcept (p.settle.map fun p => { p with pending := some (s.leader a, none) })
  else
    match value with
    | some _ => .stop .needlessValue
    | none => .ofExcept (p.settle.bind fun p => p.store a "")

/-- The flags that every command has, and that the program has. -/
def builtInFlag (s : Scope) (name : String) : Option Rejection :=
  if name = "help" then some .displayHelp
  else if name = "version" ∧ s.spec.version.isSome then some .displayVersion
  else none

/-- The rejection of an unknown flag. Where the level has none that is spelt like it, one is looked
for at the levels of the subcommands. -/
def unknownFlag (s : Scope) (name : String) : Rejection :=
  if s.longs.any (Text.isSimilar name) ||
      s.spec.subcommands.all (fun sub => (s.enter sub).WellNamed) then .unknownArgument
  else .misnamed

def longFlag (s : Scope) (p : Progress) (cs : List Char) : Move :=
  let (name, value) := splitFlag cs
  match s.long? name with
  | some a => knownFlag s p a value
  | none =>
    match builtInFlag s name, value with
    | none, _ => .stop (unknownFlag s name)
    | some _, some _ => .stop .needlessValue
    | some r, none => asked p r

/-- Whether the text after a dash is a number: digits, at most one point past the first character
and before the exponent mark, and at most one mark, an `e` or an `E`, that is neither first nor
last. A sign after the mark makes it no number. -/
def isNumberTail (first seenPoint seenMark : Bool) : List Char → Bool
  | [] => true
  | c :: rest =>
    if Decimal.isDigit c then isNumberTail false seenPoint seenMark rest
    else if c = '.' then !seenPoint && !seenMark && !first && isNumberTail false true seenMark rest
    else if c = 'e' ∨ c = 'E' then
      !seenMark && !first && !rest.isEmpty && isNumberTail false seenPoint true rest
    else false

/-- Flags of one dash: only help and the version have them. -/
def shortFlag (s : Scope) (p : Progress) (c : Char) : Move :=
  if c = 'h' then asked p .displayHelp
  else if c = 'V' ∧ s.spec.version.isSome then asked p .displayVersion
  else .stop .unknownArgument

/-- The rejection of a word that is no positional argument: it may be a misspelt subcommand. -/
def unplaced (s : Scope) (p : Progress) (word : String) : Rejection :=
  if p.trailing && s.subcommandNames.contains word then .unknownArgument
  else if s.hasSubcommands &&
      (s.subcommandNames.any (Text.isSimilar word) || s.spec.positionals.isEmpty) then
    .invalidSubcommand
  else .unknownArgument

def positional (s : Scope) (p : Progress) (word : String) : Move :=
  match s.spec.positionals[p.position]? with
  | some a => .ofExcept (p.settle.map fun p =>
      { p with pending := some (s.leader a, some word), position := p.position + 1 })
  | none => .stop (unplaced s p word)

/-- A word that is the value of a waiting argument, or positional. -/
def plainWord (s : Scope) (p : Progress) (word : String) : Move :=
  match p.waiting with
  | some a => .goOn { p with pending := some (a, some word) }
  | none => positional s p word

def otherWord (s : Scope) (p : Progress) (word : String) : Move :=
  match word.toList with
  | ['-', '-'] => .goOn { p with trailing := true }
  | '-' :: '-' :: cs => longFlag s p cs
  | '-' :: c :: cs =>
    if p.waiting.any (·.kind.allowsNegative) && isNumberTail true false false (c :: cs) then
      plainWord s p word
    else shortFlag s p c
  | _ => plainWord s p word

/-- The names of a subcommand are looked at before its level is entered. -/
def entered (s : Scope) (sub : Spec) : Move :=
  if (s.enter sub).WellNamed then .enter sub else .stop .misnamed

/-- The subcommand of a name. The help command comes before one of its name. -/
def subcommandWord (s : Scope) (word : String) : Option Move :=
  if s.hasSubcommands && word == Scope.helpName then some .help
  else (s.spec.subcommand? word).map (entered s)

def move (s : Scope) (p : Progress) (word : String) : Move :=
  if p.trailing then positional s p word
  else if p.waiting.isSome then otherWord s p word
  else (subcommandWord s word).getD (otherWord s p word)

def isGiven (values : Values) (a : Arg) : Bool := values.any (·.1 == a.id)

def finish (s : Scope) (p : Progress) (hasSub : Bool) : Except Rejection Values := do
  let p ← p.settle
  if !hasSub && s.spec.helpWhenEmpty && p.values.isEmpty then .error .helpForMissing
  else if !hasSub && s.spec.subcommandRequired then .error .missingSubcommand
  else if !(hasSub && s.spec.subcommandWaives) &&
      s.args.any (fun a => a.required && !isGiven p.values a) then .error .missingRequired
  else .ok p.values

/-- What asking for the help of a command answers; the words name subcommands. -/
def helpOf (s : Scope) : List String → Rejection
  | [] => .displayHelp
  | word :: words =>
    match s.spec.subcommand? word with
    | some sub => if (s.enter sub).WellNamed then helpOf (s.enter sub) words else .misnamed
    | none =>
      if s.hasSubcommands && word == Scope.helpName && words.isEmpty then .displayHelp
      else .invalidSubcommand

def parseLevel (s : Scope) (p : Progress) : List String → Except Rejection Matches
  | [] => (finish s p false).map (⟨·, []⟩)
  | word :: words =>
    match move s p word with
    | .goOn p => parseLevel s p words
    | .enter sub => do
      let below ← parseLevel (s.enter sub) {} words
      let values ← finish s p true
      .ok ⟨values, ⟨sub.name, below.values⟩ :: below.steps⟩
    | .help => .error (helpOf s words)
    | .stop r => .error r

def parse (c : Spec) (words : List String) : Except Rejection Matches :=
  if Scope.WellNamed ⟨c, []⟩ then parseLevel ⟨c, []⟩ {} words else .error .misnamed

end Surface

end ApiCommands

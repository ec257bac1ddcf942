import ApiCommands.Surface.Parse

namespace ApiCommands

/-!
# Completion scripts

A completion script offers, for every command, its flags, the values of its arguments and its
subcommands. The commands are listed with the global arguments of those around them and with the
help command. All of them are needed for a script, so the names of each are looked at.
-/

namespace Completion

/-- A command that completion can be asked in, by the names that lead to it. -/
structure Menu where
  /-- From the program on. -/
  path : List String
  about : String
  args : List Arg
  hasHelp : Bool
  hasVersion : Bool
  /-- The subcommands and what they are about. -/
  subcommands : List (String × String)

def helpAbout : String := "Print this message or the help of the given subcommand(s)"

def described (c : Spec) : String × String := (c.name, c.about.getD "")

/-- The names of subcommands, with the help command where there are any. -/
def offered (subs : List Spec) : List (String × String) :=
  if subs.isEmpty then [] else subs.map described ++ [("help", helpAbout)]

mutual

/-- The menus below the help command: names alone. -/
def helpMenus (path : List String) : Spec → List Menu
  | ⟨name, about, _, _, _, _, _, _, subs⟩ =>
    { path := path ++ [name], about := about.getD "", args := [], hasHelp := false
      hasVersion := false, subcommands := subs.map described } ::
      helpMenusAll (path ++ [name]) subs

def helpMenusAll (path : List String) : List Spec → List Menu
  | [] => []
  | c :: cs => helpMenus path c ++ helpMenusAll path cs

end

/-- The help command of a command and what is below it. -/
def helpCommand (path : List String) (subs : List Spec) : List Menu :=
  if subs.isEmpty then []
  else
    { path := path ++ ["help"], about := helpAbout, args := [], hasHelp := false
      hasVersion := false, subcommands := offered subs } ::
      helpMenusAll (path ++ ["help"]) subs

mutual

/-- The menus of a command and of those below it. -/
def menus (path : List String) (inherited : List Arg) : Spec → List Menu
  | ⟨name, about, _, version, _, _, _, args, subs⟩ =>
    let here := path ++ [name]
    let all := args ++ inherited
    { path := here, about := about.getD "", args := all, hasHelp := true
      hasVersion := version.isSome, subcommands := offered subs } ::
      (menusAll here (all.filter (·.global)) subs ++ helpCommand here subs)

def menusAll (path : List String) (inherited : List Arg) : List Spec → List Menu
  | [] => []
  | c :: cs => menus path inherited c ++ menusAll path inherited cs

end

mutual

/-- Whether the names of a command and of those below it go together. -/
def isWellNamed (inherited : List Arg) : Spec → Bool
  | ⟨name, about, longAbout, version, required, help, waives, args, subs⟩ =>
    let c : Spec := ⟨name, about, longAbout, version, required, help, waives, args, subs⟩
    decide (Surface.Scope.WellNamed ⟨c, inherited⟩) &&
      areWellNamed ((args ++ inherited).filter (·.global)) subs

def areWellNamed (inherited : List Arg) : List Spec → Bool
  | [] => true
  | c :: cs => isWellNamed inherited c && areWellNamed inherited cs

end

namespace Menu

def flags (m : Menu) : List Arg := m.args.filter (·.long.isSome)

def positionals (m : Menu) : List Arg := m.args.filter (·.long.isNone)

/-- The flags that every command has, with one dash and with two. -/
def builtIns (m : Menu) : List (Char × String × String) :=
  (if m.hasHelp then [('h', "help", "Print help")] else []) ++
    (if m.hasVersion then [('V', "version", "Print version")] else [])

end Menu

def placeName (a : Arg) : String := a.valueName.getD a.id

def joined (sep : String) (names : List String) : String := String.intercalate sep names

def substitute (table : List (Char × String)) (s : String) : String :=
  String.join (s.toList.map fun c => (table.lookup c).getD c.toString)

end Completion

end ApiCommands

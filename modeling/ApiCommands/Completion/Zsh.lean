import ApiCommands.Completion.Basic

namespace ApiCommands.Completion

/-!
# Completion in zsh

Every command has a list of argument specifications; a command with subcommands goes on in the
state of the subcommand that is named, and has a function that describes them.
-/

namespace Zsh

def quoteHelp : String → String :=
  substitute [('\\', "\\\\"), ('\'', "'\\''"), ('[', "\\["), (']', "\\]"), (':', "\\:"),
    ('$', "\\$"), ('\x60', "\\\x60"), ('\n', " ")]

def quoteValue : String → String :=
  substitute [('\\', "\\\\"), ('\'', "'\\''"), ('[', "\\["), (']', "\\]"), (':', "\\:"),
    ('$', "\\$"), ('\x60', "\\\x60"), ('(', "\\("), (')', "\\)"), (' ', "\\ ")]

def argumentsHead : String := "_arguments \"$\x7b_arguments_options[@]\x7d\" : \\"

def action (a : Arg) : String :=
  match a.kind.choices with
  | some cs => "(" ++ joined " " (cs.map quoteValue) ++ ")"
  | none => "_default"

def flagLine (a : Arg) : String :=
  let long := "--" ++ a.long.getD ""
  let help := "[" ++ quoteHelp (a.help.getD "") ++ "]"
  if a.kind.takesValue then
    "'" ++ long ++ "=" ++ help ++ ":" ++ placeName a ++ ":" ++ action a ++ "' \\"
  else "'" ++ long ++ help ++ "' \\"

def builtInLines (entry : Char × String × String) : List String :=
  let (short, long, help) := entry
  ["'-" ++ short.toString ++ "[" ++ help ++ "]' \\", "'--" ++ long ++ "[" ++ help ++ "]' \\"]

def positionalLine (a : Arg) : String :=
  let help := match a.help with
    | some h => if h = "" then "" else " -- " ++ quoteHelp h
    | none => ""
  "':" ++ placeName a ++ help ++ ":" ++ action a ++ "' \\"

def describer (path : List String) : String := "_" ++ joined "__" path ++ "_commands"

def argumentLines (m : Menu) : List String :=
  argumentsHead :: m.flags.map flagLine ++ m.builtIns.flatMap builtInLines ++
    m.positionals.map positionalLine ++
    (if m.subcommands.isEmpty then []
    else
      ["\":: :" ++ describer m.path ++ "\" \\", "\"*::: :->" ++ m.path.getLastD "" ++ "\" \\"]) ++
    ["&& ret=0"]

def below (path : List String) (ms : List Menu) : List Menu :=
  ms.filter fun m => m.path.dropLast == path && !m.path.isEmpty

/-- The specifications of a command and of the commands below it, `depth` levels at most. -/
def commandLines (ms : List Menu) : Nat → Menu → List String
  | 0, _ => []
  | depth + 1, m =>
    argumentLines m ++
      (if m.subcommands.isEmpty then []
      else
        let name := m.path.getLastD ""
        ["", "    case $state in", "    (" ++ name ++ ")",
          "        words=($line[1] \"$\x7bwords[@]\x7d\")",
          "        (( CURRENT += 1 ))",
          "        curcontext=\"$\x7bcurcontext%:*:*\x7d:" ++ joined "-" m.path ++
            "-command-$line[1]:\"",
          "        case $line[1] in"] ++
        (below m.path ms).flatMap (fun sub =>
          ["            (" ++ sub.path.getLastD "" ++ ")"] ++ commandLines ms depth sub ++
            [";;"]) ++
        ["        esac", "    ;;", "esac"])

def describerLines (m : Menu) : List String :=
  let name := describer m.path
  ["(( $+functions[" ++ name ++ "] )) ||", name ++ "() \x7b",
    "    local commands; commands=("] ++
    m.subcommands.map (fun (sub, about) =>
      "'" ++ quoteHelp sub ++ ":" ++ quoteHelp about ++ "' \\") ++
    ["    )",
      "    _describe -t commands '" ++ joined " " m.path ++ " commands' commands \"$@\"",
      "\x7d"]

def script (program : String) (ms : List Menu) : String :=
  joined "\n"
    (["#compdef " ++ program, "", "autoload -U is-at-least", "", "_" ++ program ++ "() \x7b",
      "    typeset -A opt_args",
      "    typeset -a _arguments_options",
      "    local ret=1",
      "",
      "    if is-at-least 5.2; then",
      "        _arguments_options=(-s -S -C)",
      "    else",
      "        _arguments_options=(-s -C)",
      "    fi",
      "",
      "    local context curcontext=\"$curcontext\" state line"] ++
    ((ms.head?.map (commandLines ms ms.length)).getD []) ++
    ["\x7d", ""] ++
    ms.flatMap describerLines ++
    ["",
      "if [ \"$funcstack[1]\" = \"_" ++ program ++ "\" ]; then",
      "    _" ++ program ++ " \"$@\"",
      "else",
      "    compdef _" ++ program ++ " " ++ program,
      "fi",
      ""])

end Zsh

end ApiCommands.Completion

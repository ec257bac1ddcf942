import ApiCommands.Completion.Basic

namespace ApiCommands.Completion

/-!
# Completion in bash

A function walks through the words to the command and offers the words that may follow.
-/

namespace Bash

def variableOf (name : String) : String := "$\x7b" ++ name ++ "\x7d"

/-- The label of a command in the script: its names, without dashes. -/
def label (path : List String) : String :=
  joined "__" (path.map (substitute [('-', "__")]))

def shown (a : Arg) : List String :=
  match a.kind.choices with
  | some cs => cs
  | none => ["<" ++ placeName a ++ ">"]

def words (m : Menu) : List String :=
  m.builtIns.map (fun (short, _, _) => "-" ++ short.toString) ++
    m.flags.filterMap (fun a => a.long.map ("--" ++ ·)) ++
    m.builtIns.map (fun (_, long, _) => "--" ++ long) ++
    m.positionals.flatMap shown ++ m.subcommands.map Prod.fst

def valueCase (a : Arg) : List String :=
  match a.long, a.kind.takesValue with
  | some long, true =>
    let source := match a.kind.choices with
      | some cs => "-W \"" ++ joined " " cs ++ "\" -- "
      | none => "-f "
    ["                --" ++ long ++ ")",
      "                    COMPREPLY=($(compgen " ++ source ++ "\"" ++ variableOf "cur" ++ "\"))",
      "                    return 0",
      "                    ;;"]
  | _, _ => []

def offer : String :=
  "COMPREPLY=( $(compgen -W \"" ++ variableOf "opts" ++ "\" -- \"" ++ variableOf "cur" ++ "\") )"

def menuCase (m : Menu) : List String :=
  ["        " ++ label m.path ++ ")",
    "            opts=\"" ++ joined " " (words m) ++ "\"",
    "            if [[ " ++ variableOf "cur" ++ " == -* || " ++ variableOf "COMP_CWORD" ++
      " -eq " ++ toString m.path.length ++ " ]] ; then",
    "                " ++ offer,
    "                return 0",
    "            fi",
    "            case \"" ++ variableOf "prev" ++ "\" in"] ++
    m.flags.flatMap valueCase ++
    ["                *)",
      "                    COMPREPLY=()",
      "                    ;;",
      "            esac",
      "            " ++ offer,
      "            return 0",
      "            ;;"]

/-- The step from a command to one of its subcommands. -/
def pathCase (m : Menu) : List String :=
  match m.path.reverse with
  | name :: rest@(_ :: _) =>
    ["            " ++ label rest.reverse ++ "," ++ name ++ ")",
      "                cmd=\"" ++ label m.path ++ "\"",
      "                ;;"]
  | _ => []

def script (program : String) (ms : List Menu) : String :=
  joined "\n"
    (["_" ++ program ++ "() \x7b",
      "    local i cur prev opts cmd",
      "    COMPREPLY=()",
      "    if [[ \"" ++ variableOf "BASH_VERSINFO[0]" ++ "\" -ge 4 ]]; then",
      "        cur=\"$2\"",
      "    else",
      "        cur=\"" ++ variableOf "COMP_WORDS[COMP_CWORD]" ++ "\"",
      "    fi",
      "    prev=\"$3\"",
      "    cmd=\"\"",
      "    opts=\"\"",
      "",
      "    for i in \"" ++ variableOf "COMP_WORDS[@]:0:COMP_CWORD" ++ "\"",
      "    do",
      "        case \"" ++ variableOf "cmd" ++ "," ++ variableOf "i" ++ "\" in",
      "            \",$1\")",
      "                cmd=\"" ++ label [program] ++ "\"",
      "                ;;"] ++
    ms.flatMap pathCase ++
    ["            *)",
      "                ;;",
      "        esac",
      "    done",
      "",
      "    case \"" ++ variableOf "cmd" ++ "\" in"] ++
    ms.flatMap menuCase ++
    ["    esac",
      "\x7d",
      "",
      "if [[ \"" ++ variableOf "BASH_VERSINFO[0]" ++ "\" -eq 4 && \"" ++
        variableOf "BASH_VERSINFO[1]" ++ "\" -ge 4 || \"" ++ variableOf "BASH_VERSINFO[0]" ++
        "\" -gt 4 ]]; then",
      "    complete -F _" ++ program ++ " -o nosort -o bashdefault -o default " ++ program,
      "else",
      "    complete -F _" ++ program ++ " -o bashdefault -o default " ++ program,
      "fi",
      ""])

end Bash

end ApiCommands.Completion

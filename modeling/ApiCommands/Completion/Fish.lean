import ApiCommands.Completion.Basic

namespace ApiCommands.Completion

/-!
# Completion in fish

One line says what is offered and under which condition: before any subcommand, or after the
subcommands that lead to a command.
-/

namespace Fish

def quoteText : String → String :=
  substitute [('\\', "\\\\"), ('\'', "\\'"), ('\n', " ")]

/-- Names of functions have no dashes. -/
def functionName (program : String) : String := substitute [('-', "_")] program

def needsCommand (program : String) : String :=
  "__fish_" ++ functionName program ++ "_needs_command"

def usingCommand (program : String) : String :=
  "__fish_" ++ functionName program ++ "_using_subcommand"

def condition (m : Menu) : String :=
  match m.path with
  | [] => ""
  | [program] => needsCommand program
  | program :: first :: rest =>
    let start := usingCommand program ++ " " ++ first
    let subs := m.subcommands.map Prod.fst
    match rest with
    | [] =>
      if subs.isEmpty then start
      else start ++ "; and not __fish_seen_subcommand_from " ++ joined " " subs
    | names =>
      start ++ String.join (names.map fun n => "; and __fish_seen_subcommand_from " ++ n)

def line (program : String) (m : Menu) (rest : String) : String :=
  "complete -c " ++ program ++ " -n \"" ++ condition m ++ "\"" ++ rest

def description (text : String) : String :=
  if text = "" then "" else " -d '" ++ quoteText text ++ "'"

def values (cs : List String) : String :=
  " -f -a \"" ++ joined "\n" (cs.map fun c => quoteText c ++ "\\t''") ++ "\""

def flagLine (program : String) (m : Menu) (a : Arg) : String :=
  let value :=
    if !a.kind.takesValue then ""
    else
      match a.kind.choices with
      | some cs => " -r" ++ values cs
      | none => " -r"
  line program m (" -l " ++ quoteText (a.long.getD "") ++ description (a.help.getD "") ++ value)

def builtInLine (program : String) (m : Menu) (entry : Char × String × String) : String :=
  let (short, long, help) := entry
  line program m (" -s " ++ short.toString ++ " -l " ++ long ++ description help)

def subcommandLine (program : String) (m : Menu) (sub : String × String) : String :=
  line program m (" -f -a \"" ++ sub.1 ++ "\"" ++ description sub.2)

def positionalLine (program : String) (m : Menu) (a : Arg) : List String :=
  match a.kind.choices with
  | some cs => [line program m (values cs)]
  | none => []

def menuLines (program : String) (m : Menu) : List String :=
  m.flags.map (flagLine program m) ++ m.builtIns.map (builtInLine program m) ++
    m.positionals.flatMap (positionalLine program m) ++
    m.subcommands.map (subcommandLine program m)

/-- The flags that may stand before a subcommand. -/
def optionSpecs (m : Menu) : String :=
  joined " " (m.flags.map (fun a => a.long.getD "" ++ if a.kind.takesValue then "=" else "") ++
    m.builtIns.map fun (short, long, _) => short.toString ++ "/" ++ long)

def script (program : String) (ms : List Menu) : String :=
  let specs := "__fish_" ++ functionName program ++ "_global_optspecs"
  joined "\n"
    (["# Print an optspec for argparse to handle cmd's options " ++
        "that are independent of any subcommand.",
      "function " ++ specs,
      "\tstring join \\n " ++ ((ms.head?.map optionSpecs).getD ""),
      "end",
      "",
      "function " ++ needsCommand program,
      "\t# Figure out if the current invocation already has a command.",
      "\tset -l cmd (commandline -opc)",
      "\tset -e cmd[1]",
      "\targparse -s (" ++ specs ++ ") -- $cmd 2>/dev/null",
      "\tor return",
      "\tif set -q argv[1]",
      "\t\t# Also print the command, so this can be used to figure out what it is.",
      "\t\techo $argv[1]",
      "\t\treturn 1",
      "\tend",
      "\treturn 0",
      "end",
      "",
      "function " ++ usingCommand program,
      "\tset -l cmd (" ++ needsCommand program ++ ")",
      "\ttest -z \"$cmd\"",
      "\tand return 1",
      "\tcontains -- $cmd[1] $argv",
      "end",
      ""] ++
    ms.flatMap (menuLines program) ++ [""])

end Fish

end ApiCommands.Completion

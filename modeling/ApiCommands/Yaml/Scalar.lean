import ApiCommands.Decimal.Reading
import ApiCommands.Text.Utf8

namespace ApiCommands.Yaml

/-!
# YAML scalars

A text is written plain where it reads back as a text, between quotes where it would not, and as a
literal block where it has lines. What a style cannot hold goes to the next: plain, then single
quotes, then double quotes.
-/

inductive Style where
  | plain
  | single
  | double
  | literal
deriving DecidableEq, Repr

def isBreak (c : Char) : Bool :=
  c == '\n' || c == '\r' || c == '\x85' || c == '\u2028' || c == '\u2029'

def isGap (c : Char) : Bool := c == ' ' || c == '\t' || c == '\x00' || isBreak c

/-- Characters that stand for themselves. -/
def isShown (c : Char) : Bool :=
  let n := c.toNat
  n == 0xA || (0x20 ≤ n && n ≤ 0x7E) || (0xA0 ≤ n && n ≤ 0xD7FF) ||
    (0xE000 ≤ n && n ≤ 0xFFFD && n != 0xFEFF) || 0x10000 ≤ n

/-- Whether a text is a number with zeros before its other digits. -/
def hasLeadingZero (cs : List Char) : Bool :=
  let ds := match cs with
    | '-' :: rest => rest
    | '+' :: rest => rest
    | cs => cs
  match ds with
  | '0' :: d :: rest => (d :: rest).all Decimal.isDigit
  | _ => false

def baseDigit (base : Nat) (c : Char) : Option Nat :=
  let n := if Decimal.isDigit c then some (c.toNat - 48)
    else if 'a' ≤ c ∧ c ≤ 'f' then some (c.toNat - 87)
    else if 'A' ≤ c ∧ c ≤ 'F' then some (c.toNat - 55)
    else none
  n.filter (· < base)

def readBase (base : Nat) (cs : List Char) : Option Nat :=
  if cs.isEmpty then none
  else cs.foldl (fun n c => do some ((← n) * base + (← baseDigit base c))) (some 0)

/-- The number that a text denotes after a mark of its base, or as a decimal. -/
def readMarked (cs : List Char) (decimal : Bool) : Option Nat :=
  let marked := match cs with
    | '0' :: 'x' :: rest => readBase 16 rest
    | '0' :: 'o' :: rest => readBase 8 rest
    | '0' :: 'b' :: rest => readBase 2 rest
    | _ => none
  marked <|> (if decimal then readBase 10 cs else none)

def isInteger (cs : List Char) : Bool :=
  let decimal := !hasLeadingZero cs
  match cs with
  | '-' :: rest => (readMarked rest decimal).any (· ≤ Nat.pow 2 127)
  | '+' :: rest => (readMarked rest decimal).any (· < Nat.pow 2 128)
  | cs => (readMarked cs decimal).any (· < Nat.pow 2 128)

def isFinite : Option Decimal.Binary64 → Bool
  | some (.finite ..) => true
  | _ => false

def isFloat (cs : List Char) : Bool :=
  let s := String.ofList cs
  let unsigned := match cs with
    | '+' :: rest => rest
    | cs => cs
  let doubled := match cs with
    | '+' :: '+' :: _ => true
    | '+' :: '-' :: _ => true
    | _ => false
  if hasLeadingZero cs || doubled then false
  else
    [".inf", ".Inf", ".INF"].contains (String.ofList unsigned) ||
      ["-.inf", "-.Inf", "-.INF", ".nan", ".NaN", ".NAN"].contains s ||
      isFinite (Decimal.readBinary64 (String.ofList unsigned))

/-- Whether a plain text would be read as null, a truth value or a number by one reader or
another. -/
def isAmbiguous (s : String) : Bool :=
  ["", "null", "Null", "NULL", "~", "true", "True", "TRUE", "false", "False", "FALSE"].contains s ||
    hasLeadingZero s.toList || isInteger s.toList || isFloat s.toList

/-- Whether two neighbouring characters belong to two classes. -/
def hasPair (p q : Char → Bool) : List Char → Bool
  | c :: d :: rest => (p c && q d) || hasPair p q (d :: rest)
  | _ => false

def isSpace (c : Char) : Bool := c == ' '

def startsWithGap : List Char → Bool
  | [] => true
  | c :: _ => isGap c

/-- A colon before a gap or a number sign after one, past the first character. -/
def hasInnerMark : Char → List Char → Bool
  | before, c :: rest =>
    (c == ':' && startsWithGap rest) || (c == '#' && isGap before) || hasInnerMark c rest
  | _, [] => false

/-- Whether the first character, or the first three, would begin something else than a text. -/
def hasFirstMark : List Char → Bool
  | '-' :: '-' :: '-' :: _ => true
  | '.' :: '.' :: '.' :: _ => true
  | c :: rest =>
    "#,[]\x7b\x7d&*!|>'\"%@\x60".toList.contains c ||
      ((c == '?' || c == ':' || c == '-') && startsWithGap rest)
  | [] => false

def hasMark (cs : List Char) : Bool :=
  hasFirstMark cs ||
    match cs with
    | c :: rest => hasInnerMark c rest
    | [] => false

def edgeIs (p : Char → Bool) (cs : List Char) : Bool :=
  cs.head?.any p || cs.getLast?.any p

def allowsSingle (cs : List Char) : Bool :=
  cs.all isShown && !hasPair isSpace isBreak cs && !hasPair isBreak isSpace cs

def allowsPlain (cs : List Char) : Bool :=
  allowsSingle cs && !edgeIs isSpace cs && !cs.any isBreak && !hasMark cs

def allowsLiteral (cs : List Char) : Bool :=
  cs.all isShown && !hasPair isSpace isBreak cs && !cs.getLast?.any isSpace

def style (s : String) : Style :=
  let cs := s.toList
  if cs.contains '\n' then if allowsLiteral cs then .literal else .double
  else if !isAmbiguous s && allowsPlain cs then .plain
  else if allowsSingle cs then .single
  else .double

def spaces (n : Nat) : List Char := List.replicate n ' '

/-- Writes the characters of a text, each line from the second on indented. `atBreak` says that a
line break stands right before. -/
def indentLines (indent : Nat) (write : Char → List Char) : Bool → List Char → List Char
  | _, [] => []
  | atBreak, c :: rest =>
    if isBreak c then c :: indentLines indent write true rest
    else (if atBreak then spaces indent else []) ++ write c ++ indentLines indent write false rest

def singleChar (c : Char) : List Char := if c == '\'' then ['\'', '\''] else [c]

def writeSingle (indent : Nat) (cs : List Char) : List Char :=
  '\'' :: indentLines indent singleChar false cs ++
    (if cs.getLast?.any isBreak then spaces indent else []) ++ ['\'']

def upperHex (width n : Nat) : List Char :=
  let ds := (Nat.toDigits 16 n).map Char.toUpper
  List.replicate (width - ds.length) '0' ++ ds

def escapeLetter (c : Char) : Option Char :=
  [('\x00', '0'), ('\x07', 'a'), ('\x08', 'b'), ('\t', 't'), ('\n', 'n'), ('\x0B', 'v'),
    ('\x0C', 'f'), ('\r', 'r'), ('\x1B', 'e'), ('"', '"'), ('\\', '\\'), ('\x85', 'N'),
    ('\u2028', 'L'), ('\u2029', 'P')].lookup c

def doubleChar (c : Char) : List Char :=
  match escapeLetter c with
  | some l => ['\\', l]
  | none =>
    if isShown c then [c]
    else if c.toNat ≤ 0xFF then '\\' :: 'x' :: upperHex 2 c.toNat
    else if c.toNat ≤ 0xFFFF then '\\' :: 'u' :: upperHex 4 c.toNat
    else '\\' :: 'U' :: upperHex 8 c.toNat

def writeDouble (cs : List Char) : List Char := '"' :: cs.flatMap doubleChar ++ ['"']

/-- How the line breaks at the end of a literal block are kept: one of them, all, or none. -/
def chomping (cs : List Char) : List Char :=
  match cs.reverse with
  | [] => ['-']
  | c :: rest =>
    if !isBreak c then ['-']
    else if rest.isEmpty || rest.head?.any isBreak then ['+']
    else []

/-- A block that begins with a blank line or a blank has its indentation in the header. -/
def indentHint (cs : List Char) : List Char :=
  if cs.head?.any fun c => isSpace c || isBreak c then ['2'] else []

def writeLiteral (indent : Nat) (cs : List Char) : List Char :=
  '|' :: indentHint cs ++ chomping cs ++ '\n' :: indentLines indent (fun c => [c]) true cs

/-- A text in its style; lines after the first are indented. -/
def writeText (indent : Nat) (s : String) : List Char :=
  match style s with
  | .plain => s.toList
  | .single => writeSingle indent s.toList
  | .double => writeDouble s.toList
  | .literal => writeLiteral indent s.toList

/-- Whether a text can stand before a colon on one line. -/
def isShortName (s : String) : Bool :=
  !s.toList.any isBreak && Text.Utf8.size s ≤ 128

end ApiCommands.Yaml

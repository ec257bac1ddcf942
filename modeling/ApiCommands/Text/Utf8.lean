namespace ApiCommands.Text.Utf8

/-!
# Reading UTF-8

Bytes are read one by one. A part that cannot be continued is given up where it breaks, and the
byte that broke it is read anew; `decode?` refuses such a part, `decodeLossy` shows one
replacement character for it.
-/

/-- A character that is under way: how many bytes it still needs, the range of the next one, and
the bits read so far. -/
structure Pending where
  missing : Nat
  low : Nat
  high : Nat
  bits : Nat
deriving Repr, DecidableEq

/-- The outcome of reading a byte where a character may begin. -/
inductive Start where
  | char (c : Char)
  | more (p : Pending)
  | illFormed

def start (b : Nat) : Start :=
  if b < 0x80 then .char (Char.ofNat b)
  else if b < 0xC2 then .illFormed
  else if b < 0xE0 then .more ⟨1, 0x80, 0xBF, b % 32⟩
  else if b = 0xE0 then .more ⟨2, 0xA0, 0xBF, 0⟩
  else if b = 0xED then .more ⟨2, 0x80, 0x9F, 0xD⟩
  else if b < 0xF0 then .more ⟨2, 0x80, 0xBF, b % 16⟩
  else if b = 0xF0 then .more ⟨3, 0x90, 0xBF, 0⟩
  else if b < 0xF4 then .more ⟨3, 0x80, 0xBF, b % 8⟩
  else if b = 0xF4 then .more ⟨3, 0x80, 0x8F, 4⟩
  else .illFormed

/-- What a byte that may begin a character puts out, and what is under way after it. -/
def begin? (b : Nat) : List (Option Char) × Option Pending :=
  match start b with
  | .char c => ([some c], none)
  | .more p => ([], some p)
  | .illFormed => ([none], none)

def step (state : Option Pending) (b : Nat) : List (Option Char) × Option Pending :=
  match state with
  | none => begin? b
  | some p =>
    if p.low ≤ b ∧ b ≤ p.high then
      let bits := p.bits * 64 + b % 64
      if p.missing ≤ 1 then ([some (Char.ofNat bits)], none)
      else ([], some ⟨p.missing - 1, 0x80, 0xBF, bits⟩)
    else
      let (out, next) := begin? b
      (none :: out, next)

/-- The characters of the bytes, with `none` for each part that is not one. -/
def scan (state : Option Pending) : List UInt8 → List (Option Char)
  | [] => if state.isSome then [none] else []
  | b :: rest =>
    let (out, next) := step state b.toNat
    out ++ scan next rest

def decode? (bytes : List UInt8) : Option String :=
  ((scan none bytes).mapM id).map String.ofList

/-- Shows each part that is not a character as U+FFFD. -/
def decodeLossy (bytes : List UInt8) : String :=
  String.ofList ((scan none bytes).map (·.getD '\uFFFD'))

def encodeChar (c : Char) : List UInt8 :=
  let n := c.toNat
  if n < 0x80 then [n.toUInt8]
  else if n < 0x800 then [(0xC0 + n / 64).toUInt8, (0x80 + n % 64).toUInt8]
  else if n < 0x10000 then
    [(0xE0 + n / 4096).toUInt8, (0x80 + n / 64 % 64).toUInt8, (0x80 + n % 64).toUInt8]
  else
    [(0xF0 + n / 262144).toUInt8, (0x80 + n / 4096 % 64).toUInt8, (0x80 + n / 64 % 64).toUInt8,
      (0x80 + n % 64).toUInt8]

def encode (s : String) : List UInt8 :=
  s.toList.flatMap encodeChar

def size (s : String) : Nat := (encode s).length

theorem scan_ascii (b : UInt8) (h : b.toNat < 0x80) (rest : List UInt8) :
    scan none (b :: rest) = some (Char.ofNat b.toNat) :: scan none rest := by
  simp [scan, step, begin?, start, h]

example : decode? [0x61, 0xC3, 0xA9] = some "aé" := by decide
example : decode? [0xC3] = none := by decide
example : decodeLossy [0xE2, 0x82, 0x41, 0xFF] = "\uFFFDA\uFFFD" := by decide
example : encode "é😀" = [0xC3, 0xA9, 0xF0, 0x9F, 0x98, 0x80] := by decide

end ApiCommands.Text.Utf8

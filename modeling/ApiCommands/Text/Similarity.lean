import ApiCommands.Decimal.Binary64

namespace ApiCommands.Text

/-!
# Similar words

The Jaro similarity of two words: how many characters they share within half the length of the
longer one, and how many of those stand in another order. It is the mean of three ratios, each
rounded to a binary number.
-/

open Decimal (Magnitude)

/-- Takes the first free position of `wanted` between two bounds; positions are counted from
`index`. The second list says which positions are taken. -/
def takeFree (wanted : Char) (low high : Nat) : Nat → List Char → List Bool → Option (List Bool)
  | index, c :: cs, taken :: rest =>
    if low ≤ index ∧ index ≤ high ∧ ¬ taken ∧ c = wanted then some (true :: rest)
    else (takeFree wanted low high (index + 1) cs rest).map (taken :: ·)
  | _, _, _ => none

/-- Pairs each character of the first word with a free equal one of the second that is at most
`range` away. Returns the matched characters of the first and the taken positions of the
second. -/
def pairUp (range : Nat) (second : List Char) : Nat → List Char → List Bool → List Char × List Bool
  | _, [], taken => ([], taken)
  | index, c :: cs, taken =>
    match takeFree c (index - range) (index + range) 0 second taken with
    | some taken =>
      let (found, taken) := pairUp range second (index + 1) cs taken
      (c :: found, taken)
    | none => pairUp range second (index + 1) cs taken

def taken (cs : List Char) (marks : List Bool) : List Char :=
  (cs.zip marks).filterMap fun (c, mark) => if mark then some c else none

def similarity (a b : String) : Magnitude :=
  let xs := a.toList
  let ys := b.toList
  if xs.isEmpty && ys.isEmpty then .ofNat 1
  else
    let range := max xs.length ys.length / 2 - 1
    let (found, marks) := pairUp range ys 0 xs (ys.map fun _ => false)
    let matched := found.length
    if matched = 0 then .zero
    else
      let moved := ((found.zip (taken ys marks)).filter fun (c, d) => c != d).length / 2
      let total := ((Magnitude.ofRatio matched xs.length).add
        (.ofRatio matched ys.length)).add (.ofRatio (matched - moved) matched)
      total.div (.ofNat 3)

/-- Whether a word is close enough to another to be taken for a misspelling of it. -/
def isSimilar (a b : String) : Bool :=
  (Magnitude.ofRatio 7 10).lt (similarity a b)

example : isSimilar "qurey" "query" = true := by decide +kernel
example : isSimilar "x" "query" = false := by decide +kernel

end ApiCommands.Text

/-
Readers of text: each takes something from the front of the characters that
are left, or fails.
-/

namespace HindleyMilner.Toml

/-- Reads from the front of the characters left. -/
abbrev Reader := StateT (List Char) Option

namespace Reader

/-- The next character, which stays; nothing at the end. -/
def peek : Reader (Option Char) := do
  return (← get).head?

def next : Reader Char := fun
  | [] => none
  | c :: rest => some (c, rest)

def char (c : Char) : Reader Unit := do
  if (← next) ≠ c then failure

def satisfy (p : Char → Bool) : Reader Char := do
  let c ← next
  if p c then return c else failure

def literal (text : String) : Reader Unit :=
  text.toList.forM char

/-- Passes over the given character, if it is next. -/
def skip (c : Char) : Reader Bool := do
  if (← peek) = some c then
    char c
    return true
  else return false

/-- All characters up to the first without the property. -/
def takeWhile (p : Char → Bool) : Reader (List Char) :=
  modifyGet fun cs => (cs.takeWhile p, cs.dropWhile p)

/-- What a step reads, again and again until it reads nothing more, at most so
many times. -/
def manyWithin {A : Type} (step : Reader (Option A)) :
    Nat → Reader (List A)
  | 0 => failure
  | times + 1 => do
      match ← step with
      | none => return []
      | some a => return a :: (← manyWithin step times)

/-- What a step reads, again and again until it reads nothing more.  A step
that reads something takes a character, so the characters left bound the
number of steps. -/
def many {A : Type} (step : Reader (Option A)) : Reader (List A) := do
  manyWithin step ((← get).length + 1)

/-! ### Blanks and line ends -/

def isBlank (c : Char) : Bool :=
  c = ' ' || c = '\t'

def blanks : Reader Unit := do
  let _ ← takeWhile isBlank

def skipNewline : Reader Bool := fun
  | '\n' :: rest => some (true, rest)
  | '\r' :: '\n' :: rest => some (true, rest)
  | cs => some (false, cs)

def isCommentChar (c : Char) : Bool :=
  c = '\t' || (' ' ≤ c && c ≠ '\x7f')

def skipComment : Reader Bool := do
  if ← skip '#' then
    let _ ← takeWhile isCommentChar
    return true
  else return false

/-- The rest of a line: blanks and a comment. -/
def lineRest : Reader Unit := do
  blanks
  let _ ← skipComment
  if !(← skipNewline) then
    if (← peek).isSome then failure

/-- Blanks, comments and line ends. -/
def layout : Reader Unit := do
  let _ ← many do
    blanks
    if ← skipComment then
      if ← skipNewline then return some () else failure
    else if ← skipNewline then return some ()
    else return none

end Reader

end HindleyMilner.Toml

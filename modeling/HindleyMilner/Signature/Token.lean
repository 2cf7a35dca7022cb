import HindleyMilner.Name

/-
The tokens of type signatures and how a text is cut into them.  Outside of
identifiers every character counts: blanks separate tokens, punctuation stands
for itself, and any other character is an error.  All classes of characters
are ASCII.
-/

namespace HindleyMilner.Signature

/-- A token.  An identifier names a constructor if it starts with an upper
case letter and a variable otherwise. -/
inductive Token where
  | var (name : String)
  | con (name : Name)
  | openRound
  | closeRound
  | openSquare
  | closeSquare
  | comma
  | arrow
  | fatArrow
  deriving DecidableEq, Repr

/-- A token with the byte offset at which it starts. -/
structure Lexeme where
  token : Token
  pos : Nat
  deriving DecidableEq, Repr

structure StrayChar where
  char : Char
  pos : Nat
  deriving DecidableEq, Repr

def isIdentStart (c : Char) : Bool :=
  c.isAlpha || c = '_'

def isIdentRest (c : Char) : Bool :=
  c.isAlphanum || c = '_' || c = '\x27' || c = '.'

def isBlank (c : Char) : Bool :=
  c = ' ' || c = '\t' || c = '\n' || c = '\x0c' || c = '\r'

/-- The token that is this one character. -/
def punctuation? (c : Char) : Option Token :=
  match c with
  | '(' => some .openRound
  | ')' => some .closeRound
  | '[' => some .openSquare
  | ']' => some .closeSquare
  | ',' => some .comma
  | _ => none

/-- An identifier that is being read: where it starts, its first character,
and the further characters, last first. -/
structure Ident where
  pos : Nat
  first : Char
  rest : List Char

namespace Ident

def push (ident : Ident) (c : Char) : Ident :=
  { ident with rest := c :: ident.rest }

def lexeme (ident : Ident) : Lexeme where
  token :=
    let name := Name.ofChars ident.first ident.rest.reverse
    if ident.first.isUpper then .con name else .var name.text
  pos := ident.pos

end Ident

/-- The identifier that was being read, if any, as a list of tokens. -/
def finished (ident? : Option Ident) : List Lexeme :=
  (ident?.map Ident.lexeme).toList

/-- Reads a character that stands for itself: the tokens that it completes,
and the identifier that is being read after it. -/
def readChar (pos : Nat) (ident? : Option Ident) (c : Char) :
    Except StrayChar (List Lexeme × Option Ident) :=
  match ident?, isIdentRest c with
  | some ident, true => .ok ([], some (ident.push c))
  | _, _ =>
      if isBlank c then .ok (finished ident?, none)
      else if isIdentStart c then .ok (finished ident?, some ⟨pos, c, []⟩)
      else
        match punctuation? c with
        | some token => .ok (finished ident? ++ [⟨token, pos⟩], none)
        | none => .error ⟨c, pos⟩

/-- Reads the tokens from a byte offset on, in the middle of an identifier or
not. -/
def scan : Nat → Option Ident → List Char → Except StrayChar (List Lexeme)
  | _, ident?, [] => .ok (finished ident?)
  | pos, ident?, '-' :: '>' :: rest => do
      let lexemes ← scan (pos + 2) none rest
      return finished ident? ++ ⟨.arrow, pos⟩ :: lexemes
  | pos, ident?, '=' :: '>' :: rest => do
      let lexemes ← scan (pos + 2) none rest
      return finished ident? ++ ⟨.fatArrow, pos⟩ :: lexemes
  | pos, ident?, c :: rest => do
      let (done, ident?) ← readChar pos ident? c
      let lexemes ← scan (pos + c.utf8Size) ident? rest
      return done ++ lexemes

def tokenize (text : String) : Except StrayChar (List Lexeme) :=
  scan 0 none text.toList

example :
    (tokenize "[a]->b'").toOption =
      some [⟨.openSquare, 0⟩, ⟨.var "a", 1⟩, ⟨.closeSquare, 2⟩, ⟨.arrow, 3⟩,
        ⟨.var "b'", 5⟩] := by
  decide +kernel

end HindleyMilner.Signature

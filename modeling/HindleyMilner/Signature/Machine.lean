import HindleyMilner.Signature.Token
import HindleyMilner.Ty

/-
Reading a type from tokens, one token at a time, with a stack of the brackets
and arrows that are still open.

    type  := btype ["->" type]
    btype := atype atype*
    atype := Con | var | "()" | "[]" | "(->)" | "(" ","+ ")"
           | "[" type "]" | "(" type ")" | "(" type ("," type)+ ")"

A token is refused exactly where no type goes on with it, and a type that is
complete ends before the first token that cannot belong to it.
-/

namespace HindleyMilner.Signature

abbrev NamedTy := Ty String

/-- What a signature should have gone on with. -/
inductive Expected where
  | type
  | closeRound
  | closeSquare
  | endOfSignature
  deriving DecidableEq, Repr

/-- How an expectation is put in a message. -/
def Expected.text : Expected → String
  | .type => "a type"
  | .closeRound => "`)`"
  | .closeSquare => "`]`"
  | .endOfSignature => "end of signature"

/-- Something opened and not yet closed.  `outer` is what stands before the
bracket and will be applied to the bracketed type. -/
inductive Frame where
  /-- `param ->`, waiting for the result. -/
  | arrow (param : NamedTy)
  /-- `[`, inside of which a type is read. -/
  | square (outer : Option NamedTy)
  /-- `(`, and the components before the one being read, last first. -/
  | round (outer : Option NamedTy) (before : List NamedTy)
  deriving DecidableEq, Repr

/-- What was read last at the innermost level. -/
inductive Cursor where
  /-- Nothing: a type has to start. -/
  | typeStart
  /-- A type that arguments may follow. -/
  | operand (ty : NamedTy)
  /-- `[`. -/
  | square (outer : Option NamedTy)
  /-- `(`. -/
  | round (outer : Option NamedTy)
  /-- `(->`. -/
  | roundArrow (outer : Option NamedTy)
  /-- `(` and commas, of the constructor of tuples with so many components. -/
  | roundCommas (outer : Option NamedTy) (arity : Nat)
  deriving DecidableEq, Repr

/-- A position inside a type: the open frames, innermost first, and what was
read last. -/
structure Machine where
  stack : List Frame
  cursor : Cursor
  deriving DecidableEq, Repr

/-- What comes of offering a token, or the end of the text, to a machine. -/
inductive Step where
  /-- The token belongs to the type. -/
  | shift (next : Machine)
  /-- The type is complete without the token. -/
  | accept (ty : NamedTy)
  /-- The type cannot go on with the token. -/
  | reject (expected : Expected)
  deriving DecidableEq, Repr

namespace Machine

def initial : Machine := ⟨[], .typeStart⟩

def operand (stack : List Frame) (outer : Option NamedTy) (ty : NamedTy) :
    Step :=
  .shift ⟨stack, .operand
    (match outer with
    | none => ty
    | some func => .app func ty)⟩

/-- The type that a constructor's name stands for, `String` being a list of
characters. -/
def conTy (name : Name) : NamedTy :=
  if name = .string then .list (.con .char) else .con name

/-- Starts an operand, if the token does. -/
def startOperand? (stack : List Frame) (outer : Option NamedTy) :
    Option Token → Option Step
  | some (.var name) => some (operand stack outer (.var name))
  | some (.con name) => some (operand stack outer (conTy name))
  | some .openRound => some (.shift ⟨stack, .round outer⟩)
  | some .openSquare => some (.shift ⟨stack, .square outer⟩)
  | _ => none

/-- Offers a token where a type has to start. -/
def startType (stack : List Frame) (token? : Option Token) : Step :=
  (startOperand? stack none token?).getD (.reject .type)

/-- Offers a token after a complete type: arrows are closed, and the innermost
bracket decides. -/
def close (ty : NamedTy) : List Frame → Option Token → Step
  | [], _ => .accept ty
  | .arrow param :: stack, token? => close (.arrow param ty) stack token?
  | .square outer :: stack, token? =>
      match token? with
      | some .closeSquare => operand stack outer (.list ty)
      | _ => .reject .closeSquare
  | .round outer before :: stack, token? =>
      match token? with
      | some .comma =>
          .shift ⟨.round outer (ty :: before) :: stack, .typeStart⟩
      | some .closeRound =>
          operand stack outer (.parens (ty :: before).reverse)
      | _ => .reject .closeRound

/-- Offers a token, or the end of the text. -/
def step (m : Machine) (token? : Option Token) : Step :=
  match m.cursor, token? with
  | .typeStart, _ => startType m.stack token?
  | .operand ty, some .arrow => .shift ⟨.arrow ty :: m.stack, .typeStart⟩
  | .operand ty, _ =>
      (startOperand? m.stack (some ty) token?).getD (close ty m.stack token?)
  | .square outer, some .closeSquare => operand m.stack outer (.con .list)
  | .square outer, _ => startType (.square outer :: m.stack) token?
  | .round outer, some .closeRound => operand m.stack outer (.con .unit)
  | .round outer, some .arrow => .shift ⟨m.stack, .roundArrow outer⟩
  | .round outer, some .comma => .shift ⟨m.stack, .roundCommas outer 2⟩
  | .round outer, _ => startType (.round outer [] :: m.stack) token?
  | .roundArrow outer, some .closeRound =>
      operand m.stack outer (.con .arrow)
  | .roundArrow _, _ => .reject .closeRound
  | .roundCommas outer arity, some .comma =>
      .shift ⟨m.stack, .roundCommas outer (arity + 1)⟩
  | .roundCommas outer arity, some .closeRound =>
      operand m.stack outer (.con (.tuple arity))
  | .roundCommas _ _, _ => .reject .closeRound

end Machine

/-- A type, or what should have been there, and the tokens not read. -/
structure Reading where
  result : Except Expected NamedTy
  rest : List Lexeme

def Machine.read : Machine → List Lexeme → Reading
  | m, [] =>
      match m.step none with
      | .accept ty => ⟨.ok ty, []⟩
      | .reject expected => ⟨.error expected, []⟩
      | .shift _ => ⟨.error .type, []⟩
  | m, lexeme :: rest =>
      match m.step (some lexeme.token) with
      | .shift next => next.read rest
      | .accept ty => ⟨.ok ty, lexeme :: rest⟩
      | .reject expected => ⟨.error expected, lexeme :: rest⟩

/-- Reads a type from the start of the tokens. -/
def readType (lexemes : List Lexeme) : Reading :=
  Machine.initial.read lexemes

example :
    (readType [⟨.var "f", 0⟩, ⟨.var "a", 2⟩, ⟨.arrow, 4⟩, ⟨.var "b", 7⟩,
      ⟨.fatArrow, 9⟩]).result.toOption =
      some (.arrow (.app (.var "f") (.var "a")) (.var "b")) := by
  decide

example : (readType []).result.toOption = none := by decide

end HindleyMilner.Signature

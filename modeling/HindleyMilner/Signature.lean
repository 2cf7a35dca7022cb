import HindleyMilner.Scope
import HindleyMilner.Signature.Machine
import HindleyMilner.Unify

/-
Type signatures, like `Num a => a -> [a] -> a`.

    signature  := [context "=>"] type
    context    := constraint | "(" constraint ("," constraint)* ")" | "()"
    constraint := Class var

The names of variables are looked up in a scope, so signatures that are read
in one scope share their variables.  A constraint is imposed by unifying its
variable with a fresh one that has the class; the variable may have been
solved or joined since it was handed out.
-/

namespace HindleyMilner

inductive SignatureError.Cause where
  | unexpectedChar (c : Char)
  | expected (what : Signature.Expected)
  /-- A constraint names a class that does not exist. -/
  | unknownClass (name : Name)
  /-- What stands before `=>` is no list of constraints. -/
  | malformedContext
  /-- No type is an instance of both classes, as a variable would have to. -/
  | unsatisfiableContext (a b : String)
  /-- The variable stands for a type that is not an instance of the class. -/
  | notAnInstance (var : Name) (cls : String)
  /-- A variable that was created without a name stands for a type that is not
  an instance of the class.  A signature creates its variables with their
  names, so this only arises in a scope that was filled from another store. -/
  | namelessVar (cls : String)
  /-- A fresh variable could not be unified for a reason of its own. -/
  | unification (cause : UnifyError.Cause)
  deriving DecidableEq, Repr

/-- Why a text is no signature, and the byte offset where that shows. -/
structure SignatureError where
  pos : Nat
  cause : SignatureError.Cause
  deriving DecidableEq, Repr

namespace SignatureError

def Cause.message : Cause → String
  | .unexpectedChar c => s!"unexpected character: `{c}`"
  | .expected what => s!"expected {what.text}"
  | .unknownClass name => s!"unknown class: `{name.text}`"
  | .malformedContext =>
      "each constraint must be a class applied to a type variable"
  | .unsatisfiableContext a b =>
      s!"no type is an instance of both `{a}` and `{b}`"
  | .notAnInstance var cls =>
      s!"`{var.text}` is not an instance of `{cls}`"
  | .namelessVar cls =>
      s!"a variable without a name is not an instance of `{cls}`"
  | .unification _ => "a constraint could not be imposed"

def message (e : SignatureError) : String :=
  s!"{e.cause.message} (at byte {e.pos})"

end SignatureError

namespace Signature

/-- Actions that read a signature: the scope and the store are kept when they
fail. -/
abbrev ReadM := EStateM SignatureError (Scope × Store)

def handOut {A : Type} (action : ScopeM A) : ReadM A :=
  modifyGet action

/-- A requirement that a variable be an instance of a class. -/
structure Constraint where
  cls : Name
  var : String
  deriving DecidableEq, Repr

def constraint? (ty : NamedTy) : Option Constraint :=
  match ty.spine with
  | (.con cls, [.var var]) => some ⟨cls, var⟩
  | _ => none

/-- The constraints that a type stands for in front of `=>`, still as types:
those of a tuple with all its components, none for unit, or the type. -/
def contextParts (ty : NamedTy) : List NamedTy :=
  match ty.spine with
  | (.con head, args) =>
      if head = .unit then []
      else if head.tupleArity? = some args.length then args
      else [ty]
  | _ => [ty]

/-- How the failure to unify a fresh variable that has a class with `v` is
reported. -/
def constraintCause (table : ClassTable) (s : Store) (v : TyVar) :
    UnifyError.Cause → SignatureError.Cause
  | .unsatisfiable a b =>
      .unsatisfiableContext (table.nameOf a) (table.nameOf b)
  | .constraint _ c _ =>
      match Name.ofString? (s.baseOf v) with
      | some name => .notAnInstance name (table.nameOf c)
      | none => .namelessVar (table.nameOf c)
  | cause => .unification cause

def constrainVar (table : ClassTable) (pos : Nat) (v : TyVar) (c : ClassId) :
    ReadM Unit := do
  let w ← handOut (Scope.fresh "" (.ofList table [c]))
  let (scope, s) ← get
  match unify table (.var w) (.var v) s with
  | .ok _ s => set (scope, s)
  | .error e s =>
      set (scope, s)
      throw ⟨pos, constraintCause table s v e.cause⟩

def impose (table : ClassTable) (pos : Nat) (ty : NamedTy) : ReadM Unit := do
  match constraint? ty with
  | none => throw ⟨pos, .malformedContext⟩
  | some constraint =>
      match table.find? constraint.cls.text with
      | none => throw ⟨pos, .unknownClass constraint.cls⟩
      | some c =>
          constrainVar table pos (← handOut (Scope.var constraint.var)) c

def varNames (lexemes : List Lexeme) : List String :=
  lexemes.filterMap fun lexeme =>
    match lexeme.token with
    | .var name => some name
    | _ => none

/-- The byte offset of the first token, or of the end of the text. -/
def startOf (textEnd : Nat) (lexemes : List Lexeme) : Nat :=
  (lexemes.head?.map (·.pos)).getD textEnd

/-- Reads a type from the start of the tokens, with variables for the names
that are read, also when the type turns out not to go on. -/
def elaborateType (textEnd : Nat) (lexemes : List Lexeme) :
    ReadM (NamedTy × List Lexeme) := do
  let reading := readType lexemes
  let consumed := lexemes.take (lexemes.length - reading.rest.length)
  handOut ((varNames consumed).forM fun name => do let _ ← Scope.var name)
  match reading.result with
  | .ok ty => return (ty, reading.rest)
  | .error what => throw ⟨startOf textEnd reading.rest, .expected what⟩

/-- The variables for the names in a type that all tokens have been read
for. -/
def finish (textEnd : Nat) (ty : NamedTy) (rest : List Lexeme) :
    ReadM (Ty TyVar) := do
  if rest ≠ [] then
    throw ⟨startOf textEnd rest, .expected .endOfSignature⟩
  handOut (ty.mapVarsM Scope.var)

/-- Reads the tokens of a signature. -/
def elaborate (table : ClassTable) (textEnd : Nat)
    (lexemes : List Lexeme) : ReadM (Ty TyVar) := do
  let (first, rest) ← elaborateType textEnd lexemes
  match rest with
  | ⟨.fatArrow, _⟩ :: rest =>
      (contextParts first).forM (impose table (startOf textEnd lexemes))
      let (ty, rest) ← elaborateType textEnd rest
      finish textEnd ty rest
  | _ => finish textEnd first rest

/-- Reads a signature in a scope. -/
def parse (table : ClassTable) (text : String) : ReadM (Ty TyVar) :=
  match tokenize text with
  | .ok lexemes => elaborate table text.utf8ByteSize lexemes
  | .error stray => throw ⟨stray.pos, .unexpectedChar stray.char⟩

end Signature

end HindleyMilner

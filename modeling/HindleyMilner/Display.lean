import HindleyMilner.TypeState

/-
How types and unification errors are written.  Variables are called `a`, `b`
and so on, in the order in which they appear in what is being written, so the
text of a type does not depend on what else the store holds.
-/

namespace HindleyMilner

/-- Where the classes of variables are written. -/
inductive DisplayStyle where
  /-- At every occurrence of a variable: `Num a -> Num a`. -/
  | inline
  /-- In front of the type: `Num a => a -> a`. -/
  | context
  deriving DecidableEq, Repr

namespace Display

/-- What surrounds a type, from the loosest place to the tightest. -/
inductive Place where
  | whole
  | param
  | argument
  deriving DecidableEq, Repr

/-- The name of the variable that appears at a position: `a` to `z`, then `aa`
to `zz`, and so on. -/
def letters (position : Nat) : String :=
  String.ofList
    (List.replicate (position / 26 + 1) (Char.ofNat (97 + position % 26)))

def parenIf (needed : Bool) (text : String) : String :=
  if needed then "(" ++ text ++ ")" else text

def commas (texts : List String) : String :=
  ", ".intercalate texts

/-- What is needed to write types: the state, the variables in order of
appearance, and whether classes are written next to them. -/
structure Writer where
  st : TypeState
  vars : List TyVar
  inline : Bool

namespace Writer

def classNames (w : Writer) (v : TyVar) : List String :=
  ((w.st.store.classes? v).map (·.names w.st.classes)).getD []

def var (w : Writer) (v : TyVar) (place : Place) : String :=
  match w.vars.idxOf? v with
  | none => w.st.store.varName v
  | some position =>
      let name := letters position
      match if w.inline then w.classNames v else [] with
      | [] => name
      | [cls] => parenIf (place = .argument) (cls ++ " " ++ name)
      | classes =>
          parenIf (place = .argument) ("(" ++ commas classes ++ ") " ++ name)

def con (name : Name) : String :=
  if name = .arrow then "(->)" else name.text

/-- A head and its arguments, each written in the place it is given. -/
def applied (head : String) (args : List (Place → String)) (place : Place) :
    String :=
  match args with
  | [] => head
  | _ =>
      parenIf (place = .argument)
        (" ".intercalate (head :: args.map (· .argument)))

/-- A constructor with its arguments that is neither a function nor a list: a
tuple with all its components, or the plain form. -/
def tupleApplied (name : Name) (args : List (Place → String))
    (place : Place) : String :=
  if name.tupleArity? = some args.length then
    "(" ++ commas (args.map (· .whole)) ++ ")"
  else applied (con name) args place

/-- A constructor with its arguments, in the special forms of functions, lists
and tuples if it has the right number of them. -/
def conApplied (name : Name) (args : List (Place → String)) (place : Place) :
    String :=
  match args with
  | [param, result] =>
      if name = .arrow then
        parenIf (place ≠ .whole) (param .param ++ " -> " ++ result .whole)
      else tupleApplied name args place
  | [elem] =>
      if name = .list then "[" ++ elem .whole ++ "]"
      else tupleApplied name args place
  | _ => tupleApplied name args place

def tyApplied (w : Writer) :
    Ty TyVar → List (Place → String) → Place → String
  | .app func arg, args => w.tyApplied func (w.tyApplied arg [] :: args)
  | .con name, args => conApplied name args
  | .var v, [] => w.var v
  | .var v, args => applied (w.var v .argument) args

def ty (w : Writer) (t : Ty TyVar) (place : Place) : String :=
  w.tyApplied (w.st.store.zonk t) [] place

/-- The constraints of all variables with `=>` after them, if there are
any. -/
def context (w : Writer) : String :=
  let constraints := w.vars.zipIdx.flatMap fun (v, position) =>
    (w.classNames v).map fun cls => cls ++ " " ++ letters position
  match constraints with
  | [] => ""
  | [constraint] => constraint ++ " => "
  | _ => "(" ++ commas constraints ++ ") => "

/-- Writes the classes of the variables of the types inline. -/
def ofTypes (st : TypeState) (types : List (Ty TyVar)) : Writer where
  st := st
  vars := types.foldl st.store.addFreeVars []
  inline := true

def quoted (w : Writer) (t : Ty TyVar) : String :=
  "`" ++ w.ty t .whole ++ "`"

end Writer

end Display

open Display

namespace TypeState

def display (st : TypeState) (style : DisplayStyle) (t : Ty TyVar) :
    String :=
  let w := Writer.ofTypes st [t]
  match style with
  | .inline => w.ty t .whole
  | .context => w.context ++ { w with inline := false }.ty t .whole

end TypeState

namespace UnifyError

def Cause.message (st : TypeState) : Cause → String
  | .mismatch want got =>
      let w := Writer.ofTypes st [want, got]
      w.quoted want ++ " and " ++ w.quoted got ++ " are incompatible types"
  | .constraint _ c ty =>
      (Writer.ofTypes st [ty]).quoted ty ++ " is not an instance of `" ++
        st.classes.nameOf c ++ "`"
  | .unsatisfiable a b =>
      "no type is an instance of both `" ++ st.classes.nameOf a ++
        "` and `" ++ st.classes.nameOf b ++ "`"
  | .circularity v ty =>
      let w := Writer.ofTypes st [.var v, ty]
      "circular type: " ++ w.quoted (.var v) ++ " occurs in " ++ w.quoted ty
  | .fault .tooDeep => "a type is nested without end"
  | .fault (.notUnsolved v) => st.store.varName v ++ " is solved already"

/-- Where the error is, innermost argument first; nothing for the types as a
whole. -/
def place (path : List Nat) : String :=
  match path.reverse with
  | [] => ""
  | innermost :: outer =>
      " (in argument " ++ toString innermost ++
        String.join (outer.map fun pos => " of argument " ++ toString pos) ++
        ")"

def message (st : TypeState) (e : UnifyError) : String :=
  e.cause.message st ++ place e.path

end UnifyError

example : letters 0 = "a" := by decide

example : letters 28 = "cc" := by decide

end HindleyMilner

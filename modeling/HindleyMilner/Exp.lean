import HindleyMilner.Env

/-
Expressions.  Every expression and every binder has a number of its own, given
out in the order in which they are built, parts before wholes.
-/

namespace HindleyMilner

structure ExpId where
  index : Nat
  deriving DecidableEq, Repr

structure BinderId where
  index : Nat
  deriving DecidableEq, Repr

/-- A name bound by a lambda or a let, with the type it must have, if any. -/
structure Binder where
  id : BinderId
  name : Name
  declared : Option (Ty TyVar)
  deriving DecidableEq, Repr

mutual

inductive Exp where
  /-- A literal: its type, and the text it is written with. -/
  | value (id : ExpId) (ty : Ty TyVar) (text : String)
  /-- A use of a binder of a lambda or a let around it. -/
  | localVar (id : ExpId) (binder : Binder)
  /-- A use of a function of the environment. -/
  | function (id : ExpId) (use : FunctionUse)
  /-- A place where an expression is missing. -/
  | hole (id : ExpId)
  | apply (id : ExpId) (func arg : Exp)
  | lambda (id : ExpId) (params : List Binder) (body : Exp)
  /-- Bindings, each in scope in the later ones and in the body. -/
  | letIn (id : ExpId) (bindings : Bindings) (body : Exp)
  | annotated (id : ExpId) (inner : Exp) (ty : Ty TyVar)

/-- Binders with the expressions that are bound to them, in order. -/
inductive Bindings where
  | nil
  | cons (binder : Binder) (bound : Exp) (rest : Bindings)

end

namespace Bindings

def ofList : List (Binder × Exp) → Bindings
  | [] => .nil
  | (binder, bound) :: rest => .cons binder bound (ofList rest)

end Bindings

namespace Exp

def id : Exp → ExpId
  | .value id _ _ => id
  | .localVar id _ => id
  | .function id _ => id
  | .hole id => id
  | .apply id _ _ => id
  | .lambda id _ _ => id
  | .letIn id _ _ => id
  | .annotated id _ _ => id

end Exp

/-- How many expressions and binders have been built. -/
structure Supply where
  exps : Nat
  binders : Nat
  deriving DecidableEq, Repr

abbrev BuildM := StateM Supply

namespace Build

def exp (make : ExpId → Exp) : BuildM Exp :=
  modifyGet fun supply =>
    (make ⟨supply.exps⟩, { supply with exps := supply.exps + 1 })

def binder (name : Name) (declared : Option (Ty TyVar)) : BuildM Binder :=
  modifyGet fun supply =>
    (⟨⟨supply.binders⟩, name, declared⟩,
      { supply with binders := supply.binders + 1 })

def value (ty : Ty TyVar) (text : String) : BuildM Exp :=
  exp (.value · ty text)

def localVar (binder : Binder) : BuildM Exp :=
  exp (.localVar · binder)

def function (use : FunctionUse) : BuildM Exp :=
  exp (.function · use)

/-- A place where an expression is missing. -/
def hole : BuildM Exp :=
  exp .hole

def apply (func arg : Exp) : BuildM Exp :=
  exp (.apply · func arg)

/-- A function applied to each of the arguments in turn. -/
def applyMany (func : Exp) (args : List Exp) : BuildM Exp :=
  args.foldlM apply func

def lambda (params : List Binder) (body : Exp) : BuildM Exp :=
  exp (.lambda · params body)

def letIn (bindings : List (Binder × Exp)) (body : Exp) : BuildM Exp :=
  exp (.letIn · (.ofList bindings) body)

def annotated (inner : Exp) (ty : Ty TyVar) : BuildM Exp :=
  exp (.annotated · inner ty)

end Build

end HindleyMilner

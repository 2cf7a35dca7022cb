import HindleyMilner.Store

/-
Unification: making two types equal by solving variables.  A variable is only
solved to types that are instances of its classes; the variables inside such a
type take over what the classes ask of the arguments.

A failed unification keeps what it did before the failure: the state monad
below hands the store on in both cases.
-/

namespace HindleyMilner

/-- A way in which a walk over a broken store ends.  None of them arises in a
store without circular solutions. -/
inductive Fault where
  /-- The walk went deeper than any type of the store. -/
  | tooDeep
  /-- A variable that should be unsolved is not. -/
  | notUnsolved (v : TyVar)
  deriving DecidableEq, Repr

/-- Why two types cannot be made equal. -/
inductive UnifyError.Cause where
  /-- The types have different constructors or shapes. -/
  | mismatch (want got : Ty TyVar)
  /-- The type is not an instance of a class that the variable requires. -/
  | constraint (v : TyVar) (c : ClassId) (ty : Ty TyVar)
  /-- No type is an instance of both classes. -/
  | unsatisfiable (a b : ClassId)
  /-- The variable would stand for a type that contains it. -/
  | circularity (v : TyVar) (ty : Ty TyVar)
  /-- The store was broken before. -/
  | fault (fault : Fault)
  deriving DecidableEq, Repr

/-- Why two types cannot be made equal, and where: the positions of the
arguments that lead to the place, outermost first.  The arguments of a
function type are its parameter, at 0, and its result, at 1. -/
structure UnifyError where
  cause : UnifyError.Cause
  path : List Nat
  deriving DecidableEq, Repr

/-- The error seen from outside the argument at a position. -/
def UnifyError.within (pos : Nat) (e : UnifyError) : UnifyError :=
  { e with path := pos :: e.path }

/-- Actions on a store that may fail, the store being kept either way. -/
abbrev UnifyM := EStateM UnifyError Store

namespace UnifyM

def fail {A : Type} (cause : UnifyError.Cause) : UnifyM A :=
  throw ⟨cause, []⟩

def within {A : Type} (pos : Nat) (action : UnifyM A) : UnifyM A :=
  EStateM.adaptExcept (UnifyError.within pos) action

def prune (ty : Ty TyVar) : UnifyM (Ty TyVar) :=
  modifyGet fun s => s.prune ty

def unsolvedClasses (v : TyVar) : UnifyM ClassSet := do
  match (← get).unsolvedClasses? v with
  | some classes => return classes
  | none => fail (.fault (.notUnsolved v))

def setClasses (v : TyVar) (classes : ClassSet) : UnifyM Unit := do
  let _ ← unsolvedClasses v
  modify (·.setBinding v (.unsolved classes))

def solve (v : TyVar) (ty : Ty TyVar) : UnifyM Unit := do
  let _ ← unsolvedClasses v
  modify (·.setBinding v (.solved ty))

end UnifyM

open UnifyM

def constrain (table : ClassTable) (v : TyVar) (c : ClassId) :
    UnifyM Unit := do
  match (← unsolvedClasses v).insert? table c with
  | none => return
  | some classes =>
      match table.conflict? classes with
      | some (a, b) => fail (.unsatisfiable a b)
      | none => setClasses v classes

/-- Makes a type that is no variable an instance of a class that `v` requires,
going at most so many levels deep.  Its constructor must be an instance, and
its arguments are made instances of the classes that this asks of them. -/
def requireWithin (table : ClassTable) (v : TyVar) :
    Nat → ClassId → Ty TyVar → UnifyM Unit
  | 0, _, _ => fail (.fault .tooDeep)
  | depth + 1, c, ty => do
      let s ← get
      match s.spine ty with
      | (.con con, args) =>
          if table.hasInstance c con then
            args.forM fun arg =>
              (table.argClasses c con).members.forM fun d => do
                match ← prune arg with
                | .var w => constrain table w d
                | inner => requireWithin table v depth d inner
          else fail (.constraint v c (s.zonk ty))
      | _ => fail (.constraint v c (s.zonk ty))

def require (table : ClassTable) (v : TyVar) (c : ClassId)
    (ty : Ty TyVar) : UnifyM Unit := do
  requireWithin table v ((← get).depthBound ty) c ty

/-- Solves `want` to `got`, which takes over its classes.  Both are unsolved
and they differ. -/
def joinVars (table : ClassTable) (want got : TyVar) : UnifyM Unit := do
  let merged := (← unsolvedClasses want).union table (← unsolvedClasses got)
  match table.conflict? merged with
  | some (a, b) => fail (.unsatisfiable a b)
  | none =>
      setClasses got merged
      solve want (.var got)

/-- Solves an unsolved variable to a type that is no variable. -/
def solveVar (table : ClassTable) (v : TyVar) (ty : Ty TyVar) :
    UnifyM Unit := do
  if (← get).occurs v ty then fail (.circularity v ty)
  (← unsolvedClasses v).members.forM fun c => require table v c ty
  solve v ty

/-- Whether both types have constructors at their heads that differ, or the
same one with different numbers of arguments. -/
def headsDiffer (s : Store) (want got : Ty TyVar) : Bool :=
  match s.spine want, s.spine got with
  | (.con c, wantArgs), (.con d, gotArgs) =>
      decide (c ≠ d ∨ wantArgs.length ≠ gotArgs.length)
  | _, _ => false

/-- Makes two types equal, going at most so many levels deep. -/
def unifyWithin (table : ClassTable) :
    Nat → Ty TyVar → Ty TyVar → UnifyM Unit
  | 0, _, _ => fail (.fault .tooDeep)
  | depth + 1, want, got => do
      let want ← prune want
      let got ← prune got
      match want, got with
      | .var v, .var w => if v = w then return else joinVars table v w
      | .var v, ty => solveVar table v ty
      | ty, .var v => solveVar table v ty
      | .con c, .con d =>
          if c = d then return else fail (.mismatch want got)
      | .app wantFunc wantArg, .app gotFunc gotArg => do
          let s ← get
          if headsDiffer s want got then
            fail (.mismatch (s.zonk want) (s.zonk got))
          unifyWithin table depth wantFunc gotFunc
          let pos := ((← get).spine wantFunc).2.length
          within pos (unifyWithin table depth wantArg gotArg)
      | _, _ => fail (.mismatch want got)

/-- Makes two types equal, solving variables and passing on their classes.
The context asks for `want` and is given `got`; which is which shows in errors
and in which of two variables is solved to the other. -/
def unify (table : ClassTable) (want got : Ty TyVar) : UnifyM Unit := do
  let s ← get
  unifyWithin table (max (s.depthBound want) (s.depthBound got)) want got

end HindleyMilner

import HindleyMilner.Store

/-
Scopes: where one use site gets its type variables from.  A scope gives one
variable to all uses of one name, and one fresh copy to all occurrences of one
variable that it instantiates.
-/

namespace HindleyMilner

/-- The variables handed out for names and the fresh copies made, latest
first. -/
structure Scope where
  named : List (String × TyVar)
  copies : List (TyVar × TyVar)
  deriving Repr

/-- Actions that hand out variables of a store. -/
abbrev ScopeM := StateM (Scope × Store)

namespace Scope

def empty : Scope := ⟨[], []⟩

instance : Inhabited Scope := ⟨empty⟩

/-- A fresh variable, handed out to nobody. -/
def fresh (base : String) (classes : ClassSet) : ScopeM TyVar :=
  modifyGet fun (scope, s) =>
    let (v, s) := s.fresh base classes
    (v, (scope, s))

/-- The variable of a name, fresh when the name is first asked for. -/
def var (name : String) : ScopeM TyVar := do
  match (← get).1.named.lookup name with
  | some v => return v
  | none =>
      let v ← fresh name ∅
      modify fun (scope, s) =>
        ({ scope with named := (name, v) :: scope.named }, s)
      return v

/-- The copy of an unsolved variable, fresh with the same classes when the
variable is first met. -/
def copy (v : TyVar) : ScopeM TyVar := do
  let (scope, s) ← get
  match scope.copies.lookup v with
  | some w => return w
  | none =>
      let w ← fresh (s.baseOf v) ((s.unsolvedClasses? v).getD ∅)
      modify fun (scope, s) =>
        ({ scope with copies := (v, w) :: scope.copies }, s)
      return w

/-- The type with every unsolved variable replaced by its copy; a type without
unsolved variables as it is. -/
def instantiate (ty : Ty TyVar) : ScopeM (Ty TyVar) := do
  let (_, s) ← get
  if s.freeVars ty = [] then return ty
  (s.zonk ty).mapVarsM copy

end Scope

namespace Store

def inNewScope {A : Type} (s : Store) (action : ScopeM A) : A × Store :=
  let (result, _, s) := action (.empty, s)
  (result, s)

end Store

end HindleyMilner

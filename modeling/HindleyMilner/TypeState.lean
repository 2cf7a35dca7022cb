import HindleyMilner.Signature

/-
The state of a session of inference: the classes, which only grow, and the
type variables, which are solved as types are unified.
-/

namespace HindleyMilner

/-- The classes and the type variables. -/
structure TypeState where
  classes : ClassTable
  store : Store
  deriving Repr

namespace TypeState

def empty : TypeState := ⟨.empty, .empty⟩

instance : Inhabited TypeState := ⟨empty⟩

def withStore (st : TypeState) (store : Store) : TypeState :=
  { st with store }

/-- Unifies two types; the store is kept on failure too. -/
def unify (st : TypeState) (want got : Ty TyVar) :
    Except UnifyError Unit × TypeState :=
  match HindleyMilner.unify st.classes want got st.store with
  | .ok _ store => (.ok (), st.withStore store)
  | .error e store => (.error e, st.withStore store)

/-- Reads a signature in a scope; the scope and the store are kept on failure
too. -/
def parse (st : TypeState) (scope : Scope) (text : String) :
    Except SignatureError (Ty TyVar) × Scope × TypeState :=
  match Signature.parse st.classes text (scope, st.store) with
  | .ok ty (scope, store) => (.ok ty, scope, st.withStore store)
  | .error e (scope, store) => (.error e, scope, st.withStore store)

end TypeState

end HindleyMilner

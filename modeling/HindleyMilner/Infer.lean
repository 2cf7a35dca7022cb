import HindleyMilner.Exp.Haskell

/-
Inferring the types of expressions.  A view keeps the types that were found,
by the numbers of expressions and binders, so nothing is inferred twice while
it lasts.
-/

namespace HindleyMilner

inductive InferError.Cause where
  /-- Types that should be equal cannot be. -/
  | unify (e : UnifyError)
  /-- A binder is used where it is not bound. -/
  | unboundBinder (binder : Binder)
  deriving DecidableEq, Repr

/-- Why an expression has no type, and the part of it whose rule failed. -/
structure InferError where
  exp : Exp
  cause : InferError.Cause

def InferError.message (st : TypeState) (e : InferError) : String :=
  match e.cause with
  | .unify cause => cause.message st ++ " in `" ++ e.exp.toHaskell st ++ "`"
  | .unboundBinder binder =>
      "`" ++ binder.name.text ++ "` is used outside of its binder"

/-- The types found so far, latest first. -/
structure View where
  exps : List (ExpId × Ty TyVar)
  binders : List (BinderId × Ty TyVar)
  deriving Repr

namespace View

def empty : View := ⟨[], []⟩

instance : Inhabited View := ⟨empty⟩

def cached? (view : View) (e : Exp) : Option (Ty TyVar) :=
  view.exps.lookup e.id

def binderTy? (view : View) (binder : Binder) : Option (Ty TyVar) :=
  view.binders.lookup binder.id

end View

/-- Actions on a view and a store: what was found out before a failure
stays. -/
abbrev InferM := EStateM InferError (View × Store)

namespace Infer

def onStore {A : Type} (f : Store → A × Store) : InferM A :=
  modifyGet fun (view, s) =>
    let (a, s) := f s
    (a, view, s)

def fresh (base : String) : InferM (Ty TyVar) :=
  onStore fun s =>
    let (v, s) := s.fresh base ∅
    (.var v, s)

def unifyAt (table : ClassTable) (exp : Exp) (want got : Ty TyVar) :
    InferM Unit := do
  let (view, s) ← get
  match unify table want got s with
  | .ok _ s => set (view, s)
  | .error e s =>
      set (view, s)
      throw ⟨exp, .unify e⟩

theorem unifyAt_run (table : ClassTable) (exp : Exp) (want got : Ty TyVar)
    (view : View) (s : Store) :
    (unifyAt table exp want got).run (view, s) =
      match (unify table want got).run s with
      | .ok _ s' => .ok () (view, s')
      | .error e s' => .error ⟨exp, .unify e⟩ (view, s') := by
  have hopen : (unifyAt table exp want got).run (view, s) =
      (match (unify table want got).run s with
        | .ok _ s' => set (view, s')
        | .error e s' => do
            set (view, s')
            throw ⟨exp, .unify e⟩ : InferM Unit).run (view, s) :=
    rfl
  rw [hopen]
  cases (unify table want got).run s <;> rfl

/-- The type kept for an expression, or the one that its rule finds. -/
def remember (e : Exp) (rule : InferM (Ty TyVar)) : InferM (Ty TyVar) := do
  match (← get).1.cached? e with
  | some ty => return ty
  | none =>
      let ty ← rule
      modify fun (view, s) =>
        ({ view with exps := (e.id, ty) :: view.exps }, s)
      return ty

theorem remember_run_cached {e : Exp} {now : View × Store} {ty : Ty TyVar}
    (h : now.1.cached? e = some ty) (rule : InferM (Ty TyVar)) :
    (remember e rule).run now = .ok ty now := by
  simp only [remember, EStateM.run_bind, EStateM.run_get, h]
  rfl

theorem remember_run {e : Exp} {now : View × Store}
    (h : now.1.cached? e = none) (rule : InferM (Ty TyVar)) :
    (remember e rule).run now =
      (rule >>= fun ty => do
        modify fun (view, s) =>
          ({ view with exps := (e.id, ty) :: view.exps }, s)
        return ty).run now := by
  simp only [remember, EStateM.run_bind, EStateM.run_get, h]

/-- Gives a binder a type, from its annotation if it has one. -/
def bindIn (scope : Scope) (binder : Binder) :
    InferM (Ty TyVar × Scope) := do
  let (ty, scope) ← match binder.declared with
    | some declared =>
        onStore fun s =>
          let (ty, scope, s) := Scope.instantiate declared (scope, s)
          ((ty, scope), s)
    | none => do
        let ty ← fresh binder.name.text
        pure (ty, scope)
  modify fun (view, s) =>
    ({ view with binders := (binder.id, ty) :: view.binders }, s)
  return (ty, scope)

/-- Gives binders types, with one scope for their annotations. -/
def bindAll : Scope → List Binder → InferM (List (Ty TyVar))
  | _, [] => return []
  | scope, binder :: rest => do
      let (ty, scope) ← bindIn scope binder
      return ty :: (← bindAll scope rest)

end Infer

open Infer

mutual

/-- The type of an expression, as its rule gives it. -/
def Exp.findType (table : ClassTable) : Exp → InferM (Ty TyVar)
  | e@(.value _ ty _) => remember e (return ty)
  | e@(.localVar _ binder) => remember e do
      match (← get).1.binderTy? binder with
      | some ty => return ty
      | none => throw ⟨e, .unboundBinder binder⟩
  | e@(.function _ use) => remember e (onStore use.instantiate)
  | e@(.hole _) => remember e (fresh "hole")
  | e@(.apply _ func arg) => remember e do
      let funcTy ← func.findType table
      let argTy ← arg.findType table
      let result ← fresh "res"
      unifyAt table e funcTy (.arrow argTy result)
      return result
  | e@(.lambda _ params body) => remember e do
      let paramTys ← bindAll .empty params
      return .arrows paramTys (← body.findType table)
  | e@(.letIn _ bindings body) => remember e do
      bindings.findTypes table e .empty
      body.findType table
  | e@(.annotated _ inner declared) => remember e do
      let got ← inner.findType table
      let want ← onStore (·.inNewScope (Scope.instantiate declared))
      unifyAt table e want got
      return got

/-- Gives the binders of a let the types of what is bound to them. -/
def Bindings.findTypes (table : ClassTable) (e : Exp) (scope : Scope) :
    Bindings → InferM Unit
  | .nil => return
  | .cons binder bound rest => do
      let got ← bound.findType table
      let (want, scope) ← bindIn scope binder
      unifyAt table e want got
      rest.findTypes table e scope

end

/-- The type of an expression with all solved variables replaced. -/
def Exp.infer (table : ClassTable) (e : Exp) : InferM (Ty TyVar) := do
  let ty ← e.findType table
  return (← get).2.zonk ty

end HindleyMilner

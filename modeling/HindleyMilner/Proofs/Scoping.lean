import HindleyMilner.Infer
import HindleyMilner.Proofs.Requirement

/-
Expressions whose binders are all used in their scopes.  When such an
expression is inferred, every binder has its type before it is used, so all
that can go wrong is that types cannot be made equal.
-/

namespace HindleyMilner

def Bindings.scope (ids : List BinderId) : Bindings → List BinderId
  | .nil => ids
  | .cons binder _ rest => rest.scope (binder.id :: ids)

theorem Bindings.mem_scope {id : BinderId} : ∀ (bindings : Bindings)
    (ids : List BinderId), id ∈ ids → id ∈ bindings.scope ids
  | .nil, _, hid => hid
  | .cons binder _ rest, ids, hid =>
      rest.mem_scope (binder.id :: ids) (List.mem_cons_of_mem binder.id hid)

mutual

/-- Whether an expression only uses the binders given and, where it binds
others itself, those. -/
def Exp.Scoped (ids : List BinderId) : Exp → Prop
  | .value .. => True
  | .localVar _ binder => binder.id ∈ ids
  | .function .. => True
  | .hole _ => True
  | .apply _ func arg => func.Scoped ids ∧ arg.Scoped ids
  | .lambda _ params body => body.Scoped (params.map (·.id) ++ ids)
  | .letIn _ bindings body =>
      bindings.Scoped ids ∧ body.Scoped (bindings.scope ids)
  | .annotated _ inner _ => inner.Scoped ids

def Bindings.Scoped (ids : List BinderId) : Bindings → Prop
  | .nil => True
  | .cons binder bound rest => bound.Scoped ids ∧ rest.Scoped (binder.id :: ids)

end

/-- Whether a view has types for binders. -/
def View.HasBinders (view : View) (ids : List BinderId) : Prop :=
  ∀ id ∈ ids, ∃ t, view.binders.lookup id = some t

theorem View.HasBinders.cons {view : View} {ids : List BinderId}
    (h : view.HasBinders ids) (id : BinderId) (t : Ty TyVar) :
    View.HasBinders { view with binders := (id, t) :: view.binders }
      (id :: ids) := by
  intro other hother
  by_cases heq : other = id
  · exact ⟨t, by simp [heq]⟩
  · obtain ⟨u, hu⟩ := h other ((List.mem_cons.1 hother).resolve_left heq)
    exact ⟨u, by simp [List.lookup_cons, beq_eq_false_iff_ne.2 heq, hu]⟩

namespace Infer

variable {A B : Type} {ids ids' ids'' : List BinderId} {x : InferM A}
  {table : ClassTable}

/-- Whether an action, when some binders have types, leaves types for others
and fails only if types cannot be made equal. -/
def Scoping (ids ids' : List BinderId) (x : InferM A) : Prop :=
  ∀ now : View × Store, now.1.HasBinders ids →
    match x.run now with
    | .ok _ next => next.1.HasBinders ids'
    | .error e _ => ∃ cause, e.cause = .unify cause

/-- The binders that the first action leaves types for are there for the
second. -/
theorem Scoping.bind {f : A → InferM B} (hx : Scoping ids ids' x)
    (hf : ∀ a, Scoping ids' ids'' (f a)) : Scoping ids ids'' (x >>= f) := by
  intro now hnow
  have hfirst := hx now hnow
  rw [EStateM.run_bind]
  cases hrun : x.run now with
  | ok a next =>
      rw [hrun] at hfirst
      exact hf a next hfirst
  | error e next =>
      rw [hrun] at hfirst
      exact hfirst

theorem Scoping.mono (hx : Scoping ids ids' x)
    (hle : ∀ id ∈ ids'', id ∈ ids') : Scoping ids ids'' x := by
  intro now hnow
  have hfirst := hx now hnow
  cases hrun : x.run now with
  | ok a next =>
      rw [hrun] at hfirst
      exact fun id hid => hfirst id (hle id hid)
  | error e next =>
      rw [hrun] at hfirst
      exact hfirst

theorem Scoping.pure (ids : List BinderId) (a : A) :
    Scoping ids ids (pure a : InferM A) :=
  fun _ hnow => hnow

theorem scoping_onStore (ids : List BinderId) (f : Store → A × Store) :
    Scoping ids ids (onStore f) :=
  fun _ hnow => hnow

theorem scoping_unifyAt (ids : List BinderId) (exp : Exp)
    (want got : Ty TyVar) : Scoping ids ids (unifyAt table exp want got) := by
  intro now hnow
  rw [unifyAt_run]
  cases (unify table want got).run now.2 with
  | ok u s => exact hnow
  | error e s => exact ⟨e, rfl⟩

theorem scoping_remember {rule : InferM (Ty TyVar)}
    (h : Scoping ids ids rule) (e : Exp) :
    Scoping ids ids (remember e rule) := by
  intro now hnow
  cases hcached : now.1.cached? e with
  | some ty =>
      rw [remember_run_cached hcached]
      exact hnow
  | none =>
      rw [remember_run hcached]
      exact h.bind (fun ty next hnext => hnext) now hnow

theorem scoping_bindIn (ids : List BinderId) (scope : Scope)
    (binder : Binder) :
    Scoping ids (binder.id :: ids) (bindIn scope binder) := by
  intro now hnow
  rcases binder with ⟨id, name, declared?⟩
  cases declared? with
  | none => exact hnow.cons id _
  | some declared => exact hnow.cons id _

/-- A lambda has types for all its binders before its body is inferred. -/
theorem scoping_bindAll (params : List Binder) (ids : List BinderId)
    (scope : Scope) :
    Scoping ids (params.map (·.id) ++ ids) (bindAll scope params) := by
  induction params generalizing ids scope with
  | nil => exact Scoping.pure ids []
  | cons binder rest ih =>
      apply (scoping_bindIn ids scope binder).bind
      rintro ⟨ty, scope'⟩
      apply (ih (binder.id :: ids) scope').bind
      intro tys
      apply (Scoping.pure _ _).mono
      simp only [List.map_cons, List.cons_append, List.mem_cons,
        List.mem_append]
      rintro other (rfl | hrest | hold)
      · exact Or.inr (Or.inl rfl)
      · exact Or.inl hrest
      · exact Or.inr (Or.inr hold)

end Infer

open Infer

variable {table : ClassTable}

/-- A binder that has a type is found. -/
theorem scoping_localVar {ids : List BinderId} (id : ExpId) {binder : Binder}
    (h : binder.id ∈ ids) :
    Scoping ids ids ((Exp.localVar id binder).findType table) := by
  rw [Exp.findType]
  apply scoping_remember
  intro now hnow
  obtain ⟨t, ht⟩ := hnow binder.id h
  rw [get_bind_run]
  simp only [View.binderTy?, ht]
  exact hnow

mutual

/-- Every binder that is in scope has a type when it is used. -/
theorem Exp.scoping_findType (table : ClassTable) :
    ∀ (e : Exp) (ids : List BinderId), e.Scoped ids →
      Scoping ids ids (e.findType table)
  | .value id ty text, ids, _ => by
      rw [Exp.findType]
      exact scoping_remember (.pure ids ty) _
  | .localVar id binder, ids, h => scoping_localVar id h
  | .function id use, ids, _ => by
      rw [Exp.findType]
      exact scoping_remember (scoping_onStore ids _) _
  | .hole id, ids, _ => by
      rw [Exp.findType]
      exact scoping_remember (scoping_onStore ids _) _
  | .apply id func arg, ids, h => by
      rw [Exp.findType]
      apply scoping_remember
      apply (Exp.scoping_findType table func ids h.1).bind
      intro funcTy
      apply (Exp.scoping_findType table arg ids h.2).bind
      intro argTy
      apply (scoping_onStore ids _).bind
      intro result
      exact (scoping_unifyAt ids _ _ _).bind fun _ => .pure ids result
  | .lambda id params body, ids, h => by
      rw [Exp.findType]
      apply scoping_remember
      apply (scoping_bindAll params ids .empty).bind
      intro paramTys
      apply (Exp.scoping_findType table body _ h).bind
      intro bodyTy
      apply (Scoping.pure _ _).mono
      exact fun id hid => List.mem_append_right _ hid
  | .letIn id bindings body, ids, h => by
      rw [Exp.findType]
      apply scoping_remember
      apply (Bindings.scoping_findTypes table bindings _ .empty ids h.1).bind
      intro _
      exact (Exp.scoping_findType table body _ h.2).mono
        fun id => bindings.mem_scope ids
  | .annotated id inner declared, ids, h => by
      rw [Exp.findType]
      apply scoping_remember
      apply (Exp.scoping_findType table inner ids h).bind
      intro got
      apply (scoping_onStore ids _).bind
      intro want
      exact (scoping_unifyAt ids _ _ _).bind fun _ => .pure ids got

/-- Each binding sees the ones before it, and the body sees all. -/
theorem Bindings.scoping_findTypes (table : ClassTable) :
    ∀ (bindings : Bindings) (e : Exp) (scope : Scope) (ids : List BinderId),
      bindings.Scoped ids →
        Scoping ids (bindings.scope ids) (bindings.findTypes table e scope)
  | .nil, e, scope, ids, _ => by
      rw [Bindings.findTypes]
      exact .pure ids ()
  | .cons binder bound rest, e, scope, ids, h => by
      rw [Bindings.findTypes]
      apply (Exp.scoping_findType table bound ids h.1).bind
      intro got
      apply (scoping_bindIn ids scope binder).bind
      rintro ⟨want, scope'⟩
      apply (scoping_unifyAt _ e want got).bind
      intro _
      exact Bindings.scoping_findTypes table rest e scope' _ h.2

end

/-- Expressions that use binders only in their scopes fail to have types only
if types cannot be made equal. -/
theorem Exp.Scoped.exists_unify {e : Exp} (h : e.Scoped [])
    {err : InferError} {s : Store} {next : View × Store}
    (hrun : (e.findType table).run (.empty, s) = .error err next) :
    ∃ cause, err.cause = .unify cause := by
  have hscoping := e.scoping_findType table [] h (.empty, s)
    fun id hid => absurd hid List.not_mem_nil
  rw [hrun] at hscoping
  exact hscoping

end HindleyMilner

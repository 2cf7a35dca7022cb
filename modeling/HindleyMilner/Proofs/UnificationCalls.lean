import HindleyMilner.Proofs.SecondRun

/-
The calls of unification that inference makes.  A call is come to when all
that its rule does before it has succeeded, so inference fails at the first
call that fails, and nowhere else for that reason.
-/

namespace HindleyMilner

open Infer

/-- A call of unification: the expression whose rule makes it, its types and
the store that it is made in. -/
structure Infer.Call where
  exp : Exp
  want : Ty TyVar
  got : Ty TyVar
  store : Store

/-- Whether a call fails with an error, and the store that it leaves. -/
def Infer.Call.Fails (table : ClassTable) (call : Infer.Call) (u : UnifyError)
    (s : Store) : Prop :=
  (unify table call.want call.got).run call.store = .error u s

mutual

/-- Whether inference of an expression comes to a call of unification. -/
inductive Exp.Calls (table : ClassTable) :
    Exp → View × Store → Infer.Call → Prop
  | func {id : ExpId} {func arg : Exp} {now : View × Store}
      {call : Infer.Call} (hnew : now.1.cached? (.apply id func arg) = none)
      (h : func.Calls table now call) :
      Exp.Calls table (.apply id func arg) now call
  | arg {id : ExpId} {func arg : Exp} {now now₁ : View × Store}
      {call : Infer.Call} {funcTy : Ty TyVar}
      (hnew : now.1.cached? (.apply id func arg) = none)
      (hfunc : (func.findType table).run now = .ok funcTy now₁)
      (h : arg.Calls table now₁ call) :
      Exp.Calls table (.apply id func arg) now call
  | apply {id : ExpId} {func arg : Exp} {now now₁ now₂ : View × Store}
      {funcTy argTy result : Ty TyVar} {view : View} {s : Store}
      (hnew : now.1.cached? (.apply id func arg) = none)
      (hfunc : (func.findType table).run now = .ok funcTy now₁)
      (harg : (arg.findType table).run now₁ = .ok argTy now₂)
      (hresult : (fresh "res").run now₂ = .ok result (view, s)) :
      Exp.Calls table (.apply id func arg) now
        ⟨.apply id func arg, funcTy, .arrow argTy result, s⟩
  | lambda {id : ExpId} {params : List Binder} {body : Exp}
      {now now₁ : View × Store} {call : Infer.Call} {ts : List (Ty TyVar)}
      (hnew : now.1.cached? (.lambda id params body) = none)
      (hparams : (bindAll .empty params).run now = .ok ts now₁)
      (h : body.Calls table now₁ call) :
      Exp.Calls table (.lambda id params body) now call
  | bindings {id : ExpId} {bindings : Bindings} {body : Exp}
      {now : View × Store} {call : Infer.Call}
      (hnew : now.1.cached? (.letIn id bindings body) = none)
      (h : bindings.Calls table (.letIn id bindings body) .empty now call) :
      Exp.Calls table (.letIn id bindings body) now call
  | letIn {id : ExpId} {bindings : Bindings} {body : Exp}
      {now now₁ : View × Store} {call : Infer.Call}
      (hnew : now.1.cached? (.letIn id bindings body) = none)
      (hbindings : (bindings.findTypes table (.letIn id bindings body)
        .empty).run now = .ok () now₁) (h : body.Calls table now₁ call) :
      Exp.Calls table (.letIn id bindings body) now call
  | inner {id : ExpId} {inner : Exp} {declared : Ty TyVar}
      {now : View × Store} {call : Infer.Call}
      (hnew : now.1.cached? (.annotated id inner declared) = none)
      (h : inner.Calls table now call) :
      Exp.Calls table (.annotated id inner declared) now call
  | annotated {id : ExpId} {inner : Exp} {declared want got : Ty TyVar}
      {now now₁ : View × Store} {view : View} {s : Store}
      (hnew : now.1.cached? (.annotated id inner declared) = none)
      (hinner : (inner.findType table).run now = .ok got now₁)
      (hwant : (onStore (·.inNewScope (Scope.instantiate declared))).run
        now₁ = .ok want (view, s)) :
      Exp.Calls table (.annotated id inner declared) now
        ⟨.annotated id inner declared, want, got, s⟩

/-- Whether finding the types of bindings, which are those of an expression,
comes to a call of unification. -/
inductive Bindings.Calls (table : ClassTable) :
    Exp → Scope → Bindings → View × Store → Infer.Call → Prop
  | bound {e : Exp} {scope : Scope} {binder : Binder} {bound : Exp}
      {rest : Bindings} {now : View × Store} {call : Infer.Call}
      (h : bound.Calls table now call) :
      Bindings.Calls table e scope (.cons binder bound rest) now call
  | binding {e : Exp} {scope scope₂ : Scope} {binder : Binder} {bound : Exp}
      {rest : Bindings} {now now₁ : View × Store} {want got : Ty TyVar}
      {view : View} {s : Store}
      (hbound : (bound.findType table).run now = .ok got now₁)
      (hwant : (bindIn scope binder).run now₁ =
        .ok (want, scope₂) (view, s)) :
      Bindings.Calls table e scope (.cons binder bound rest) now
        ⟨e, want, got, s⟩
  | rest {e : Exp} {scope scope₂ : Scope} {binder : Binder} {bound : Exp}
      {rest : Bindings} {now now₁ now₂ now₃ : View × Store}
      {want got : Ty TyVar} {call : Infer.Call}
      (hbound : (bound.findType table).run now = .ok got now₁)
      (hwant : (bindIn scope binder).run now₁ = .ok (want, scope₂) now₂)
      (hunify : (unifyAt table e want got).run now₂ = .ok () now₃)
      (h : rest.Calls table e scope₂ now₃ call) :
      Bindings.Calls table e scope (.cons binder bound rest) now call

end

section

variable {table : ClassTable} {u : UnifyError} {s : Store}

theorem Infer.Call.Fails.unifyAt_run {call : Infer.Call}
    (h : call.Fails table u s) (view : View) :
    (unifyAt table call.exp call.want call.got).run (view, call.store) =
      .error ⟨call.exp, .unify u⟩ (view, s) := by
  rw [Infer.Call.Fails] at h
  rw [Infer.unifyAt_run, h]

mutual

/-- Inference fails with the error of a call that it comes to. -/
theorem Exp.Calls.findType_run : ∀ {e : Exp} {now : View × Store}
    {call : Infer.Call}, e.Calls table now call → call.Fails table u s →
      ∃ view, (e.findType table).run now =
        .error ⟨call.exp, .unify u⟩ (view, s)
  | .apply id func arg, now, call, h, hfails => by
      rw [Exp.findType]
      cases h with
      | func hnew h =>
          obtain ⟨view, hrun⟩ := h.findType_run hfails
          exact ⟨view, remember_run_of_error hnew (bind_run_of_error hrun)⟩
      | arg hnew hfunc h =>
          obtain ⟨view, hrun⟩ := h.findType_run hfails
          exact ⟨view, remember_run_of_error hnew <|
            (bind_run_of_ok hfunc).trans (bind_run_of_error hrun)⟩
      | apply hnew hfunc harg hresult =>
          exact ⟨_, remember_run_of_error hnew <|
            (bind_run_of_ok hfunc).trans <| (bind_run_of_ok harg).trans <|
              (bind_run_of_ok hresult).trans <|
                bind_run_of_error (hfails.unifyAt_run _)⟩
  | .lambda id params body, now, call, h, hfails => by
      rw [Exp.findType]
      cases h with
      | lambda hnew hparams h =>
          obtain ⟨view, hrun⟩ := h.findType_run hfails
          exact ⟨view, remember_run_of_error hnew <|
            (bind_run_of_ok hparams).trans (bind_run_of_error hrun)⟩
  | .letIn id bindings body, now, call, h, hfails => by
      rw [Exp.findType]
      cases h with
      | bindings hnew h =>
          obtain ⟨view, hrun⟩ := h.findTypes_run hfails
          exact ⟨view, remember_run_of_error hnew (bind_run_of_error hrun)⟩
      | letIn hnew hbindings h =>
          obtain ⟨view, hrun⟩ := h.findType_run hfails
          exact ⟨view, remember_run_of_error hnew <|
            (bind_run_of_ok hbindings).trans hrun⟩
  | .annotated id inner declared, now, call, h, hfails => by
      rw [Exp.findType]
      cases h with
      | inner hnew h =>
          obtain ⟨view, hrun⟩ := h.findType_run hfails
          exact ⟨view, remember_run_of_error hnew (bind_run_of_error hrun)⟩
      | annotated hnew hinner hwant =>
          exact ⟨_, remember_run_of_error hnew <|
            (bind_run_of_ok hinner).trans <| (bind_run_of_ok hwant).trans <|
              bind_run_of_error (hfails.unifyAt_run _)⟩
  | .value _ _ _, _, _, h, _ => by cases h
  | .localVar _ _, _, _, h, _ => by cases h
  | .function _ _, _, _, h, _ => by cases h
  | .hole _, _, _, h, _ => by cases h

theorem Bindings.Calls.findTypes_run : ∀ {bindings : Bindings} {e : Exp}
    {scope : Scope} {now : View × Store} {call : Infer.Call},
    bindings.Calls table e scope now call → call.Fails table u s →
      ∃ view, (bindings.findTypes table e scope).run now =
        .error ⟨call.exp, .unify u⟩ (view, s)
  | .nil, _, _, _, _, h, _ => by cases h
  | .cons binder bound rest, e, scope, now, call, h, hfails => by
      rw [Bindings.findTypes]
      cases h with
      | bound h =>
          obtain ⟨view, hrun⟩ := h.findType_run hfails
          exact ⟨view, bind_run_of_error hrun⟩
      | binding hbound hwant =>
          exact ⟨_, (bind_run_of_ok hbound).trans <|
            (bind_run_of_ok hwant).trans <|
              bind_run_of_error (hfails.unifyAt_run _)⟩
      | rest hbound hwant hunify h =>
          obtain ⟨view, hrun⟩ := h.findTypes_run hfails
          exact ⟨view, (bind_run_of_ok hbound).trans <|
            (bind_run_of_ok hwant).trans <| (bind_run_of_ok hunify).trans hrun⟩

end

end

end HindleyMilner

import HindleyMilner.Proofs.InferenceRun
import HindleyMilner.Proofs.Scoping

/-
When local variables have types.  A view keeps the types of binders until it
is reset, so what counts is not whether a local variable stands in the scope
of its binder, but whether the binder was visited before it.  A local variable
that stands outside of the scope of its binder, but after it, has a type.
-/

namespace HindleyMilner

/-! ### The order of visits -/

mutual

/-- The first local variable, in the order in which inference visits the parts
of an expression, whose binder is neither given nor visited before it. -/
def Exp.early? (ids : List BinderId) : Exp → Option (Exp × Binder)
  | .value .. => none
  | e@(.localVar _ binder) =>
      if binder.id ∈ ids then none else some (e, binder)
  | .function .. => none
  | .hole _ => none
  | .apply _ func arg =>
      (func.early? ids).or (arg.early? (func.parts.binders ++ ids))
  | .lambda _ params body => body.early? (params.map (·.id) ++ ids)
  | .letIn _ bindings body =>
      (bindings.early? ids).or (body.early? (bindings.parts.binders ++ ids))
  | .annotated _ inner _ => inner.early? ids

/-- The first such local variable in what is bound.  A binder is visited after
what is bound to it. -/
def Bindings.early? (ids : List BinderId) :
    Bindings → Option (Exp × Binder)
  | .nil => none
  | .cons binder bound rest =>
      (bound.early? ids).or
        (rest.early? (binder.id :: (bound.parts.binders ++ ids)))

end

/-- The binders in scope after bindings are among those visited by then. -/
theorem Bindings.mem_visited_of_mem_scope {id : BinderId} :
    ∀ (bindings : Bindings) (ids : List BinderId), id ∈ bindings.scope ids →
      id ∈ bindings.parts.binders ++ ids
  | .nil, _, hid => hid
  | .cons binder bound rest, ids, hid => by
      have hrest := rest.mem_visited_of_mem_scope _ hid
      simp only [Bindings.parts, Parts.ofBinders, Parts.binders_append,
        List.map_cons, List.map_nil, List.mem_append, List.mem_cons] at hrest ⊢
      tauto

theorem mem_append_of_mem {ids ids' more : List BinderId}
    (hle : ∀ id ∈ ids, id ∈ ids') : ∀ id ∈ more ++ ids, id ∈ more ++ ids' :=
  fun id hid => List.mem_append.2
    ((List.mem_append.1 hid).imp_right (hle id))

mutual

/-- What is used in the scope of its binder is visited after it. -/
theorem Exp.Scoped.early?_eq_none : ∀ {e : Exp} {ids ids' : List BinderId},
    e.Scoped ids → (∀ id ∈ ids, id ∈ ids') → e.early? ids' = none
  | .value .., _, _, _, _ => rfl
  | .localVar _ binder, _, _, h, hle => if_pos (hle binder.id h)
  | .function .., _, _, _, _ => rfl
  | .hole _, _, _, _, _ => rfl
  | .apply _ func arg, _, _, h, hle => by
      rw [Exp.early?, Exp.Scoped.early?_eq_none h.1 hle, Option.none_or]
      exact Exp.Scoped.early?_eq_none h.2 fun id hid =>
        List.mem_append_right _ (hle id hid)
  | .lambda _ params body, _, _, h, hle =>
      Exp.Scoped.early?_eq_none (e := body) h (mem_append_of_mem hle)
  | .letIn _ bindings body, ids, _, h, hle => by
      rw [Exp.early?, Bindings.Scoped.early?_eq_none h.1 hle, Option.none_or]
      exact Exp.Scoped.early?_eq_none h.2 fun id hid =>
        mem_append_of_mem hle id (bindings.mem_visited_of_mem_scope ids hid)
  | .annotated _ inner _, _, _, h, hle =>
      Exp.Scoped.early?_eq_none (e := inner) h hle

theorem Bindings.Scoped.early?_eq_none :
    ∀ {bindings : Bindings} {ids ids' : List BinderId},
      bindings.Scoped ids → (∀ id ∈ ids, id ∈ ids') →
        bindings.early? ids' = none
  | .nil, _, _, _, _ => rfl
  | .cons binder bound rest, _, _, h, hle => by
      rw [Bindings.early?, Exp.Scoped.early?_eq_none h.1 hle, Option.none_or]
      exact Bindings.Scoped.early?_eq_none h.2
        (@mem_append_of_mem _ _ [binder.id] fun id hid =>
          List.mem_append_right _ (hle id hid))

end

/-! ### Runs -/

/-- Whether the binders that a view has types for are exactly these. -/
def View.Visited (view : View) (ids : List BinderId) : Prop :=
  ∀ id, (view.binders.lookup id).isSome = true ↔ id ∈ ids

namespace Infer

variable {A B : Type} {table : ClassTable} {p q : Parts}
  {early early' : List BinderId → Option (Exp × Binder)} {x : InferM A}

/-- Whether an action gives types to the expressions and binders of a part,
unless a first local variable comes too early, and blames no other. -/
def Visits (p : Parts) (early : List BinderId → Option (Exp × Binder))
    (x : InferM A) : Prop :=
  ∀ (now : View × Store) (ids : List BinderId),
    (∀ id ∈ p.exps, now.1.exps.lookup id = none) → now.1.Visited ids →
      match x.run now with
      | .ok _ next => early ids = none ∧
          next.1.Visited (p.binders ++ ids) ∧
            ∀ id ∉ p.exps, next.1.exps.lookup id = now.1.exps.lookup id
      | .error err _ => ∀ binder, err.cause = .unboundBinder binder →
          early ids = some (err.exp, binder)

theorem Visits.bind {f : A → InferM B} (hx : Visits p early x)
    (hf : ∀ a, Visits q early' (f a))
    (hnodup : (p.exps ++ q.exps).Nodup) :
    Visits (p ++ q) (fun ids => (early ids).or (early' (p.binders ++ ids)))
      (x >>= f) := by
  intro now ids hlacks hids
  have hdisjoint := (List.nodup_append.1 hnodup).2.2
  have hfirst := hx now ids
    (fun id hid => hlacks id (List.mem_append_left _ hid)) hids
  rw [EStateM.run_bind]
  cases hrun : x.run now with
  | error err next =>
      rw [hrun] at hfirst
      intro binder hcause
      simp only [hfirst binder hcause, Option.some_or]
  | ok a next =>
      rw [hrun] at hfirst
      obtain ⟨hnone, hvisited, hexps⟩ := hfirst
      have hsecond := hf a next (p.binders ++ ids) (fun id hid => by
        rw [hexps id fun hmem => hdisjoint id hmem id hid rfl]
        exact hlacks id (List.mem_append_right _ hid)) hvisited
      simp only [hnone, Option.none_or]
      cases hrest : (f a).run next with
      | error err last =>
          rw [hrest] at hsecond
          exact hsecond
      | ok b last =>
          rw [hrest] at hsecond
          obtain ⟨hnone', hvisited', hexps'⟩ := hsecond
          refine ⟨hnone', fun id => ?_, fun id hid => ?_⟩
          · rw [hvisited' id, Parts.binders_append]
            simp only [List.mem_append]
            tauto
          · rw [Parts.exps_append, List.mem_append, not_or] at hid
            rw [hexps' id hid.2, hexps id hid.1]

/-- Whether an action leaves the view alone and blames no local variable. -/
def Quiet (x : InferM A) : Prop :=
  ∀ now, match x.run now with
    | .ok _ next => next.1 = now.1
    | .error err _ => ∀ binder, err.cause ≠ .unboundBinder binder

theorem quiet_pure (a : A) : Quiet (pure a : InferM A) :=
  fun _ => rfl

theorem quiet_onStore (f : Store → A × Store) : Quiet (onStore f) :=
  fun _ => rfl

theorem quiet_unifyAt (exp : Exp) (want got : Ty TyVar) :
    Quiet (unifyAt table exp want got) := by
  intro now
  rw [unifyAt_run]
  cases (unify table want got).run now.2 with
  | ok u s => rfl
  | error e s =>
      intro binder hcause
      contradiction

theorem Quiet.bind {f : A → InferM B} (hx : Quiet x)
    (hf : ∀ a, Quiet (f a)) : Quiet (x >>= f) := by
  intro now
  have hfirst := hx now
  rw [EStateM.run_bind]
  cases hrun : x.run now with
  | error err next =>
      rw [hrun] at hfirst
      exact hfirst
  | ok a next =>
      rw [hrun] at hfirst
      have hsecond := hf a next
      rw [← hfirst]
      exact hsecond

theorem Quiet.visits (hx : Quiet x) :
    Visits (.ofBinders []) (fun _ => none) x := by
  intro now ids _ hids
  have hquiet := hx now
  cases hrun : x.run now with
  | error err next =>
      rw [hrun] at hquiet
      exact fun binder hcause => absurd hcause (hquiet binder)
  | ok a next =>
      rw [hrun] at hquiet
      refine ⟨rfl, ?_, fun _ _ => by rw [hquiet]⟩
      rw [hquiet]
      exact hids

theorem Visits.remember {rule : InferM (Ty TyVar)}
    (h : Visits p early rule) (e : Exp) :
    Visits (.node e.id ++ p) early (remember e rule) := by
  intro now ids hlacks hids
  have hnew : now.1.cached? e = none :=
    hlacks e.id (List.mem_append_left _ List.mem_cons_self)
  have hrule := h now ids
    (fun id hid => hlacks id (List.mem_append_right _ hid)) hids
  rw [remember_run hnew, EStateM.run_bind]
  cases hrun : rule.run now with
  | error err next =>
      rw [hrun] at hrule
      exact hrule
  | ok ty next =>
      rw [hrun] at hrule
      obtain ⟨hnone, hvisited, hexps⟩ := hrule
      refine ⟨hnone, hvisited, fun id hid => ?_⟩
      rw [Parts.exps_append, List.mem_append, not_or] at hid
      have hne : id ≠ e.id := fun heq => hid.1 (heq ▸ List.mem_cons_self)
      change ((e.id, ty) :: next.1.exps).lookup id = _
      rw [lookup_cons_if, if_neg hne, hexps id hid.2]

theorem visits_bindIn (scope : Scope) (binder : Binder) :
    Visits (.ofBinders [binder]) (fun _ => none) (bindIn scope binder) := by
  have hadd (ty : Ty TyVar) (view : View) (ids : List BinderId)
      (hids : view.Visited ids) :
      View.Visited { view with binders := (binder.id, ty) :: view.binders }
        (binder.id :: ids) := by
    intro id
    rw [lookup_cons_if, List.mem_cons, ← hids id]
    split
    · simp [*]
    · simp [*]
  intro now ids _ hids
  rcases binder with ⟨id, name, declared?⟩
  cases declared? with
  | none => exact ⟨rfl, hadd _ _ _ hids, fun _ _ => rfl⟩
  | some declared => exact ⟨rfl, hadd _ _ _ hids, fun _ _ => rfl⟩

/-- What follows a part may be quiet. -/
theorem Visits.quiet {f : A → InferM B} (hx : Visits p early x)
    (hf : ∀ a, Quiet (f a)) : Visits p early (x >>= f) := by
  intro now ids hlacks hids
  have hfirst := hx now ids hlacks hids
  rw [EStateM.run_bind]
  cases hrun : x.run now with
  | error err next =>
      rw [hrun] at hfirst
      exact hfirst
  | ok a next =>
      rw [hrun] at hfirst
      have hquiet := hf a next
      dsimp only
      cases hrest : (f a).run next with
      | error err last =>
          rw [hrest] at hquiet
          exact fun binder hcause => absurd hcause (hquiet binder)
      | ok b last =>
          rw [hrest] at hquiet
          simp only [hquiet]
          exact hfirst

theorem Quiet.before {f : A → InferM B} (hx : Quiet x)
    (hf : ∀ a, Visits p early (f a)) : Visits p early (x >>= f) := by
  intro now ids hlacks hids
  have hquiet := hx now
  rw [EStateM.run_bind]
  cases hrun : x.run now with
  | error err next =>
      rw [hrun] at hquiet
      exact fun binder hcause => absurd hcause (hquiet binder)
  | ok a next =>
      rw [hrun] at hquiet
      rw [← hquiet] at hlacks hids ⊢
      exact hf a next ids hlacks hids

theorem visits_bindAll (params : List Binder) (scope : Scope) :
    Visits (.ofBinders params) (fun _ => none) (bindAll scope params) := by
  induction params generalizing scope with
  | nil => exact (quiet_pure _).visits
  | cons binder rest ih =>
      rw [Setting.ofBinders_cons]
      exact (visits_bindIn scope binder).bind
        (fun first => (ih first.2).quiet fun tys => quiet_pure _)
        List.nodup_nil

theorem visits_localVar (id : ExpId) (binder : Binder) :
    Visits (.node id) (fun ids => Exp.early? ids (.localVar id binder))
      ((Exp.localVar id binder).findType table) := by
  rw [Exp.findType]
  refine Visits.remember (p := .ofBinders []) (fun now ids _ hids => ?_)
    (.localVar id binder)
  have hfound := hids binder.id
  rw [get_bind_run, View.binderTy?]
  simp only [Exp.early?]
  cases hty : now.1.binders.lookup binder.id with
  | some ty =>
      rw [hty] at hfound
      exact ⟨if_pos (hfound.1 rfl), hids, fun _ _ => rfl⟩
  | none =>
      rw [hty] at hfound
      rintro other ⟨⟩
      exact if_neg (mt hfound.2 (by simp))

end Infer

open Infer

mutual

theorem Exp.visits_findType (table : ClassTable) :
    ∀ e : Exp, e.parts.exps.Nodup →
      Visits e.parts (fun ids => e.early? ids) (e.findType table)
  | .value id ty text, _ => by
      simp only [Exp.findType, Exp.parts, Exp.early?]
      exact (quiet_pure ty).visits.remember (.value id ty text)
  | .localVar id binder, h => visits_localVar id binder
  | .function id use, h => by
      simp only [Exp.findType, Exp.parts, Exp.early?]
      exact (quiet_onStore _).visits.remember (.function id use)
  | .hole id, h => by
      simp only [Exp.findType, Exp.parts, Exp.early?]
      exact (quiet_onStore _).visits.remember (.hole id)
  | .apply id func arg, h => by
      have hparts : (func.parts.exps ++ arg.parts.exps).Nodup :=
        (List.nodup_cons.1 h).2
      have hfunc := Exp.visits_findType table func
        (List.nodup_append.1 hparts).1
      have harg := Exp.visits_findType table arg
        (List.nodup_append.1 hparts).2.1
      simp only [Exp.findType, Exp.parts, Exp.early?]
      refine Visits.remember (hfunc.bind (fun funcTy => harg.quiet
        fun argTy => ?_) hparts) (.apply id func arg)
      exact (quiet_onStore _).bind fun result =>
        (quiet_unifyAt _ _ _).bind fun _ => quiet_pure result
  | .lambda id params body, h => by
      have hbody := Exp.visits_findType table body (List.nodup_cons.1 h).2
      simp only [Exp.findType, Exp.parts, Exp.early?]
      exact Visits.remember ((visits_bindAll params .empty).bind
        (fun paramTys => hbody.quiet fun bodyTy => quiet_pure _)
        (List.nodup_cons.1 h).2) (.lambda id params body)
  | .letIn id bindings body, h => by
      have hparts : (bindings.parts.exps ++ body.parts.exps).Nodup :=
        (List.nodup_cons.1 h).2
      have hbindings := Bindings.visits_findTypes table bindings
        (.letIn id bindings body) .empty (List.nodup_append.1 hparts).1
      have hbody := Exp.visits_findType table body
        (List.nodup_append.1 hparts).2.1
      simp only [Exp.findType, Exp.parts, Exp.early?]
      exact Visits.remember (hbindings.bind (fun _ => hbody) hparts)
        (.letIn id bindings body)
  | .annotated id inner declared, h => by
      have hinner := Exp.visits_findType table inner (List.nodup_cons.1 h).2
      simp only [Exp.findType, Exp.parts, Exp.early?]
      exact Visits.remember (hinner.quiet fun got =>
        (quiet_onStore _).bind fun want =>
          (quiet_unifyAt _ _ _).bind fun _ => quiet_pure got)
        (.annotated id inner declared)

theorem Bindings.visits_findTypes (table : ClassTable) :
    ∀ (bindings : Bindings) (e : Exp) (scope : Scope),
      bindings.parts.exps.Nodup →
        Visits bindings.parts (fun ids => bindings.early? ids)
          (bindings.findTypes table e scope)
  | .nil, e, scope, _ => by
      simp only [Bindings.findTypes, Bindings.parts, Bindings.early?]
      exact (quiet_pure ()).visits
  | .cons binder bound rest, e, scope, h => by
      have hbound := Exp.visits_findType table bound
        (List.nodup_append.1 h).1
      have hrest (scope : Scope) := Bindings.visits_findTypes table rest e scope
        (List.nodup_append.1 h).2.1
      simp only [Bindings.findTypes, Bindings.parts, Bindings.early?]
      exact hbound.bind (fun got => (visits_bindIn scope binder).bind
        (fun bound => (quiet_unifyAt e bound.1 got).before
          fun _ => hrest bound.2) (List.nodup_append.1 h).2.1) h

end

/-! ### Scope -/

/-- In a new view, inference succeeds only if all local variables come after
their binders, and blames no local variable but the first one that does not.
It blames none where they all stand in the scopes of their binders. -/
theorem Exp.infer_visitingOrder {e : Exp} (hnodup : e.parts.exps.Nodup)
    (table : ClassTable) (s : Store) :
    (match (e.infer table).run (.empty, s) with
      | .ok _ _ => e.early? [] = none
      | .error err _ => ∀ binder, err.cause = .unboundBinder binder →
          e.early? [] = some (err.exp, binder)) ∧
      (e.Scoped [] → ∀ err next,
        (e.infer table).run (.empty, s) = .error err next →
          ∀ binder, err.cause ≠ .unboundBinder binder) := by
  have hvisits := e.visits_findType table hnodup (.empty, s) []
    (fun _ _ => rfl) (fun id => by simp [View.empty])
  have horder : match (e.infer table).run (.empty, s) with
      | .ok _ _ => e.early? [] = none
      | .error err _ => ∀ binder, err.cause = .unboundBinder binder →
          e.early? [] = some (err.exp, binder) := by
    rw [Exp.infer, EStateM.run_bind]
    cases hrun : (e.findType table).run (.empty, s) with
    | ok ty next =>
        rw [hrun] at hvisits
        exact hvisits.1
    | error err next =>
        rw [hrun] at hvisits
        exact hvisits
  refine ⟨horder, fun hscoped err next hrun binder hcause => ?_⟩
  rw [hrun] at horder
  have hearly := horder binder hcause
  rw [hscoped.early?_eq_none fun id hid => hid] at hearly
  contradiction

def plainBinder : Binder := ⟨⟨0⟩, ⟨"x", by decide⟩, none⟩

/-- `x (\x -> x)`, where the first `x` comes before its binder. -/
def usedBefore : Exp :=
  .apply ⟨3⟩ (.localVar ⟨0⟩ plainBinder)
    (.lambda ⟨2⟩ [plainBinder] (.localVar ⟨1⟩ plainBinder))

theorem infer_visitingOrder_usedBefore :
    ∃ next, (usedBefore.infer .empty).run (.empty, .empty) = .error
        ⟨.localVar ⟨0⟩ plainBinder, .unboundBinder plainBinder⟩ next ∧
      usedBefore.early? [] =
        some (.localVar ⟨0⟩ plainBinder, plainBinder) := by
  have hnodup : usedBefore.parts.exps.Nodup := by decide
  have horder := (Exp.infer_visitingOrder hnodup .empty .empty).1
  have hrun : (usedBefore.infer .empty).run (.empty, .empty) = .error
      ⟨.localVar ⟨0⟩ plainBinder, .unboundBinder plainBinder⟩
        (.empty, .empty) := rfl
  rw [hrun] at horder
  exact ⟨_, hrun, horder plainBinder rfl⟩

/-- `(\x -> x) x`, where the last `x` stands outside of its lambda. -/
def usedOutside : Exp :=
  .apply ⟨3⟩ (.lambda ⟨1⟩ [plainBinder] (.localVar ⟨0⟩ plainBinder))
    (.localVar ⟨2⟩ plainBinder)

/-- A local variable outside of the lambda that binds it is accepted. -/
theorem usedOutside_accepted :
    usedOutside.parts.exps.Nodup ∧ usedOutside.parts.binders.Nodup ∧
      ¬ usedOutside.Scoped [] ∧
        ∃ next, (usedOutside.infer .empty).run (.empty, .empty) =
          .ok (.var ⟨1⟩) next := by
  refine ⟨by decide, by decide, ?_, ?_⟩
  · rintro ⟨-, houtside⟩
    exact List.not_mem_nil houtside
  · exact ⟨_, rfl⟩

end HindleyMilner

import HindleyMilner.Proofs.InferenceRun

/-
How views fill up.  However inference ends, it has given types to expressions
and binders of the inferred expression only.  The type of an expression never
changes once it is there; a binder may get another type, but never loses the
one that it has.
-/

namespace HindleyMilner

namespace View

variable {view view' view'' : View} {p q : Parts}

/-- Whether a view has become another by new types for a part, the types of
expressions that were there having been kept. -/
structure Fills (view view' : View) (p : Parts) : Prop
    extends view.Adds view' p where
  kept : ∀ ⦃id t⦄, view.exps.lookup id = some t →
    view'.exps.lookup id = some t
  bound : ∀ ⦃id⦄, view.binders.lookup id ≠ none →
    view'.binders.lookup id ≠ none

theorem Fills.refl (view : View) (p : Parts) : view.Fills view p :=
  ⟨.refl view p, fun _ _ => id, fun _ => id⟩

/-- A view may be filled in several goes. -/
theorem Fills.trans (h : view.Fills view' p) (h' : view'.Fills view'' p) :
    view.Fills view'' p where
  exps id hid := by rw [h'.exps id hid, h.exps id hid]
  binders id hid := by rw [h'.binders id hid, h.binders id hid]
  kept _ _ ht := h'.kept (h.kept ht)
  bound _ hid := h'.bound (h.bound hid)

theorem Fills.mono (h : view.Fills view' p) (hexps : p.exps ⊆ q.exps)
    (hbinders : p.binders ⊆ q.binders) : view.Fills view' q :=
  ⟨⟨fun id hid => h.exps id fun hmem => hid (hexps hmem),
    fun id hid => h.binders id fun hmem => hid (hbinders hmem)⟩,
    h.kept, h.bound⟩

/-- A type is kept for an expression that has none. -/
theorem Fills.keepExp (h : view.Fills view' p) {id : ExpId}
    (hid : id ∈ p.exps) (hnone : view.exps.lookup id = none) (t : Ty TyVar) :
    view.Fills { view' with exps := (id, t) :: view'.exps } p := by
  refine ⟨⟨fun other hother => ?_, h.binders⟩, fun other u hu => ?_, h.bound⟩
  · have hne : other ≠ id := fun heq => hother (heq ▸ hid)
    rw [lookup_cons_if, if_neg hne, h.exps other hother]
  · have hne : other ≠ id := by
      rintro rfl
      rw [hnone] at hu
      contradiction
    rw [lookup_cons_if, if_neg hne]
    exact h.kept hu

theorem fills_bindBinder (view : View) {id : BinderId} (hid : id ∈ p.binders)
    (t : Ty TyVar) :
    view.Fills { view with binders := (id, t) :: view.binders } p := by
  refine ⟨⟨fun _ _ => rfl, fun other hother => ?_⟩, fun _ _ h => h,
    fun other hother => ?_⟩
  · have hne : other ≠ id := fun heq => hother (heq ▸ hid)
    rw [lookup_cons_if, if_neg hne]
  · rw [lookup_cons_if]
    split
    · exact Option.some_ne_none t
    · exact hother

end View

namespace Infer

variable {A B : Type} {p q : Parts} {x : InferM A} {table : ClassTable}

/-- Whether an action, however it ends, only fills the view with types for a
part. -/
def Fills (p : Parts) (x : InferM A) : Prop :=
  ∀ now : View × Store, now.1.Fills (finalState (x.run now)).1 p

theorem Fills.pure (a : A) : Fills p (pure a : InferM A) :=
  fun now => .refl now.1 p

theorem Fills.bind {f : A → InferM B} (hx : Fills p x)
    (hf : ∀ a, Fills p (f a)) : Fills p (x >>= f) := by
  intro now
  have hfirst := hx now
  rw [EStateM.run_bind]
  cases hrun : x.run now with
  | ok a next =>
      rw [hrun] at hfirst
      exact hfirst.trans (hf a next)
  | error err next =>
      rw [hrun] at hfirst
      exact hfirst

theorem Fills.mono (h : Fills p x) (hexps : p.exps ⊆ q.exps)
    (hbinders : p.binders ⊆ q.binders) : Fills q x :=
  fun now => (h now).mono hexps hbinders

theorem fills_onStore (f : Store → A × Store) : Fills p (onStore f) :=
  fun now => .refl now.1 p

/-- Unification does not touch the view. -/
theorem fills_unifyAt (e : Exp) (want got : Ty TyVar) :
    Fills p (unifyAt table e want got) := by
  rintro ⟨view, s⟩
  rw [unifyAt_run]
  cases (unify table want got).run s <;> exact .refl view p

/-- The type of an expression is kept after those of its parts. -/
theorem Fills.remember {e : Exp} {rule : InferM (Ty TyVar)}
    (h : Fills p rule) (he : e.id ∈ p.exps) : Fills p (remember e rule) := by
  intro now
  cases hcached : now.1.cached? e with
  | some t =>
      rw [remember_run_cached hcached]
      exact .refl now.1 p
  | none =>
      have hrule := h now
      rw [remember_run hcached, EStateM.run_bind]
      cases hrun : rule.run now with
      | error err next =>
          rw [hrun] at hrule
          exact hrule
      | ok t next =>
          rw [hrun] at hrule
          exact hrule.keepExp he hcached t

theorem fills_bindIn (scope : Scope) {binder : Binder}
    (hbinder : binder.id ∈ p.binders) : Fills p (bindIn scope binder) := by
  rcases binder with ⟨id, name, declared?⟩
  cases declared? <;> exact fun now => now.1.fills_bindBinder hbinder _

/-- Binding fills the view with types for the binders only. -/
theorem fills_bindAll (scope : Scope) {binders : List Binder}
    (hbinders : binders.map (·.id) ⊆ p.binders) :
    Fills p (bindAll scope binders) := by
  induction binders generalizing scope with
  | nil => exact .pure []
  | cons binder rest ih =>
      rw [List.map_cons, List.cons_subset] at hbinders
      apply (fills_bindIn scope hbinders.1).bind
      rintro ⟨t, scope'⟩
      apply (ih scope' hbinders.2).bind
      exact fun ts => .pure (t :: ts)

end Infer

open Infer

variable {table : ClassTable}

/-- Whether inference of an expression keeps the type that a rule finds, and
the rule only fills the view with types for what is inside. -/
structure Exp.RuledBy (table : ClassTable) (e : Exp)
    (rule : InferM (Ty TyVar)) (inside : Parts) : Prop where
  findType_eq : e.findType table = remember e rule
  exps_eq : e.parts.exps = e.id :: inside.exps
  binders_eq : e.parts.binders = inside.binders
  fills : Fills inside rule

/-- Inference gives types to expressions and binders of the expression only,
and keeps the types of expressions. -/
theorem Exp.RuledBy.fills_findType {e : Exp} {rule : InferM (Ty TyVar)}
    {inside : Parts} (h : e.RuledBy table rule inside) :
    Fills e.parts (e.findType table) := by
  rw [h.findType_eq]
  apply (h.fills.mono _ _).remember
  · rw [h.exps_eq]
    exact List.mem_cons_self
  · rw [h.exps_eq]
    exact List.subset_cons_self _ _
  · rw [h.binders_eq]
    exact List.Subset.refl _

variable (table)

mutual

/-- Every expression has a rule, which only fills the view with types for what
is inside. -/
theorem Exp.exists_rule :
    ∀ e : Exp, ∃ rule inside, e.RuledBy table rule inside
  | .value id ty text =>
      ⟨_, .ofBinders [], by rw [Exp.findType], rfl, rfl, .pure ty⟩
  | .localVar id binder => by
      refine ⟨_, .ofBinders [], by rw [Exp.findType], rfl, rfl, fun now => ?_⟩
      rw [get_bind_run]
      cases now.1.binderTy? binder <;> exact .refl now.1 _
  | .function id use =>
      ⟨_, .ofBinders [], by rw [Exp.findType], rfl, rfl, fills_onStore _⟩
  | .hole id =>
      ⟨fresh "hole", .ofBinders [], by rw [Exp.findType], rfl, rfl,
        fills_onStore _⟩
  | .apply id func arg => by
      obtain ⟨_, _, hfunc⟩ := func.exists_rule
      obtain ⟨_, _, harg⟩ := arg.exists_rule
      refine ⟨_, func.parts ++ arg.parts, by rw [Exp.findType], rfl, rfl, ?_⟩
      apply (hfunc.fills_findType.mono (by simp) (by simp)).bind
      intro funcTy
      apply (harg.fills_findType.mono (by simp) (by simp)).bind
      intro argTy
      apply (fills_onStore _).bind
      intro result
      exact (fills_unifyAt _ _ _).bind fun _ => .pure result
  | .lambda id params body => by
      obtain ⟨_, _, hbody⟩ := body.exists_rule
      refine ⟨_, .ofBinders params ++ body.parts, by rw [Exp.findType], rfl,
        rfl, ?_⟩
      apply (fills_bindAll .empty (by simp [Parts.ofBinders])).bind
      intro paramTys
      apply (hbody.fills_findType.mono (by simp) (by simp)).bind
      exact fun bodyTy => .pure _
  | .letIn id bindings body => by
      obtain ⟨_, _, hbody⟩ := body.exists_rule
      refine ⟨_, bindings.parts ++ body.parts, by rw [Exp.findType], rfl, rfl,
        ?_⟩
      apply ((bindings.fills_findTypes _ .empty).mono (by simp)
        (by simp)).bind
      exact fun _ => hbody.fills_findType.mono (by simp) (by simp)
  | .annotated id inner declared => by
      obtain ⟨_, _, hinner⟩ := inner.exists_rule
      refine ⟨_, inner.parts, by rw [Exp.findType], rfl, rfl, ?_⟩
      apply hinner.fills_findType.bind
      intro got
      apply (fills_onStore _).bind
      intro want
      exact (fills_unifyAt _ _ _).bind fun _ => .pure got

theorem Bindings.fills_findTypes : ∀ (bindings : Bindings) (e : Exp)
    (scope : Scope), Fills bindings.parts (bindings.findTypes table e scope)
  | .nil, _, _ => .pure ()
  | .cons binder bound rest, e, scope => by
      obtain ⟨_, _, hbound⟩ := bound.exists_rule
      rw [Bindings.findTypes]
      apply (hbound.fills_findType.mono (by simp [Bindings.parts])
        (by simp [Bindings.parts])).bind
      intro got
      apply (fills_bindIn scope (by
        simp [Bindings.parts, Parts.ofBinders])).bind
      rintro ⟨want, scope'⟩
      apply (fills_unifyAt e want got).bind
      intro _
      exact (rest.fills_findTypes e scope').mono (by simp [Bindings.parts])
        (by simp [Bindings.parts])

end

end HindleyMilner

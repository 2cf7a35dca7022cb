import HindleyMilner.Infer
import HindleyMilner.Proofs.Session
import HindleyMilner.Proofs.Typing

/-
Inference as a sequence of moves.  In any view, also one that is left over
from other expressions, and whether it fails or not, inference creates
variables, shortens chains and unifies, and does nothing else to the store.
All types that it keeps and returns are made of variables that may be used.
-/

namespace HindleyMilner

structure View.InRange (view : View) (s : Store) : Prop where
  exps : ∀ ⦃id t⦄, view.exps.lookup id = some t → t.InRange s
  binders : ∀ ⦃id t⦄, view.binders.lookup id = some t → t.InRange s

structure Parts.InRange (p : Parts) (s : Store) : Prop where
  literals : ∀ t ∈ p.literals, t.InRange s
  schemes : ∀ t ∈ p.schemes, t.InRange s

namespace Permit

variable {permit : Permit} {s s' : Store} {t u : Ty TyVar}

theorem Admits.arrow (ht : permit.Admits s t) (hu : permit.Admits s u) :
    permit.Admits s (.arrow t u) :=
  fun v hv => (Ty.mem_vars_arrow.1 hv).elim (ht v) (hu v)

theorem Admits.arrows {params : List (Ty TyVar)}
    (hparams : ∀ t ∈ params, permit.Admits s t) (hu : permit.Admits s u) :
    permit.Admits s (.arrows params u) := by
  intro v hv
  rcases Ty.mem_vars_arrows.1 hv with ⟨param, hparam, hv⟩ | hv
  · exact hparams param hparam v hv
  · exact hu v hv

structure AdmitsView (permit : Permit) (s : Store) (view : View) : Prop where
  exps : ∀ ⦃id t⦄, view.exps.lookup id = some t → permit.Admits s t
  binders : ∀ ⦃id t⦄, view.binders.lookup id = some t → permit.Admits s t

theorem AdmitsView.of_size_le {view : View} (h : permit.AdmitsView s view)
    (hsize : s.size ≤ s'.size) : permit.AdmitsView s' view :=
  ⟨fun _ _ ht => (h.exps ht).of_size_le hsize,
    fun _ _ ht => (h.binders ht).of_size_le hsize⟩

theorem admitsView_giving (classes : ClassSet → Prop) {view : View}
    (h : view.InRange s) : (giving classes).AdmitsView s view :=
  ⟨fun _ _ ht => admits_giving_iff.2 (h.exps ht),
    fun _ _ ht => admits_giving_iff.2 (h.binders ht)⟩

/-- Whether a part of an expression may come into a store: its literals are of
types that may, and its signatures and annotations are over variables of the
store. -/
structure AdmitsParts (permit : Permit) (s : Store) (p : Parts) : Prop where
  literals : ∀ t ∈ p.literals, permit.Admits s t
  schemes : ∀ t ∈ p.schemes, t.InRange s

theorem admitsParts_giving (classes : ClassSet → Prop) {p : Parts}
    (h : p.InRange s) : (giving classes).AdmitsParts s p :=
  ⟨fun t ht => admits_giving_iff.2 (h.literals t ht), h.schemes⟩

theorem admitsParts_append {p q : Parts} :
    permit.AdmitsParts s (p ++ q) ↔
      permit.AdmitsParts s p ∧ permit.AdmitsParts s q := by
  constructor
  · rintro ⟨hliterals, hschemes⟩
    simp only [Parts.literals_append, Parts.schemes_append,
      List.forall_mem_append] at hliterals hschemes
    exact ⟨⟨hliterals.1, hschemes.1⟩, ⟨hliterals.2, hschemes.2⟩⟩
  · rintro ⟨hp, hq⟩
    constructor
    · exact List.forall_mem_append.2 ⟨hp.literals, hq.literals⟩
    · exact List.forall_mem_append.2 ⟨hp.schemes, hq.schemes⟩

end Permit

/-! ### Instantiating in a scope -/

/-- Whether the copies that a scope has made may be used in a store. -/
def Scope.CopiesAdmitted (scope : Scope) (permit : Permit) (s : Store) :
    Prop :=
  ∀ ⦃v w⦄, scope.copies.lookup v = some w →
    w.index < s.size ∧ permit.vars w

theorem Scope.CopiesAdmitted.of_size_le {scope : Scope} {permit : Permit}
    {s s' : Store} (h : scope.CopiesAdmitted permit s)
    (hsize : s.size ≤ s'.size) : scope.CopiesAdmitted permit s' :=
  fun _ _ hw => ⟨Nat.lt_of_lt_of_le (h hw).1 hsize, (h hw).2⟩

theorem Scope.copiesAdmitted_empty (permit : Permit) (s : Store) :
    Scope.empty.CopiesAdmitted permit s := by
  simp [CopiesAdmitted, empty]

/-- Whether a scope and a store may have come from a store by moves, the
copies in the scope being ones that may be used. -/
structure Copying (table : ClassTable) (permit : Permit) (start : Store)
    (now : Scope × Store) : Prop where
  ordered : table.Ordered
  wellFormed : start.WellFormed
  moves : Store.Moves table permit start now.2
  suits : permit.Suits table start
  admitted : now.1.CopiesAdmitted permit now.2

namespace Copying

variable {table : ClassTable} {permit : Permit} {start s : Store}
  {scope : Scope} {now : Scope × Store}

/-- Copies of variables may be used: they are new or were made in the scope
before. -/
theorem copy (h : Copying table permit start now) (v : TyVar) :
    Copying table permit start ((Scope.copy v).run now).2 ∧
      now.2.size ≤ ((Scope.copy v).run now).2.2.size ∧
        permit.Admits ((Scope.copy v).run now).2.2
          (.var ((Scope.copy v).run now).1) := by
  rcases now with ⟨scope, s⟩
  cases hlookup : scope.copies.lookup v with
  | some w =>
      rw [Scope.copy_run_of_some hlookup]
      exact ⟨h, Nat.le_refl _, Permit.admits_var (h.admitted hlookup).1
        (h.admitted hlookup).2⟩
  | none =>
      rw [Scope.copy_run_of_none hlookup]
      have hsize : s.size < (s.fresh (s.baseOf v)
          ((s.unsolvedClasses? v).getD ∅)).2.size := by simp
      have hnew : permit.vars ⟨s.size⟩ :=
        h.suits.new (h.moves.size_le h.ordered h.wellFormed)
      refine ⟨⟨h.ordered, h.wellFormed,
        h.moves.tail (.fresh (s.baseOf v) (s.hands_copy v)), h.suits, ?_⟩,
        Nat.le_of_lt hsize, Permit.admits_var hsize hnew⟩
      intro u w hw
      rw [List.lookup_cons] at hw
      split at hw
      · obtain rfl := Option.some.inj hw
        exact ⟨hsize, hnew⟩
      · exact (h.admitted.of_size_le (Nat.le_of_lt hsize)) hw

theorem mapVarsM (h : Copying table permit start now) (t : Ty TyVar) :
    Copying table permit start ((t.mapVarsM Scope.copy).run now).2 ∧
      now.2.size ≤ ((t.mapVarsM Scope.copy).run now).2.2.size ∧
        permit.Admits ((t.mapVarsM Scope.copy).run now).2.2
          ((t.mapVarsM Scope.copy).run now).1 := by
  induction t generalizing now with
  | var v => exact h.copy v
  | con name =>
      exact ⟨h, Nat.le_refl _, fun v hv => absurd hv List.not_mem_nil⟩
  | app func arg ihFunc ihArg =>
      obtain ⟨hfirst, hsize, hfunc⟩ := ihFunc h
      obtain ⟨hsecond, hsize', harg⟩ := ihArg hfirst
      refine ⟨hsecond, Nat.le_trans hsize hsize', fun v hv => ?_⟩
      rcases Ty.mem_vars_app.1 hv with hv | hv
      · exact (hfunc.of_size_le hsize') v hv
      · exact harg v hv

/-- Instantiation returns a type that may be used. -/
theorem instantiate (h : Copying table permit start now) {t : Ty TyVar}
    (ht : t.InRange now.2) :
    Copying table permit start ((Scope.instantiate t).run now).2 ∧
      now.2.size ≤ ((Scope.instantiate t).run now).2.2.size ∧
        permit.Admits ((Scope.instantiate t).run now).2.2
          ((Scope.instantiate t).run now).1 := by
  rcases now with ⟨scope, s⟩
  rw [Scope.instantiate_run]
  split
  · rename_i hground
    have hvars := h.suits.ground h.moves hground
    exact ⟨h, Nat.le_refl _, fun v hv => ⟨ht v hv, hvars v hv⟩⟩
  · exact h.mapVarsM (s.zonk t)

end Copying

/-! ### Inferring -/

namespace Infer

/-- Whether inference that began in a store may have come to a state. -/
structure Under (table : ClassTable) (permit : Permit) (start : Store)
    (now : View × Store) : Prop where
  ordered : table.Ordered
  wellFormed : start.WellFormed
  moves : Store.Moves table permit start now.2
  suits : permit.Suits table start
  admitted : permit.AdmitsView now.2 now.1

/-- Whether a run of inference from a state only made moves, and if it
succeeded has a result with `ok`. -/
def Leaves {A : Type} (table : ClassTable) (permit : Permit)
    (start : Store) (now : View × Store) (ok : A → Store → Prop) :
    EStateM.Result InferError (View × Store) A → Prop
  | .ok a next =>
      Under table permit start next ∧ now.2.size ≤ next.2.size ∧ ok a next.2
  | .error _ next => Under table permit start next

variable {table : ClassTable} {permit : Permit} {start s s' : Store}
  {view : View} {now : View × Store}

namespace Under

theorem now_wellFormed (h : Under table permit start now) : now.2.WellFormed :=
  Store.Moves.wellFormed h.ordered h.wellFormed h.moves

theorem size_le (h : Under table permit start now) : start.size ≤ now.2.size :=
  h.moves.size_le h.ordered h.wellFormed

theorem inRange_start (h : Under table permit start now) {t : Ty TyVar}
    (ht : t.InRange start) : t.InRange now.2 :=
  ht.of_size_le h.size_le

/-- Instantiation may start from any state of an inference. -/
theorem copying (h : Under table permit start (view, s)) {scope : Scope}
    (hscope : scope.CopiesAdmitted permit s) :
    Copying table permit s (scope, s) :=
  ⟨h.ordered, h.now_wellFormed, .refl, h.suits.moves h.moves
    (h.moves.size_le h.ordered h.wellFormed), hscope⟩

/-- More moves of the store leave the view as it is. -/
theorem moved (h : Under table permit start (view, s))
    (hmoves : Store.Moves table permit s s') :
    Under table permit start (view, s') ∧ s.size ≤ s'.size := by
  have hsize : s.size ≤ s'.size := hmoves.size_le h.ordered h.now_wellFormed
  exact ⟨⟨h.ordered, h.wellFormed, h.moves.trans hmoves, h.suits,
    h.admitted.of_size_le hsize⟩, hsize⟩

theorem keepExp (h : Under table permit start (view, s)) {t : Ty TyVar}
    (ht : permit.Admits s t) (id : ExpId) :
    Under table permit start
      ({ view with exps := (id, t) :: view.exps }, s) := by
  refine ⟨h.ordered, h.wellFormed, h.moves, h.suits, fun other u hu => ?_,
    h.admitted.binders⟩
  rw [List.lookup_cons] at hu
  split at hu
  · obtain rfl := Option.some.inj hu
    exact ht
  · exact h.admitted.exps hu

theorem keepBinder (h : Under table permit start (view, s)) {t : Ty TyVar}
    (ht : permit.Admits s t) (id : BinderId) :
    Under table permit start
      ({ view with binders := (id, t) :: view.binders }, s) := by
  refine ⟨h.ordered, h.wellFormed, h.moves, h.suits, h.admitted.exps,
    fun other u hu => ?_⟩
  rw [List.lookup_cons] at hu
  split at hu
  · obtain rfl := Option.some.inj hu
    exact ht
  · exact h.admitted.binders hu

end Under

variable {A B : Type} {ok : A → Store → Prop} {ok' : B → Store → Prop}

theorem Leaves.pure (h : Under table permit start now) {a : A}
    (ha : ok a now.2) :
    Leaves table permit start now ok ((pure a : InferM A).run now) :=
  ⟨h, Nat.le_refl _, ha⟩

/-- Actions that only make moves may follow each other. -/
theorem Leaves.bind {action : InferM A} {f : A → InferM B}
    (h : Leaves table permit start now ok (action.run now))
    (hf : ∀ a next, Under table permit start next → now.2.size ≤ next.2.size →
      ok a next.2 → Leaves table permit start next ok' ((f a).run next)) :
    Leaves table permit start now ok' ((action >>= f).run now) := by
  rw [EStateM.run_bind]
  cases hrun : action.run now with
  | error e next =>
      rw [hrun] at h
      exact h
  | ok a next =>
      rw [hrun] at h
      obtain ⟨hnext, hsize, ha⟩ := h
      have hrest := hf a next hnext hsize ha
      dsimp only
      cases hrun' : (f a).run next with
      | error e last =>
          rw [hrun'] at hrest
          exact hrest
      | ok b last =>
          rw [hrun'] at hrest
          exact ⟨hrest.1, Nat.le_trans hsize hrest.2.1, hrest.2.2⟩

theorem leaves_fresh (h : Under table permit start now) (base : String) :
    Leaves table permit start now (fun t s => permit.Admits s t)
      ((fresh base).run now) := by
  obtain ⟨hnext, hsize⟩ := h.moved (.single (.fresh base .none))
  have hrange : now.2.size < (now.2.fresh base ∅).2.size := by simp
  exact ⟨hnext, hsize, Permit.admits_var hrange (h.suits.new h.size_le)⟩

theorem leaves_unifyAt (h : Under table permit start now) (exp : Exp)
    {want got : Ty TyVar} (hwant : permit.Admits now.2 want)
    (hgot : permit.Admits now.2 got) :
    Leaves table permit start now (fun _ _ => True)
      ((unifyAt table exp want got).run now) := by
  rcases now with ⟨view, s⟩
  have hnext := h.moved (.single (.unify hwant hgot))
  rw [unifyAt_run]
  cases hrun : (unify table want got).run s with
  | ok u s' =>
      rw [hrun] at hnext
      exact ⟨hnext.1, hnext.2, trivial⟩
  | error e s' =>
      rw [hrun] at hnext
      exact hnext.1

/-- Instantiation only creates variables, and its result is made of them. -/
theorem leaves_instantiate (h : Under table permit start now) {t : Ty TyVar}
    (ht : t.InRange now.2) :
    Leaves table permit start now (fun t s => permit.Admits s t)
      ((onStore (·.inNewScope (Scope.instantiate t))).run now) := by
  rcases now with ⟨view, s⟩
  have hcopying : Copying table permit s (.empty, s) :=
    h.copying (Scope.copiesAdmitted_empty permit s)
  obtain ⟨hnext, -, hresult⟩ := hcopying.instantiate ht
  have hmoved := h.moved hnext.moves
  exact ⟨hmoved.1, hmoved.2, hresult⟩

theorem leaves_remember (h : Under table permit start now) (e : Exp)
    {rule : InferM (Ty TyVar)}
    (hrule : Leaves table permit start now (fun t s => permit.Admits s t)
      (rule.run now)) :
    Leaves table permit start now (fun t s => permit.Admits s t)
      ((remember e rule).run now) := by
  cases hcached : now.1.cached? e with
  | some t =>
      rw [remember_run_cached hcached]
      exact .pure h (h.admitted.exps hcached)
  | none =>
      rw [remember_run hcached]
      apply hrule.bind
      intro t next hnext _ ht
      exact ⟨hnext.keepExp ht e.id, Nat.le_refl _, ht⟩

/-! ### Binders -/

def TypedIn (permit : Permit) (found : Ty TyVar × Scope) (s : Store) : Prop :=
  permit.Admits s found.1 ∧ found.2.CopiesAdmitted permit s

/-- An annotation is copied before it gets into the view, so its own variables
stay outside. -/
theorem leaves_bindIn (h : Under table permit start now) {scope : Scope}
    (hscope : scope.CopiesAdmitted permit now.2) {binder : Binder}
    (hbinder : permit.AdmitsParts start (.ofBinders [binder])) :
    Leaves table permit start now (TypedIn permit)
      ((bindIn scope binder).run now) := by
  rcases now with ⟨view, s⟩
  rcases binder with ⟨id, name, declared?⟩
  cases declared? with
  | none =>
      obtain ⟨hnext, hsize, ht⟩ := leaves_fresh h name.text
      exact ⟨hnext.keepBinder ht id, hsize, ht, hscope.of_size_le hsize⟩
  | some declared =>
      have hdeclared : declared.InRange s :=
        h.inRange_start (hbinder.schemes declared (by simp [Parts.ofBinders]))
      have hcopying : Copying table permit s (scope, s) := h.copying hscope
      obtain ⟨hnext, -, hresult⟩ := hcopying.instantiate hdeclared
      obtain ⟨hmoved, hsize⟩ := h.moved hnext.moves
      exact ⟨hmoved.keepBinder hresult id, hsize, hresult, hnext.admitted⟩

theorem admitsParts_ofBinders_cons {binder : Binder} {rest : List Binder} :
    permit.AdmitsParts s (.ofBinders (binder :: rest)) ↔
      permit.AdmitsParts s (.ofBinders [binder]) ∧
        permit.AdmitsParts s (.ofBinders rest) := by
  rw [← Permit.admitsParts_append]
  rcases binder with ⟨id, name, declared?⟩
  cases declared? <;> exact Iff.rfl

theorem leaves_bindAll (params : List Binder) (h : Under table permit start now)
    {scope : Scope} (hscope : scope.CopiesAdmitted permit now.2)
    (hparams : permit.AdmitsParts start (.ofBinders params)) :
    Leaves table permit start now (fun ts s => ∀ t ∈ ts, permit.Admits s t)
      ((bindAll scope params).run now) := by
  induction params generalizing now scope with
  | nil => exact .pure h fun t ht => absurd ht List.not_mem_nil
  | cons binder rest ih =>
      rw [admitsParts_ofBinders_cons] at hparams
      apply (leaves_bindIn h hscope hparams.1).bind
      rintro ⟨t, scope'⟩ next hnext _ ⟨ht, hscope'⟩
      apply (ih hnext hscope' hparams.2).bind
      intro ts last hlast hsize hts
      exact .pure hlast
        (List.forall_mem_cons.2 ⟨ht.of_size_le hsize, hts⟩)

end Infer

open Infer

/-! ### Expressions -/

variable {table : ClassTable} {permit : Permit} {start : Store}

mutual

/-- Whatever the view, inference only makes moves and finds types that may be
used. -/
theorem Exp.leaves_findType :
    ∀ (e : Exp) {now : View × Store}, Under table permit start now →
      permit.AdmitsParts start e.parts →
        Leaves table permit start now (fun t s => permit.Admits s t)
          ((e.findType table).run now)
  | .value id ty text, now, h, he => by
      rw [Exp.findType]
      exact leaves_remember h _
        (.pure h ((he.literals ty (by simp [Exp.parts])).of_size_le h.size_le))
  | .localVar id binder, now, h, _ => by
      rw [Exp.findType]
      apply leaves_remember h
      rw [get_bind_run]
      simp only [View.binderTy?]
      cases hlookup : now.1.binders.lookup binder.id with
      | none => exact h
      | some t => exact .pure h (h.admitted.binders hlookup)
  | .function id use, now, h, he => by
      rw [Exp.findType]
      exact leaves_remember h _ (leaves_instantiate h
        (h.inRange_start (he.schemes use.signature (by simp [Exp.parts]))))
  | .hole id, now, h, _ => by
      rw [Exp.findType]
      exact leaves_remember h _ (leaves_fresh h "hole")
  | .apply id func arg, now, h, he => by
      rw [Exp.parts, Permit.admitsParts_append, Permit.admitsParts_append] at he
      rw [Exp.findType]
      apply leaves_remember h
      apply (Exp.leaves_findType func h he.2.1).bind
      intro funcTy s₁ h₁ _ hfunc
      apply (Exp.leaves_findType arg h₁ he.2.2).bind
      intro argTy s₂ h₂ hsize₂ harg
      apply (leaves_fresh h₂ "res").bind
      intro result s₃ h₃ hsize₃ hresult
      have hwant := hfunc.of_size_le (Nat.le_trans hsize₂ hsize₃)
      have hgot := (harg.of_size_le hsize₃).arrow hresult
      apply (leaves_unifyAt h₃ _ hwant hgot).bind
      intro _ s₄ h₄ hsize₄ _
      exact .pure h₄ (hresult.of_size_le hsize₄)
  | .lambda id params body, now, h, he => by
      rw [Exp.parts, Permit.admitsParts_append, Permit.admitsParts_append] at he
      rw [Exp.findType]
      apply leaves_remember h
      apply (leaves_bindAll params h (Scope.copiesAdmitted_empty permit _)
        he.2.1).bind
      intro paramTys s₁ h₁ _ hparams
      apply (Exp.leaves_findType body h₁ he.2.2).bind
      intro bodyTy s₂ h₂ hsize₂ hbody
      exact .pure h₂
        (.arrows (fun t ht => (hparams t ht).of_size_le hsize₂) hbody)
  | .letIn id bindings body, now, h, he => by
      rw [Exp.parts, Permit.admitsParts_append, Permit.admitsParts_append] at he
      rw [Exp.findType]
      apply leaves_remember h
      apply (Bindings.leaves_findTypes bindings _ h
        (Scope.copiesAdmitted_empty permit _) he.2.1).bind
      intro _ s₁ h₁ _ _
      exact Exp.leaves_findType body h₁ he.2.2
  | .annotated id inner declared, now, h, he => by
      rw [Exp.parts, Permit.admitsParts_append] at he
      rw [Exp.findType]
      apply leaves_remember h
      apply (Exp.leaves_findType inner h he.2).bind
      intro got s₁ h₁ _ hgot
      apply (leaves_instantiate h₁
        (h₁.inRange_start (he.1.schemes declared (by simp)))).bind
      intro want s₂ h₂ hsize₂ hwant
      apply (leaves_unifyAt h₂ _ hwant (hgot.of_size_le hsize₂)).bind
      intro _ s₃ h₃ hsize₃ _
      exact .pure h₃ (hgot.of_size_le (Nat.le_trans hsize₂ hsize₃))

/-- Bindings are inferred by moves that a session may make. -/
theorem Bindings.leaves_findTypes :
    ∀ (bindings : Bindings) (e : Exp) {now : View × Store} {scope : Scope},
      Under table permit start now →
        scope.CopiesAdmitted permit now.2 →
          permit.AdmitsParts start bindings.parts →
            Leaves table permit start now (fun _ _ => True)
              ((bindings.findTypes table e scope).run now)
  | .nil, e, now, scope, h, _, _ => by
      rw [Bindings.findTypes]
      exact .pure h trivial
  | .cons binder bound rest, e, now, scope, h, hscope, he => by
      rw [Bindings.parts, Permit.admitsParts_append,
        Permit.admitsParts_append] at he
      rw [Bindings.findTypes]
      apply (Exp.leaves_findType bound h he.1).bind
      intro got s₁ h₁ hsize₁ hgot
      apply (leaves_bindIn h₁ (hscope.of_size_le hsize₁) he.2.1).bind
      rintro ⟨want, scope'⟩ s₂ h₂ hsize₂ ⟨hwant, hscope'⟩
      apply (leaves_unifyAt h₂ e hwant (hgot.of_size_le hsize₂)).bind
      intro _ s₃ h₃ hsize₃ _
      exact Bindings.leaves_findTypes rest e h₃
        (hscope'.of_size_le hsize₃) he.2.2

end

/-- However inference ends, it has only made moves, and its view keeps types
that may be used. -/
theorem Exp.under_infer {e : Exp} {view : View} (ordered : table.Ordered)
    (wf : start.WellFormed) (hsuits : permit.Suits table start)
    (hview : permit.AdmitsView start view)
    (he : permit.AdmitsParts start e.parts) :
    Under table permit start
      (finalState ((e.infer table).run (view, start))) := by
  have hunder : Under table permit start (view, start) :=
    ⟨ordered, wf, .refl, hsuits, hview⟩
  have hleaves := e.leaves_findType hunder he
  have hopen : e.infer table = e.findType table >>= fun t =>
      get >>= fun now => pure (now.2.zonk t) := rfl
  rw [hopen, EStateM.run_bind]
  cases hrun : (e.findType table).run (view, start) with
  | ok t next =>
      rw [hrun] at hleaves
      exact hleaves.1
  | error err next =>
      rw [hrun] at hleaves
      exact hleaves

/-- The store that inference leaves behind, whether it fails or not, has been
reached by moves. -/
theorem Exp.moves_infer_giving (ok : ClassSet → Prop) {e : Exp} {view : View}
    (ordered : table.Ordered) (wf : start.WellFormed)
    (hview : view.InRange start) (he : e.parts.InRange start) :
    Store.Moves table (.giving ok) start
      (finalState ((e.infer table).run (view, start))).2 :=
  (Exp.under_infer ordered wf (Permit.suits_giving ok table start)
    (Permit.admitsView_giving ok hview)
    (Permit.admitsParts_giving ok he)).moves

end HindleyMilner

import HindleyMilner.Proofs.Elsewhere
import HindleyMilner.Proofs.FairSession
import HindleyMilner.Proofs.FilledViews
import HindleyMilner.Proofs.InferenceRules
import HindleyMilner.Proofs.SecondCopies

/-
A run of inference that failed, and the run after it.  The first run keeps the
types of the expressions that it got done with; the second one finds them, and
otherwise only adds variables to the store, until it comes to where the first
one failed.
-/

namespace HindleyMilner

open Infer

/-! ### The first run -/

namespace Setting

variable {S : Setting} {p q : Parts} {now next last : View × Store}
  {s s' : Store} {A : Type}

/-- The variables apart from the generic ones may be used, and new ones get no
classes from outside. -/
def confined (S : Setting) : Permit :=
  ⟨fun _ => False, S.Apart⟩

theorem moves_permit (h : Store.Moves S.table S.confined s s') :
    Store.Moves S.table S.permit s s' := by
  refine Relation.ReflTransGen.mono (fun _ _ hmove => ?_) _ _ h
  cases hmove with
  | prune ht => exact .prune ht
  | unify hwant hgot => exact .unify hwant hgot
  | fresh base hclasses =>
      cases hclasses with
      | given hfalse => exact hfalse.elim
      | none => exact .fresh base .none
      | single hc => exact .fresh base (.single hc)
      | copy hv => exact .fresh base (.copy hv)

theorem suits_confined (S : Setting) : S.confined.Suits S.table S.start :=
  ⟨fun _ hv => S.state_start.suits.new hv,
    fun _ hmoves => S.state_start.suits.ground (moves_permit hmoves)⟩

theorem ensures_confined (S : Setting) :
    S.confined.Ensures S.table (ClassSet.Proper S.table) where
  toLasts := S.table.lasts_proper S.ordered
  empty := .empty S.table
  single _ hc := .ofList_single S.ordered hc
  given _ hfalse := hfalse.elim

/-- Whether inference can come to a view and a store. -/
abbrev Reaches (S : Setting) (now : View × Store) : Prop :=
  Under S.table S.confined S.start now

/-- Wherever inference comes to, the state of the inference is kept. -/
theorem Reaches.state (h : S.Reaches now) : S.State now.1 now.2 :=
  { S.state_start.moves (moves_permit h.moves) with
    binders := fun _ _ ht => h.admitted.binders ht }

theorem Reaches.reduced (h : S.Reaches now)
    (hproper : S.start.AllClasses (ClassSet.Proper S.table)) :
    now.2.AllClasses (ClassSet.Reduced S.table) := by
  intro v classes hv
  exact (hproper.moves S.ordered S.ensures_confined h.moves hv).reduced

/-- Whether one point of a run comes after another: what the view kept, it
still keeps. -/
structure Onward (S : Setting) (now next : View × Store) : Prop where
  moves : Store.Moves S.table S.confined now.2 next.2
  kept : ∀ ⦃id t⦄, now.1.exps.lookup id = some t →
    next.1.exps.lookup id = some t
  bound : ∀ ⦃id⦄, now.1.binders.lookup id ≠ none →
    next.1.binders.lookup id ≠ none

theorem Onward.trans (h : S.Onward now next) (h' : S.Onward next last) :
    S.Onward now last :=
  ⟨h.moves.trans h'.moves, fun _ _ ht => h'.kept (h.kept ht),
    fun _ hid => h'.bound (h.bound hid)⟩

theorem Onward.size_le (h : S.Onward now next) (hnow : S.Reaches now) :
    now.2.size ≤ next.2.size :=
  h.moves.size_le S.ordered hnow.now_wellFormed

/-- Whether a part of an expression can be inferred at a point that inference
comes to. -/
structure Point (S : Setting) (p : Parts) (now : View × Store) : Prop where
  ready : S.Ready p now.1 now.2
  reaches : S.Reaches now

/-- What is known when a part of an expression was inferred, with success or
not. -/
structure Went (S : Setting) (p : Parts) (now next : View × Store) :
    Prop where
  reaches : S.Reaches next
  onward : S.Onward now next
  adds : now.1.Adds next.1 p

theorem Point.left (h : S.Point (p ++ q) now) : S.Point p now :=
  ⟨h.ready.left, h.reaches⟩

theorem Point.right (h : S.Point (p ++ q) now) : S.Point q now :=
  ⟨h.ready.right, h.reaches⟩

/-- After one part of an expression the rest can still be inferred. -/
theorem Point.proceed (h : S.Point (p ++ q) now) (hwent : S.Went p now next) :
    S.Point q next :=
  ⟨h.ready.next hwent.adds hwent.reaches.state, hwent.reaches⟩

theorem Point.admitsParts (h : S.Point p now) :
    S.confined.AdmitsParts now.2 p where
  literals t ht := (h.ready.literals t ht).mono h.reaches.size_le
  schemes t ht :=
    h.reaches.inRange_start (S.inRange t (h.ready.schemes t ht))

/-- Inference goes on from a point as if it started there. -/
theorem Reaches.here (h : S.Reaches now) :
    Under S.table S.confined now.2 now where
  ordered := S.ordered
  wellFormed := h.now_wellFormed
  moves := .refl
  suits := h.suits.moves h.moves h.size_le
  admitted := h.admitted

/-- A run that only makes moves and fills the view has gone from one point to
another. -/
theorem Reaches.went {x : InferM A} {ok : A → Store → Prop}
    (h : S.Reaches now)
    (hleaves : Leaves S.table S.confined now.2 now ok (x.run now))
    (hfills : Fills p x) : S.Went p now (finalState (x.run now)) := by
  have hview := hfills now
  have hunder : Under S.table S.confined now.2 (finalState (x.run now)) := by
    cases hrun : x.run now with
    | ok a next =>
        rw [hrun] at hleaves
        exact hleaves.1
    | error err next =>
        rw [hrun] at hleaves
        exact hleaves
  exact
    { reaches :=
        { ordered := S.ordered
          wellFormed := S.wellFormed
          moves := h.moves.trans hunder.moves
          suits := h.suits
          admitted := hunder.admitted }
      onward := ⟨hunder.moves, hview.kept, hview.bound⟩
      adds := hview.toAdds }

end Setting

/-! ### What a run of several steps did -/

section

variable {E S A B : Type} {x : EStateM E S A} {f : A → EStateM E S B}
  {now last : S}

theorem exists_of_bind_ok {b : B} (h : (x >>= f).run now = .ok b last) :
    ∃ a next, x.run now = .ok a next ∧ (f a).run next = .ok b last := by
  rw [EStateM.run_bind] at h
  cases hrun : x.run now with
  | ok a next =>
      rw [hrun] at h
      exact ⟨a, next, rfl, h⟩
  | error err next =>
      rw [hrun] at h
      contradiction

theorem or_of_bind_error {err : E} (h : (x >>= f).run now = .error err last) :
    x.run now = .error err last ∨
      ∃ a next, x.run now = .ok a next ∧ (f a).run next = .error err last := by
  rw [EStateM.run_bind] at h
  cases hrun : x.run now with
  | ok a next =>
      rw [hrun] at h
      exact Or.inr ⟨a, next, rfl, h⟩
  | error err' next =>
      rw [hrun] at h
      obtain ⟨rfl, rfl⟩ := EStateM.Result.error.inj h
      exact Or.inl rfl

end

/-- Inference of an expression fails only by its rule, and only if no type is
kept for it. -/
theorem Infer.remember_run_error {e : Exp} {rule : InferM (Ty TyVar)}
    {now final : View × Store} {err : InferError}
    (h : (remember e rule).run now = .error err final) :
    now.1.cached? e = none ∧ rule.run now = .error err final := by
  cases hcached : now.1.cached? e with
  | some t =>
      rw [remember_run_cached hcached] at h
      contradiction
  | none =>
      rw [remember_run hcached] at h
      rcases or_of_bind_error h with hrule | ⟨t, next, -, hkeep⟩
      · exact ⟨rfl, hrule⟩
      · contradiction

theorem Infer.remember_run_of_error {e : Exp} {rule : InferM (Ty TyVar)}
    {now final : View × Store} {err : InferError}
    (hnone : now.1.cached? e = none) (h : rule.run now = .error err final) :
    (remember e rule).run now = .error err final :=
  (remember_run hnone rule).trans (bind_run_of_error h)

/-- Once an expression has a type, the type is kept. -/
theorem Infer.cached?_of_remember {e : Exp} {rule : InferM (Ty TyVar)}
    {now next : View × Store} {t : Ty TyVar}
    (h : (remember e rule).run now = .ok t next) :
    next.1.cached? e = some t := by
  cases hcached : now.1.cached? e with
  | some u =>
      rw [remember_run_cached hcached] at h
      obtain ⟨rfl, rfl⟩ := EStateM.Result.ok.inj h
      exact hcached
  | none =>
      rw [remember_run hcached] at h
      obtain ⟨u, last, -, hkeep⟩ := exists_of_bind_ok h
      obtain ⟨rfl, rfl⟩ := EStateM.Result.ok.inj hkeep
      change ((e.id, u) :: last.1.exps).lookup e.id = some u
      rw [lookup_cons_if, if_pos rfl]

namespace Exp

variable {table : ClassTable} {e : Exp} {now next : View × Store}
  {t : Ty TyVar}

/-- An expression whose type was found keeps it. -/
theorem cached?_of_findType (h : (e.findType table).run now = .ok t next) :
    next.1.cached? e = some t := by
  obtain ⟨_, _, hrule⟩ := e.exists_rule table
  rw [hrule.findType_eq] at h
  exact cached?_of_remember h

/-- An expression whose type is kept is not inferred again. -/
theorem findType_run_cached (h : now.1.cached? e = some t) :
    (e.findType table).run now = .ok t now := by
  obtain ⟨_, _, hrule⟩ := e.exists_rule table
  rw [hrule.findType_eq, remember_run_cached h]

end Exp

namespace Setting

variable {S : Setting} {e : Exp} {p q : Parts} {now final : View × Store}

theorem Point.went_findType (h : S.Point e.parts now) :
    S.Went e.parts now (finalState ((e.findType S.table).run now)) := by
  obtain ⟨_, _, hrule⟩ := e.exists_rule S.table
  exact h.reaches.went (e.leaves_findType h.reaches.here h.admitsParts)
    hrule.fills_findType

/-- What is known when the type of an expression was found. -/
theorem Point.found {next : View × Store} {t : Ty TyVar}
    (h : S.Point e.parts now)
    (hrun : (e.findType S.table).run now = .ok t next) :
    S.Went e.parts now next ∧ S.Admits next.2 t ∧
      next.1.cached? e = some t := by
  have hwent := h.went_findType
  have hleaves := e.leaves_findType h.reaches.here h.admitsParts
  rw [hrun] at hwent hleaves
  exact ⟨hwent, hleaves.2.2, Exp.cached?_of_findType hrun⟩

/-- An expression that failed keeps no type. -/
theorem Point.uncached {err : InferError} (h : S.Point e.parts now)
    (hrun : (e.findType S.table).run now = .error err final) :
    final.1.cached? e = none := by
  obtain ⟨rule, inside, hrule⟩ := e.exists_rule S.table
  have hfills := hrule.fills now
  rw [hrule.findType_eq] at hrun
  rw [(remember_run_error hrun).2] at hfills
  have hnodup := h.ready.exps_nodup
  rw [hrule.exps_eq, List.nodup_cons] at hnodup
  rw [View.cached?, ← h.ready.lacks.exps e.id (id_mem_parts e)]
  exact hfills.exps e.id hnodup.1

end Setting

/-! ### The second run -/

/-- Whether a view and a store are what a run left and the next one has come to:
it has found no more types of expressions and bound no more binders, and the
store has all that it had. -/
structure Replay (final now : View × Store) : Prop where
  exps_eq : now.1.exps = final.1.exps
  binders_iff : ∀ id, now.1.binders.lookup id = none ↔
    final.1.binders.lookup id = none
  partOf : final.2.PartOf now.2

namespace Replay

variable {table : ClassTable} {final now : View × Store} {view : View}
  {s s' : Store} {e : Exp} {t : Ty TyVar}

theorem refl (wf : final.2.WellFormed) : Replay final final :=
  ⟨rfl, fun _ => Iff.rfl, .refl wf⟩

theorem cached?_eq (h : Replay final now) (e : Exp) :
    now.1.cached? e = final.1.cached? e := by
  rw [View.cached?, View.cached?, h.exps_eq]

/-- What the first run has found is found at once. -/
theorem findType_run (h : Replay final now)
    (ht : final.1.cached? e = some t) (table : ClassTable) :
    (e.findType table).run now = .ok t now :=
  Exp.findType_run_cached ((h.cached?_eq e).trans ht)

theorem moved (h : Replay final (view, s)) (hs' : final.2.PartOf s') :
    Replay final (view, s') :=
  ⟨h.exps_eq, h.binders_iff, hs'⟩

theorem bindBinder (h : Replay final (view, s)) {id : BinderId}
    (hid : final.1.binders.lookup id ≠ none) (t : Ty TyVar) :
    Replay final ({ view with binders := (id, t) :: view.binders }, s) where
  exps_eq := h.exps_eq
  binders_iff other := by
    rw [lookup_cons_if]
    split
    · rename_i heq
      rw [heq]
      exact iff_of_false (Option.some_ne_none t) hid
    · exact h.binders_iff other
  partOf := h.partOf

end Replay

/-! ### Binders -/

/-- The type that a binder gets: a copy of its annotation, or a new
variable. -/
def Binder.typed (binder : Binder) : ScopeM (Ty TyVar) :=
  match binder.declared with
  | some declared => Scope.instantiate declared
  | none => Ty.var <$> Scope.fresh binder.name.text ∅

/-- Giving a binder a type always succeeds, and only fills the view with that
type. -/
theorem bindIn_run (scope : Scope) (binder : Binder) (view : View)
    (s : Store) :
    (bindIn scope binder).run (view, s) =
      .ok ((binder.typed.run (scope, s)).1, (binder.typed.run (scope, s)).2.1)
        ({ view with
            binders := (binder.id, (binder.typed.run (scope, s)).1) ::
              view.binders }, (binder.typed.run (scope, s)).2.2) := by
  rcases binder with ⟨id, name, declared?⟩
  cases declared? <;> rfl

namespace Store

variable {s : Store} {scope : Scope}

theorem partOf_mapVarsM_copy (wf : s.WellFormed) (scope : Scope)
    (t : Ty TyVar) :
    s.PartOf ((t.mapVarsM Scope.copy).run (scope, s)).2.2 := by
  induction t generalizing s scope with
  | con name => exact .refl wf
  | app func arg ihFunc ihArg =>
      have hfunc := ihFunc wf scope
      exact hfunc.trans (ihArg hfunc.wellFormed _)
  | var v =>
      rw [Scope.mapVarsM_var_run]
      cases hlookup : scope.copies.lookup v with
      | some w =>
          rw [Scope.copy_run_of_some hlookup]
          exact .refl wf
      | none =>
          rw [Scope.copy_run_of_none hlookup]
          exact partOf_fresh wf _ _

theorem partOf_typed (wf : s.WellFormed) (scope : Scope) (binder : Binder) :
    s.PartOf (binder.typed.run (scope, s)).2.2 := by
  rcases binder with ⟨id, name, declared?⟩
  cases declared? with
  | none => exact partOf_fresh wf name.text ∅
  | some declared =>
      rw [Binder.typed, Scope.instantiate_run]
      split
      · exact .refl wf
      · exact partOf_mapVarsM_copy wf scope _

end Store

namespace Replay

variable {final now : View × Store}

/-- The binders of a lambda get types again. -/
theorem bindAll (h : Replay final now) (scope : Scope) {params : List Binder}
    (hparams : ∀ binder ∈ params, final.1.binders.lookup binder.id ≠ none) :
    ∃ ts next, (bindAll scope params).run now = .ok ts next ∧
      Replay final next := by
  induction params generalizing now scope with
  | nil => exact ⟨[], now, rfl, h⟩
  | cons binder rest ih =>
      rcases now with ⟨view, s⟩
      rw [List.forall_mem_cons] at hparams
      have hpart := h.partOf.trans
        (Store.partOf_typed h.partOf.wellFormed scope binder)
      obtain ⟨ts, next, hrun, hnext⟩ :=
        ih ((h.moved hpart).bindBinder hparams.1 _)
          (binder.typed.run (scope, s)).2.1 hparams.2
      refine ⟨(binder.typed.run (scope, s)).1 :: ts, next, ?_, hnext⟩
      have hopen : (Infer.bindAll scope (binder :: rest)).run (view, s) =
          (Infer.bindIn scope binder >>= fun first =>
            Infer.bindAll first.2 rest >>= fun others =>
              pure (first.1 :: others)).run (view, s) := rfl
      rw [hopen, bind_run_of_ok (bindIn_run scope binder view s),
        bind_run_of_ok hrun]
      rfl

end Replay

/-! ### Annotations in both runs -/

namespace Setting

variable {S : Setting} {disputed : Prop} {now final : View × Store}
  {s' : Store} {scope scope' : Scope} {declared : Ty TyVar}

/-- Whether the variables of an annotation have classes without conflict, unless
there is a dispute. -/
def Settles (S : Setting) (disputed : Prop) (declared : Ty TyVar) : Prop :=
  ∀ v ∈ (S.start.zonk declared).vars, ∀ classes,
    S.start.unsolvedClasses? v = some classes →
      classes.Undisputed S.table disputed

/-- The variables of an annotation have the same classes throughout both
runs. -/
theorem Reaches.samples (h : S.Reaches now) (hfinal : S.Reaches final)
    (hpart : final.2.PartOf s') (hscheme : declared ∈ S.schemes)
    (hsettles : S.Settles disputed declared) :
    ∀ v ∈ (now.2.zonk declared).vars,
      Store.Samples (ClassSet.Undisputed S.table disputed) now.2 s' v := by
  intro v hv
  rw [h.state.zonk_scheme hscheme] at hv
  have hgeneric : S.Generic v := ⟨declared, hscheme, hv⟩
  obtain ⟨classes, hclasses⟩ :=
    Store.exists_unsolvedClasses? hgeneric.lt_size hgeneric.solution?
  refine ⟨classes, hsettles v hv classes hclasses, ?_, ?_⟩
  · rw [h.state.unsolvedClasses?_generic hgeneric, hclasses]
  · rw [hpart.classes_eq (Nat.lt_of_lt_of_le hgeneric.lt_size hfinal.size_le),
      hfinal.state.unsolvedClasses?_generic hgeneric, hclasses]

/-- An annotation is instantiated in both runs in the same way. -/
theorem Reaches.copiedAgain (h : S.Reaches now) (hfinal : S.Reaches final)
    (hsize : now.2.size ≤ final.2.size) (hpart : final.2.PartOf s')
    (hscopes : Scope.CaughtUp final.2 now.2 s' scope scope')
    (hscheme : declared ∈ S.schemes)
    (hsettles : S.Settles disputed declared) :
    CopiedAgain (ClassSet.Undisputed S.table disputed) final.2 now.2 s' now.2
      ((Scope.instantiate declared).run (scope, now.2))
      ((Scope.instantiate declared).run (scope', s')) := by
  have hrange := S.inRange declared hscheme
  refine copiedAgain_instantiate h.now_wellFormed hpart hsize
    (h.inRange_start hrange) ?_ hscopes.renews
    (h.samples hfinal hpart hscheme hsettles)
  rw [hpart.zonk_eq hfinal.now_wellFormed (hfinal.inRange_start hrange),
    hfinal.state.zonk_scheme hscheme, h.state.zonk_scheme hscheme]

theorem undisputed_empty (table : ClassTable) (disputed : Prop) :
    (∅ : ClassSet).Undisputed table disputed :=
  ⟨(ClassSet.Proper.empty table).reduced, Or.inr rfl⟩

theorem copiedAgain_fresh {base s : Store} (wf : s.WellFormed)
    (hpart : base.PartOf s')
    (hscopes : Scope.CaughtUp base s s' scope scope') (name : String) :
    CopiedAgain (ClassSet.Undisputed S.table disputed) base s s' s
      ((Ty.var <$> Scope.fresh name ∅).run (scope, s))
      ((Ty.var <$> Scope.fresh name ∅).run (scope', s')) := by
  have hgrown : Store.Grown (ClassSet.Undisputed S.table disputed) s s' s s' :=
    .refl wf hpart.wellFormed
  have hsize : s.size < (s.fresh name ∅).2.size := by simp
  have hrenews : Scope.Renews base s s' (s.fresh name ∅).2 scope scope' :=
    hscopes.imp fun _ _ h => ⟨.old h, h.left.trans hsize⟩
  refine ⟨hgrown.fresh (undisputed_empty _ _) name name, hrenews, .var (.new 0),
    fun v hv hlt => ?_⟩
  have hlt' : v.index < (s.fresh name ∅).2.size := hlt
  rw [Store.size_fresh] at hlt'
  exact Ty.mem_vars_var.2 (congrArg TyVar.mk
    (Nat.le_antisymm (Nat.le_of_lt_succ hlt') hv))

/-- A binder gets its type in both runs in the same way. -/
theorem Reaches.copiedAgain_typed (h : S.Reaches now)
    (hfinal : S.Reaches final) (hsize : now.2.size ≤ final.2.size)
    (hpart : final.2.PartOf s')
    (hscopes : Scope.CaughtUp final.2 now.2 s' scope scope') {binder : Binder}
    (hscheme : ∀ declared ∈ binder.declared, declared ∈ S.schemes)
    (hsettles : ∀ declared ∈ binder.declared,
      S.Settles disputed declared) :
    CopiedAgain (ClassSet.Undisputed S.table disputed) final.2 now.2 s' now.2
      (binder.typed.run (scope, now.2)) (binder.typed.run (scope', s')) := by
  rcases binder with ⟨id, name, declared?⟩
  cases declared? with
  | none => exact copiedAgain_fresh h.now_wellFormed hpart hscopes name.text
  | some declared =>
      exact h.copiedAgain hfinal hsize hpart hscopes
        (hscheme declared rfl) (hsettles declared rfl)

end Setting

end HindleyMilner

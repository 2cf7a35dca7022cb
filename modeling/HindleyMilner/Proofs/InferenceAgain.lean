import HindleyMilner.Proofs.UnificationCalls

/-
Inference that is made again in the view that it left when it failed.  What
was found before is found at once, and the unification that failed fails again,
with second copies of an annotation or a second variable for a result.
-/

namespace HindleyMilner

open Infer

/-! ### How errors recur -/

def Bindings.bounds : Bindings → List Exp
  | .nil => []
  | .cons _ bound rest => bound :: rest.bounds

def Bindings.annotations : Bindings → List (Ty TyVar)
  | .nil => []
  | .cons binder _ rest => binder.declared.toList ++ rest.annotations

def Exp.children : Exp → List Exp
  | .apply _ func arg => [func, arg]
  | .lambda _ _ body => [body]
  | .letIn _ bindings body => bindings.bounds ++ [body]
  | .annotated _ inner _ => [inner]
  | _ => []

/-- Whether an expression is another one or, at any depth, around it. -/
def Exp.Holds : Exp → Exp → Prop :=
  Relation.ReflTransGen fun e inner => inner ∈ e.children

/-- The annotations of an expression that its rule unifies with types. -/
def Exp.annotations : Exp → List (Ty TyVar)
  | .letIn _ bindings _ => bindings.annotations
  | .annotated _ _ declared => [declared]
  | _ => []

/-- Whether an annotation of an expression has a variable whose classes have a
conflict. -/
def Exp.Disputed (st : TypeState) (e : Exp) : Prop :=
  ∃ declared ∈ e.annotations, ∃ v ∈ (st.store.zonk declared).vars,
    ∃ classes, st.store.unsolvedClasses? v = some classes ∧
      st.classes.conflict? classes ≠ none

/-- Whether the error of inference of an expression that was made again is that
of the first time, which came to calls of unification and left a store: a binder
is used where it is not bound; or a call failed, and the types of the same
expression cannot be made equal for a cause of the same kind, at the same place
in the types of that call; or, if an annotation has a variable whose classes
have a conflict, this conflict comes up in the part that failed or in one around
it. -/
inductive InferError.Recurs (st : TypeState) (e : Exp)
    (calls : Infer.Call → Prop) (s : Store) (err : InferError) :
    InferError → Prop
  | unbound {binder : Binder} (h : err.cause = .unboundBinder binder) :
      Recurs st e calls s err err
  | unify {call : Infer.Call} {u u' : UnifyError} (hcall : calls call)
      (hfails : call.Fails st.classes u s) (herr : err = ⟨call.exp, .unify u⟩)
      (hkind : u'.cause.kind = u.cause.kind)
      (hpath : Recounted st.classes s call.store call.want call.got u.path
        u'.path) : Recurs st e calls s err ⟨call.exp, .unify u'⟩
  | conflict {exp : Exp} {a b : ClassId} {path : List Nat}
      (hexp : e.Holds exp) (herr : exp.Holds err.exp) (h : exp.Disputed st) :
      Recurs st e calls s err ⟨exp, .unify ⟨.unsatisfiable a b, path⟩⟩

namespace Setting

variable {S : Setting} {now final now' next : View × Store} {view view' : View}
  {s s' : Store} {e : Exp} {err : InferError} {scope scope' : Scope}
  {A B : Type} {calls calls' : Infer.Call → Prop}

def session (S : Setting) : TypeState :=
  ⟨S.table, S.start⟩

/-- The classes of annotations that are not disputed have no conflict. -/
theorem settles_disputed
    (hproper : S.start.AllClasses (ClassSet.Proper S.table))
    {declared : Ty TyVar} (h : declared ∈ e.annotations) :
    S.Settles (e.Disputed S.session) declared := by
  intro v hv classes hclasses
  refine ⟨(hproper hclasses).reduced, ?_⟩
  by_cases hclear : S.table.conflict? classes = none
  · exact Or.inr hclear
  · exact Or.inl ⟨declared, h, v, hv, classes, hclasses, hclear⟩

/-- Whether a run fails with the error of another, which came to calls of
unification. -/
def FailsAgain (S : Setting) (e : Exp) (calls : Infer.Call → Prop)
    (err : InferError) (final : View × Store) :
    EStateM.Result InferError (View × Store) A → Prop
  | .ok _ _ => False
  | .error err' _ => err.Recurs S.session e calls final.2 err'

theorem FailsAgain.bind {x : InferM A} {f : A → InferM B}
    (h : S.FailsAgain e calls err final (x.run now)) :
    S.FailsAgain e calls err final ((x >>= f).run now) := by
  rw [EStateM.run_bind]
  cases hrun : x.run now with
  | ok a next =>
      rw [hrun] at h
      exact h.elim
  | error err' next =>
      rw [hrun] at h
      exact h

theorem FailsAgain.exists_error {x : InferM A}
    (h : S.FailsAgain e calls err final (x.run now)) :
    ∃ err' next, x.run now = .error err' next ∧
      err.Recurs S.session e calls final.2 err' := by
  generalize x.run now = result at h ⊢
  cases result with
  | ok a next => exact h.elim
  | error err' next => exact ⟨err', next, rfl, h⟩

/-- An error of a part of an expression is one of the expression. -/
theorem FailsAgain.part {inner : Exp} {x : InferM A}
    (h : S.FailsAgain inner calls err final (x.run now))
    (hinner : e.Holds inner) (hcalls : ∀ call, calls call → calls' call) :
    S.FailsAgain e calls' err final (x.run now) := by
  generalize x.run now = result at h ⊢
  cases result with
  | ok a next => exact h.elim
  | error err' next =>
      cases h with
      | unbound hcause => exact .unbound hcause
      | unify hcall hfails herr hkind hpath =>
          exact .unify (hcalls _ hcall) hfails herr hkind hpath
      | conflict hexp herr hdisputed =>
          exact .conflict (hinner.trans hexp) herr hdisputed

theorem FailsAgain.remember {rule : InferM (Ty TyVar)}
    (hreplay : Replay final now) (hnone : final.1.cached? e = none)
    (h : S.FailsAgain e calls err final (rule.run now)) :
    S.FailsAgain e calls err final ((remember e rule).run now) := by
  rw [remember_run ((hreplay.cached?_eq e).trans hnone)]
  exact h.bind

/-- Unification that failed for a rule fails for it again. -/
theorem failsAgain_unifyAt {want got want' got' : Ty TyVar} {u : UnifyError}
    (h : Refails S.table final.2 (e.Disputed S.session) s want got u
      ((unify S.table want' got').run s'))
    (hcall : calls ⟨e, want, got, s⟩)
    (hfails : (unify S.table want got).run s = .error u final.2) :
    S.FailsAgain e calls ⟨e, .unify u⟩ final
      ((unifyAt S.table e want' got').run (view', s')) := by
  rw [unifyAt_run]
  generalize (unify S.table want' got').run s' = result at h
  cases h with
  | conflict hdisputed => exact .conflict .refl .refl hdisputed
  | alike hkind hpath => exact .unify hcall hfails rfl hkind hpath

/-- Whether inference of an expression that fails, in the expression or inside
of it, fails again in the same way. -/
def Repeats (S : Setting) (e : Exp) : Prop :=
  ∀ ⦃now final : View × Store⦄ ⦃err : InferError⦄, S.Point e.parts now →
    (e.findType S.table).run now = .error err final →
      e.Holds err.exp ∧ ∀ ⦃now'⦄, Replay final now' →
        S.FailsAgain e (e.Calls S.table now) err final
          ((e.findType S.table).run now')

/-- What fails again inside of an expression fails again in the expression. -/
theorem Repeats.within {inner : Exp} (h : S.Repeats inner)
    (hinner : inner ∈ e.children) (hpoint : S.Point inner.parts now)
    (hcalls : ∀ call, inner.Calls S.table now call → calls call)
    (hrun : (inner.findType S.table).run now = .error err final) :
    e.Holds err.exp ∧ ∀ ⦃now'⦄, Replay final now' →
      S.FailsAgain e calls err final ((inner.findType S.table).run now') := by
  obtain ⟨hin, hagain⟩ := h hpoint hrun
  exact ⟨.head hinner hin, fun _ hreplay =>
    (hagain hreplay).part (.single hinner) hcalls⟩

/-! ### Leaves -/

theorem repeats_of_ok (h : ∀ now, ∃ t next,
    (e.findType S.table).run now = .ok t next) : S.Repeats e := by
  intro now final err _ hrun
  obtain ⟨t, next, hok⟩ := h now
  rw [hok] at hrun
  contradiction

/-- A rule that cannot fail gives a type to its expression. -/
theorem exists_remember {rule : InferM (Ty TyVar)}
    (h : ∀ now, ∃ t next, rule.run now = .ok t next) (now : View × Store) :
    ∃ t next, (remember e rule).run now = .ok t next := by
  cases hcached : now.1.cached? e with
  | some t => exact ⟨t, now, remember_run_cached hcached rule⟩
  | none =>
      obtain ⟨t, next, hrun⟩ := h now
      rw [remember_run hcached, bind_run_of_ok hrun]
      exact ⟨t, _, rfl⟩

theorem repeats_localVar (id : ExpId) (binder : Binder) :
    S.Repeats (.localVar id binder) := by
  intro now final err _ hrun
  rw [Exp.findType] at hrun ⊢
  obtain ⟨hnone, hrule⟩ := remember_run_error hrun
  rw [get_bind_run] at hrule
  cases hbinder : now.1.binderTy? binder with
  | some t =>
      rw [hbinder] at hrule
      contradiction
  | none =>
      rw [hbinder] at hrule
      obtain ⟨rfl, rfl⟩ := EStateM.Result.error.inj hrule
      refine ⟨.refl, fun now' hreplay => .remember hreplay hnone ?_⟩
      rw [get_bind_run]
      have hbinder' : now'.1.binderTy? binder = none :=
        (hreplay.binders_iff binder.id).2 hbinder
      rw [hbinder']
      exact .unbound rfl

/-! ### Runs of rules -/

/-- For an expression to repeat, it is enough that its rule does. -/
theorem repeats_of_rule {rule : InferM (Ty TyVar)}
    (hrule : e.findType S.table = remember e rule)
    (h : ∀ ⦃now final err⦄, S.Point e.parts now → now.1.cached? e = none →
      rule.run now = .error err final → e.Holds err.exp ∧
        ∀ ⦃now'⦄, Replay final now' →
          S.FailsAgain e (e.Calls S.table now) err final (rule.run now')) :
    S.Repeats e := by
  intro now final err hpoint hrun
  have hnone := hpoint.uncached hrun
  rw [hrule] at hrun ⊢
  obtain ⟨hnew, hrun⟩ := remember_run_error hrun
  obtain ⟨hin, hagain⟩ := h hpoint hnew hrun
  exact ⟨hin, fun now' hreplay => (hagain hreplay).remember hreplay hnone⟩

theorem exists_of_unifyAt {want got : Ty TyVar}
    (h : (unifyAt S.table e want got).run (view, s) = .error err final) :
    ∃ u base, err = ⟨e, .unify u⟩ ∧ final = (view, base) ∧
      (unify S.table want got).run s = .error u base := by
  rw [unifyAt_run] at h
  cases hrun : (unify S.table want got).run s with
  | ok _ s' =>
      rw [hrun] at h
      contradiction
  | error u base =>
      rw [hrun] at h
      obtain ⟨rfl, rfl⟩ := EStateM.Result.error.inj h
      exact ⟨u, base, rfl, rfl, rfl⟩

theorem Reaches.went_unifyAt (h : S.Reaches now) (e : Exp)
    {want got : Ty TyVar} (hwant : S.Admits now.2 want)
    (hgot : S.Admits now.2 got) : S.Went (.ofBinders []) now
      (finalState ((unifyAt S.table e want got).run now)) :=
  h.went (leaves_unifyAt h.here e hwant hgot) (fills_unifyAt e want got)

theorem Reaches.unified {want got : Ty TyVar} {u : Unit}
    (h : S.Reaches (view, s)) (hwant : S.Admits s want)
    (hgot : S.Admits s got)
    (hrun : (unifyAt S.table e want got).run (view, s) = .ok u next) :
    ∃ base, next = (view, base) ∧
      S.Went (.ofBinders []) (view, s) (view, base) ∧
        base.zonk want = base.zonk got := by
  have hwent := h.went_unifyAt e hwant hgot
  rw [hrun] at hwent
  rw [unifyAt_run] at hrun
  have himposes := imposes_unify S.ordered h.now_wellFormed hwant.inRange
    hgot.inRange
  generalize (unify S.table want got).run s = result at hrun himposes
  cases result with
  | error u base => contradiction
  | ok u base =>
      obtain ⟨-, rfl⟩ := EStateM.Result.ok.inj hrun
      exact ⟨base, rfl, hwent, himposes.zonk_eq S.ordered⟩

/-- A rule whose unification failed comes to a unification that fails again,
if variables that it makes are made in both runs. -/
theorem Reaches.failsAgain {s₁ s₁' : Store} {want got want' got' : Ty TyVar}
    (h : S.Reaches (view, s₁))
    (hproper : S.start.AllClasses (ClassSet.Proper S.table))
    (hgrown : Store.Grown
      (ClassSet.Undisputed S.table (e.Disputed S.session)) s s' s₁ s₁')
    (wf : s.WellFormed) (hwant : S.Admits s₁ want) (hgot : S.Admits s₁ got)
    (hrun : (unifyAt S.table e want got).run (view, s₁) = .error err final)
    (hpart : final.2.PartOf s')
    (hwant' : Ty.Alike (Store.Renewed final.2 s s') want want')
    (hgot' : Ty.Alike (Store.Renewed final.2 s s') got got')
    (hanchored : Store.Anchored final.2 s₁' (Store.renew s s₁ s') got)
    (hcall : calls ⟨e, want, got, s₁⟩) :
    S.FailsAgain e calls err final
      ((unifyAt S.table e want' got').run (view', s₁')) := by
  have hwent := h.went_unifyAt e hwant hgot
  rw [hrun] at hwent
  obtain ⟨u, base, rfl, rfl, hunify⟩ := exists_of_unifyAt hrun
  have hrefails := hgrown.refails_unify S.ordered wf
    (hwent.reaches.reduced hproper) hwent.onward.moves hpart hwant.inRange
    hgot.inRange hunify hwant' hgot' hanchored
  exact failsAgain_unifyAt hrefails hcall hunify

/-- A type that was found before cannot be unified with a copy again where it
could not be unified with the first copy. -/
theorem Reaches.failsAgain_copied
    {first second : Ty TyVar × Scope × Store} {got : Ty TyVar}
    (h : S.Reaches (view, first.2.2))
    (hproper : S.start.AllClasses (ClassSet.Proper S.table))
    (hcopied : CopiedAgain
      (ClassSet.Undisputed S.table (e.Disputed S.session)) final.2 s s' s first
      second) (wf : s.WellFormed) (hlow : s.size ≤ final.2.size)
    (hfinal : S.Reaches final) (hwant : S.Admits first.2.2 first.1)
    (hgot : S.Admits s got)
    (hrun : (unifyAt S.table e first.1 got).run (view, first.2.2) =
      .error err final) (hpart : final.2.PartOf s')
    (hcall : calls ⟨e, first.1, got, first.2.2⟩) :
    S.FailsAgain e calls err final
      ((unifyAt S.table e second.1 got).run (view', second.2.2)) := by
  have hanchored := hcopied.grown.anchored_settled hfinal.now_wellFormed hpart
    hlow hgot.inRange
  exact h.failsAgain hproper hcopied.grown wf hwant
    (hgot.mono hcopied.grown.left.size_le) hrun hpart hcopied.alike
    (Store.alike_renewed hpart hlow hgot.inRange) (.settled hanchored) hcall

/-! ### Applications -/

/-- The variable for the result of an application is made in both runs. -/
theorem Reaches.failsAgain_apply {func arg : Exp} {id : ExpId}
    {funcTy argTy : Ty TyVar} (h : S.Reaches (view, s))
    (hproper : S.start.AllClasses (ClassSet.Proper S.table))
    (hfunc : S.Admits s funcTy) (harg : S.Admits s argTy)
    (hrun : (unifyAt S.table (.apply id func arg) funcTy
      (.arrow argTy (.var ⟨s.size⟩))).run (view, (s.fresh "res" ∅).2) =
        .error err final) (hpart : final.2.PartOf s')
    (hcall : calls ⟨.apply id func arg, funcTy, .arrow argTy (.var ⟨s.size⟩),
      (s.fresh "res" ∅).2⟩) :
    S.FailsAgain (.apply id func arg) calls err final
      ((unifyAt S.table (.apply id func arg) funcTy
        (.arrow argTy (.var ⟨s'.size⟩))).run
          (view', (s'.fresh "res" ∅).2)) := by
  have hreaches : S.Reaches (view, (s.fresh "res" ∅).2) :=
    (leaves_fresh h "res").1
  have hgrown : Store.Grown (ClassSet.Undisputed S.table
      ((Exp.apply id func arg).Disputed S.session)) s s' (s.fresh "res" ∅).2
      (s'.fresh "res" ∅).2 :=
    (Store.Grown.refl h.now_wellFormed hpart.wellFormed).fresh
      (undisputed_empty _ _) "res" "res"
  have hsize : s.size ≤ (s.fresh "res" ∅).2.size := by simp
  have hgot : S.Admits (s.fresh "res" ∅).2 (.arrow argTy (.var ⟨s.size⟩)) :=
    (harg.mono hsize).arrow (h.state.admits_fresh "res" ∅)
  have hwent := hreaches.went_unifyAt (.apply id func arg)
    (hfunc.mono hsize) hgot
  rw [hrun] at hwent
  have hbase : (s.fresh "res" ∅).2.size ≤ final.2.size :=
    hwent.onward.size_le hreaches
  have hlow := Nat.le_trans hsize hbase
  refine hreaches.failsAgain hproper hgrown h.now_wellFormed (hfunc.mono hsize)
    hgot hrun hpart (Store.alike_renewed hpart hlow hfunc.inRange)
    (.app (.app (.con _) (Store.alike_renewed hpart hlow harg.inRange))
      (.var (.new 0))) (.app ?_ (.twin ?_)) hcall
  · apply hgrown.anchored_settled hwent.reaches.now_wellFormed hpart hlow
    intro v hv
    rcases Ty.mem_vars_app.1 hv with hv | hv
    · exact absurd hv List.not_mem_nil
    · exact harg.inRange v hv
  · have hlt : s.size + 0 < (s.fresh "res" ∅).2.size := by simp
    refine ⟨Nat.lt_of_lt_of_le hlt hbase, ?_⟩
    change _ ≤ (Store.renew s _ s' ⟨s.size + 0⟩).index
    rw [Store.renew_new hlt]
    exact hpart.size_le

theorem repeats_apply (id : ExpId) {func arg : Exp} (hfunc : S.Repeats func)
    (harg : S.Repeats arg)
    (hproper : S.start.AllClasses (ClassSet.Proper S.table)) :
    S.Repeats (.apply id func arg) := by
  refine repeats_of_rule (by rw [Exp.findType])
    fun now final err hpoint hnew hrun => ?_
  have hinner : S.Point (func.parts ++ arg.parts) now := hpoint.right
  rcases or_of_bind_error hrun with hfuncRun | ⟨funcTy, now₁, hfuncRun, hrun₁⟩
  · obtain ⟨hin, hagain⟩ := hfunc.within (e := .apply id func arg)
      List.mem_cons_self hinner.left (fun _ => Exp.Calls.func hnew) hfuncRun
    exact ⟨hin, fun _ hreplay => (hagain hreplay).bind⟩
  obtain ⟨hwent₁, hfuncTy, hcached₁⟩ := hinner.left.found hfuncRun
  have hpoint₁ := hinner.proceed hwent₁
  rcases or_of_bind_error hrun₁ with hargRun | ⟨argTy, now₂, hargRun, hrun₂⟩
  · obtain ⟨hin, hagain⟩ := harg.within (e := .apply id func arg)
      (List.mem_cons_of_mem _ List.mem_cons_self) hpoint₁
      (fun _ => Exp.Calls.arg hnew hfuncRun) hargRun
    have hlast := hpoint₁.went_findType
    rw [hargRun] at hlast
    refine ⟨hin, fun _ hreplay => ?_⟩
    rw [bind_run_of_ok (hreplay.findType_run (hlast.onward.kept hcached₁)
      S.table)]
    exact (hagain hreplay).bind
  obtain ⟨hwent₂, hargTy, hcached₂⟩ := hpoint₁.found hargRun
  rcases now₂ with ⟨view, s⟩
  rw [bind_run_of_ok (fresh_run "res")] at hrun₂
  rcases or_of_bind_error hrun₂ with hunify | ⟨_, _, -, hpure⟩
  · obtain ⟨u, base, rfl, rfl, -⟩ := exists_of_unifyAt hunify
    refine ⟨.refl, fun ⟨view', s'⟩ hreplay => ?_⟩
    have hcached := hwent₂.onward.kept hcached₁
    have hsize : now₁.2.size ≤ s.size :=
      hwent₂.onward.size_le hwent₁.reaches
    rw [bind_run_of_ok (hreplay.findType_run hcached S.table),
      bind_run_of_ok (hreplay.findType_run hcached₂ S.table),
      bind_run_of_ok (fresh_run "res")]
    exact (hwent₂.reaches.failsAgain_apply hproper (hfuncTy.mono hsize)
      hargTy hunify hreplay.partOf
      (.apply hnew hfuncRun hargRun (fresh_run "res"))).bind
  · contradiction

/-! ### Lambdas -/

theorem lookup_of_bindAll {params : List Binder} {ts : List (Ty TyVar)}
    (h : (bindAll scope params).run now = .ok ts next) :
    ∀ binder ∈ params, next.1.binders.lookup binder.id ≠ none := by
  induction params generalizing scope now ts with
  | nil => exact fun _ hmem => absurd hmem List.not_mem_nil
  | cons binder rest ih =>
      rcases now with ⟨view, s⟩
      have hopen : (bindAll scope (binder :: rest)).run (view, s) =
          (bindIn scope binder >>= fun first => bindAll first.2 rest >>=
            fun others => pure (first.1 :: others)).run (view, s) := rfl
      rw [hopen, bind_run_of_ok (bindIn_run scope binder view s)] at h
      obtain ⟨others, last, hrest, hpure⟩ := exists_of_bind_ok h
      obtain ⟨-, rfl⟩ := EStateM.Result.ok.inj hpure
      have hfills : Fills (.ofBinders rest)
          (bindAll (binder.typed.run (scope, s)).2.1 rest) :=
        fills_bindAll _ (List.Subset.refl _)
      have hbound := hfills ({ view with
        binders := (binder.id, (binder.typed.run (scope, s)).1) ::
          view.binders }, (binder.typed.run (scope, s)).2.2)
      rw [hrest] at hbound
      refine List.forall_mem_cons.2 ⟨hbound.bound ?_, ih hrest⟩
      rw [lookup_cons_if, if_pos rfl]
      exact Option.some_ne_none _

theorem repeats_lambda (id : ExpId) (params : List Binder) {body : Exp}
    (hbody : S.Repeats body) : S.Repeats (.lambda id params body) := by
  refine repeats_of_rule (by rw [Exp.findType])
    fun now final err hpoint hnew hrun => ?_
  have hinner : S.Point (.ofBinders params ++ body.parts) now := hpoint.right
  rcases now with ⟨view, s⟩
  obtain ⟨ts, view₁, s₁, hparams, -⟩ :=
    exists_bindAll hinner.left.ready copies_empty
  have hwent := hinner.reaches.went (p := .ofBinders params)
    (leaves_bindAll params hinner.reaches.here
      (Scope.copiesAdmitted_empty _ _) hinner.left.admitsParts)
    (fills_bindAll .empty (List.Subset.refl _))
  rw [hparams] at hwent
  rw [bind_run_of_ok hparams] at hrun
  rcases or_of_bind_error hrun with hbodyRun | ⟨_, _, -, hpure⟩
  · have hpoint₁ : S.Point body.parts (view₁, s₁) := hinner.proceed hwent
    obtain ⟨hin, hagain⟩ := hbody.within (e := .lambda id params body)
      List.mem_cons_self hpoint₁ (fun _ => Exp.Calls.lambda hnew hparams)
      hbodyRun
    have hlast := hpoint₁.went_findType
    rw [hbodyRun] at hlast
    refine ⟨hin, fun now' hreplay => ?_⟩
    obtain ⟨ts', now₁', hparams', hreplay₁⟩ := hreplay.bindAll .empty
      fun binder hmem =>
        hlast.onward.bound (lookup_of_bindAll hparams binder hmem)
    rw [bind_run_of_ok hparams']
    exact (hagain hreplay₁).bind
  · contradiction

/-! ### Annotated expressions -/

theorem instantiate_run_onStore (declared : Ty TyVar) (view : View)
    (s : Store) :
    (onStore (·.inNewScope (Scope.instantiate declared))).run (view, s) =
      .ok ((Scope.instantiate declared).run (.empty, s)).1
        (view, ((Scope.instantiate declared).run (.empty, s)).2.2) := rfl

/-- The annotation is instantiated in both runs. -/
theorem Reaches.failsAgain_annotated {inner : Exp} {id : ExpId}
    {declared got : Ty TyVar} (h : S.Reaches (view, s))
    (hproper : S.start.AllClasses (ClassSet.Proper S.table))
    (hscheme : declared ∈ S.schemes) (hgot : S.Admits s got)
    (hrun : (unifyAt S.table (.annotated id inner declared)
      ((Scope.instantiate declared).run (.empty, s)).1 got).run
        (view, ((Scope.instantiate declared).run (.empty, s)).2.2) =
          .error err final) (hpart : final.2.PartOf s')
    (hcall : calls ⟨.annotated id inner declared,
      ((Scope.instantiate declared).run (.empty, s)).1, got,
      ((Scope.instantiate declared).run (.empty, s)).2.2⟩) :
    S.FailsAgain (.annotated id inner declared) calls err final
      ((unifyAt S.table (.annotated id inner declared)
        ((Scope.instantiate declared).run (.empty, s')).1 got).run
          (view', ((Scope.instantiate declared).run (.empty, s')).2.2)) := by
  have hleaves := leaves_instantiate h.here
    (h.inRange_start (S.inRange declared hscheme))
  have hwent := h.went (p := .ofBinders []) hleaves (fills_onStore _)
  rw [instantiate_run_onStore] at hleaves hwent
  obtain ⟨-, hsize, hwant⟩ := hleaves
  have hreaches : S.Reaches (view,
      ((Scope.instantiate declared).run (.empty, s)).2.2) := hwent.reaches
  have hlast := hreaches.went_unifyAt (.annotated id inner declared) hwant
    (hgot.mono hsize)
  rw [hrun] at hlast
  have hlow := Nat.le_trans hsize (hlast.onward.size_le hreaches)
  have hcopied := h.copiedAgain hlast.reaches hlow hpart (Scope.alike_empty _)
    hscheme (settles_disputed (e := .annotated id inner declared) hproper
      List.mem_cons_self)
  exact hreaches.failsAgain_copied hproper hcopied h.now_wellFormed hlow
    hlast.reaches hwant hgot hrun hpart hcall

theorem repeats_annotated (id : ExpId) {inner : Exp} (declared : Ty TyVar)
    (hinner : S.Repeats inner)
    (hproper : S.start.AllClasses (ClassSet.Proper S.table)) :
    S.Repeats (.annotated id inner declared) := by
  refine repeats_of_rule (by rw [Exp.findType])
    fun now final err hpoint hnew hrun => ?_
  have hscheme : declared ∈ S.schemes :=
    hpoint.ready.schemes declared (by simp [Exp.parts])
  have hpoint : S.Point inner.parts now := hpoint.right
  rcases or_of_bind_error hrun with hinnerRun | ⟨got, now₁, hinnerRun, hrun₁⟩
  · obtain ⟨hin, hagain⟩ := hinner.within (e := .annotated id inner declared)
      List.mem_cons_self hpoint (fun _ => Exp.Calls.inner hnew) hinnerRun
    exact ⟨hin, fun _ hreplay => (hagain hreplay).bind⟩
  obtain ⟨hwent, hgot, hcached⟩ := hpoint.found hinnerRun
  rcases now₁ with ⟨view, s⟩
  rw [bind_run_of_ok (instantiate_run_onStore declared view s)] at hrun₁
  rcases or_of_bind_error hrun₁ with hunify | ⟨_, _, -, hpure⟩
  · obtain ⟨u, base, rfl, rfl, -⟩ := exists_of_unifyAt hunify
    refine ⟨.refl, fun ⟨view', s'⟩ hreplay => ?_⟩
    rw [bind_run_of_ok (hreplay.findType_run hcached S.table),
      bind_run_of_ok (instantiate_run_onStore declared view' s')]
    exact (hwent.reaches.failsAgain_annotated hproper hscheme hgot hunify
      hreplay.partOf (.annotated hnew hinnerRun
        (instantiate_run_onStore declared view s))).bind
  · contradiction

end Setting

end HindleyMilner

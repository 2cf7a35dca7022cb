import HindleyMilner.Proofs.InferenceAgain

/-
Bindings of a let that are made again.  Their annotations get second copies,
which catch up with the first ones as each binding is made, so all expressions
that fail fail again in the same way.
-/

namespace HindleyMilner

open Infer

/-! ### Giving types to binders -/

/-- Gives a binder a type and makes it that of what is bound to it. -/
def Infer.bindTo (table : ClassTable) (e : Exp) (binder : Binder)
    (scope : Scope) (got : Ty TyVar) : InferM Scope := do
  let (want, scope) ← bindIn scope binder
  unifyAt table e want got
  return scope

theorem Bindings.findTypes_cons (table : ClassTable) (e : Exp) (scope : Scope)
    (binder : Binder) (bound : Exp) (rest : Bindings) :
    (Bindings.cons binder bound rest).findTypes table e scope =
      (bound.findType table >>= bindTo table e binder scope) >>=
        rest.findTypes table e := by
  simp only [Bindings.findTypes, bindTo, bind_assoc, pure_bind]

theorem Infer.bindTo_run (table : ClassTable) (e : Exp) (binder : Binder)
    (scope : Scope) (got : Ty TyVar) (view : View) (s : Store) :
    (bindTo table e binder scope got).run (view, s) =
      (unifyAt table e (binder.typed.run (scope, s)).1 got >>= fun _ =>
        pure (binder.typed.run (scope, s)).2.1).run
          ({ view with
              binders := (binder.id, (binder.typed.run (scope, s)).1) ::
                view.binders }, (binder.typed.run (scope, s)).2.2) := by
  rw [bindTo, bind_run_of_ok (bindIn_run scope binder view s)]

theorem Infer.exp_eq_of_bindTo {table : ClassTable} {e : Exp} {binder : Binder}
    {scope : Scope} {got : Ty TyVar} {now final : View × Store}
    {err : InferError}
    (h : (bindTo table e binder scope got).run now = .error err final) :
    err.exp = e := by
  rcases now with ⟨view, s⟩
  rw [bindTo_run, EStateM.run_bind, unifyAt_run] at h
  generalize (unify table _ got).run _ = result at h
  cases result with
  | ok _ _ => contradiction
  | error u base =>
      obtain ⟨rfl, -⟩ := EStateM.Result.error.inj h
      rfl

theorem Infer.exists_of_bindTo {table : ClassTable} {e : Exp}
    {binder : Binder} {scope scope₂ : Scope} {got : Ty TyVar}
    {now next : View × Store}
    (h : (bindTo table e binder scope got).run now = .ok scope₂ next) :
    ∃ want mid, (bindIn scope binder).run now = .ok (want, scope₂) mid ∧
      (unifyAt table e want got).run mid = .ok () next := by
  obtain ⟨⟨want, scope'⟩, mid, hwant, hrest⟩ := exists_of_bind_ok h
  obtain ⟨_, last, hunify, hpure⟩ := exists_of_bind_ok hrest
  obtain ⟨rfl, rfl⟩ := EStateM.Result.ok.inj hpure
  exact ⟨want, mid, hwant, hunify⟩

theorem Infer.fills_bindTo (table : ClassTable) (e : Exp) (binder : Binder)
    (scope : Scope) (got : Ty TyVar) :
    Fills (.ofBinders [binder]) (bindTo table e binder scope got) := by
  apply (fills_bindIn scope (by simp [Parts.ofBinders])).bind
  rintro ⟨want, scope'⟩
  exact (fills_unifyAt e want got).bind fun _ => .pure scope'

theorem Infer.leaves_bindTo {table : ClassTable} {permit : Permit}
    {start : Store} {now : View × Store} {scope : Scope} {binder : Binder}
    {got : Ty TyVar} (h : Under table permit start now)
    (hscope : scope.CopiesAdmitted permit now.2)
    (hbinder : permit.AdmitsParts start (.ofBinders [binder]))
    (hgot : permit.Admits now.2 got) (e : Exp) :
    Leaves table permit start now (fun scope s => scope.CopiesAdmitted permit s)
      ((bindTo table e binder scope got).run now) := by
  apply (leaves_bindIn h hscope hbinder).bind
  rintro ⟨want, scope'⟩ next hnext hsize ⟨hwant, hscope'⟩
  apply (leaves_unifyAt hnext e hwant (hgot.of_size_le hsize)).bind
  intro _ last hlast hsize' _
  exact .pure hlast (hscope'.of_size_le hsize')

structure Bindings.Within (bindings : Bindings) (e : Exp) : Prop where
  bounds : bindings.bounds ⊆ e.children
  annotations : bindings.annotations ⊆ e.annotations

namespace Setting

variable {S : Setting} {now final now' next : View × Store} {view view' : View}
  {s s' : Store} {e : Exp} {err : InferError} {scope scope' scope₂ : Scope}
  {binder : Binder} {bound : Exp} {bindings rest : Bindings} {got : Ty TyVar}
  {A B : Type} {last : View × Store} {calls : Infer.Call → Prop}

/-- How an action ends in the second run where it succeeded in the first: it
succeeds, or there is a dispute and a conflict comes up. -/
inductive Proceeds (S : Setting) (e : Exp) (final : View × Store)
    (post : A → Store → Prop) :
    EStateM.Result InferError (View × Store) A → Prop
  | ok {a : A} {next : View × Store} (h : Replay final next)
      (hpost : post a next.2) : Proceeds S e final post (.ok a next)
  | conflict {a b : ClassId} {path : List Nat} {next : View × Store}
      (h : e.Disputed S.session) :
      Proceeds S e final post
        (.error ⟨e, .unify ⟨.unsatisfiable a b, path⟩⟩ next)

theorem Proceeds.bind {post : A → Store → Prop} {post' : B → Store → Prop}
    {x : InferM A} {f : A → InferM B}
    (h : S.Proceeds e final post (x.run now))
    (hf : ∀ a next, Replay final next → post a next.2 →
      S.Proceeds e final post' ((f a).run next)) :
    S.Proceeds e final post' ((x >>= f).run now) := by
  rw [EStateM.run_bind]
  generalize x.run now = result at h
  cases h with
  | ok hreplay hpost => exact hf _ _ hreplay hpost
  | conflict hdisputed => exact .conflict hdisputed

theorem Proceeds.failsAgain {post : A → Store → Prop} {x : InferM A}
    {f : A → InferM B} (h : S.Proceeds e final post (x.run now))
    (herr : e.Holds err.exp)
    (hf : ∀ a next, Replay final next → post a next.2 →
      S.FailsAgain e calls err final ((f a).run next)) :
    S.FailsAgain e calls err final ((x >>= f).run now) := by
  rw [EStateM.run_bind]
  generalize x.run now = result at h
  cases h with
  | ok hreplay hpost => exact hf _ _ hreplay hpost
  | conflict hdisputed => exact .conflict .refl herr hdisputed

theorem within_head (h : (Bindings.cons binder bound rest).Within e) :
    bound ∈ e.children ∧
      ∀ declared ∈ binder.declared, declared ∈ e.annotations :=
  ⟨h.bounds List.mem_cons_self, fun _ hmem =>
    h.annotations (List.mem_append_left _ (Option.mem_toList.2 hmem))⟩

theorem within_tail (h : (Bindings.cons binder bound rest).Within e) :
    rest.Within e where
  bounds _ hmem := h.bounds (List.mem_cons_of_mem _ hmem)
  annotations _ hmem := h.annotations (List.mem_append_right _ hmem)

/-- What is known of a binding after the type of what is bound was found: the
first run comes to its end, and the second one has the same variables. -/
structure Binds (S : Setting) (e : Exp) (binder : Binder) (scope : Scope)
    (got : Ty TyVar) (now : View × Store) : Prop where
  reaches : S.Reaches now
  proper : S.start.AllClasses (ClassSet.Proper S.table)
  scope : scope.CopiesAdmitted S.confined now.2
  got : S.Admits now.2 got
  parts : ∀ declared ∈ binder.declared, declared ∈ S.schemes
  annotations : ∀ declared ∈ binder.declared, declared ∈ e.annotations

theorem Binds.admitsParts (h : S.Binds e binder scope got now) :
    S.confined.AdmitsParts now.2 (.ofBinders [binder]) where
  literals _ ht := absurd ht List.not_mem_nil
  schemes t ht := by
    obtain ⟨b, hb, hdeclared⟩ := List.mem_filterMap.1 ht
    rw [List.mem_singleton.1 hb] at hdeclared
    exact h.reaches.inRange_start (S.inRange t (h.parts t hdeclared))

theorem Binds.leaves_bindIn (h : S.Binds e binder scope got now) :
    Leaves S.table S.confined now.2 now (TypedIn S.confined)
      ((bindIn scope binder).run now) :=
  Infer.leaves_bindIn h.reaches.here h.scope h.admitsParts

theorem Binds.leaves (h : S.Binds e binder scope got now) :
    Leaves S.table S.confined now.2 now
      (fun scope s => scope.CopiesAdmitted S.confined s)
      ((bindTo S.table e binder scope got).run now) :=
  leaves_bindTo h.reaches.here h.scope h.admitsParts h.got e

theorem Binds.went (h : S.Binds e binder scope got now) :
    S.Went (.ofBinders [binder]) now
      (finalState ((bindTo S.table e binder scope got).run now)) :=
  h.reaches.went h.leaves (fills_bindTo S.table e binder scope got)

/-- The binder gets its type in both runs in the same way. -/
theorem Binds.copiedAgain (h : S.Binds e binder scope got now)
    (hfinal : S.Reaches final) (hsize : now.2.size ≤ final.2.size)
    (hpart : final.2.PartOf s')
    (hscopes : Scope.CaughtUp final.2 now.2 s' scope scope') :
    CopiedAgain (ClassSet.Undisputed S.table (e.Disputed S.session)) final.2
      now.2 s' now.2 (binder.typed.run (scope, now.2))
      (binder.typed.run (scope', s')) :=
  h.reaches.copiedAgain_typed hfinal hsize hpart hscopes h.parts
    fun declared hmem =>
      settles_disputed h.proper (h.annotations declared hmem)

/-- The binder has its type before this is unified with that of what is
bound. -/
theorem Binds.typed (h : S.Binds e binder scope got (view, s)) :
    S.Reaches ({ view with
        binders := (binder.id, (binder.typed.run (scope, s)).1) ::
          view.binders }, (binder.typed.run (scope, s)).2.2) ∧
      s.size ≤ (binder.typed.run (scope, s)).2.2.size ∧
        S.Admits (binder.typed.run (scope, s)).2.2
          (binder.typed.run (scope, s)).1 := by
  have hleaves := h.leaves_bindIn
  have hwent := h.reaches.went hleaves
    (fills_bindIn scope (p := .ofBinders [binder]) (by simp [Parts.ofBinders]))
  rw [bindIn_run] at hleaves hwent
  exact ⟨hwent.reaches, hleaves.2.1, hleaves.2.2.1⟩

/-- A binding that could not be made cannot be made again. -/
theorem Binds.failsAgain (h : S.Binds e binder scope got (view, s))
    (hrun : (bindTo S.table e binder scope got).run (view, s) =
      .error err final) (hreplay : Replay final (view', s'))
    (hscopes : Scope.CaughtUp final.2 s s' scope scope')
    (hcall : calls ⟨e, (binder.typed.run (scope, s)).1, got,
      (binder.typed.run (scope, s)).2.2⟩) :
    S.FailsAgain e calls err final
      ((bindTo S.table e binder scope' got).run (view', s')) := by
  obtain ⟨hreaches, -, hwant⟩ := h.typed
  have hwent := h.went
  rw [hrun] at hwent
  have hlow : s.size ≤ final.2.size := hwent.onward.size_le h.reaches
  have hpart := hreplay.partOf
  have hcopied := h.copiedAgain hwent.reaches hlow hpart hscopes
  rw [bindTo_run] at hrun ⊢
  rcases or_of_bind_error hrun with hunify | ⟨_, _, -, hpure⟩
  · exact (hreaches.failsAgain_copied h.proper hcopied
      h.reaches.now_wellFormed hlow hwent.reaches hwant h.got hunify hpart
      hcall).bind
  · contradiction

/-- A binding that was made is made again, and the copies in its scope catch
up. -/
theorem Binds.proceeds (h : S.Binds e binder scope got (view, s))
    (hrun : (bindTo S.table e binder scope got).run (view, s) =
      .ok scope₂ next) (honward : S.Onward next final)
    (hfinal : S.Reaches final) (hreplay : Replay final (view', s'))
    (hscopes : Scope.CaughtUp final.2 s s' scope scope') :
    S.Proceeds e final
      (fun scope₂' last => Scope.CaughtUp final.2 next.2 last scope₂ scope₂')
      ((bindTo S.table e binder scope' got).run (view', s')) := by
  obtain ⟨hreaches, hsize, hwant⟩ := h.typed
  rw [bindTo_run] at hrun
  obtain ⟨_, last, hunify, hpure⟩ := exists_of_bind_ok hrun
  obtain ⟨rfl, rfl⟩ := EStateM.Result.ok.inj hpure
  obtain ⟨base, rfl, hwent, hequal⟩ :=
    hreaches.unified hwant (h.got.mono hsize) hunify
  have hlast := hwent.onward.trans honward
  have hsizeFinal := hlast.size_le hreaches
  have hpart := hreplay.partOf
  have hcopied := h.copiedAgain hfinal (Nat.le_trans hsize hsizeFinal) hpart
    hscopes
  have hcaught := hcopied.grown.caught_unify S.ordered
    h.reaches.now_wellFormed (hfinal.reduced h.proper) hlast.moves hpart
    hwant.inRange h.got.inRange
    ((honward.moves.extends S.ordered
      hwent.reaches.now_wellFormed).zonk_congr hequal) hcopied.alike
  rw [bindTo_run, EStateM.run_bind, unifyAt_run]
  generalize (unify S.table _ got).run _ = result at hcaught ⊢
  cases hcaught with
  | conflict hdisputed => exact .conflict hdisputed
  | ok hcatches hsettled =>
      refine .ok ((hreplay.moved hcatches.behind.partOf).bindBinder
        (honward.bound ?_) _) ?_
      · rw [lookup_cons_if, if_pos rfl]
        exact Option.some_ne_none _
      · exact hcopied.caughtUp hfinal.now_wellFormed hpart hsizeFinal
          hwant.inRange (hwent.onward.size_le hreaches) hcatches.later
          hcatches.behind.partOf hsettled

/-- What is known of bindings before the types of what they bind are found. -/
structure Gathers (S : Setting) (e : Exp) (bindings : Bindings) (scope : Scope)
    (now : View × Store) : Prop where
  point : S.Point bindings.parts now
  proper : S.start.AllClasses (ClassSet.Proper S.table)
  scope : scope.CopiesAdmitted S.confined now.2
  within : bindings.Within e

/-- When the type of what is bound was found, it can be given to the binder. -/
theorem Gathers.binds (h : S.Gathers e (.cons binder bound rest) scope now)
    (hrun : (bound.findType S.table).run now = .ok got next) :
    S.Went bound.parts now next ∧ next.1.cached? bound = some got ∧
      S.Binds e binder scope got next := by
  obtain ⟨hwent, hgot, hcached⟩ := h.point.left.found hrun
  have hsize := hwent.onward.size_le h.point.reaches
  refine ⟨hwent, hcached, hwent.reaches, h.proper, h.scope.of_size_le hsize,
    hgot, fun declared hmem => ?_, (within_head h.within).2⟩
  have hdeclared : binder.declared = some declared := hmem
  exact h.point.ready.schemes declared
    (by simp [Bindings.parts, Parts.ofBinders, hdeclared])

/-- When a binding was made, the rest of the bindings can be made. -/
theorem Gathers.tail (h : S.Gathers e (.cons binder bound rest) scope now)
    (hbound : (bound.findType S.table).run now = .ok got next)
    (hrun : (bindTo S.table e binder scope got).run next = .ok scope₂ last) :
    S.Onward next last ∧ S.Gathers e rest scope₂ last := by
  obtain ⟨hwent, -, hbinds⟩ := h.binds hbound
  have hwent₂ := hbinds.went
  have hleaves := hbinds.leaves
  rw [hrun] at hwent₂ hleaves
  exact ⟨hwent₂.onward, (h.point.proceed hwent).proceed hwent₂, h.proper,
    hleaves.2.2, within_tail h.within⟩

theorem Gathers.went (h : S.Gathers e bindings scope now) :
    S.Went bindings.parts now
      (finalState ((bindings.findTypes S.table e scope).run now)) :=
  h.point.reaches.went
    (bindings.leaves_findTypes e h.point.reaches.here h.scope
      h.point.admitsParts) (bindings.fills_findTypes S.table e scope)

/-- Scopes that have caught up stay so while the first run goes on. -/
theorem Reaches.caughtUp (h : S.Reaches now) (hnext : S.Onward now next)
    (hlast : S.Onward next final) (hreplay : Replay final now')
    (hscopes : Scope.CaughtUp final.2 now.2 now'.2 scope scope') :
    Scope.CaughtUp final.2 next.2 now'.2 scope scope' := by
  have hwhole := hnext.trans hlast
  have wf := hwhole.moves.wellFormed S.ordered h.now_wellFormed
  exact hscopes.imp fun _ _ hcaught =>
    hcaught.later wf (hnext.size_le h) (hwhole.size_le h)
      (.refl hreplay.partOf.wellFormed) hreplay.partOf

/-- A first binding that was made is made again. -/
theorem Gathers.head (h : S.Gathers e (.cons binder bound rest) scope now)
    (hbound : (bound.findType S.table).run now = .ok got next)
    (hbind : (bindTo S.table e binder scope got).run next = .ok scope₂ last)
    (honward : S.Onward last final) (hfinal : S.Reaches final)
    (hreplay : Replay final now')
    (hscopes : Scope.CaughtUp final.2 now.2 now'.2 scope scope') :
    S.Proceeds e final
      (fun scope₂' s => Scope.CaughtUp final.2 last.2 s scope₂ scope₂')
      ((bound.findType S.table >>= bindTo S.table e binder scope').run
        now') := by
  obtain ⟨hwent, hcached, hbinds⟩ := h.binds hbound
  have hlast := (h.tail hbound hbind).1.trans honward
  rw [bind_run_of_ok (hreplay.findType_run (hlast.kept hcached) S.table)]
  exact hbinds.proceeds hbind honward hfinal hreplay
    (h.point.reaches.caughtUp hwent.onward hlast hreplay hscopes)

/-- Bindings that were made are made again. -/
theorem Gathers.proceeds : ∀ {bindings : Bindings} {scope scope' : Scope}
    {now mid now' : View × Store}, S.Gathers e bindings scope now →
      (bindings.findTypes S.table e scope).run now = .ok () mid →
        S.Onward mid final → S.Reaches final → Replay final now' →
          Scope.CaughtUp final.2 now.2 now'.2 scope scope' →
            S.Proceeds e final (fun _ _ => True)
              ((bindings.findTypes S.table e scope').run now')
  | .nil, _, _, _, _, _, _, _, _, _, hreplay, _ => by
      rw [Bindings.findTypes]
      exact .ok hreplay trivial
  | .cons binder bound rest, scope, scope', now, mid, now', h, hrun, honward,
      hfinal, hreplay, hscopes => by
      rw [Bindings.findTypes_cons] at hrun ⊢
      obtain ⟨scope₂, now₂, hfirst, hrest⟩ := exists_of_bind_ok hrun
      obtain ⟨got, now₁, hbound, hbind⟩ := exists_of_bind_ok hfirst
      have htail := (h.tail hbound hbind).2
      have hwent := htail.went
      rw [hrest] at hwent
      exact (h.head hbound hbind (hwent.onward.trans honward) hfinal hreplay
        hscopes).bind fun scope₂' next hreplay₂ hscopes₂ =>
          htail.proceeds hrest honward hfinal hreplay₂ hscopes₂

/-- Whether bindings that fail, in some part of a let, fail again in the same
way. -/
def RepeatsAll (S : Setting) (bindings : Bindings) : Prop :=
  ∀ ⦃e : Exp⦄ ⦃scope : Scope⦄ ⦃now final : View × Store⦄ ⦃err : InferError⦄,
    S.Gathers e bindings scope now →
      (bindings.findTypes S.table e scope).run now = .error err final →
        e.Holds err.exp ∧
          ∀ ⦃scope' : Scope⦄ ⦃now'⦄, Replay final now' →
            Scope.CaughtUp final.2 now.2 now'.2 scope scope' →
              S.FailsAgain e (bindings.Calls S.table e scope now) err final
                ((bindings.findTypes S.table e scope').run now')

theorem repeatsAll_nil : S.RepeatsAll .nil := by
  intro e scope now final err _ hrun
  rw [Bindings.findTypes] at hrun
  contradiction

theorem repeatsAll_cons (binder : Binder) {bound : Exp} {rest : Bindings}
    (hbound : S.Repeats bound) (hrest : S.RepeatsAll rest) :
    S.RepeatsAll (.cons binder bound rest) := by
  intro e scope now final err h hrun
  simp only [Bindings.findTypes_cons] at hrun ⊢
  rcases or_of_bind_error hrun with hfirst | ⟨scope₂, now₂, hfirst, hrestRun⟩
  · rcases or_of_bind_error hfirst with
      hboundRun | ⟨got, now₁, hboundRun, hbind⟩
    · obtain ⟨hin, hagain⟩ := hbound.within (within_head h.within).1
        h.point.left (fun _ => Bindings.Calls.bound) hboundRun
      exact ⟨hin, fun _ _ hreplay _ => (hagain hreplay).bind.bind⟩
    · obtain ⟨hwent, hcached, hbinds⟩ := h.binds hboundRun
      have hlast := hbinds.went
      rw [hbind] at hlast
      rcases now₁ with ⟨view, s⟩
      refine ⟨?_, fun scope' ⟨view', s'⟩ hreplay hscopes => ?_⟩
      · rw [exp_eq_of_bindTo hbind]
        exact .refl
      rw [EStateM.run_bind, bind_run_of_ok
        (hreplay.findType_run (hlast.onward.kept hcached) S.table),
        ← EStateM.run_bind]
      exact (hbinds.failsAgain hbind hreplay
        (h.point.reaches.caughtUp hwent.onward hlast.onward hreplay hscopes)
        (.binding hboundRun (bindIn_run scope binder view s))).bind
  · obtain ⟨got, now₁, hboundRun, hbind⟩ := exists_of_bind_ok hfirst
    obtain ⟨want, mid, hwant, hunify⟩ := exists_of_bindTo hbind
    have htail := (h.tail hboundRun hbind).2
    obtain ⟨hin, hagain⟩ := hrest htail hrestRun
    have hlast := htail.went
    rw [hrestRun] at hlast
    exact ⟨hin, fun scope' now' hreplay hscopes =>
      (h.head hboundRun hbind hlast.onward hlast.reaches hreplay
        hscopes).failsAgain hin fun _ _ hreplay₂ hscopes₂ =>
          (hagain hreplay₂ hscopes₂).part .refl fun _ =>
            Bindings.Calls.rest hboundRun hwant hunify⟩

theorem repeats_letIn (id : ExpId) {bindings : Bindings} {body : Exp}
    (hbindings : S.RepeatsAll bindings) (hbody : S.Repeats body)
    (hproper : S.start.AllClasses (ClassSet.Proper S.table)) :
    S.Repeats (.letIn id bindings body) := by
  refine repeats_of_rule (by rw [Exp.findType])
    fun now final err hpoint hnew hrun => ?_
  have hinner : S.Point (bindings.parts ++ body.parts) now := hpoint.right
  have hgathers : S.Gathers (.letIn id bindings body) bindings .empty now :=
    ⟨hinner.left, hproper, Scope.copiesAdmitted_empty _ _,
      List.subset_append_left _ _, List.Subset.refl _⟩
  rcases or_of_bind_error hrun with hall | ⟨_, mid, hall, hbodyRun⟩
  · obtain ⟨hin, hagain⟩ := hbindings hgathers hall
    exact ⟨hin, fun _ hreplay =>
      ((hagain hreplay (Scope.alike_empty _)).part .refl
        fun _ => Exp.Calls.bindings hnew).bind⟩
  · have hwent := hgathers.went
    rw [hall] at hwent
    have hpoint₁ : S.Point body.parts mid := hinner.proceed hwent
    obtain ⟨hin, hagain⟩ := hbody.within (e := .letIn id bindings body)
      (List.mem_append_right _ List.mem_cons_self) hpoint₁
      (fun _ => Exp.Calls.letIn hnew hall) hbodyRun
    have hlast := hpoint₁.went_findType
    rw [hbodyRun] at hlast
    exact ⟨hin, fun _ hreplay =>
      (hgathers.proceeds hall hlast.onward hlast.reaches hreplay
        (Scope.alike_empty _)).failsAgain hin
          fun _ _ hreplay₁ _ => hagain hreplay₁⟩

/-! ### All expressions -/

mutual

/-- Inference that fails fails again in the same way. -/
theorem repeats (S : Setting)
    (hproper : S.start.AllClasses (ClassSet.Proper S.table)) :
    ∀ e : Exp, S.Repeats e
  | .value id ty text =>
      repeats_of_ok fun now => by
        rw [Exp.findType]
        exact exists_remember (fun now => ⟨ty, now, rfl⟩) now
  | .localVar id binder => repeats_localVar id binder
  | .function id use =>
      repeats_of_ok fun now => by
        rw [Exp.findType]
        exact exists_remember (fun now => ⟨_, _, rfl⟩) now
  | .hole id =>
      repeats_of_ok fun now => by
        rw [Exp.findType]
        exact exists_remember (fun now => ⟨_, _, rfl⟩) now
  | .apply id func arg =>
      repeats_apply id (repeats S hproper func) (repeats S hproper arg) hproper
  | .lambda id params body =>
      repeats_lambda id params (repeats S hproper body)
  | .letIn id bindings body =>
      repeats_letIn id (repeatsAll S hproper bindings)
        (repeats S hproper body) hproper
  | .annotated id inner declared =>
      repeats_annotated id declared (repeats S hproper inner) hproper

/-- Bindings that fail fail again in the same way. -/
theorem repeatsAll (S : Setting)
    (hproper : S.start.AllClasses (ClassSet.Proper S.table)) :
    ∀ bindings : Bindings, S.RepeatsAll bindings
  | .nil => repeatsAll_nil
  | .cons binder bound rest =>
      repeatsAll_cons binder (repeats S hproper bound)
        (repeatsAll S hproper rest)

end

end Setting

end HindleyMilner

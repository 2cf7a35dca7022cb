import HindleyMilner.Proofs.History
import HindleyMilner.Proofs.Settled

/-
Unification of the same two types a second time.  If it succeeded, it succeeds
again.  If it failed, what was done before the failure is found to be done, and
it fails again at the same place and for the same cause.  Neither changes more
than the lengths of chains.
-/

namespace HindleyMilner

section

variable {table : ClassTable} {F : Footprint} {s : Store} {want got : Ty TyVar}
  {v w : TyVar} {t : Ty TyVar} {classes others : ClassSet}

/-! ### Failing again -/

theorem failsAgain_solveVar (ordered : table.Ordered) (wf : s.WellFormed)
    (ht : t.InRange s) (h : s.unsolvedClasses? v = some classes) :
    UnifyM.FailsAgain table (solveVar table v t) (solveVar table v t) s := by
  intro e s₁ hrun
  have hoccurs {s'} (hs' : s.Tightened table s') :
      s'.occurs v t = s.occurs v t := by
    rw [Store.occurs, Store.occurs, Store.occursWithin_eq,
      Store.occursWithin_eq, ← Store.zonk, ← Store.zonk, hs'.steady.zonk_eq]
  obtain ⟨hcircular, rfl, rfl⟩ | ⟨hcircular, hrequire⟩ :=
    solveVar_error_cases ordered wf h hrun
  · refine ⟨.refl wf, rfl, fun s' hs' => ⟨s', ?_, .refl hs'.steady.wellFormed⟩⟩
    rw [solveVar_run ordered hs'.steady.wellFormed
      ((hs'.unsolvedClasses?_eq v).trans h), hoccurs hs'.tightened,
      if_pos hcircular]
  · have hretraces := retraces_requireAll ordered v wf ht classes
    obtain ⟨hs₁, hpath, hagain⟩ := hretraces.failsAgain hrequire
    refine ⟨hs₁, hpath, fun s' hs' => ?_⟩
    obtain ⟨s'', hrun', hs''⟩ := hagain hs'
    have hv : s'.unsolvedClasses? v = some classes :=
      (hs'.unsolvedClasses?_eq v).trans
        (unsolvedClasses?_requireAll ordered wf h ht hcircular hrequire)
    refine ⟨s'', ?_, hs''⟩
    rw [solveVar_run ordered hs'.steady.wellFormed hv,
      hoccurs (hs₁.trans hs'.tightened), hcircular, if_neg Bool.false_ne_true,
      hrun']

theorem failsAgain_joinVars (wf : s.WellFormed)
    (hv : s.unsolvedClasses? v = some classes)
    (hw : s.unsolvedClasses? w = some others) (hne : v ≠ w) :
    UnifyM.FailsAgain table (joinVars table v w) (joinVars table v w) s := by
  intro e s₁ hrun
  obtain ⟨a, b, hconflict, rfl, rfl⟩ :=
    conflict?_of_joinVars_error hv hw hne hrun
  refine ⟨.refl wf, rfl, fun s' hs' => ⟨s', ?_, .refl hs'.steady.wellFormed⟩⟩
  rw [joinVars_run table ((hs'.unsolvedClasses?_eq v).trans hv)
    ((hs'.unsolvedClasses?_eq w).trans hw) hne, Store.joined, hconflict]

/-- A step of unification between two types that are not both applications
fails again. -/
theorem failsAgain_unifyTops (ordered : table.Ordered) (depth depth' : Nat)
    (hs : Store.Evolves table F s s) (hwant : Store.Resolved F s want)
    (hgot : Store.Resolved F s got)
    (hnot : ∀ func arg func' arg', want = .app func arg →
      got ≠ .app func' arg') :
    UnifyM.FailsAgain table (unifyTops table depth want got)
      (unifyTops table depth' want got) s := by
  have wf := hs.wellFormed
  have hfail (cause : UnifyError.Cause) :
      UnifyM.FailsAgain table (UnifyM.fail cause) (UnifyM.fail cause) s :=
    (UnifyM.Retraces.fail wf cause).failsAgain
  have hsolve {v : TyVar} {t : Ty TyVar}
      (hv : ∃ classes, s.unsolvedClasses? v = some classes)
      (ht : F.Covers t) :
      UnifyM.FailsAgain table (solveVar table v t) (solveVar table v t) s := by
    obtain ⟨classes, hclasses⟩ := hv
    exact failsAgain_solveVar ordered wf (ht.inRange hs.supports) hclasses
  cases want with
  | var v =>
      have hv := (hwant.unsolved rfl).2
      cases got with
      | var w =>
          obtain ⟨classes, hclasses⟩ := hv
          obtain ⟨-, others, hothers⟩ := hgot.unsolved rfl
          simp only [unifyTops]
          split
          · exact (UnifyM.Retraces.pure wf).failsAgain
          · rename_i hne
            exact failsAgain_joinVars wf hclasses hothers hne
      | con d => exact hsolve hv hgot.covers
      | app func arg => exact hsolve hv hgot.covers
  | con c =>
      cases got with
      | var w => exact hsolve (hgot.unsolved rfl).2 hwant.covers
      | con d =>
          simp only [unifyTops]
          split
          · exact (UnifyM.Retraces.pure wf).failsAgain
          · exact hfail _
      | app func arg => exact hfail _
  | app func arg =>
      cases got with
      | var w => exact hsolve (hgot.unsolved rfl).2 hwant.covers
      | con d => exact hfail _
      | app func' arg' => exact absurd rfl (hnot func arg func' arg' rfl)

end

/-! ### Places in types -/

/-- Whether two paths lead to the same place in the two types of a call of
unification, where `last` is the store that the call left.  On the way to an
argument the functions before it are unified.  The position in the first path
is the number of arguments that the first function has in the store after
that, the position in the second path is the number that it has in `last`:
another one only if its head was a variable then and is solved in `last`. -/
inductive Recounted (table : ClassTable) (last : Store) :
    Store → Ty TyVar → Ty TyVar → List Nat → List Nat → Prop
  | here (s : Store) (want got : Ty TyVar) :
      Recounted table last s want got [] []
  | func {s : Store} {want got func arg func' arg' : Ty TyVar}
      {path path' : List Nat} (hwant : s.resolve want = .app func arg)
      (hgot : s.resolve got = .app func' arg')
      (h : Recounted table last (s.prunedBoth want got) func func' path
        path') : Recounted table last s want got path path'
  | arg {s mid : Store} {want got func arg func' arg' : Ty TyVar}
      {path path' : List Nat} (hwant : s.resolve want = .app func arg)
      (hgot : s.resolve got = .app func' arg')
      (hfunc : (unify table func func').run (s.prunedBoth want got) =
        .ok () mid)
      (hcount : (mid.spine func).2.length = (last.spine func).2.length ∨
        ∃ v, (mid.spine func).1 = .var v ∧ last.solution? v ≠ none)
      (h : Recounted table last mid arg arg' path path') :
      Recounted table last s want got ((mid.spine func).2.length :: path)
        ((last.spine func).2.length :: path')

/-- A type with other types for its variables has the arguments it had, after
those that its head has now. -/
theorem Ty.length_spine_bind {V W : Type} (t : Ty V) (f : V → Ty W) :
    (t.bind f).spine.2.length =
      (t.spine.1.bind f).spine.2.length + t.spine.2.length := by
  induction t with
  | var v => simp [Ty.spine, Ty.spineOnto]
  | con name => rfl
  | app func arg ihFunc _ =>
      rw [Ty.bind, Ty.spine_app, Ty.spine_app, List.length_append, ihFunc,
        List.length_append, Nat.add_assoc]
      rfl

section

variable {table : ClassTable} {s mid last : Store}
  {want got func arg func' arg' : Ty TyVar} {path path' : List Nat}

/-- The number of arguments grows only where the head was a variable that has
been solved. -/
theorem Store.Extends.length_spine (wf : mid.WellFormed)
    (h : mid.Extends last) (t : Ty TyVar) :
    (mid.spine t).2.length = (last.spine t).2.length ∨
      ∃ v, (mid.spine t).1 = .var v ∧ last.solution? v ≠ none := by
  have hlength := (mid.zonk t).length_spine_bind fun v => last.zonk (.var v)
  rw [h.bind_zonk, h.wellFormed.zonk_spine, wf.zonk_spine, List.length_map,
    List.length_map] at hlength
  dsimp only at hlength
  have hatom := mid.spine_isAtom t
  cases hhead : (mid.spine t).1 with
  | app f a =>
      rw [hhead] at hatom
      exact hatom.elim
  | con name =>
      rw [hhead] at hlength
      exact .inl (by rw [hlength]; exact (Nat.zero_add _).symm)
  | var v =>
      by_cases hsolved : last.solution? v = none
      · rw [hhead, Ty.bind, h.wellFormed.zonk_var_unsolved hsolved] at hlength
        exact .inl (by rw [hlength]; exact (Nat.zero_add _).symm)
      · exact .inr ⟨v, rfl, hsolved⟩

theorem Recounted.inFunc
    (h : Recounted table last s func func' path path') :
    Recounted table last s (.app func arg) (.app func' arg') path path' :=
  .func rfl rfl h

theorem Recounted.inArg (wf : mid.WellFormed)
    (hfunc : (unify table func func').run s = .ok () mid)
    (hafter : mid.Extends last)
    (h : Recounted table last mid arg arg' path path') :
    Recounted table last s (.app func arg) (.app func' arg')
      ((mid.spine func).2.length :: path)
      ((last.spine func).2.length :: path') :=
  .arg rfl rfl hfunc (hafter.length_spine wf func) h

/-- A place in types that were looked up is a place in the types. -/
theorem Recounted.of_tops (wf : s.WellFormed)
    (h : Recounted table last (s.prunedBoth want got) (s.resolve want)
      (s.resolve got) path path') :
    Recounted table last s want got path path' := by
  have hstays {t u : Ty TyVar}
      (htop : (s.prunedBoth want got).resolve (s.resolve t) = u) :
      s.resolve t = u := by
    rwa [(wf.shortened_prunedBoth want got).resolve_eq,
      wf.resolve_resolve] at htop
  cases h with
  | here => exact .here s want got
  | func hwant hgot h =>
      have hwantTop := hstays hwant
      have hgotTop := hstays hgot
      rw [hwantTop, hgotTop] at h
      exact .func hwantTop hgotTop h
  | arg hwant hgot hfunc hcount h =>
      have hwantTop := hstays hwant
      have hgotTop := hstays hgot
      rw [hwantTop, hgotTop] at hfunc
      exact .arg hwantTop hgotTop hfunc hcount h

end

/-! ### Unification again -/

section

variable {table : ClassTable} {F : Footprint} {s s₁ s₃ : Store}
  {want got func arg func' arg' : Ty TyVar} {e : UnifyError}

/-- Whether an action fails for the cause of an error and at its place in two
types, and changes no more than the lengths of chains. -/
def FailsLike (table : ClassTable) (s s₁ : Store) (want got : Ty TyVar)
    (e : UnifyError) (s' : Store) (action : UnifyM Unit) : Prop :=
  ∃ e' s'', action.run s' = .error e' s'' ∧ s'.Shortened s'' ∧
    e'.cause = e.cause ∧ Recounted table s₁ s want got e.path e'.path

/-- What is known of a unification that failed: heads that were not in its way
still are not, and it fails again. -/
structure Repeated (table : ClassTable) (s s₁ : Store) (want got : Ty TyVar)
    (e : UnifyError) : Prop where
  heads : headsDiffer s want got = false → headsDiffer s₁ want got = false
  again : ∀ ⦃s' depth⦄, s₁.Shortened s' → (s'.zonk want).height < depth →
    FailsLike table s s₁ want got e s' (unifyWithin table depth want got)

/-- To fail again, it is enough to fail once both types are looked up. -/
theorem Repeated.of_tops {want₂ got₂ : Ty TyVar}
    (heads : headsDiffer s want got = false → headsDiffer s₁ want got = false)
    (hwant : s₁.resolve want = want₂) (hgot : s₁.resolve got = got₂)
    (hagain : ∀ ⦃s' depth⦄, s₁.Shortened s' →
      (s'.zonk want₂).height < depth + 1 →
        FailsLike table s s₁ want got e s'
          (unifyTops table depth want₂ got₂)) :
    Repeated table s s₁ want got e where
  heads := heads
  again s' depth hs' hdepth := by
    obtain ⟨depth, rfl⟩ := Nat.exists_eq_succ_of_ne_zero
      (Nat.ne_zero_of_lt hdepth)
    have wf' := hs'.steady.wellFormed
    have hs'₂ := wf'.shortened_prunedBoth want got
    rw [FailsLike, unifyWithin_run wf', hs'.resolve_eq, hs'.resolve_eq, hwant,
      hgot]
    obtain ⟨e', s'', hrun, hs'', hsame⟩ := hagain (hs'.trans hs'₂) (by
      rw [hs'₂.steady.zonk_eq, ← hwant, ← hs'.resolve_eq, wf'.zonk_resolve]
      exact hdepth)
    exact ⟨e', s'', hrun, hs'₂.trans hs'', hsame⟩

/-- What is known of a unification of applications that failed. -/
structure RepeatedApps (table : ClassTable) (s s₁ : Store)
    (func arg func' arg' : Ty TyVar) (e : UnifyError) : Prop where
  heads : headsDiffer s func func' = false → headsDiffer s₁ func func' = false
  again : ∀ ⦃s' depth⦄, s₁.Shortened s' → (s'.zonk func).height < depth →
    (s'.zonk arg).height < depth →
      FailsLike table s s₁ (.app func arg) (.app func' arg') e s'
        (unifyTops table depth (.app func arg) (.app func' arg'))

theorem RepeatedApps.of_heads (wf : s.WellFormed)
    (hdiffer : headsDiffer s func func' = true) :
    RepeatedApps table s s func arg func' arg'
      ⟨.mismatch (s.zonk (.app func arg)) (s.zonk (.app func' arg')), []⟩ where
  heads h := by
    rw [hdiffer] at h
    contradiction
  again s' depth hs' _ _ := by
    have wf' := hs'.steady.wellFormed
    have hdiffer' : headsDiffer s' func func' = true := by
      rw [headsDiffer_congr wf wf' (hs'.steady.zonk_eq func)
        (hs'.steady.zonk_eq func'), hdiffer]
    refine ⟨_, s', unifyTops_app_run_differ _ _ _ _ _ hdiffer', .refl wf', ?_,
      .here _ _ _⟩
    rw [hs'.steady.zonk_eq, hs'.steady.zonk_eq]

theorem RepeatedApps.of_funcs (wf₁ : s₁.WellFormed)
    (hdiffer : headsDiffer s func func' = false)
    (h : Repeated table s s₁ func func' e) :
    RepeatedApps table s s₁ func arg func' arg' e where
  heads := h.heads
  again s' depth hs' hfunc _ := by
    obtain ⟨e', s'', hrun, hs'', hcause, hpath⟩ := h.again hs' hfunc
    have hdiffer' : headsDiffer s' func func' = false := by
      rw [headsDiffer_congr wf₁ hs'.steady.wellFormed
        (hs'.steady.zonk_eq func) (hs'.steady.zonk_eq func')]
      exact h.heads hdiffer
    refine ⟨e', s'', ?_, hs'', hcause, hpath.inFunc⟩
    rw [unifyTops_app_run _ _ _ _ _ hdiffer', EStateM.run_bind, hrun]

/-- Functions that were made equal are found to be equal.  The position of the
argument is then counted through what their head has been solved to. -/
theorem RepeatedApps.of_args (wf₃ : s₃.WellFormed)
    (hfirst : (unify table func func').run s = .ok () s₃)
    (hafter : s₃.Extends s₁) (hequal : s₃.zonk func = s₃.zonk func')
    (h : Repeated table s₃ s₁ arg arg' e) :
    RepeatedApps table s s₁ func arg func' arg'
      (e.within (s₃.spine func).2.length) where
  heads _ := headsDiffer_of_zonk_eq hafter.wellFormed
    (hafter.zonk_congr hequal)
  again s' depth hs' hfunc harg := by
    have wf' := hs'.steady.wellFormed
    have hequal' : s'.zonk func = s'.zonk func' := by
      rw [hs'.steady.zonk_eq, hs'.steady.zonk_eq, hafter.zonk_congr hequal]
    obtain ⟨s'₃, hrun₃, hs'₃⟩ :=
      unifyWithin_of_zonk_eq table wf' hequal' hfunc
    have hlater := hs'.trans hs'₃
    rw [← hs'₃.steady.zonk_eq] at harg
    obtain ⟨e', s'', hrun, hs'', hcause, hpath⟩ := h.again hlater harg
    have hspine : s'₃.spine func = s₁.spine func :=
      hafter.wellFormed.spine_congr hlater.steady.wellFormed
        hlater.resolve_eq func
    refine ⟨e'.within (s'₃.spine func).2.length, s'', ?_, hs'₃.trans hs'',
      hcause, ?_⟩
    · rw [unifyTops_app_run _ _ _ _ _ (headsDiffer_of_zonk_eq wf' hequal'),
        bind_run_of_ok hrun₃, get_bind_run, within_run_error hrun]
    · rw [hspine]
      exact hpath.inArg wf₃ hfirst hafter

theorem repeated_apps (ordered : table.Ordered) {depth : Nat}
    (hs : Store.Evolves table F s s) (hwant : F.Covers (.app func arg))
    (hgot : F.Covers (.app func' arg'))
    (hdepth : Store.Shallow table F s (.app func arg) (depth + 1))
    (ih : ∀ ⦃s s₁ : Store⦄ ⦃want got : Ty TyVar⦄ ⦃e : UnifyError⦄,
      Store.Evolves table F s s → F.Covers want → F.Covers got →
        Store.Shallow table F s want depth →
          (unifyWithin table depth want got).run s = .error e s₁ →
            Repeated table s s₁ want got e)
    (hrun : (unifyTops table depth (.app func arg) (.app func' arg')).run s =
      .error e s₁) : RepeatedApps table s s₁ func arg func' arg' e := by
  have hfuncs := imposes_unifyWithin ordered depth hs hwant.func hgot.func
    hdepth.func
  cases appsFail_of_run hrun with
  | heads hdiffer => exact .of_heads hs.wellFormed hdiffer
  | func hdiffer hfunc =>
      rw [hfunc] at hfuncs
      exact .of_funcs hfuncs.evolves.wellFormed hdiffer
        (ih hs hwant.func hgot.func hdepth.func hfunc)
  | @arg e s₃ _ hdiffer hfunc harg =>
      rw [hfunc] at hfuncs
      have hs₃ := hfuncs.evolves
      have hargs := imposes_unifyWithin ordered depth hs₃.here hwant.arg
        hgot.arg (hdepth.arg.later hs₃)
      rw [harg] at hargs
      have hrepeated := ih hs₃.here hwant.arg hgot.arg
        (hdepth.arg.later hs₃) harg
      have hfirst := (unify_run_eq ordered hs hwant.func hgot.func
        hdepth.func).trans hfunc
      exact .of_args hs₃.wellFormed hfirst (hargs.evolves.extends ordered)
        (hfuncs.zonk_eq ordered) hrepeated

theorem repeated_unifyWithin (ordered : table.Ordered) (depth : Nat)
    (hs : Store.Evolves table F s s) (hwant : F.Covers want)
    (hgot : F.Covers got) (hdepth : Store.Shallow table F s want depth)
    (hrun : (unifyWithin table depth want got).run s = .error e s₁) :
    Repeated table s s₁ want got e := by
  induction depth generalizing s s₁ want got e with
  | zero => exact absurd (hdepth hs) (Nat.not_lt_zero _)
  | succ depth ih =>
      have wf := hs.wellFormed
      have hshortened := wf.shortened_prunedBoth want got
      have hstay := appsStay_unifyWithin ordered (depth + 1) hs hwant hgot
        hdepth
      have himposes := imposes_unifyWithin ordered (depth + 1) hs hwant hgot
        hdepth
      obtain ⟨hevolves, hwant₂, hgot₂⟩ := hs.prunedBoth hwant hgot
      have hdepth₂ := (hdepth.resolve ordered).later hevolves
      rw [hrun] at hstay himposes
      rw [unifyWithin_run wf] at hrun
      by_cases happs : ∃ func arg func' arg',
          s.resolve want = .app func arg ∧ s.resolve got = .app func' arg'
      · obtain ⟨func, arg, func', arg', hwantTop, hgotTop⟩ := happs
        rw [hwantTop] at hwant₂ hdepth₂
        rw [hgotTop] at hgot₂
        rw [hwantTop, hgotTop] at hrun
        have hrepeated := repeated_apps ordered hevolves.here
          hwant₂.covers hgot₂.covers hdepth₂ (fun _ _ _ _ _ => ih) hrun
        refine .of_tops ?_ (hstay hwantTop) (hstay hgotTop)
          fun s' depth' hs' hdepth' => ?_
        · rw [headsDiffer_of_resolve wf hwantTop hgotTop,
            headsDiffer_of_resolve himposes.evolves.wellFormed
              (hstay hwantTop) (hstay hgotTop),
            ← headsDiffer_congr wf hshortened.steady.wellFormed
              (hshortened.steady.zonk_eq func)
              (hshortened.steady.zonk_eq func')]
          exact hrepeated.heads
        · rw [hs'.steady.wellFormed.zonk_app, Ty.height] at hdepth'
          obtain ⟨e', s'', hrun', hs'', hcause, hpath⟩ :=
            hrepeated.again hs' (by omega : _ < depth') (by omega)
          rw [← hwantTop, ← hgotTop] at hpath
          exact ⟨e', s'', hrun', hs'', hcause, hpath.of_tops wf⟩
      · have hfails (depth' : Nat) := failsAgain_unifyTops ordered depth
          depth' hevolves.here hwant₂ hgot₂
          fun func arg func' arg' hwantTop hgotTop =>
            happs ⟨func, arg, func', arg', hwantTop, hgotTop⟩
        obtain ⟨hs₁, hpath, -⟩ := hfails depth hrun
        have hbefore := hshortened.tightened.trans hs₁
        refine .of_tops ?_ (hbefore.resolve_eq want) (hbefore.resolve_eq got)
          fun s' depth' hs' _ => ?_
        · rw [headsDiffer_congr wf hbefore.steady.wellFormed
            (hbefore.steady.zonk_eq want) (hbefore.steady.zonk_eq got)]
          exact id
        · obtain ⟨s'', hrun', hs''⟩ := (hfails depth' hrun).2.2 hs'
          refine ⟨e, s'', hrun', hs'', rfl, ?_⟩
          rw [hpath]
          exact .here s want got

end

section

variable {table : ClassTable} {s s₁ : Store} {want got : Ty TyVar}

theorem repeated_unify (ordered : table.Ordered) (wf : s.WellFormed)
    (hwant : want.InRange s) (hgot : got.InRange s) {e : UnifyError}
    (hrun : (unify table want got).run s = .error e s₁) :
    Repeated table s s₁ want got e := by
  have hsupports : (Footprint.reach s [want, got]).Supports s :=
    .reach wf (by simpa using ⟨hwant, hgot⟩)
  have hcovers : ∀ t ∈ [want, got], (Footprint.reach s [want, got]).Covers t :=
    fun t => .reach
  exact repeated_unifyWithin ordered _ (.refl wf hsupports)
    (hcovers want (by simp)) (hcovers got (by simp))
    (Store.shallow_unify (hcovers want (by simp))) hrun

end

/-- Whether two calls of unification had the same result: success, or failure
for the same cause and at the same place.  The first call was made in `s` and
left `s'`. -/
def SameOutcome (table : ClassTable) (s s' : Store) (want got : Ty TyVar) :
    Except UnifyError Unit → Except UnifyError Unit → Prop
  | .ok _, .ok _ => True
  | .error e, .error e' =>
      e'.cause = e.cause ∧ Recounted table s' s want got e.path e'.path
  | _, _ => False

namespace TypeState

variable {st st' st'' : TypeState} {want got : Ty TyVar}
  {first second : Except UnifyError Unit}

/-- Unification that is repeated has the same result, and changes neither what
types stand for nor the classes of unsolved variables. -/
theorem unify_repeated (h : st.Arises) (hwant : want.InRange st.store)
    (hgot : got.InRange st.store) (hfirst : st.unify want got = (first, st'))
    (hsecond : st'.unify want got = (second, st'')) :
    SameOutcome st.classes st.store st'.store want got first second ∧
      (∀ t, st''.store.zonk t = st'.store.zonk t) ∧
        (∀ v, st''.store.unsolvedClasses? v = st'.store.unsolvedClasses? v) ∧
          st''.store.size = st'.store.size := by
  obtain ⟨ordered, wf⟩ := h.wellFormed
  have himposes := imposes_unify ordered wf hwant hgot
  suffices hagain :
      SameOutcome st.classes st.store st'.store want got first second ∧
        st'.store.Shortened st''.store from
    ⟨hagain.1, hagain.2.steady.zonk_eq, hagain.2.unsolvedClasses?_eq,
      hagain.2.steady.size_eq⟩
  rw [unify_eq] at hfirst hsecond
  cases hrun : (HindleyMilner.unify st.classes want got).run st.store with
  | ok u s₁ =>
      rw [hrun] at hfirst himposes
      cases hfirst
      have hs₁ := himposes.evolves
      have hequal : s₁.zonk want = s₁.zonk got :=
        hs₁.here.zonk_eq_of_eval_eq ordered fun a ha =>
          ((himposes.satisfied_iff a).1 ha).2
      have hlow := hs₁.wellFormed.height_zonk_lt_depthBound
        (hwant.of_size_le hs₁.size_eq.ge)
      obtain ⟨s₂, hrun₂, hs₂⟩ := unifyWithin_of_zonk_eq st.classes
        hs₁.wellFormed hequal (Nat.lt_of_lt_of_le hlow (Nat.le_max_left _ _))
      rw [withStore, unify_run, hrun₂] at hsecond
      cases hsecond
      exact ⟨trivial, hs₂⟩
  | error e s₁ =>
      have hrepeated := repeated_unify ordered wf hwant hgot hrun
      rw [hrun] at hfirst himposes
      cases hfirst
      have wf₁ := himposes.evolves.wellFormed
      have hlow := wf₁.height_zonk_lt_depthBound
        (hwant.of_size_le himposes.evolves.size_eq.ge)
      obtain ⟨e', s₂, hrun₂, hs₂, hcause, hpath⟩ :=
        hrepeated.again (.refl wf₁)
          (Nat.lt_of_lt_of_le hlow (Nat.le_max_left _ _))
      rw [withStore, unify_run, hrun₂] at hsecond
      cases hsecond
      exact ⟨⟨hcause, hpath⟩, hs₂⟩

/-- A session with a variable that may stand for a constructor. -/
def openSession : TypeState :=
  ⟨.empty, (Store.empty.fresh "f" ∅).2⟩

theorem openSession_arises : openSession.Arises :=
  Reachable.arises (.single (.fresh empty "f" ∅))

/-- `f (f -> ())`, where the head of the application is a variable that stands
again inside of its argument. -/
def headedWant : Ty TyVar :=
  .app (.var ⟨0⟩) (.arrow (.var ⟨0⟩) (.con .unit))

def headedGot : Ty TyVar :=
  .app (.var ⟨0⟩) (.arrow (.app (.con .arrow) (.con .char)) (.con .char))

/-- What keeps the two types apart. -/
def headedCause : UnifyError.Cause :=
  .mismatch (.con .unit) (.con .char)

def headedOnce : TypeState :=
  (openSession.unify headedWant headedGot).2

def headedTwice : TypeState :=
  (headedOnce.unify headedWant headedGot).2

theorem unify_repeated_headed :
    SameOutcome openSession.classes openSession.store headedOnce.store
        headedWant headedGot (.error ⟨headedCause, [0, 1]⟩)
        (.error ⟨headedCause, [1, 1]⟩) ∧
      (∀ t, headedTwice.store.zonk t = headedOnce.store.zonk t) ∧
        (∀ v, headedTwice.store.unsolvedClasses? v =
          headedOnce.store.unsolvedClasses? v) ∧
          headedTwice.store.size = headedOnce.store.size := by
  have hwant : headedWant.InRange openSession.store := by decide
  have hgot : headedGot.InRange openSession.store := by decide
  exact unify_repeated openSession_arises hwant hgot rfl rfl

/-- The place of an error is counted anew where the head of an application has
been solved meanwhile. -/
theorem headed_recounted :
    openSession.Arises ∧ headedWant.InRange openSession.store ∧
      headedGot.InRange openSession.store ∧
        (openSession.unify headedWant headedGot).1 =
            .error ⟨headedCause, [0, 1]⟩ ∧
          (headedOnce.unify headedWant headedGot).1 =
            .error ⟨headedCause, [1, 1]⟩ :=
  ⟨openSession_arises, by decide, by decide, rfl, rfl⟩

end TypeState

end HindleyMilner

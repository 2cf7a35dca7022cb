import HindleyMilner.Proofs.TrailingStores

/-
A unification that failed, made again with second copies of some variables.
Where the first run made types equal before it failed, the second copies catch
up; where it failed, the second run fails for a cause of the same kind and at
the same place.
-/

namespace HindleyMilner

/-- How a unification ends that is made again with second copies after it
failed: for a cause of the same kind and at the same place, or with a conflict
of classes if there is a dispute.  The first call was made in `s` and left
`base`. -/
inductive Refails (table : ClassTable) (base : Store) (disputed : Prop)
    (s : Store) (want got : Ty TyVar) (e : UnifyError) :
    EStateM.Result UnifyError Store Unit → Prop
  | alike {e' : UnifyError} {s' : Store} (hkind : e'.cause.kind = e.cause.kind)
      (hpath : Recounted table base s want got e.path e'.path) :
      Refails table base disputed s want got e (.error e' s')
  | conflict {a b : ClassId} {path : List Nat} {s' : Store} (h : disputed) :
      Refails table base disputed s want got e
        (.error ⟨.unsatisfiable a b, path⟩ s')

section

variable {table : ClassTable} {F : Footprint} {base s s' s₃ : Store}
  {want got want' got' func arg func' arg' : Ty TyVar} {disputed : Prop}
  {twin : TyVar → TyVar} {e : UnifyError}
  {result : EStateM.Result UnifyError Store Unit}

theorem Refails.of_tops (wf : s.WellFormed)
    (h : Refails table base disputed (s.prunedBoth want got) (s.resolve want)
      (s.resolve got) e result) :
    Refails table base disputed s want got e result := by
  cases h with
  | alike hkind hpath => exact .alike hkind (hpath.of_tops wf)
  | conflict hdisputed => exact .conflict hdisputed

theorem Refails.inFunc
    (h : Refails table base disputed s func func' e result) :
    Refails table base disputed s (.app func arg) (.app func' arg') e
      result := by
  cases h with
  | alike hkind hpath => exact .alike hkind hpath.inFunc
  | conflict hdisputed => exact .conflict hdisputed

/-- The position of an argument is counted through what the head has been
solved to when the first run ends. -/
theorem Refails.inArg {x : UnifyM Unit} {pos : Nat}
    (h : Refails table base disputed s₃ arg arg' e (x.run s'))
    (wf : s₃.WellFormed) (hfunc : (unify table func func').run s = .ok () s₃)
    (hafter : s₃.Extends base) (hpos : pos = (base.spine func).2.length) :
    Refails table base disputed s (.app func arg) (.app func' arg')
      (e.within (s₃.spine func).2.length) ((UnifyM.within pos x).run s') := by
  rw [UnifyM.within, EStateM.run_adaptExcept]
  generalize x.run s' = result at h
  cases h with
  | alike hkind hpath =>
      subst hpos
      exact .alike hkind (hpath.inArg wf hfunc hafter)
  | conflict hdisputed => exact .conflict hdisputed

/-- What is known of the types of a unification that is made again. -/
structure Retried (base : Store) (table : ClassTable) (disputed : Prop)
    (twin : TyVar → TyVar) (s s' : Store) (want got want' got' : Ty TyVar) :
    Prop where
  trails : base.Trails table disputed twin s s'
  want_eq : s'.zonk want' = s'.zonk (want.map twin)
  got_eq : s'.zonk got' = s'.zonk (got.map twin)
  anchored : Store.Anchored base s' twin got

theorem Retried.tops
    (h : Retried base table disputed twin s s' want got want' got')
    (wf : s.WellFormed) (hwant : want.InRange s) (hgot : got.InRange s) :
    Retried base table disputed twin (s.prunedBoth want got)
      (s'.prunedBoth want' got') (s.resolve want) (s.resolve got)
      (s'.resolve want') (s'.resolve got') := by
  have wf' := h.trails.partOf.wellFormed
  have hs₃ := wf.shortened_prunedBoth want got
  have hs₃' := wf'.shortened_prunedBoth want' got'
  have hsize := h.trails.later.size_le
  have htop {t t' : Ty TyVar} (ht : t.InRange s)
      (heq : s'.zonk t' = s'.zonk (t.map twin)) :
      s'.zonk (s'.resolve t') = s'.zonk ((s.resolve t).map twin) := by
    rw [wf'.zonk_resolve, heq, h.trails.zonk_map wf (ht.of_size_le hsize),
      h.trails.zonk_map wf ((wf.inRange_resolve ht).of_size_le hsize),
      wf.zonk_resolve]
  refine ⟨h.trails.shortened hs₃ hs₃', ?_, ?_, ?_⟩
  · rw [hs₃'.steady.zonk_eq, hs₃'.steady.zonk_eq]
    exact htop hwant h.want_eq
  · rw [hs₃'.steady.zonk_eq, hs₃'.steady.zonk_eq]
    exact htop hgot h.got_eq
  · exact (h.anchored.resolve h.trails wf (hgot.of_size_le hsize)
      ((wf.inRange_resolve hgot).of_size_le hsize)).shortened hs₃'

/-- A step between two types that are not both applications fails again. -/
theorem Retried.refails_tops {depth : Nat} (depth' : Nat)
    (h : Retried base table disputed twin s s' want got want' got')
    (ordered : table.Ordered) (hs : Store.Evolves table F s s)
    (hwant : Store.Resolved F s want) (hgot : Store.Resolved F s got)
    (hnot : ∀ func arg func' arg', want = .app func arg →
      got ≠ .app func' arg')
    (hwantTop : s'.resolve want' = want') (hgotTop : s'.resolve got' = got')
    (hrun : (unifyTops table depth want got).run s = .error e base) :
    Refails table base disputed s want got e
      ((unifyTops table depth' want' got').run s') := by
  have wf := hs.wellFormed
  obtain ⟨htightened, hpath, -⟩ :=
    failsAgain_unifyTops ordered depth depth hs hwant hgot hnot hrun
  have hsteady := htightened.steady
  have hwantRange := hwant.covers.inRange hs.supports
  have hgotRange := hgot.covers.inRange hs.supports
  have hrange {t t' : Ty TyVar} (ht : t.InRange s)
      (heq : s'.zonk t' = s'.zonk (t.map twin)) : t'.InRange s' :=
    h.trails.behind.inRange_map hsteady.wellFormed
      (ht.of_size_le hsteady.size_eq.ge) heq
  obtain ⟨e', s₂, hrun', hlike⟩ :=
    (h.trails.follows wf hsteady).fails_unifyTops ordered hs.supports hwant
      hgot hnot hwantTop hgotTop (hrange hwantRange h.want_eq)
      (hrange hgotRange h.got_eq)
      (h.trails.zonk_followed wf hsteady hwantRange h.want_eq)
      (h.trails.zonk_followed wf hsteady hgotRange h.got_eq)
      (h.trails.between hsteady) depth' hrun
  have hpath' := hlike.path_eq.trans hpath
  rw [hrun']
  refine .alike hlike.kind_eq ?_
  rw [hpath, hpath']
  exact .here s want got

/-- Whether a unification that goes so deep and fails, fails again when it is
made with second copies and goes as deep as it has to. -/
def RefailsWithin (F : Footprint) (base : Store) (table : ClassTable)
    (disputed : Prop) (twin : TyVar → TyVar) (depth : Nat) : Prop :=
  ∀ ⦃s s' : Store⦄ ⦃want got want' got' : Ty TyVar⦄ ⦃e : UnifyError⦄
    ⦃depth' : Nat⦄, Store.Evolves table F s s → F.Covers want →
      F.Covers got → Store.Shallow table F s want depth →
      (unifyWithin table depth want got).run s = .error e base →
      Retried base table disputed twin s s' want got want' got' →
      (base.zonk want).height < depth' →
        Refails table base disputed s want got e
          ((unifyWithin table depth' want' got').run s')

/-- What is known of two applications whose unification is made again. -/
structure RetriedApps (F : Footprint) (base : Store) (table : ClassTable)
    (disputed : Prop) (twin : TyVar → TyVar) (s s' : Store)
    (func arg func' arg' wantFunc wantArg gotFunc gotArg : Ty TyVar)
    (depth depth' : Nat) : Prop where
  evolves : Store.Evolves table F s s
  want : F.Covers (.app func arg)
  got : F.Covers (.app func' arg')
  shallow : Store.Shallow table F s (.app func arg) (depth + 1)
  lowFunc : (base.zonk func).height < depth'
  lowArg : (base.zonk arg).height < depth'
  trails : base.Trails table disputed twin s s'
  wantFunc_eq : s'.zonk wantFunc = s'.zonk (func.map twin)
  wantArg_eq : s'.zonk wantArg = s'.zonk (arg.map twin)
  gotFunc_eq : s'.zonk gotFunc = s'.zonk (func'.map twin)
  gotArg_eq : s'.zonk gotArg = s'.zonk (arg'.map twin)
  settled : s'.zonk (func'.map twin) = base.zonk func'
  anchored : Store.Anchored base s' twin arg'

section

variable {wantFunc wantArg gotFunc gotArg : Ty TyVar} {depth depth' : Nat}

theorem Retried.apps
    (h : Retried base table disputed twin s s' (.app func arg)
      (.app func' arg') (.app wantFunc wantArg) (.app gotFunc gotArg))
    (wfBase : base.WellFormed) (hs : Store.Evolves table F s s)
    (hwant : F.Covers (.app func arg)) (hgot : F.Covers (.app func' arg'))
    (hdepth : Store.Shallow table F s (.app func arg) (depth + 1))
    (hdepth' : (base.zonk (.app func arg)).height < depth' + 1) :
    RetriedApps F base table disputed twin s s' func arg func' arg' wantFunc
      wantArg gotFunc gotArg depth depth' := by
  have wf' := h.trails.partOf.wellFormed
  have hwantEq := h.want_eq
  have hgotEq := h.got_eq
  rw [Ty.map, wf'.zonk_app, wf'.zonk_app] at hwantEq hgotEq
  obtain ⟨hfunc, harg⟩ := Ty.app.inj hwantEq
  obtain ⟨hfunc', harg'⟩ := Ty.app.inj hgotEq
  obtain ⟨hsettled, hanchored⟩ := h.anchored.of_app wfBase wf'
  rw [wfBase.zonk_app, Ty.height] at hdepth'
  exact ⟨hs, hwant, hgot, hdepth, by omega, by omega, h.trails, hfunc, harg,
    hfunc', harg', hsettled, hanchored⟩

namespace RetriedApps

theorem inRange
    (h : RetriedApps F base table disputed twin s s' func arg func' arg'
      wantFunc wantArg gotFunc gotArg depth depth') {t : Ty TyVar}
    (ht : F.Covers t) : t.InRange base :=
  (ht.inRange h.evolves.supports).of_size_le h.trails.later.size_le

/-- Heads that are told apart are told apart again. -/
theorem refails_heads
    (h : RetriedApps F base table disputed twin s s' func arg func' arg'
      wantFunc wantArg gotFunc gotArg depth depth')
    (hdiffer : headsDiffer s func func' = true) :
    Refails table base disputed s (.app func arg) (.app func' arg')
      ⟨.mismatch (s.zonk (.app func arg)) (s.zonk (.app func' arg')), []⟩
      ((unifyTops table depth' (.app wantFunc wantArg)
        (.app gotFunc gotArg)).run s') := by
  have hdiffer' := h.trails.headsDiffer_of_first h.evolves.wellFormed
    (h.inRange h.want.func) (h.inRange h.got.func) h.wantFunc_eq h.gotFunc_eq
    hdiffer
  rw [unifyTops_app_run_differ _ _ _ _ _ hdiffer']
  exact .alike rfl (.here _ _ _)

/-- What failed in front of the arguments fails there again. -/
theorem refails_func
    (h : RetriedApps F base table disputed twin s s' func arg func' arg'
      wantFunc wantArg gotFunc gotArg depth depth')
    (ih : RefailsWithin F base table disputed twin depth)
    (ordered : table.Ordered) (wfBase : base.WellFormed)
    (hdiffer : headsDiffer s func func' = false)
    (hrun : (unifyWithin table depth func func').run s = .error e base) :
    Refails table base disputed s (.app func arg) (.app func' arg') e
      ((unifyTops table depth' (.app wantFunc wantArg)
        (.app gotFunc gotArg)).run s') := by
  have hsame : headsDiffer base func func' = false :=
    (repeated_unifyWithin ordered depth h.evolves h.want.func h.got.func
      h.shallow.func hrun).heads hdiffer
  have hsame' : headsDiffer s' wantFunc gotFunc = false := by
    by_contra hnot
    rw [Bool.not_eq_false] at hnot
    rw [h.trails.behind.headsDiffer_of_second wfBase (h.inRange h.want.func)
      (h.inRange h.got.func) h.wantFunc_eq h.gotFunc_eq hnot] at hsame
    contradiction
  have hagain := ih h.evolves h.want.func h.got.func h.shallow.func hrun
    ⟨h.trails, h.wantFunc_eq, h.gotFunc_eq, .settled h.settled⟩ h.lowFunc
  rw [unifyTops_app_run _ _ _ _ _ hsame', EStateM.run_bind]
  generalize (unifyWithin table depth' wantFunc gotFunc).run s' = result
    at hagain
  cases hagain with
  | alike hkind hpath => exact (Refails.alike hkind hpath).inFunc
  | conflict hdisputed => exact .conflict hdisputed

/-- What failed in an argument fails there again, after the second copies in
front of it have caught up. -/
theorem refails_arg
    (h : RetriedApps F base table disputed twin s s' func arg func' arg'
      wantFunc wantArg gotFunc gotArg depth depth')
    (ih : RefailsWithin F base table disputed twin depth)
    (ordered : table.Ordered) (wfBase : base.WellFormed)
    (hreduced : base.AllClasses (ClassSet.Reduced table))
    (hfunc : (unifyWithin table depth func func').run s = .ok () s₃)
    (hrun : (unifyWithin table depth arg arg').run s₃ = .error e base) :
    Refails table base disputed s (.app func arg) (.app func' arg')
      (e.within (s₃.spine func).2.length)
      ((unifyTops table depth' (.app wantFunc wantArg)
        (.app gotFunc gotArg)).run s') := by
  have wf := h.evolves.wellFormed
  have hcovers : ∀ t ∈ [func, func'], F.Covers t := by
    simpa using ⟨h.want.func, h.got.func⟩
  have hreached : ∀ t ∈ [func, func'],
      (Footprint.reach s [func, func']).Covers t := fun t => .reach
  have hfuncs := imposes_unifyWithin ordered depth h.evolves h.want.func
    h.got.func h.shallow.func
  have hreach := imposes_unifyWithin ordered depth
    (.refl wf (.reach wf fun t ht =>
      (hcovers t ht).inRange h.evolves.supports))
    (hreached func (by simp)) (hreached func' (by simp))
    (h.shallow.func.reach h.evolves hcovers)
  have hfirst := (unify_run_eq ordered h.evolves h.want.func h.got.func
    h.shallow.func).trans hfunc
  rw [hfunc] at hfuncs hreach
  have hs₃ := hfuncs.evolves
  have hequal : s₃.zonk func = s₃.zonk func' := hfuncs.zonk_eq ordered
  have hargs := imposes_unifyWithin ordered depth hs₃.here h.want.arg
    h.got.arg (h.shallow.arg.later hs₃)
  rw [hrun] at hargs
  have hafter : s₃.Extends base := hargs.evolves.extends ordered
  have hfuncRange := h.inRange h.want.func
  have hgotSettled : s'.zonk gotFunc = base.zonk func := by
    rw [h.gotFunc_eq, h.settled, hafter.zonk_congr hequal]
  have hcaught := h.trails.behind.caught_unifyWithin ordered wfBase hreduced
    hfuncRange h.wantFunc_eq hgotSettled h.lowFunc
  rw [unifyTops_app_run _ _ _ _ _ (h.trails.behind.headsDiffer_eq_false wfBase
    hfuncRange h.wantFunc_eq hgotSettled), EStateM.run_bind]
  generalize (unifyWithin table depth' wantFunc gotFunc).run s' = result
    at hcaught
  cases hcaught with
  | conflict hdisputed => exact .conflict hdisputed
  | ok hcatches hfuncEq =>
      have hlater := hcatches.later
      have hnext := h.trails.step ordered wf hreach.evolves hafter hcatches
        ((hlater.zonk_congr h.wantFunc_eq).symm.trans hfuncEq) h.settled wfBase
      have hagain := ih hs₃.here h.want.arg h.got.arg
        (h.shallow.arg.later hs₃) hrun
        ⟨hnext, hlater.zonk_congr h.wantArg_eq, hlater.zonk_congr h.gotArg_eq,
          h.anchored.later h.trails.behind hcatches wfBase
            (h.inRange h.got.arg)⟩ h.lowArg
      dsimp only
      rw [get_bind_run]
      exact hagain.inArg hs₃.wellFormed hfirst hafter
        (Store.length_spine_of_zonk_eq wfBase hlater.wellFormed hfuncEq)

/-- A step between two applications fails again. -/
theorem refails_apps
    (h : RetriedApps F base table disputed twin s s' func arg func' arg'
      wantFunc wantArg gotFunc gotArg depth depth')
    (ih : RefailsWithin F base table disputed twin depth)
    (ordered : table.Ordered) (wfBase : base.WellFormed)
    (hreduced : base.AllClasses (ClassSet.Reduced table))
    (hrun : (unifyTops table depth (.app func arg) (.app func' arg')).run s =
      .error e base) :
    Refails table base disputed s (.app func arg) (.app func' arg') e
      ((unifyTops table depth' (.app wantFunc wantArg)
        (.app gotFunc gotArg)).run s') := by
  cases appsFail_of_run hrun with
  | heads hdiffer => exact h.refails_heads hdiffer
  | func hdiffer hfunc => exact h.refails_func ih ordered wfBase hdiffer hfunc
  | arg hdiffer hfunc harg =>
      exact h.refails_arg ih ordered wfBase hreduced hfunc harg

end RetriedApps

end

theorem refails_unifyWithin (ordered : table.Ordered) (wfBase : base.WellFormed)
    (hreduced : base.AllClasses (ClassSet.Reduced table)) {depth depth' : Nat}
    (hs : Store.Evolves table F s s) (hwant : F.Covers want)
    (hgot : F.Covers got) (hdepth : Store.Shallow table F s want depth)
    (hrun : (unifyWithin table depth want got).run s = .error e base)
    (h : Retried base table disputed twin s s' want got want' got')
    (hdepth' : (base.zonk want).height < depth') :
    Refails table base disputed s want got e
      ((unifyWithin table depth' want' got').run s') := by
  induction depth generalizing s s' want got want' got' e depth' with
  | zero => exact absurd (hdepth hs) (Nat.not_lt_zero _)
  | succ depth ih =>
      obtain ⟨depth', rfl⟩ := Nat.exists_eq_succ_of_ne_zero
        (Nat.ne_zero_of_lt hdepth')
      have wf := hs.wellFormed
      have wf' := h.trails.partOf.wellFormed
      have hshortened := wf.shortened_prunedBoth want got
      have hshortened' := wf'.shortened_prunedBoth want' got'
      have hstay := appsStay_unifyWithin ordered (depth + 1) hs hwant hgot
        hdepth
      obtain ⟨hevolves, hwant₂, hgot₂⟩ := hs.prunedBoth hwant hgot
      have hdepth₂ := (hdepth.resolve ordered).later hevolves
      have htops := h.tops wf (hwant.inRange hs.supports)
        (hgot.inRange hs.supports)
      rw [hrun] at hstay
      rw [unifyWithin_run wf] at hrun
      rw [unifyWithin_run wf']
      have hresolved (t : Ty TyVar) :
          (s'.prunedBoth want' got').resolve (s'.resolve t) = s'.resolve t := by
        rw [hshortened'.resolve_eq, wf'.resolve_resolve]
      by_cases happs : ∃ func arg func' arg',
          s.resolve want = .app func arg ∧ s.resolve got = .app func' arg'
      · obtain ⟨func, arg, func', arg', hwantTop, hgotTop⟩ := happs
        have hwantEq := htops.want_eq
        have hgotEq := htops.got_eq
        rw [hwantTop] at hwant₂ hdepth₂ hrun
        rw [hgotTop] at hgot₂ hrun
        rw [hwantTop, hgotTop] at htops
        rw [hwantTop, Ty.map,
          htops.trails.partOf.wellFormed.zonk_app] at hwantEq
        rw [hgotTop, Ty.map, htops.trails.partOf.wellFormed.zonk_app] at hgotEq
        obtain ⟨wantFunc, wantArg, hwantTop', -, -⟩ :=
          htops.trails.partOf.wellFormed.resolve_of_zonk_app hwantEq
        obtain ⟨gotFunc, gotArg, hgotTop', -, -⟩ :=
          htops.trails.partOf.wellFormed.resolve_of_zonk_app hgotEq
        rw [hresolved] at hwantTop' hgotTop'
        rw [hwantTop', hgotTop'] at htops ⊢
        have hretried := htops.apps wfBase hevolves.here hwant₂.covers
          hgot₂.covers
          hdepth₂ (by
            rw [wfBase.zonk_app, ← wfBase.zonk_of_resolve_app (hstay hwantTop)]
            exact hdepth')
        have hagain := hretried.refails_apps (fun _ _ _ _ _ _ _ _ => ih) ordered
          wfBase hreduced hrun
        rw [← hwantTop, ← hgotTop] at hagain
        exact hagain.of_tops wf
      · have hnot (func arg func' arg' : Ty TyVar)
            (hwantTop : s.resolve want = .app func arg) :
            s.resolve got ≠ .app func' arg' := fun hgotTop =>
          happs ⟨func, arg, func', arg', hwantTop, hgotTop⟩
        have hagain := htops.refails_tops depth' ordered hevolves.here hwant₂
          hgot₂ hnot (hresolved want') (hresolved got') hrun
        exact hagain.of_tops wf

end

end HindleyMilner

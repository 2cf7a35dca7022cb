import HindleyMilner.Proofs.Lockstep
import HindleyMilner.Proofs.Retrace

/-
Types that are settled.  An application stays the application that it is when
more variables are solved, and types that stand for the same are found to be
equal whenever they are unified, which solves nothing.
-/

namespace HindleyMilner

namespace Store

variable {table : ClassTable} {s s' s'' : Store} {v w : TyVar}
  {t : Ty TyVar} {classes others : ClassSet}

/-! ### Applications that stay -/

/-- Whether types that are applications in a store, once they are looked up,
are the same applications in another. -/
def AppsStay (s s' : Store) : Prop :=
  ∀ ⦃t func arg⦄, s.resolve t = .app func arg → s'.resolve t = .app func arg

theorem AppsStay.refl (s : Store) : s.AppsStay s :=
  fun _ _ _ h => h

theorem AppsStay.trans (h : s.AppsStay s') (h' : s'.AppsStay s'') :
    s.AppsStay s'' :=
  fun _ _ _ ht => h' (h ht)

theorem Shortened.appsStay (h : s.Shortened s') : s.AppsStay s' :=
  fun t _ _ ht => (h.resolve_eq t).trans ht

theorem Tightened.appsStay (h : s.Tightened table s') : s.AppsStay s' :=
  fun t _ _ ht => (h.resolve_eq t).trans ht

/-- Applications stay where their roots keep what they stand for. -/
theorem appsStay_of_root (hv : s.solution? v = none)
    (hroot : ∀ u, s.root u ≠ v → s'.root u = s.root u)
    (hsolution : ∀ u, u ≠ v → s'.solution? u = s.solution? u) :
    s.AppsStay s' := by
  intro t func arg ht
  cases t with
  | con name => exact ht
  | app f a => exact ht
  | var u =>
      have hne : s.root u ≠ v := by
        intro heq
        rw [resolve, rootTy, heq, hv] at ht
        contradiction
      rwa [resolve, rootTy, hroot u hne, hsolution _ hne]

/-- Solving a variable changes no application that is there already. -/
theorem WellFormed.appsStay_solve (wf : s.WellFormed)
    (hv : s.unsolvedClasses? v = some classes) (ht : ∀ w, t ≠ .var w)
    (wf' : (s.setBinding v (.solved t)).WellFormed) :
    s.AppsStay (s.setBinding v (.solved t)) := by
  apply appsStay_of_root (solution?_eq_none_of_unsolved hv)
    fun u _ => wf.root_setBinding_of_ne_var hv ht wf' u
  intro u hne
  rw [solution?_setBinding_solved (lt_size_of_unsolvedClasses? hv),
    if_neg hne]

theorem WellFormed.appsStay_join (wf : s.WellFormed)
    (hv : s.unsolvedClasses? v = some classes)
    (hw : s.unsolvedClasses? w = some others) (hne : v ≠ w)
    (both : ClassSet) : s.AppsStay (s.join v w both) := by
  have hv₁ := unsolvedClasses?_setClasses_of_ne hv hw hne both
  apply appsStay_of_root (solution?_eq_none_of_unsolved hv)
  · intro u hu
    rw [wf.root_join hv hw hne, if_neg hu]
  · intro u hu
    rw [join, solution?_setBinding_solved (lt_size_of_unsolvedClasses? hv₁),
      if_neg hu, solution?_setBinding_unsolved hw]

end Store

/-! ### Heads -/

section

variable {s s' : Store} {want got want' got' func arg func' arg' : Ty TyVar}

/-- Heads are told apart by what the types stand for. -/
theorem headsDiffer_eq_true_iff (wf : s.WellFormed) (want got : Ty TyVar) :
    headsDiffer s want got = true ↔
      ∃ c d, (s.zonk want).spine.1 = .con c ∧ (s.zonk got).spine.1 = .con d ∧
        (c ≠ d ∨
          (s.zonk want).spine.2.length ≠ (s.zonk got).spine.2.length) := by
  rw [headsDiffer, wf.zonk_spine, wf.zonk_spine]
  simp only [List.length_map]
  rcases s.spine want with ⟨head, args⟩
  rcases s.spine got with ⟨gotHead, gotArgs⟩
  cases head <;> cases gotHead <;> simp

/-- Whether heads differ depends only on what the types stand for. -/
theorem headsDiffer_congr (wf : s.WellFormed) (wf' : s'.WellFormed)
    (hwant : s'.zonk want' = s.zonk want) (hgot : s'.zonk got' = s.zonk got) :
    headsDiffer s' want' got' = headsDiffer s want got := by
  rw [Bool.eq_iff_iff, headsDiffer_eq_true_iff wf',
    headsDiffer_eq_true_iff wf, hwant, hgot]

theorem headsDiffer_self (s : Store) (t : Ty TyVar) :
    headsDiffer s t t = false := by
  rw [headsDiffer]
  rcases s.spine t with ⟨head, args⟩
  cases head <;> simp

theorem headsDiffer_of_zonk_eq (wf : s.WellFormed)
    (h : s.zonk want = s.zonk got) : headsDiffer s want got = false :=
  (headsDiffer_congr wf wf h rfl).trans (headsDiffer_self s got)

/-- Applications have the heads of their functions. -/
theorem headsDiffer_app (s : Store) (func arg func' arg' : Ty TyVar) :
    headsDiffer s (.app func arg) (.app func' arg') =
      headsDiffer s func func' := by
  rw [headsDiffer, headsDiffer, Store.spine_app, Store.spine_app]
  rcases s.spine func with ⟨head, args⟩
  rcases s.spine func' with ⟨other, more⟩
  cases head <;> cases other <;> simp

theorem headsDiffer_of_resolve (wf : s.WellFormed)
    (hwant : s.resolve want = .app func arg)
    (hgot : s.resolve got = .app func' arg') :
    headsDiffer s want got = headsDiffer s func func' := by
  rw [← headsDiffer_app s func arg func' arg', ← hwant, ← hgot]
  exact headsDiffer_congr wf wf (wf.zonk_resolve want).symm
    (wf.zonk_resolve got).symm

end

/-! ### Runs -/

section

variable {table : ClassTable} {s s' : Store} {want got : Ty TyVar}

/-- The store after both types of a unification were looked up. -/
def Store.prunedBoth (s : Store) (want got : Ty TyVar) : Store :=
  ((s.prune want).2.prune got).2

theorem Store.WellFormed.shortened_prunedBoth (wf : s.WellFormed)
    (want got : Ty TyVar) : s.Shortened (s.prunedBoth want got) :=
  have hfirst := wf.shortened_prune want
  hfirst.trans (hfirst.steady.wellFormed.shortened_prune got)

/-- One level of unification looks both types up and compares their tops. -/
theorem unifyWithin_run (wf : s.WellFormed) (table : ClassTable)
    (depth : Nat) (want got : Ty TyVar) :
    (unifyWithin table (depth + 1) want got).run s =
      (unifyTops table depth (s.resolve want) (s.resolve got)).run
        (s.prunedBoth want got) := by
  rw [unifyWithin_succ, bind_run_of_ok (UnifyM.prune_run wf want),
    bind_run_of_ok
      (UnifyM.prune_run (wf.shortened_prune want).steady.wellFormed got),
    (wf.shortened_prune want).resolve_eq]
  rfl

theorem Store.Evolves.prunedBoth {table : ClassTable} {F : Footprint}
    (hs : Store.Evolves table F s s) (hwant : F.Covers want)
    (hgot : F.Covers got) :
    Store.Evolves table F s (s.prunedBoth want got) ∧
      Store.Resolved F (s.prunedBoth want got) (s.resolve want) ∧
        Store.Resolved F (s.prunedBoth want got) (s.resolve got) := by
  have hs₁ := hs.pruned hwant
  have hs₂ := hs₁.evolves.here.pruned hgot
  refine ⟨hs₁.evolves.trans hs₂.evolves,
    hs₁.resolved.later hs₂.unsolvedClasses?_eq, ?_⟩
  rw [← (hs.wellFormed.shortened_prune want).resolve_eq]
  exact hs₂.resolved

theorem unifyTops_app_run_differ (depth : Nat)
    (wantFunc wantArg gotFunc gotArg : Ty TyVar)
    (h : headsDiffer s wantFunc gotFunc = true) :
    (unifyTops table depth (.app wantFunc wantArg)
        (.app gotFunc gotArg)).run s =
      .error ⟨.mismatch (s.zonk (.app wantFunc wantArg))
        (s.zonk (.app gotFunc gotArg)), []⟩ s := by
  rw [unifyTops, get_bind_run, headsDiffer_app, h]
  rfl

theorem unifyTops_app_run (depth : Nat)
    (wantFunc wantArg gotFunc gotArg : Ty TyVar)
    (h : headsDiffer s wantFunc gotFunc = false) :
    (unifyTops table depth (.app wantFunc wantArg)
        (.app gotFunc gotArg)).run s =
      (unifyWithin table depth wantFunc gotFunc >>= fun _ =>
        get >>= fun s => UnifyM.within (s.spine wantFunc).2.length
          (unifyWithin table depth wantArg gotArg)).run s := by
  rw [unifyTops, get_bind_run, headsDiffer_app, h]
  rfl

theorem unify_run (table : ClassTable) (s : Store) (want got : Ty TyVar) :
    (unify table want got).run s =
      (unifyWithin table (max (s.depthBound want) (s.depthBound got)) want
        got).run s :=
  rfl

theorem within_run_error {x : UnifyM Unit} {pos : Nat} {e : UnifyError}
    (h : x.run s = .error e s') :
    (UnifyM.within pos x).run s = .error (e.within pos) s' := by
  rw [UnifyM.within, EStateM.run_adaptExcept, h]

/-- Where two applications turn out not to be equal: their heads differ, or
their functions cannot be made equal, or their arguments cannot be made equal
after that. -/
inductive AppsFail (table : ClassTable) (depth : Nat) (s : Store)
    (func arg func' arg' : Ty TyVar) : UnifyError → Store → Prop
  | heads (hdiffer : headsDiffer s func func' = true) :
      AppsFail table depth s func arg func' arg'
        ⟨.mismatch (s.zonk (.app func arg)) (s.zonk (.app func' arg')), []⟩ s
  | func {e : UnifyError} {s' : Store}
      (hdiffer : headsDiffer s func func' = false)
      (hfunc : (unifyWithin table depth func func').run s = .error e s') :
      AppsFail table depth s func arg func' arg' e s'
  | arg {e : UnifyError} {s₃ s' : Store}
      (hdiffer : headsDiffer s func func' = false)
      (hfunc : (unifyWithin table depth func func').run s = .ok () s₃)
      (harg : (unifyWithin table depth arg arg').run s₃ = .error e s') :
      AppsFail table depth s func arg func' arg'
        (e.within (s₃.spine func).2.length) s'

/-- Two applications fail in one of three ways, and the third one is met in the
store that their functions left. -/
theorem appsFail_of_run {func arg func' arg' : Ty TyVar} {e : UnifyError}
    {depth : Nat}
    (hrun : (unifyTops table depth (.app func arg) (.app func' arg')).run s =
      .error e s') : AppsFail table depth s func arg func' arg' e s' := by
  cases hdiffer : headsDiffer s func func' with
  | true =>
      rw [unifyTops_app_run_differ _ _ _ _ _ hdiffer] at hrun
      cases hrun
      exact .heads hdiffer
  | false =>
      rw [unifyTops_app_run _ _ _ _ _ hdiffer] at hrun
      cases hfunc : (unifyWithin table depth func func').run s with
      | error e₀ s₀ =>
          rw [EStateM.run_bind, hfunc] at hrun
          cases hrun
          exact .func hdiffer hfunc
      | ok u s₃ =>
          rw [bind_run_of_ok hfunc, get_bind_run] at hrun
          cases harg : (unifyWithin table depth arg arg').run s₃ with
          | ok u s₀ =>
              rw [UnifyM.within, EStateM.run_adaptExcept, harg] at hrun
              contradiction
          | error e₀ s₀ =>
              rw [within_run_error harg] at hrun
              cases hrun
              exact .arg hdiffer hfunc harg

/-- Types that stand for the same are found to be equal, and nothing but the
lengths of chains changes. -/
theorem unifyWithin_of_zonk_eq (table : ClassTable) (wf : s.WellFormed)
    {depth : Nat} (h : s.zonk want = s.zonk got)
    (hdepth : (s.zonk want).height < depth) :
    ∃ s', (unifyWithin table depth want got).run s = .ok () s' ∧
      s.Shortened s' := by
  induction depth generalizing s want got with
  | zero => exact absurd hdepth (Nat.not_lt_zero _)
  | succ depth ih =>
      have hs₂ := wf.shortened_prunedBoth want got
      have wf₂ := hs₂.steady.wellFormed
      rw [unifyWithin_run wf]
      cases hwant : s.resolve want with
      | var v =>
          rw [wf.zonk_of_resolve_var hwant] at h
          rw [wf.resolve_of_zonk_var h.symm]
          exact ⟨_, by simp only [unifyTops, if_true]; rfl, hs₂⟩
      | con c =>
          rw [wf.zonk_of_resolve_con hwant] at h
          rw [wf.resolve_of_zonk_con h.symm]
          exact ⟨_, by simp only [unifyTops, if_true]; rfl, hs₂⟩
      | app func arg =>
          rw [wf.zonk_of_resolve_app hwant] at h hdepth
          rw [Ty.height] at hdepth
          obtain ⟨func', arg', hgot, hfunc, harg⟩ :=
            wf.resolve_of_zonk_app h.symm
          have hfunc₂ : (s.prunedBoth want got).zonk func =
              (s.prunedBoth want got).zonk func' := by
            rw [hs₂.steady.zonk_eq, hs₂.steady.zonk_eq, hfunc]
          obtain ⟨s₃, hrun₃, hs₃⟩ := ih wf₂ hfunc₂ (by
            rw [hs₂.steady.zonk_eq]
            omega)
          have hs₃' := hs₂.trans hs₃
          have harg₃ : s₃.zonk arg = s₃.zonk arg' := by
            rw [hs₃'.steady.zonk_eq, hs₃'.steady.zonk_eq, harg]
          obtain ⟨s₄, hrun₄, hs₄⟩ := ih hs₃.steady.wellFormed harg₃ (by
            rw [hs₃'.steady.zonk_eq]
            omega)
          refine ⟨s₄, ?_, hs₃'.trans hs₄⟩
          rw [hgot, unifyTops_app_run _ _ _ _ _
            (headsDiffer_of_zonk_eq wf₂ hfunc₂), bind_run_of_ok hrun₃]
          rw [get_bind_run, UnifyM.within, EStateM.run_adaptExcept,
            hrun₄]

variable {F : Footprint} {v w : TyVar} {t : Ty TyVar}
  {classes others : ClassSet}

theorem finalState_within (pos : Nat) (x : UnifyM Unit) (s : Store) :
    finalState ((UnifyM.within pos x).run s) = finalState (x.run s) := by
  rw [UnifyM.within, EStateM.run_adaptExcept]
  cases x.run s <;> rfl

theorem appsStay_joinVars (wf : s.WellFormed)
    (hv : s.unsolvedClasses? v = some classes)
    (hw : s.unsolvedClasses? w = some others) (hne : v ≠ w) :
    s.AppsStay (finalState ((joinVars table v w).run s)) := by
  rw [joinVars_run table hv hw hne, Store.joined]
  cases table.conflict? (classes.union table others) with
  | some pair => exact .refl s
  | none => exact wf.appsStay_join hv hw hne _

theorem appsStay_solveVar (ordered : table.Ordered)
    (hs : Store.Evolves table F s s) (hv : F.vars v) (ht : F.Covers t)
    (hvar : ∀ w, t ≠ .var w) (h : s.unsolvedClasses? v = some classes) :
    s.AppsStay (finalState ((solveVar table v t).run s)) := by
  have himposes := imposes_solveVar ordered hs hv ht hvar h
  have hs₁ := tightens_requireAll ordered hs.wellFormed v t classes.members
  rw [solveVar_run ordered hs.wellFormed h] at himposes ⊢
  split at himposes
  · rename_i hoccurs
    rw [if_pos hoccurs]
    exact .refl s
  · rename_i hoccurs
    rw [if_neg hoccurs]
    cases hrun : (classes.members.forM fun c => require table v c t).run s with
    | error e s₁ =>
        rw [hrun] at hs₁
        exact hs₁.appsStay
    | ok u s₁ =>
        rw [hrun] at hs₁ himposes
        obtain ⟨others, hothers, -⟩ := hs₁.implied h
        exact hs₁.appsStay.trans (hs₁.steady.wellFormed.appsStay_solve hothers
          hvar himposes.evolves.wellFormed)

/-- How deep unification may go makes no difference, as long as it goes deep
enough. -/
theorem unifyWithin_run_eq (ordered : table.Ordered) {depth depth' : Nat}
    (hs : Store.Evolves table F s s) (hwant : F.Covers want)
    (hgot : F.Covers got) (hdepth : Store.Shallow table F s want depth)
    (hdepth' : Store.Shallow table F s want depth') :
    (unifyWithin table depth' want got).run s =
      (unifyWithin table depth want got).run s := by
  induction depth generalizing s want got depth' with
  | zero => exact absurd (hdepth hs) (Nat.not_lt_zero _)
  | succ depth ih =>
      obtain ⟨depth', rfl⟩ := Nat.exists_eq_succ_of_ne_zero
        (Nat.ne_zero_of_lt (hdepth' hs))
      obtain ⟨hevolves, hwant₂, hgot₂⟩ := hs.prunedBoth hwant hgot
      have hs₂ := hevolves.here
      have hlow := (hdepth.resolve ordered).later hevolves
      have hlow' := (hdepth'.resolve ordered).later hevolves
      rw [unifyWithin_run hs.wellFormed, unifyWithin_run hs.wellFormed]
      generalize s.prunedBoth want got = s₂ at *
      generalize s.resolve want = want₂ at *
      generalize s.resolve got = got₂ at *
      by_cases happs : ∃ func arg func' arg',
          want₂ = .app func arg ∧ got₂ = .app func' arg'
      · obtain ⟨func, arg, func', arg', rfl, rfl⟩ := happs
        have hfuncs := ih hs₂ hwant₂.covers.func hgot₂.covers.func hlow.func
          hlow'.func
        cases hdiffer : headsDiffer s₂ func func' with
        | true =>
            rw [unifyTops_app_run_differ _ _ _ _ _ hdiffer,
              unifyTops_app_run_differ _ _ _ _ _ hdiffer]
        | false =>
            rw [unifyTops_app_run _ _ _ _ _ hdiffer,
              unifyTops_app_run _ _ _ _ _ hdiffer, EStateM.run_bind,
              EStateM.run_bind, hfuncs]
            have himposes := imposes_unifyWithin ordered depth hs₂
              hwant₂.covers.func hgot₂.covers.func hlow.func
            cases hrun : (unifyWithin table depth func func').run s₂ with
            | error e s₃ => rfl
            | ok u s₃ =>
                rw [hrun] at himposes
                have hs₃ := himposes.evolves
                have hargs := ih hs₃.here hwant₂.covers.arg hgot₂.covers.arg
                  (hlow.arg.later hs₃) (hlow'.arg.later hs₃)
                dsimp only
                rw [get_bind_run, get_bind_run, UnifyM.within, UnifyM.within,
                  EStateM.run_adaptExcept, EStateM.run_adaptExcept, hargs]
      · rw [unifyTops.eq_def, unifyTops.eq_def]
        split <;> first | rfl | exact absurd ⟨_, _, _, _, rfl, rfl⟩ happs

/-- Unification of parts is unification. -/
theorem unify_run_eq (ordered : table.Ordered) {depth : Nat}
    (hs : Store.Evolves table F s s) (hwant : F.Covers want)
    (hgot : F.Covers got) (hdepth : Store.Shallow table F s want depth) :
    (unify table want got).run s =
      (unifyWithin table depth want got).run s := by
  have hcovers : ∀ t ∈ [want, got], F.Covers t := by simpa using ⟨hwant, hgot⟩
  have hreached : ∀ t ∈ [want, got],
      (Footprint.reach s [want, got]).Covers t := fun t => .reach
  have hsupports : (Footprint.reach s [want, got]).Supports s :=
    .reach hs.wellFormed fun t ht => (hcovers t ht).inRange hs.supports
  exact unifyWithin_run_eq ordered (.refl hs.wellFormed hsupports)
    (hreached want (by simp)) (hreached got (by simp))
    (hdepth.reach hs hcovers) (Store.shallow_unify (hreached want (by simp)))

/-- What is an application stays that application. -/
theorem appsStay_unifyWithin (ordered : table.Ordered) (depth : Nat)
    (hs : Store.Evolves table F s s) (hwant : F.Covers want)
    (hgot : F.Covers got) (hdepth : Store.Shallow table F s want depth) :
    s.AppsStay (finalState ((unifyWithin table depth want got).run s)) := by
  induction depth generalizing s want got with
  | zero => exact absurd (hdepth hs) (Nat.not_lt_zero _)
  | succ depth ih =>
      obtain ⟨hevolves, hwant₂, hgot₂⟩ := hs.prunedBoth hwant hgot
      have hs₂ := hevolves.here
      have hdepth₂ := (hdepth.resolve ordered).later hevolves
      have hshortened := hs.wellFormed.shortened_prunedBoth want got
      refine hshortened.appsStay.trans ?_
      rw [unifyWithin_run hs.wellFormed]
      generalize s.prunedBoth want got = s₂ at *
      generalize s.resolve want = want₂ at *
      generalize s.resolve got = got₂ at *
      rw [unifyTops.eq_def]
      split
      · obtain ⟨-, classes, hclasses⟩ := hwant₂.unsolved rfl
        obtain ⟨-, others, hothers⟩ := hgot₂.unsolved rfl
        split
        · exact .refl s₂
        · rename_i hne
          exact appsStay_joinVars hs₂.wellFormed hclasses hothers hne
      · rename_i hvar
        obtain ⟨hv, classes, hclasses⟩ := hwant₂.unsolved rfl
        exact appsStay_solveVar ordered hs₂ hv hgot₂.covers hvar hclasses
      · rename_i hvar
        obtain ⟨hv, classes, hclasses⟩ := hgot₂.unsolved rfl
        exact appsStay_solveVar ordered hs₂ hv hwant₂.covers hvar hclasses
      · split <;> exact .refl s₂
      · rename_i wantFunc wantArg gotFunc gotArg
        rw [get_bind_run]
        split
        · exact .refl s₂
        · have himposes := imposes_unifyWithin ordered depth hs₂
            hwant₂.covers.func hgot₂.covers.func hdepth₂.func
          have hfunc := ih hs₂ hwant₂.covers.func hgot₂.covers.func
            hdepth₂.func
          rw [EStateM.run_bind]
          cases hrun : (unifyWithin table depth wantFunc gotFunc).run s₂ with
          | error e s₃ =>
              rw [hrun] at hfunc
              exact hfunc
          | ok u s₃ =>
              rw [hrun] at hfunc himposes
              have hs₃ := himposes.evolves
              have harg := ih hs₃.here hwant₂.covers.arg hgot₂.covers.arg
                (hdepth₂.arg.later hs₃)
              dsimp only
              rw [get_bind_run, finalState_within]
              exact hfunc.trans harg
      · exact .refl s₂

end

end HindleyMilner

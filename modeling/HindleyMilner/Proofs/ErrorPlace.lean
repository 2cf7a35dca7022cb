import HindleyMilner.Proofs.Repetition
import HindleyMilner.Proofs.Reports

/-
Where unification fails.  An error carries the positions of arguments that lead
to its place.  They are counted from the left of the whole type, while
unification splits a type at its last argument, so a position is the number of
arguments to the left of it.  As long as constructors are at the heads of all
applications, which solving variables does not change, these numbers are the
same from beginning to end, and the positions lead to the pieces in both types
that are named as the cause.
-/

namespace HindleyMilner

/-- Types with constructors at their heads are told apart unless they have the
same head. -/
theorem headsDiffer_eq_false_iff {s : Store} {want got : Ty TyVar}
    (wf : s.WellFormed) (hwant : (s.zonk want).HasConHead)
    (hgot : (s.zonk got).HasConHead) :
    headsDiffer s want got = false ↔
      Ty.SameHead (s.zonk want) (s.zonk got) := by
  obtain ⟨c, hc⟩ := hwant
  obtain ⟨d, hd⟩ := hgot
  rw [← Bool.not_eq_true, headsDiffer_eq_true_iff wf, Ty.SameHead]
  simp only [hc, hd, Ty.con.injEq]
  constructor
  · intro hnot
    by_contra hdiffer
    exact hnot ⟨c, d, rfl, rfl, not_and_or.1 fun hsame =>
      hdiffer ⟨c, rfl, hsame.1.symm, hsame.2⟩⟩
  · rintro ⟨con, rfl, rfl, hlength⟩ ⟨_, _, rfl, rfl, hdiffer⟩
    exact hdiffer.elim (· rfl) (· hlength)

/-! ### Places of errors -/

/-- Whether the cause of an error is that two pieces of types cannot be made
equal. -/
def UnifyError.Cause.About (s : Store) (want got : Ty TyVar) :
    UnifyError.Cause → Prop
  | .mismatch t u => s.zonk t = want ∧ s.zonk u = got
  | .circularity v t => v ∈ (s.zonk t).vars ∧
      (want = .var v ∧ got = s.zonk t ∨ got = .var v ∧ want = s.zonk t)
  | .constraint v _ t =>
      want = .var v ∧ got.Contains t ∨ got = .var v ∧ want.Contains t
  | .unsatisfiable _ _ => True
  | .fault _ => False

/-- Whether the path of an error leads, in both types, to pieces that the error
is about. -/
def UnifyError.Locates (e : UnifyError) (s : Store) (want got : Ty TyVar) :
    Prop :=
  ∃ wantPiece gotPiece, (s.zonk want).piece? e.path = some wantPiece ∧
    (s.zonk got).piece? e.path = some gotPiece ∧
      e.cause.About s wantPiece gotPiece

/-- Whether constructors stay at the heads of applications. -/
def Store.HeadsStay (s s' : Store) : Prop :=
  ∀ ⦃t⦄, (s.zonk t).ConHeaded → (s'.zonk t).ConHeaded

/-- What comes of making two types equal that have constructors at the heads of
all applications: these stay, or there is an error that is located in the types,
and inside of them if they have the same head. -/
def Localized (s : Store) (want got : Ty TyVar) :
    EStateM.Result UnifyError Store Unit → Prop
  | .ok _ s' => s.HeadsStay s'
  | .error e s' => e.Locates s' want got ∧
      (Ty.SameHead (s.zonk want) (s.zonk got) → e.path ≠ [])

namespace Store

variable {table : ClassTable} {s s' s'' : Store} {v w : TyVar} {t : Ty TyVar}
  {classes others : ClassSet}

theorem HeadsStay.trans (h : s.HeadsStay s') (h' : s'.HeadsStay s'') :
    s.HeadsStay s'' :=
  fun _ ht => h' (h ht)

theorem Steady.headsStay (h : s.Steady s') : s.HeadsStay s' := by
  intro t ht
  rwa [h.zonk_eq]

/-- It is enough that nothing else is put in for unsolved variables. -/
theorem Extends.headsStay (wf : s.WellFormed) (h : s.Extends s')
    (hvars : ∀ v, s.solution? v = none → (s'.zonk (.var v)).ConHeaded) :
    s.HeadsStay s' := by
  intro t ht
  rw [← h.bind_zonk t]
  exact ht.bind fun v hv => hvars v (wf.solution?_of_mem_zonk hv)

theorem WellFormed.headsStay_solve (wf : s.WellFormed)
    (hv : s.unsolvedClasses? v = some classes) (ht : t.InRange s)
    (hoccurs : v ∉ (s.zonk t).vars) (hheads : (s.zonk t).ConHeaded) :
    s.HeadsStay (s.setBinding v (.solved t)) := by
  have hextends := wf.extends_solve hv ht hoccurs
  apply hextends.headsStay wf
  intro u hu
  by_cases heq : u = v
  · rw [heq, wf.zonk_setBinding_solved hv hextends hoccurs]
    exact hheads
  · rw [hextends.wellFormed.zonk_var_unsolved]
    · trivial
    · rw [solution?_setBinding_solved (lt_size_of_unsolvedClasses? hv),
        if_neg heq]
      exact hu

theorem WellFormed.headsStay_join (wf : s.WellFormed)
    (hv : s.unsolvedClasses? v = some classes)
    (hw : s.unsolvedClasses? w = some others) (hne : v ≠ w)
    (both : ClassSet) : s.HeadsStay (s.join v w both) := by
  have hsteady := wf.steady_setClasses hw both
  have hw₁ : (s.setBinding w (.unsolved both)).zonk (.var w) = .var w := by
    rw [hsteady.zonk_eq]
    exact wf.zonk_var_unsolved (solution?_eq_none_of_unsolved hw)
  refine hsteady.headsStay.trans (hsteady.wellFormed.headsStay_solve
    (unsolvedClasses?_setClasses_of_ne hv hw hne both) ?_ ?_ ?_)
  · intro u hu
    rw [Ty.mem_vars_var.1 hu, size_setBinding]
    exact lt_size_of_unsolvedClasses? hw
  · rwa [hw₁, Ty.mem_vars_var]
  · rw [hw₁]
    trivial

end Store

section

variable {table : ClassTable} {F : Footprint} {s s' s₃ : Store}
  {want got func arg func' arg' : Ty TyVar} {v w : TyVar} {t : Ty TyVar}
  {classes others : ClassSet} {e : UnifyError}

theorem Localized.skip : Localized s want got (.ok () s) :=
  fun _ => id

theorem Localized.mismatch
    (hnot : ¬ Ty.SameHead (s.zonk want) (s.zonk got)) :
    Localized s want got (.error ⟨.mismatch want got, []⟩ s) :=
  ⟨⟨_, _, rfl, rfl, rfl, rfl⟩, fun hsame => absurd hsame hnot⟩

/-- What is known of the errors of solving a variable to a type is said of
both orders of the two, since either may be wanted. -/
theorem localized_solveVar (ordered : table.Ordered)
    (hs : Store.Evolves table F s s) (hv : F.vars v) (ht : F.Covers t)
    (hvar : ∀ w, t ≠ .var w) (h : s.unsolvedClasses? v = some classes)
    (hheads : (s.zonk t).ConHeaded) :
    Localized s (.var v) t ((solveVar table v t).run s) ∧
      Localized s t (.var v) ((solveVar table v t).run s) := by
  have wf := hs.wellFormed
  have hrange := ht.inRange hs.supports
  have hzonk : s.zonk (.var v) = .var v :=
    wf.zonk_var_unsolved (Store.solution?_eq_none_of_unsolved h)
  have hnot : ¬ Ty.SameHead (s.zonk (.var v)) (s.zonk t) := by
    rw [hzonk]
    exact Ty.not_sameHead_var v _
  have hfailed {e s'} (hs' : s.Steady s') (hpath : e.path = [])
      (habout : e.cause.About s' (.var v) (s.zonk t) ∧
        e.cause.About s' (s.zonk t) (.var v)) :
      Localized s (.var v) t (.error e s') ∧
        Localized s t (.var v) (.error e s') := by
    rw [← hzonk, ← hs'.zonk_eq, ← hs'.zonk_eq] at habout
    refine ⟨⟨⟨_, _, ?_, ?_, habout.1⟩, fun hsame => absurd hsame hnot⟩,
      ⟨⟨_, _, ?_, ?_, habout.2⟩, fun hsame => absurd hsame.symm hnot⟩⟩ <;>
      rw [hpath, Ty.piece?]
  have himposes := imposes_solveVar ordered hs hv ht hvar h
  have htightened := tightens_requireAll ordered wf v t classes.members
  rw [solveVar_run ordered wf h] at himposes ⊢
  split
  · rename_i hoccurs
    have hmem := Store.occurs_eq_true_iff.1 hoccurs
    exact hfailed (.refl wf) rfl
      ⟨⟨hmem, Or.inl ⟨rfl, rfl⟩⟩, hmem, Or.inr ⟨rfl, rfl⟩⟩
  · rename_i hoccurs
    rw [if_neg hoccurs] at himposes
    cases hrun : (classes.members.forM fun c => require table v c t).run s with
    | ok u s₁ =>
        rw [hrun] at htightened
        have hsteady : s.Steady s₁ := htightened.steady
        obtain ⟨others, hothers, -⟩ := htightened.implied h
        have hstay := hsteady.headsStay.trans
          (hsteady.wellFormed.headsStay_solve hothers
            (hrange.of_size_le hsteady.size_eq.ge)
            (by rwa [hsteady.zonk_eq, ← Store.occurs_eq_true_iff])
            (by rwa [hsteady.zonk_eq]))
        exact ⟨hstay, hstay⟩
    | error e s₁ =>
        rw [hrun] at htightened himposes
        obtain ⟨hpath, hcause⟩ :=
          reports_requireAll ordered wf v (wf.zonk_ne_var hvar)
            classes.members (.refl wf) hrun
        apply hfailed htightened.steady hpath
        rcases e with ⟨cause, path⟩
        cases cause with
        | constraint w c part =>
            obtain ⟨rfl, hpart, -⟩ := hcause
            exact ⟨Or.inl ⟨rfl, hpart⟩, Or.inr ⟨rfl, hpart⟩⟩
        | unsatisfiable a b => exact ⟨trivial, trivial⟩
        | fault fault => exact absurd rfl (himposes.not_fault fault)
        | mismatch t u => exact hcause.elim
        | circularity w u => exact hcause.elim

theorem localized_joinVars (wf : s.WellFormed)
    (hv : s.unsolvedClasses? v = some classes)
    (hw : s.unsolvedClasses? w = some others) (hne : v ≠ w) :
    Localized s (.var v) (.var w) ((joinVars table v w).run s) := by
  rw [joinVars_run table hv hw hne, Store.joined]
  cases table.conflict? (classes.union table others) with
  | none => exact wf.headsStay_join hv hw hne _
  | some pair =>
      refine ⟨⟨_, _, rfl, rfl, trivial⟩, fun hsame => ?_⟩
      rw [wf.zonk_var_unsolved (Store.solution?_eq_none_of_unsolved hv)]
        at hsame
      exact absurd hsame (Ty.not_sameHead_var v _)

/-- A step of unification between two types that are not both applications. -/
theorem localized_unifyTops (ordered : table.Ordered) (depth : Nat)
    (hs : Store.Evolves table F s s) (hwant : Store.Resolved F s want)
    (hgot : Store.Resolved F s got)
    (hwantHeads : (s.zonk want).ConHeaded) (hgotHeads : (s.zonk got).ConHeaded)
    (hnot : ∀ func arg func' arg', want = .app func arg →
      got ≠ .app func' arg') :
    Localized s want got ((unifyTops table depth want got).run s) := by
  have wf := hs.wellFormed
  cases want with
  | var v =>
      obtain ⟨hv, classes, hclasses⟩ := hwant.unsolved rfl
      cases got with
      | var w =>
          obtain ⟨-, others, hothers⟩ := hgot.unsolved rfl
          simp only [unifyTops]
          split
          · exact .skip
          · rename_i hne
            exact localized_joinVars wf hclasses hothers hne
      | con d =>
          exact (localized_solveVar ordered hs hv hgot.covers (by simp)
            hclasses hgotHeads).1
      | app func arg =>
          exact (localized_solveVar ordered hs hv hgot.covers (by simp)
            hclasses hgotHeads).1
  | con c =>
      cases got with
      | var w =>
          obtain ⟨hw, others, hothers⟩ := hgot.unsolved rfl
          exact (localized_solveVar ordered hs hw hwant.covers (by simp)
            hothers hwantHeads).2
      | con d =>
          simp only [unifyTops]
          split
          · exact .skip
          · rename_i hne
            refine .mismatch ?_
            rw [wf.zonk_con, wf.zonk_con]
            exact Ty.not_sameHead_con hne
      | app func arg =>
          refine .mismatch ?_
          rw [wf.zonk_con, wf.zonk_app]
          exact Ty.not_sameHead_con_app c _ _
  | app func arg =>
      cases got with
      | var w =>
          obtain ⟨hw, others, hothers⟩ := hgot.unsolved rfl
          exact (localized_solveVar ordered hs hw hwant.covers (by simp)
            hothers hwantHeads).2
      | con d =>
          refine .mismatch ?_
          rw [wf.zonk_con, wf.zonk_app]
          exact fun hsame => Ty.not_sameHead_con_app d _ _ hsame.symm
      | app func' arg' => exact absurd rfl (hnot func arg func' arg' rfl)

/-- An error on the side of the functions is inside of them, so its path leads
to the same pieces of the applications. -/
theorem Localized.of_funcs (wf' : s'.WellFormed)
    (hsame : Ty.SameHead (s.zonk func) (s.zonk func'))
    (h : Localized s func func' (.error e s')) :
    Localized s (.app func arg) (.app func' arg') (.error e s') := by
  obtain ⟨⟨wantPiece, gotPiece, hwant, hgot, habout⟩, hinside⟩ := h
  have hne := hinside hsame
  refine ⟨⟨wantPiece, gotPiece, ?_, ?_, habout⟩, fun _ => hne⟩
  · rw [wf'.zonk_app]
    exact Ty.piece?_app_func hne hwant
  · rw [wf'.zonk_app]
    exact Ty.piece?_app_func hne hgot

/-- An error on the side of the arguments is in the argument after those of the
function, as they were when the functions had been made equal. -/
theorem Localized.of_args (wf₃ : s₃.WellFormed) (hextends : s₃.Extends s')
    (hequal : s₃.zonk func = s₃.zonk func') (hhead : (s₃.zonk func).HasConHead)
    (h : Localized s₃ arg arg' (.error e s')) :
    Localized s (.app func arg) (.app func' arg')
      (.error (e.within (s₃.spine func).2.length) s') := by
  obtain ⟨⟨wantPiece, gotPiece, hwant, hgot, habout⟩, -⟩ := h
  have wf' := hextends.wellFormed
  -- The head is no variable that could be solved to an application.
  have hlength : (s₃.spine func).2.length =
      (s'.zonk func).spine.2.length := by
    rw [← hextends.bind_zonk func, (hhead.spine_bind _).2, wf₃.zonk_spine,
      List.length_map]
  refine ⟨⟨wantPiece, gotPiece, ?_, ?_, habout⟩,
    fun _ => List.cons_ne_nil _ _⟩
  · rw [wf'.zonk_app, UnifyError.within, hlength, Ty.piece?_app_arg]
    exact hwant
  · rw [wf'.zonk_app, UnifyError.within, hlength, hextends.zonk_congr hequal,
      Ty.piece?_app_arg]
    exact hgot

theorem localized_apps (ordered : table.Ordered) {depth : Nat}
    (hs : Store.Evolves table F s s) (hwant : F.Covers (.app func arg))
    (hgot : F.Covers (.app func' arg'))
    (hdepth : Store.Shallow table F s (.app func arg) (depth + 1))
    (hwantHeads : (s.zonk (.app func arg)).ConHeaded)
    (hgotHeads : (s.zonk (.app func' arg')).ConHeaded)
    (ih : ∀ ⦃s : Store⦄ ⦃want got : Ty TyVar⦄, Store.Evolves table F s s →
      F.Covers want → F.Covers got → Store.Shallow table F s want depth →
        (s.zonk want).ConHeaded → (s.zonk got).ConHeaded →
          Localized s want got ((unifyWithin table depth want got).run s)) :
    Localized s (.app func arg) (.app func' arg')
      ((unifyTops table depth (.app func arg) (.app func' arg')).run s) := by
  have wf := hs.wellFormed
  have hwantAll := hwantHeads
  have hgotAll := hgotHeads
  rw [wf.zonk_app] at hwantHeads hgotHeads
  obtain ⟨hwantHead, hwantFunc, -⟩ := hwantHeads
  obtain ⟨hgotHead, hgotFunc, -⟩ := hgotHeads
  -- Where the heads are the same, an error has to be inside of the functions.
  have hiff := headsDiffer_eq_false_iff wf hwantHead hgotHead
  cases hdiffer : headsDiffer s func func' with
  | true =>
      rw [unifyTops_app_run_differ _ _ _ _ _ hdiffer]
      refine ⟨⟨_, _, rfl, rfl, wf.zonk_zonk _, wf.zonk_zonk _⟩,
        fun hsame => ?_⟩
      rw [wf.zonk_app, wf.zonk_app, Ty.sameHead_app, ← hiff, hdiffer] at hsame
      contradiction
  | false =>
      rw [unifyTops_app_run _ _ _ _ _ hdiffer]
      have himposes := imposes_unifyWithin ordered depth hs hwant.func
        hgot.func hdepth.func
      have hfuncs := ih hs hwant.func hgot.func hdepth.func hwantFunc hgotFunc
      cases hrun : (unifyWithin table depth func func').run s with
      | error e s' =>
          rw [hrun] at hfuncs himposes
          rw [EStateM.run_bind, hrun]
          exact hfuncs.of_funcs himposes.evolves.wellFormed (hiff.1 hdiffer)
      | ok u s₃ =>
          rw [hrun] at hfuncs himposes
          rw [bind_run_of_ok hrun, get_bind_run]
          have hs₃ := himposes.evolves
          have wf₃ := hs₃.wellFormed
          have hequal : s₃.zonk func = s₃.zonk func' :=
            himposes.zonk_eq ordered
          have hwantStays := hfuncs hwantAll
          have hgotStays := hfuncs hgotAll
          rw [wf₃.zonk_app] at hwantStays hgotStays
          have hargsImposed := imposes_unifyWithin ordered depth hs₃.here
            hwant.arg hgot.arg (hdepth.arg.later hs₃)
          have hargs := ih hs₃.here hwant.arg hgot.arg
            (hdepth.arg.later hs₃) hwantStays.2.2 hgotStays.2.2
          cases harg : (unifyWithin table depth arg arg').run s₃ with
          | ok u s₄ =>
              rw [harg] at hargs
              rw [UnifyM.within, EStateM.run_adaptExcept, harg]
              exact hfuncs.trans hargs
          | error e s₄ =>
              rw [harg] at hargs hargsImposed
              rw [within_run_error harg]
              exact hargs.of_args wf₃ (hargsImposed.evolves.extends ordered)
                hequal hwantStays.1

theorem localized_unifyWithin (ordered : table.Ordered) (depth : Nat)
    (hs : Store.Evolves table F s s) (hwant : F.Covers want)
    (hgot : F.Covers got) (hdepth : Store.Shallow table F s want depth)
    (hwantHeads : (s.zonk want).ConHeaded)
    (hgotHeads : (s.zonk got).ConHeaded) :
    Localized s want got ((unifyWithin table depth want got).run s) := by
  induction depth generalizing s want got with
  | zero => exact absurd (hdepth hs) (Nat.not_lt_zero _)
  | succ depth ih =>
      have wf := hs.wellFormed
      have himposes := imposes_unifyWithin ordered (depth + 1) hs hwant hgot
        hdepth
      obtain ⟨hevolves, hwant₂, hgot₂⟩ := hs.prunedBoth hwant hgot
      have hdepth₂ := (hdepth.resolve ordered).later hevolves
      have hsteady := (wf.shortened_prunedBoth want got).steady
      have hzonk (t : Ty TyVar) :
          (s.prunedBoth want got).zonk (s.resolve t) = s.zonk t := by
        rw [hsteady.zonk_eq, wf.zonk_resolve]
      have htops : Localized (s.prunedBoth want got) (s.resolve want)
          (s.resolve got) ((unifyWithin table (depth + 1) want got).run s) := by
        rw [← hzonk want] at hwantHeads
        rw [← hzonk got] at hgotHeads
        rw [unifyWithin_run wf]
        by_cases happs : ∃ func arg func' arg',
            s.resolve want = .app func arg ∧ s.resolve got = .app func' arg'
        · obtain ⟨func, arg, func', arg', hwantTop, hgotTop⟩ := happs
          rw [hwantTop] at hwant₂ hdepth₂ hwantHeads ⊢
          rw [hgotTop] at hgot₂ hgotHeads ⊢
          exact localized_apps ordered hevolves.here hwant₂.covers
            hgot₂.covers hdepth₂ hwantHeads hgotHeads fun _ _ _ => ih
        · exact localized_unifyTops ordered depth hevolves.here hwant₂ hgot₂
            hwantHeads hgotHeads fun func arg func' arg' hwantTop hgotTop =>
              happs ⟨func, arg, func', arg', hwantTop, hgotTop⟩
      cases hrun : (unifyWithin table (depth + 1) want got).run s with
      | ok u s' =>
          rw [hrun] at htops
          exact hsteady.headsStay.trans htops
      | error e s' =>
          rw [hrun] at htops himposes
          have hextends := himposes.evolves.extends ordered
          have hlater (t : Ty TyVar) : s'.zonk (s.resolve t) = s'.zonk t :=
            hextends.zonk_congr (wf.zonk_resolve t)
          rw [Localized, UnifyError.Locates, hlater, hlater, hzonk, hzonk]
            at htops
          exact htops

end

namespace TypeState

variable {st st' : TypeState} {want got : Ty TyVar} {e : UnifyError}

/-- The path of an error leads to the pieces of the two types that the error is
about. -/
theorem unify_error_located (h : st.Arises) (hwant : want.InRange st.store)
    (hgot : got.InRange st.store) (hwantHeads : (st.store.zonk want).ConHeaded)
    (hgotHeads : (st.store.zonk got).ConHeaded)
    (hrun : st.unify want got = (.error e, st')) :
    e.Locates st'.store want got := by
  obtain ⟨ordered, wf⟩ := h.wellFormed
  have hsupports : (Footprint.reach st.store [want, got]).Supports st.store :=
    .reach wf (by simpa using ⟨hwant, hgot⟩)
  have hcovers : ∀ t ∈ [want, got],
      (Footprint.reach st.store [want, got]).Covers t := fun t => .reach
  have hlocalized := localized_unifyWithin ordered _ (.refl wf hsupports)
    (hcovers want (by simp)) (hcovers got (by simp))
    (Store.shallow_unify (hcovers want (by simp))) hwantHeads hgotHeads
  rw [← unify_run] at hlocalized
  rw [unify_eq] at hrun
  cases hresult : (HindleyMilner.unify st.classes want got).run st.store with
  | ok u s' =>
      rw [hresult] at hrun
      cases hrun
  | error e' s' =>
      rw [hresult] at hrun hlocalized
      cases hrun
      exact hlocalized.1

/-- The second components are lists.  The variable in one of them would have to
stand for the list in the other, which is no instance of its class for what is
inside of it. -/
theorem unify_error_located_pair :
    let want : Ty TyVar := .parens [.var ⟨1⟩, .list (.var ⟨0⟩)]
    let got : Ty TyVar := .parens [.con .unit, .list (.list (.con .unit))]
    let e : UnifyError := ⟨.constraint ⟨0⟩ ⟨0⟩ (.con .unit), [1, 0]⟩
    (listSession.unify want got).1 = .error e ∧
      e.Locates (listSession.unify want got).2.store want got := by
  intro want got e
  have hwant : want.InRange listSession.store := by decide
  have hgot : got.InRange listSession.store := by decide
  have hwantHeads : (listSession.store.zonk want).ConHeaded := by decide
  have hgotHeads : (listSession.store.zonk got).ConHeaded := by decide
  exact ⟨rfl, unify_error_located listSession_reachable.arises hwant hgot
    hwantHeads hgotHeads rfl⟩

end TypeState

end HindleyMilner

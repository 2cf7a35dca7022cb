import HindleyMilner.Proofs.InferenceRules
import HindleyMilner.Proofs.MostGeneral
import HindleyMilner.Proofs.Scoping

/-
Inference finds principal types.  The types that it leaves in a view follow
the typing rules, and every typing of the expression is an instance of them.
If it fails, the expression has no typing, unless a class was required of an
application of an unsolved variable or a binder was used out of its scope.
-/

namespace HindleyMilner

variable {st : TypeState} {e : Exp} {t : Ty TyVar} {view : View} {s : Store}

/-- The labels that a view gives, with all solved variables replaced. -/
def View.labelling (view : View) (s : Store) : Labelling TyVar where
  exp id := (view.exps.lookup id).map s.zonk
  binder id := (view.binders.lookup id).map s.zonk

theorem View.reads_labelling (wf : s.WellFormed) (view : View) :
    (view.labelling s).Reads view fun v => s.zonk (.var v) := by
  constructor
  · intro id t ht
    change (view.exps.lookup id).map s.zonk = _
    rw [ht, ← wf.zonk_eq_bind, Option.map_some]
  · intro id t ht
    change (view.binders.lookup id).map s.zonk = _
    rw [ht, ← wf.zonk_eq_bind, Option.map_some]

/-- Whether an expression may have a type without variables when the variables
of its literals have given values. -/
def Exp.Possible (st : TypeState) (r : TyVar → GroundTy) (e : Exp)
    (T : GroundTy) : Prop :=
  ∃ label, Typing.HasType ⟨st.classes, st.store, Empty.elim, r, label⟩ e T

namespace TypeState

def setting (hst : st.Reachable) (he : e.Proper st.store) : Setting where
  table := st.classes
  start := st.store
  schemes := e.parts.schemes
  ordered := hst.wellFormed.ordered
  wellFormed := hst.wellFormed.wellFormed
  inRange := he.schemes_inRange

theorem ready_setting (hst : st.Reachable) (he : e.Proper st.store) :
    (setting hst he).Ready e.parts .empty st.store where
  exps_nodup := he.exps_nodup
  binders_nodup := he.binders_nodup
  literals t ht v hv := by
    refine ⟨he.literals_inRange t ht v hv,
      Setting.apart_of_mem_zonk_apart (t := t) ?_ hv⟩
    rintro w hw ⟨scheme, hscheme, hgeneric⟩
    exact he.separate t ht scheme hscheme w hgeneric hw
  schemes _ ht := ht
  lacks := ⟨fun _ _ => rfl, fun _ _ => rfl⟩
  state := (setting hst he).state_start

theorem outcome_findType (hst : st.Reachable) (he : e.Proper st.store) :
    Outcome ((setting hst he).Inferred e .empty st.store)
      ((setting hst he).Possible e .empty st.store)
      ((e.findType st.classes).run (.empty, st.store)) :=
  (setting hst he).infers e .empty st.store (ready_setting hst he)

theorem infer_run (table : ClassTable) (e : Exp) (now : View × Store) :
    (e.infer table).run now =
      match (e.findType table).run now with
      | .ok t (view, s) => .ok (s.zonk t) (view, s)
      | .error err next => .error err next := by
  have hopen : e.infer table = e.findType table >>= fun t =>
      get >>= fun now => pure (now.2.zonk t) := rfl
  rw [hopen, EStateM.run_bind]
  cases (e.findType table).run now <;> rfl

/-- All assignments that satisfy the state fit the start of inference. -/
theorem setting_fits (hst : st.Reachable) (he : e.Proper st.store)
    {r : TyVar → GroundTy} (label : Labelling Empty) (hr : st.SatisfiedBy r) :
    (setting hst he).Fits r label .empty st.store r :=
  ⟨hr, fun _ _ => rfl, fun id t ht => by simp [View.empty] at ht⟩

/-- Inference is sound: the types that it leaves in the view follow the typing
rules.  The signatures and annotations that the rules refer to are left as
they were. -/
theorem infer_sound (hst : st.Reachable) (he : e.Proper st.store)
    (hrun : (e.infer st.classes).run (.empty, st.store) = .ok t (view, s)) :
    Typing.HasType ⟨st.classes, st.store, s.Requires st.classes,
        fun v => s.zonk (.var v), view.labelling s⟩ e t ∧
      ∀ scheme ∈ e.parts.schemes, s.zonk scheme = st.store.zonk scheme ∧
        ∀ v ∈ (s.zonk scheme).vars,
          s.unsolvedClasses? v = st.store.unsolvedClasses? v := by
  have houtcome := outcome_findType hst he
  rw [infer_run] at hrun
  cases hfind : (e.findType st.classes).run (.empty, st.store) with
  | error err next => simp [hfind] at hrun
  | ok found next =>
      rcases next with ⟨view', s'⟩
      simp only [hfind, EStateM.Result.ok.injEq, Prod.mk.injEq] at hrun
      rcases hrun with ⟨rfl, rfl, rfl⟩
      rw [hfind] at houtcome
      have hinferred : (setting hst he).Inferred e .empty st.store found
        view' s' := houtcome
      have hstate := hinferred.state
      have wf := hstate.wellFormed
      constructor
      · have hsound := hinferred.sound
          (s'.zonkAssignment hst.wellFormed.ordered) (view'.labelling s')
          (wf.satisfiedBy_zonkAssignment _) (view'.reads_labelling wf)
        have heval : (s'.zonkAssignment hst.wellFormed.ordered).eval found =
            s'.zonk found := wf.eval_zonkAssignment _ found
        exact heval ▸ hsound
      · intro scheme hscheme
        have hzonk := hstate.zonk_scheme hscheme
        refine ⟨hzonk, fun v hv => ?_⟩
        rw [hzonk] at hv
        exact hstate.unsolvedClasses?_generic ⟨scheme, hscheme, hv⟩

def nubSignature : Ty TyVar :=
  .arrow (.list (.var ⟨0⟩)) (.list (.var ⟨0⟩))

def nubExp (ty : Ty TyVar) : Exp :=
  .apply ⟨2⟩ (.function ⟨0⟩ ⟨⟨"nub", by decide⟩, nubSignature⟩)
    (.value ⟨1⟩ ty "arg")

theorem proper_nubExp {ty : Ty TyVar} (hrange : ty.InRange listSession.store)
    (hseparate : ⟨0⟩ ∉ (listSession.store.zonk ty).vars) :
    (nubExp ty).Proper listSession.store where
  exps_nodup := by
    change [ExpId.mk 2, ⟨0⟩, ⟨1⟩].Nodup
    decide
  binders_nodup := .nil
  literals_inRange t ht := by
    rw [List.mem_singleton.1 ht]
    exact hrange
  schemes_inRange := by
    change ∀ t ∈ [nubSignature], t.InRange listSession.store
    decide
  separate t ht scheme hscheme v hv := by
    rw [List.mem_singleton.1 hscheme] at hv
    have hvars : (listSession.store.zonk nubSignature).vars = [⟨0⟩, ⟨0⟩] := rfl
    rw [hvars, List.mem_pair, or_self] at hv
    rw [List.mem_singleton.1 ht, hv]
    exact hseparate

theorem infer_sound_nub :
    ∃ view s, ((nubExp (.list (.var ⟨1⟩))).infer listSession.classes).run
        (.empty, listSession.store) = .ok (.list (.var ⟨1⟩)) (view, s) ∧
      Typing.HasType ⟨listSession.classes, listSession.store,
          s.Requires listSession.classes, fun v => s.zonk (.var v),
          view.labelling s⟩ (nubExp (.list (.var ⟨1⟩))) (.list (.var ⟨1⟩)) :=
  ⟨_, _, rfl, (infer_sound listSession_reachable
    (proper_nubExp (by decide) (by decide)) rfl).1⟩

/-- Inference is complete and its types are principal: every possible type is
a value of the inferred one, under an assignment that only adds values for new
variables.  If inference fails, unification did, and unless it got stuck, no
type is possible. -/
theorem infer_principal (hst : st.Reachable) (he : e.Proper st.store)
    (hscoped : e.Scoped []) :
    (∀ t view s,
      (e.infer st.classes).run (.empty, st.store) = .ok t (view, s) →
        ∀ (r : TyVar → GroundTy) (T : GroundTy), st.SatisfiedBy r →
          e.Possible st r T → ∃ r' : TyVar → GroundTy,
            (∀ v : TyVar, v.index < st.store.size → r' v = r v) ∧
              (st.withStore s).SatisfiedBy r' ∧ t.bind r' = T) ∧
    ∀ err view s,
      (e.infer st.classes).run (.empty, st.store) = .error err (view, s) →
        ∃ cause, err.cause = .unify cause ∧ (cause.Stuck s ∨
          ∀ (r : TyVar → GroundTy) (T : GroundTy), st.SatisfiedBy r →
            ¬ e.Possible st r T) := by
  have houtcome := outcome_findType hst he
  rw [infer_run]
  cases hfind : (e.findType st.classes).run (.empty, st.store) with
  | ok found next =>
      rw [hfind] at houtcome
      refine ⟨fun t view s hrun r T hr ⟨label, hT⟩ => ?_, by simp⟩
      obtain ⟨rfl, hnext⟩ := EStateM.Result.ok.inj hrun
      obtain rfl : next = (view, s) := hnext
      have hinferred : (setting hst he).Inferred e .empty st.store found
        view s := houtcome
      obtain ⟨r', hr', -, hvalue⟩ :=
        hinferred.complete label T (setting_fits hst he label hr) hT
      refine ⟨r', hr'.agrees, hr'.satisfied, ?_⟩
      rw [← hvalue]
      exact hr'.satisfied.solved.eval_zonk found
  | error err next =>
      rw [hfind] at houtcome
      refine ⟨by simp, fun err view s hrun => ?_⟩
      obtain ⟨rfl, rfl⟩ := EStateM.Result.error.inj hrun
      obtain ⟨cause, hcause⟩ := hscoped.exists_unify hfind
      refine ⟨cause, hcause, (houtcome cause hcause).imp_right ?_⟩
      rintro hnone r T hr ⟨label, hT⟩
      exact hnone ⟨r, label, r, T, setting_fits hst he label hr, hT⟩

theorem infer_principal_nub :
    (∀ (r : TyVar → GroundTy) (T : GroundTy), listSession.SatisfiedBy r →
      (nubExp (.list (.var ⟨1⟩))).Possible listSession r T →
        T = .list (r ⟨1⟩)) ∧
    ∀ (r : TyVar → GroundTy) (T : GroundTy), listSession.SatisfiedBy r →
      ¬ (nubExp (.con .unit)).Possible listSession r T := by
  constructor
  · intro r T hr hT
    have hproper : (nubExp (.list (.var ⟨1⟩))).Proper listSession.store :=
      proper_nubExp (by decide) (by decide)
    obtain ⟨r', hagrees, -, hvalue⟩ := (infer_principal listSession_reachable
      hproper ⟨trivial, trivial⟩).1 _ _ _ rfl r T hr hT
    rw [← hvalue, ← hagrees ⟨1⟩ (by decide)]
    rfl
  · have hproper : (nubExp (.con .unit)).Proper listSession.store :=
      proper_nubExp (by decide) (by decide)
    obtain ⟨cause, hcause, hstuck | hnone⟩ := (infer_principal
      listSession_reachable hproper ⟨trivial, trivial⟩).2 _ _ _ rfl
    · rcases hstuck with ⟨v, c, t, w, hconstraint, -⟩
      rw [← InferError.Cause.unify.inj hcause] at hconstraint
      contradiction
    · exact hnone

end TypeState

end HindleyMilner

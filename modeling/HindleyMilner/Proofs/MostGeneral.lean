import HindleyMilner.Proofs.Session

/-
What unification does in the states that sessions reach.  If it succeeds, it
has found the most general solution, classes included.  If it fails, there is
no solution, unless the failure is a requirement on an application of an
unsolved variable.
-/

namespace HindleyMilner.TypeState

variable {st st' : TypeState} {want got : Ty TyVar}

/-- Whether an assignment of types without variables gives solved variables
the values of their solutions and unsolved ones instances of their classes. -/
def SatisfiedBy (st : TypeState) (r : TyVar → GroundTy) : Prop :=
  st.store.SatisfiedBy (.ground st.classes r)

/-- Types that were unified stand for the same type, and the ground
assignments that are left are those that make them equal. -/
theorem unify_mostGeneral (hst : st.Reachable) (hwant : want.InRange st.store)
    (hgot : got.InRange st.store) (hrun : st.unify want got = (.ok (), st')) :
    st'.store.zonk want = st'.store.zonk got ∧
      ∀ r : TyVar → GroundTy,
        st'.SatisfiedBy r ↔ st.SatisfiedBy r ∧ want.bind r = got.bind r := by
  obtain ⟨ordered, wf⟩ := hst.wellFormed
  have himposes := imposes_unify ordered wf hwant hgot
  rw [unify_eq] at hrun
  cases hresult : (HindleyMilner.unify st.classes want got).run st.store with
  | error e s =>
      simp [hresult] at hrun
  | ok u s =>
      simp only [hresult, Prod.mk.injEq, true_and] at hrun
      subst hrun
      rw [hresult] at himposes
      have hiff := himposes.satisfied_iff
      refine ⟨himposes.evolves.here.zonk_eq_of_eval_eq ordered fun a ha => ?_,
        fun r => hiff (.ground st.classes r)⟩
      exact ((hiff a).1 ha).2

/-- A session with a class that characters and lists are instances of, a
variable in the class and a variable in none. -/
def listSession : TypeState :=
  let classes : ClassTable :=
    ⟨#[⟨⟨"Eq", by decide⟩, [], [Name.char, Name.list], []⟩]⟩
  let store := (Store.empty.fresh "a" (.ofList classes [⟨0⟩])).2
  ⟨classes, (store.fresh "b" ∅).2⟩

theorem listSession_reachable : listSession.Reachable := by
  let classes : ClassTable := ⟨#[⟨⟨"Eq", by decide⟩, [], [], []⟩]⟩
  have hadd : empty.classes.add? ⟨"Eq", by decide⟩ [] = some classes := by
    simp [classes, empty, ClassTable.add?, ClassTable.find?, ClassTable.empty]
  have hclass : Step empty ⟨classes, .empty⟩ := .addClass (by simp) hadd
  have hlist := Step.addInstance ⟨classes, .empty⟩ ⟨0⟩ Name.list
  have hchar := Step.addInstance
    ⟨classes.addInstance ⟨0⟩ Name.list, .empty⟩ ⟨0⟩ Name.char
  exact .tail (.tail (.tail (.tail (.single hclass) hlist) hchar)
    (.fresh _ "a" (.ofList listSession.classes [⟨0⟩]))) (.fresh _ "b" ∅)

theorem unify_mostGeneral_list :
    (listSession.unify (.var ⟨0⟩) (.list (.var ⟨1⟩))).2.store.zonk
        (.var ⟨0⟩) =
      (listSession.unify (.var ⟨0⟩) (.list (.var ⟨1⟩))).2.store.zonk
        (.list (.var ⟨1⟩)) ∧
      ∀ r : TyVar → GroundTy,
        (listSession.unify (.var ⟨0⟩) (.list (.var ⟨1⟩))).2.SatisfiedBy r ↔
          listSession.SatisfiedBy r ∧ r ⟨0⟩ = .list (r ⟨1⟩) :=
  unify_mostGeneral listSession_reachable (by decide) (by decide) rfl

/-- Types that could not be unified are not made equal by any ground
assignment that satisfies the state, or unification got stuck. -/
theorem unify_error_unsolvable {e : UnifyError} (hst : st.Reachable)
    (hwant : want.InRange st.store) (hgot : got.InRange st.store)
    (hrun : st.unify want got = (.error e, st')) :
    e.Stuck st'.store ∨
      ∀ r : TyVar → GroundTy, st.SatisfiedBy r → want.bind r ≠ got.bind r := by
  obtain ⟨ordered, wf⟩ := hst.wellFormed
  have himposes := imposes_unify ordered wf hwant hgot
  rw [unify_eq] at hrun
  cases hresult : (HindleyMilner.unify st.classes want got).run st.store with
  | ok u s =>
      simp [hresult] at hrun
  | error e' s =>
      simp only [hresult, Prod.mk.injEq, Except.error.injEq] at hrun
      rcases hrun with ⟨rfl, rfl⟩
      rw [hresult] at himposes
      exact himposes.refuted

theorem unify_error_unsolvable_unit :
    (listSession.unify (.var ⟨0⟩) (.con .unit)).1 =
        .error ⟨.constraint ⟨0⟩ ⟨0⟩ (.con .unit), []⟩ ∧
      ¬ ∃ r : TyVar → GroundTy,
        listSession.SatisfiedBy r ∧ r ⟨0⟩ = .con .unit := by
  refine ⟨rfl, ?_⟩
  rintro ⟨r, hr, hequal⟩
  have hwant : Ty.InRange listSession.store (.var ⟨0⟩) := by decide
  have hgot : Ty.InRange listSession.store (.con .unit) := by decide
  have hrun : listSession.unify (.var ⟨0⟩) (.con .unit) =
      (.error ⟨.constraint ⟨0⟩ ⟨0⟩ (.con .unit), []⟩, listSession) := rfl
  rcases unify_error_unsolvable listSession_reachable hwant hgot hrun with
    ⟨v, c, t, w, hcause, hhead, -⟩ | hnone
  · obtain ⟨-, -, rfl⟩ := UnifyError.Cause.constraint.inj hcause
    simp [Ty.spine, Ty.spineOnto] at hhead
  · exact hnone r hr hequal

end HindleyMilner.TypeState

import HindleyMilner.Proofs.BindingsAgain
import HindleyMilner.Proofs.Principal
import HindleyMilner.Proofs.Repetition

/-
Inference that is made again in the same view.  When it has found a type, this
is found again and nothing changes.  When it has failed, it fails again, for
the same cause at the same place, unless an annotation can have no type: its
second copy then meets the first one, and the conflict between its classes is
reported.
-/

namespace HindleyMilner

variable {st : TypeState} {e : Exp}

namespace Setting

variable {S : Setting}

/-- The first run starts with nothing found. -/
theorem point_start (he : e.Proper S.start)
    (hschemes : S.schemes = e.parts.schemes) :
    S.Point e.parts (.empty, S.start) where
  ready :=
    { exps_nodup := he.exps_nodup
      binders_nodup := he.binders_nodup
      literals := fun t ht v hv => by
        refine ⟨he.literals_inRange t ht v hv,
          apart_of_mem_zonk_apart (t := t) ?_ hv⟩
        rintro w hw ⟨scheme, hscheme, hgeneric⟩
        rw [hschemes] at hscheme
        exact he.separate t ht scheme hscheme w hgeneric hw
      schemes := fun _ ht => hschemes ▸ ht
      lacks := ⟨fun _ _ => rfl, fun _ _ => rfl⟩
      state := S.state_start }
  reaches :=
    ⟨S.ordered, S.wellFormed, .refl, S.suits_confined,
      ⟨fun _ _ ht => by simp [View.empty] at ht,
        fun _ _ ht => by simp [View.empty] at ht⟩⟩

end Setting

namespace TypeState

theorem infer_run_error_iff {table : ClassTable} {now next : View × Store}
    {err : InferError} :
    (e.infer table).run now = .error err next ↔
      (e.findType table).run now = .error err next := by
  rw [infer_run]
  cases (e.findType table).run now <;> simp

/-- Inference that found a type finds it again and changes nothing.  Inference
that failed fails again: at the same expression, for a cause of the same kind
and at the same place in its types, or else with the conflict between the
classes of an annotation. -/
theorem infer_repeated
    (h : st.ArisesGuarded fun table set => set.Built table)
    (he : e.Proper st.store) :
    (∀ t view s,
      (e.infer st.classes).run (.empty, st.store) = .ok t (view, s) →
        (e.infer st.classes).run (view, s) = .ok t (view, s)) ∧
    ∀ err view s,
      (e.infer st.classes).run (.empty, st.store) = .error err (view, s) →
        e.Holds err.exp ∧ ∃ err' next,
          (e.infer st.classes).run (view, s) = .error err' next ∧
            err.Recurs st e (e.Calls st.classes (.empty, st.store)) s
              err' := by
  have hst := h.arises.wellFormed
  constructor
  · intro t view s hrun
    rw [infer_run] at hrun
    cases hfind : (e.findType st.classes).run (.empty, st.store) with
    | error err next => simp [hfind] at hrun
    | ok found next =>
        rw [hfind] at hrun
        obtain ⟨rfl, hnext⟩ := EStateM.Result.ok.inj hrun
        obtain rfl : next = (view, s) := hnext
        rw [infer_run,
          Exp.findType_run_cached (Exp.cached?_of_findType hfind)]
  · intro err view s hrun
    have hfind := infer_run_error_iff.1 hrun
    let S : Setting := ⟨st.classes, st.store, e.parts.schemes, hst.ordered,
      hst.wellFormed, he.schemes_inRange⟩
    have hpoint : S.Point e.parts (.empty, st.store) :=
      Setting.point_start he rfl
    obtain ⟨hin, hagain⟩ :=
      S.repeats (h.proper fun _ _ => id) e hpoint hfind
    have hlast := hpoint.went_findType
    rw [hfind] at hlast
    obtain ⟨err', next, hrun', hrecurs⟩ :=
      (hagain (.refl hlast.reaches.now_wellFormed)).exists_error
    exact ⟨hin, err', next, infer_run_error_iff.2 hrun', hrecurs⟩

def headedExp : Exp :=
  .apply ⟨2⟩ (.value ⟨0⟩ (.arrow headedWant (.con .unit)) "f")
    (.value ⟨1⟩ headedGot "x")

theorem openSession_arisesGuarded :
    openSession.ArisesGuarded fun table set => set.Built table := by
  have hempty : (ClassSet.ofList .empty []).Built .empty := .ofList (by simp)
  exact .single (.fresh "f" hempty)

theorem proper_headedExp : headedExp.Proper openSession.store where
  exps_nodup := by
    change [ExpId.mk 2, ⟨0⟩, ⟨1⟩].Nodup
    decide
  binders_nodup := .nil
  literals_inRange := by
    change ∀ t ∈ [.arrow headedWant (.con .unit), headedGot],
      t.InRange openSession.store
    decide
  schemes_inRange t ht := absurd ht List.not_mem_nil
  separate _ _ scheme hscheme := absurd hscheme List.not_mem_nil

/-- What keeps the types of the function and the argument apart, with the
positions counted before the variable was solved. -/
def headedFirst : InferError :=
  ⟨headedExp, .unify ⟨headedCause, [0, 0, 1]⟩⟩

/-- The same, with the positions counted after. -/
def headedSecond : InferError :=
  ⟨headedExp, .unify ⟨headedCause, [0, 1, 1]⟩⟩

theorem infer_repeated_headed : ∃ view s next,
    (headedExp.infer openSession.classes).run (.empty, openSession.store) =
        .error headedFirst (view, s) ∧
      (headedExp.infer openSession.classes).run (view, s) =
          .error headedSecond next ∧
        headedFirst.Recurs openSession headedExp
          (headedExp.Calls openSession.classes (.empty, openSession.store)) s
          headedSecond := by
  obtain ⟨-, err', next, hrun, hrecurs⟩ :=
    (infer_repeated openSession_arisesGuarded proper_headedExp).2
      headedFirst _ _ rfl
  obtain ⟨rfl, rfl⟩ := EStateM.Result.error.inj hrun
  exact ⟨_, _, _, rfl, rfl, hrecurs⟩

/-- A session with two classes without instances and a variable in both. -/
def clashSession : TypeState :=
  let classes : ClassTable :=
    ⟨#[⟨⟨"Integral", by decide⟩, [], [], []⟩,
      ⟨⟨"Fractional", by decide⟩, [], [], []⟩]⟩
  ⟨classes, (Store.empty.fresh "a" (.ofList classes [⟨0⟩, ⟨1⟩])).2⟩

theorem clashSession_arises :
    clashSession.ArisesGuarded fun table set => set.Built table := by
  let upper : ClassTable := ⟨#[⟨⟨"Integral", by decide⟩, [], [], []⟩]⟩
  have hupper : empty.classes.add? ⟨"Integral", by decide⟩ [] = some upper := by
    simp [upper, empty, ClassTable.add?, ClassTable.find?, ClassTable.empty]
  have hboth : upper.add? ⟨"Fractional", by decide⟩ [] =
      some clashSession.classes := by
    simp [upper, clashSession, ClassTable.add?, ClassTable.find?]
  have hclasses : ArisesGuarded (fun table set => set.Built table)
      ⟨clashSession.classes, .empty⟩ :=
    .tail (.single (.change (.addClass (by simp) hupper)))
      (.change (.addClass (by simp) hboth))
  exact .tail hclasses (.fresh "a" (.ofList (by decide)))

def clashBody : Exp :=
  .annotated ⟨2⟩ (.value ⟨1⟩ (.con .unit) "()") (.con .char)

/-- `let items :: [a] = undefined in () :: Char`, where the variable of
`clashSession` is `a`. -/
def clashExp : Exp :=
  .letIn ⟨3⟩
    (.cons ⟨⟨0⟩, ⟨"items", by decide⟩, some (.list (.var ⟨0⟩))⟩ (.hole ⟨0⟩)
      .nil)
    clashBody

theorem proper_clashExp : clashExp.Proper clashSession.store where
  exps_nodup := by
    change [ExpId.mk 3, ⟨0⟩, ⟨2⟩, ⟨1⟩].Nodup
    decide
  binders_nodup := by
    change [BinderId.mk 0].Nodup
    decide
  literals_inRange := by
    change ∀ t ∈ [Ty.con Name.unit], t.InRange clashSession.store
    decide
  schemes_inRange := by
    change ∀ t ∈ [Ty.list (.var ⟨0⟩), .con .char], t.InRange clashSession.store
    decide
  separate t ht _ _ _ _ := by
    rw [List.mem_singleton.1 ht]
    exact List.not_mem_nil

/-- The place of an error is counted anew, and where an annotation can have no
type, another error comes up before the one of the first time. -/
theorem infer_again_differs :
    (openSession.ArisesGuarded (fun table set => set.Built table) ∧
      headedExp.Proper openSession.store ∧ ∃ view s next,
        (headedExp.infer openSession.classes).run (.empty, openSession.store) =
            .error headedFirst (view, s) ∧
          (headedExp.infer openSession.classes).run (view, s) =
            .error headedSecond next) ∧
    clashSession.ArisesGuarded (fun table set => set.Built table) ∧
      clashExp.Proper clashSession.store ∧ ∃ view s next,
        (clashExp.infer clashSession.classes).run
            (.empty, clashSession.store) =
            .error ⟨clashBody, .unify ⟨.mismatch (.con .char) (.con .unit), []⟩⟩
              (view, s) ∧
          (clashExp.infer clashSession.classes).run (view, s) =
            .error ⟨clashExp, .unify ⟨.unsatisfiable ⟨0⟩ ⟨1⟩, [0]⟩⟩ next :=
  ⟨⟨openSession_arisesGuarded, proper_headedExp, _, _, _, rfl, rfl⟩,
    clashSession_arises, proper_clashExp, _, _, _, rfl, rfl⟩

end TypeState

end HindleyMilner

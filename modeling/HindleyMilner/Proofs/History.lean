import HindleyMilner.Proofs.InferenceMoves
import HindleyMilner.Proofs.MostGeneral

/-
Histories of sessions that also infer types.  The store of every state that
arises is acyclic, and no requirement is ever lost: a variable that once had
to be an instance of a class stands for a type that is one at all later times,
whatever was unified, failed or was added to the classes in between.
-/

namespace HindleyMilner

namespace TypeState

/-- One action of a session that may infer types, in views that are new or
not.  Views and expressions are over the variables of the state. -/
inductive Action : TypeState → TypeState → Prop
  | step {st st' : TypeState} (h : Step st st') : Action st st'
  | infer {st : TypeState} {view : View} {e : Exp}
      (hview : view.InRange st.store) (he : e.parts.InRange st.store) :
      Action st (st.withStore
        (finalState ((e.infer st.classes).run (view, st.store))).2)

abbrev Run : TypeState → TypeState → Prop :=
  Relation.ReflTransGen Action

/-- Whether a session that may infer types can come to a state. -/
def Arises (st : TypeState) : Prop :=
  Run empty st

variable {st st' : TypeState} {v : TyVar} {c : ClassId} {t : Ty TyVar}

theorem Reachable.arises (h : st.Reachable) : st.Arises :=
  Relation.ReflTransGen.mono (fun _ _ => Action.step) _ _ h

/-- An action changes the classes, or it makes moves of the store. -/
theorem Action.change_or_moves (haction : Action st st') (h : st.WellFormed) :
    (∃ larger, st.classes.Change larger ∧
        st' = { st with classes := larger }) ∨
      ∃ s, Store.Moves st.classes .all st.store s ∧ st' = st.withStore s := by
  cases haction with
  | step hstep => exact hstep.change_or_moves h
  | infer hview he =>
      exact Or.inr ⟨_,
        Exp.moves_infer_giving _ h.ordered h.wellFormed hview he, rfl⟩

theorem WellFormed.action (h : st.WellFormed) (haction : Action st st') :
    st'.WellFormed := by
  rcases haction.change_or_moves h with
    ⟨larger, hchange, rfl⟩ | ⟨s, hmoves, rfl⟩
  · exact ⟨hchange.ordered h.ordered, h.wellFormed⟩
  · exact h.withStore hmoves

theorem WellFormed.run (h : st.WellFormed) (hrun : Run st st') :
    st'.WellFormed := by
  induction hrun with
  | refl => exact h
  | tail _ haction ih => exact ih.action haction

theorem Arises.wellFormed (h : st.Arises) : st.WellFormed :=
  wellFormed_empty.run h

/-- The classes of every session are found by their names. -/
theorem Arises.found (h : st.Arises) : st.classes.Found := by
  induction h with
  | refl => exact ClassTable.found_empty
  | tail hbefore haction ih =>
      rcases haction.change_or_moves (Arises.wellFormed hbefore) with
        ⟨larger, hchange, rfl⟩ | ⟨s, -, rfl⟩
      · exact hchange.found ih
      · exact ih

end TypeState

/-! ### Acyclic stores -/

namespace Store

variable {s : Store} {v w : TyVar}

def Links (s : Store) (v w : TyVar) : Prop :=
  s.solution? v = some (.var w)

theorem reflTransGen_links_rootWithin (s : Store) (n : Nat) (v : TyVar) :
    Relation.ReflTransGen s.Links v (s.rootWithin n v) :=
  s.reflTransGen_rootWithin_of (fun _ _ => id) n v

theorem WellFormed.lt_size_of_mentions (wf : s.WellFormed)
    (h : s.Mentions v w) : v.index < s.size ∧ w.index < s.size := by
  rcases h with ⟨t, ht, hw⟩
  exact ⟨lt_size_of_solution? ht, wf.inRange ht w hw⟩

/-- Whether chains of variables end at a variable: it is unsolved, or it
stands for a type that is no variable. -/
def Ends (s : Store) (v : TyVar) : Prop :=
  s.isUnsolved v = true ∨ ∃ t, s.solution? v = some t ∧ ∀ w, t ≠ .var w

theorem WellFormed.ends_root (wf : s.WellFormed) (hv : v.index < s.size) :
    s.Ends (s.root v) := by
  have hreach : Relation.ReflTransGen s.Mentions v (s.root v) :=
    s.reflTransGen_rootWithin s.size v
  cases hroot : s.solution? (s.root v) with
  | none =>
      obtain ⟨classes, hclasses⟩ :=
        exists_unsolvedClasses? (wf.lt_size_of_reach hv hreach) hroot
      exact Or.inl (isUnsolved_of_unsolved hclasses)
  | some t =>
      refine Or.inr ⟨t, hroot, ?_⟩
      rintro w rfl
      exact wf.solution?_root v w hroot

end Store

namespace TypeState

variable {st st' : TypeState} {v : TyVar} {c : ClassId} {t : Ty TyVar}

/-- In every state of every session no variable stands for a type that leads
back to it, all variables in solutions exist, and the chain of variables from
any variable ends, at the root that is found for it. -/
theorem arises_acyclic (h : st.Arises) :
    (∀ v, ¬ Relation.TransGen st.store.Mentions v v) ∧
      (∀ v w, st.store.Mentions v w → w.index < st.store.size) ∧
      ∀ v : TyVar, v.index < st.store.size →
        Relation.ReflTransGen st.store.Links v (st.store.root v) ∧
          st.store.Ends (st.store.root v) := by
  have wf := h.wellFormed.wellFormed
  refine ⟨wf.acyclic, fun v w hvw => (wf.lt_size_of_mentions hvw).2,
    fun v hv => ⟨?_, wf.ends_root hv⟩⟩
  exact st.store.reflTransGen_links_rootWithin st.store.size v

def joinedSession : TypeState :=
  (listSession.unify (.var ⟨0⟩) (.var ⟨1⟩)).2

theorem joinedSession_arises : joinedSession.Arises :=
  .tail listSession_reachable.arises (.step (.unify (by decide) (by decide)))

theorem arises_acyclic_joined :
    joinedSession.store.solution? ⟨0⟩ = some (.var ⟨1⟩) ∧
      (∀ v, ¬ Relation.TransGen joinedSession.store.Mentions v v) ∧
      Relation.ReflTransGen joinedSession.store.Links ⟨0⟩ ⟨1⟩ ∧
      joinedSession.store.Ends ⟨1⟩ :=
  have hacyclic := arises_acyclic joinedSession_arises
  ⟨rfl, hacyclic.1, hacyclic.2.2 ⟨0⟩ (by decide)⟩

/-! ### Requirements that stay -/

/-- Whether a type is an instance of a class in a state.  An unsolved variable
is one if its classes include the class or a subclass of it. -/
def Meets (st : TypeState) (t : Ty TyVar) (c : ClassId) : Prop :=
  (st.store.zonk t).Meets st.classes (st.store.Requires st.classes) c

end TypeState

namespace Store

variable {table larger : ClassTable} {permit : Permit} {s s' : Store}
  {t : Ty TyVar} {c : ClassId}

/-- A move asks for no less than before. -/
theorem Move.satisfied (ordered : table.Ordered) (wf : s.WellFormed)
    (h : Move table permit s s') (a : Assignment table)
    (ha : s'.SatisfiedBy a) : s.SatisfiedBy a := by
  cases h with
  | fresh base _ => exact (satisfiedBy_fresh_iff.1 ha).1
  | @prune t _ =>
      cases t with
      | var v => exact (satisfiedBy_compress_iff v).1 ha
      | con name => exact ha
      | app func arg => exact ha
  | unify hwant hgot =>
      exact (evolves_unify ordered wf hwant.inRange hgot.inRange).satisfied
        a ha

/-- What a type stands for after a move is an instance of all classes that it
was an instance of before. -/
theorem Move.meets (ordered : table.Ordered) (wf : s.WellFormed)
    (h : Move table permit s s')
    (ht : (s.zonk t).Meets table (s.Requires table) c) :
    (s'.zonk t).Meets table (s'.Requires table) c := by
  have wf' := h.wellFormed ordered wf
  have hsat := h.satisfied ordered wf (s'.zonkAssignment ordered)
    (wf'.satisfiedBy_zonkAssignment ordered)
  rw [← wf'.eval_zonkAssignment ordered, ← hsat.solved.eval_zonk]
  apply ht.bind
  rintro v d ⟨classes, hclasses, hd⟩
  have hupward := (s'.zonkAssignment ordered).meets_upward ordered (.var v)
  exact ClassSet.of_implies hupward (hsat.unsolved hclasses) hd

theorem Moves.meets (ordered : table.Ordered) (wf : s.WellFormed)
    (h : Moves table permit s s')
    (ht : (s.zonk t).Meets table (s.Requires table) c) :
    (s'.zonk t).Meets table (s'.Requires table) c := by
  induction h with
  | refl => exact ht
  | tail hmoves hmove ih =>
      exact hmove.meets ordered (Moves.wellFormed ordered wf hmoves) ih

end Store

namespace TypeState

variable {st st' : TypeState} {v : TyVar} {c : ClassId} {t : Ty TyVar}

/-- Classes and instances that are added take nothing back. -/
theorem Meets.change (ht : st.Meets t c) (ordered : st.classes.Ordered)
    {larger : ClassTable} (hchange : st.classes.Change larger) :
    Meets { st with classes := larger } t c := by
  have ordered' := hchange.ordered ordered
  refine Ty.Meets.of_grows ht hchange.grows ordered ordered'
    (st.store.requires_upward ordered) (st.store.requires_upward ordered') ?_
  rintro v d ⟨classes, hclasses, hd⟩
  exact ⟨classes, hclasses,
    ClassSet.implies_of_grows hchange.grows ordered ordered' hd⟩

theorem Meets.action (ht : st.Meets t c) (h : st.WellFormed)
    (haction : Action st st') : st'.Meets t c := by
  rcases haction.change_or_moves h with
    ⟨larger, hchange, rfl⟩ | ⟨s, hmoves, rfl⟩
  · exact ht.change h.ordered hchange
  · exact hmoves.meets h.ordered h.wellFormed ht

theorem Meets.run (ht : st.Meets t c) (h : st.WellFormed)
    (hrun : Run st st') : st'.Meets t c := by
  induction hrun with
  | refl => exact ht
  | tail hbefore haction ih => exact ih.action (h.run hbefore) haction

theorem WellFormed.meets_of_mem (h : st.WellFormed) {classes : ClassSet}
    (hv : st.store.unsolvedClasses? v = some classes)
    (hc : c ∈ classes.members) : st.Meets (.var v) c := by
  rw [Meets, h.wellFormed.zonk_var_unsolved
    (Store.solution?_eq_none_of_unsolved hv)]
  exact ⟨classes, hv, ClassSet.implies_of_mem hc⟩

/-- No requirement is ever lost: what an unsolved variable with a class stands
for at any later time is an instance of the class. -/
theorem requirement_persists (h : st.Arises) {classes : ClassSet}
    (hv : st.store.unsolvedClasses? v = some classes)
    (hc : c ∈ classes.members) (hrun : Run st st') : st'.Meets (.var v) c :=
  (h.wellFormed.meets_of_mem hv hc).run h.wellFormed hrun

/-- `listSession` after its first variable was found to be a list of the
second, and after unification with unit failed. -/
def refusedSession : TypeState :=
  ((listSession.unify (.var ⟨0⟩) (.list (.var ⟨1⟩))).2.unify (.var ⟨0⟩)
    (.con .unit)).2

theorem requirement_persists_list :
    refusedSession.store.zonk (.var ⟨0⟩) = .list (.var ⟨1⟩) ∧
      refusedSession.Meets (.var ⟨0⟩) ⟨0⟩ := by
  have hv : listSession.store.unsolvedClasses? ⟨0⟩ =
      some (.ofList listSession.classes [⟨0⟩]) := rfl
  have hlist : Action listSession
      (listSession.unify (.var ⟨0⟩) (.list (.var ⟨1⟩))).2 :=
    .step (.unify (by decide) (by decide))
  have hrefused : Action _ refusedSession :=
    .step (.unify (by decide) (by decide))
  exact ⟨rfl, requirement_persists listSession_reachable.arises hv (by decide)
    (.tail (.single hlist) hrefused)⟩

end TypeState

end HindleyMilner

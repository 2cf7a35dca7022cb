import HindleyMilner.Proofs.Tightening

/-
Looking through solutions, and the store that is left behind.  Shortening a
chain is the only trace of a look, and nothing that is looked up later depends
on it.  All ways of looking through a type agree on what it stands for: its
spine, its unsolved variables and their occurrences are those of the type
without solved variables.
-/

namespace HindleyMilner

namespace Store

variable {s s' : Store} {v w u : TyVar} {t : Ty TyVar}

/-! ### Stores that look the same -/

/-- Whether two stores cannot be told apart by looking: chains end at the same
variables, types stand for the same, at their tops and throughout, and the same
variables are unsolved, with the same classes. -/
structure LooksSame (s s' : Store) : Prop where
  root_eq : ∀ v, s'.root v = s.root v
  resolve_eq : ∀ t, s'.resolve t = s.resolve t
  zonk_eq : ∀ t, s'.zonk t = s.zonk t
  isUnsolved_eq : ∀ v, s'.isUnsolved v = s.isUnsolved v
  classes?_eq : ∀ v, s'.classes? v = s.classes? v

theorem Shortened.looksSame (h : s.Shortened s') : s.LooksSame s' where
  root_eq := h.steady.root_eq
  resolve_eq := h.resolve_eq
  zonk_eq := h.steady.zonk_eq
  isUnsolved_eq := h.steady.isUnsolved_eq
  classes?_eq v := by
    rw [classes?, classes?, h.steady.root_eq, h.unsolvedClasses?_eq]

/-! ### Pruning -/

/-- What was pruned once is left as it is, and so is the store. -/
theorem WellFormed.prune_prune (wf : s.WellFormed) (t : Ty TyVar) :
    (s.prune t).2.prune (s.prune t).1 = s.prune t := by
  rcases hpruned : s.prune t with ⟨top, s'⟩
  obtain rfl : s.resolve t = top := by rw [← wf.prune_fst, hpruned]
  cases hresolve : s.resolve t with
  | con name => rfl
  | app func arg => rfl
  | var v =>
      have hnone := solution?_prune_eq_none (wf.solution?_of_resolve hresolve) t
      rw [hpruned] at hnone
      exact prune_of_end hnone

theorem WellFormed.mem_passedWithin (wf : s.WellFormed) {n : Nat}
    (hlevel : s.level v ≤ n) (hreach : Relation.ReflTransGen s.Links v w)
    (hlink : s.Links w u) : w ∈ s.passedWithin n v := by
  induction n generalizing v with
  | zero =>
      have hnone := solution?_eq_none_of_level_eq_zero (Nat.le_zero.1 hlevel)
      rcases hreach.cases_head with rfl | ⟨next, hnext, -⟩
      · rw [Links, hnone] at hlink
        contradiction
      · rw [Links, hnone] at hnext
        contradiction
  | succ n ih =>
      rw [passedWithin]
      rcases hreach.cases_head with rfl | ⟨next, hnext, hrest⟩
      · rw [Links] at hlink
        rw [hlink]
        exact List.mem_cons_self
      · have hlower := wf.levelLe_solution hlevel hnext next
          (Ty.mem_vars_var.2 rfl)
        rw [Links] at hnext
        rw [hnext]
        exact List.mem_cons_of_mem v (ih hlower hrest)

/-- After a variable was pruned, all variables on its chain are solved to the
end of the chain. -/
theorem WellFormed.links_prune (wf : s.WellFormed)
    (hreach : Relation.ReflTransGen s.Links v w) (hlink : s.Links w u) :
    (s.prune (.var v)).2.Links w (s.root v) := by
  rw [Links, Store.prune, solution?_compress, if_pos]
  exact wf.mem_passedWithin (s.level_le_size v) hreach hlink

/-! ### Unsolved variables in order -/

/-- Noting variables one after the other lists them in order of first
appearance. -/
theorem pairwise_foldl_note (vs : List TyVar) :
    (vs.foldl note []).Pairwise fun v w => vs.idxOf v < vs.idxOf w := by
  induction vs using List.reverseRecOn with
  | nil => exact .nil
  | append_singleton vs last ih =>
      have hmem {v} (hv : v ∈ vs.foldl note []) : v ∈ vs := by
        simpa using mem_foldl_note.1 hv
      have hbefore : (vs.foldl note []).Pairwise fun v w =>
          (vs ++ [last]).idxOf v < (vs ++ [last]).idxOf w := by
        refine ih.imp_of_mem fun hv hw hlt => ?_
        rwa [List.idxOf_append_of_mem (hmem hv),
          List.idxOf_append_of_mem (hmem hw)]
      rw [List.foldl_append, List.foldl_cons, List.foldl_nil, note]
      split
      · exact hbefore
      · rename_i hnew
        refine List.pairwise_append.2
          ⟨hbefore, List.pairwise_singleton _ _, fun v hv w hw => ?_⟩
        have hlast : last ∉ vs := fun hlast =>
          hnew (mem_foldl_note.2 (.inr hlast))
        rw [List.mem_singleton.1 hw, List.idxOf_append_of_mem (hmem hv),
          List.idxOf_append_of_notMem hlast]
        exact Nat.lt_add_right _ (List.idxOf_lt_length_of_mem (hmem hv))

/-- The variables of a type that has no solved ones left, as they appear from
left to right. -/
theorem pairwise_freeVars (s : Store) (t : Ty TyVar) :
    (s.freeVars t).Pairwise fun v w =>
      (s.zonk t).vars.idxOf v < (s.zonk t).vars.idxOf w := by
  rw [freeVars, addFreeVars_eq]
  exact pairwise_foldl_note _

theorem nodup_freeVars (s : Store) (t : Ty TyVar) : (s.freeVars t).Nodup :=
  (s.pairwise_freeVars t).imp fun hlt heq => by
    rw [heq] at hlt
    exact Nat.lt_irrefl _ hlt

end Store

namespace TypeState

variable {st : TypeState} {t top : Ty TyVar} {s : Store}

/-- Pruning cannot be observed.  It finds what a type resolves to, which is no
solved variable and is pruned to itself, and leaves a store that looks the
same, although all variables on the chain that it followed are now solved to
the end of the chain. -/
theorem prune_unobservable (h : st.Arises)
    (hprune : st.store.prune t = (top, s)) :
    top = st.store.resolve t ∧ (∀ v, top = .var v → s.solution? v = none) ∧
      s.prune top = (top, s) ∧ st.store.LooksSame s ∧
        ∀ v w u, t = .var v → Relation.ReflTransGen st.store.Links v w →
          st.store.Links w u → s.Links w (st.store.root v) := by
  have wf := h.wellFormed.wellFormed
  have hshortened := wf.shortened_prune t
  have htop : (st.store.prune t).1 = st.store.resolve t := wf.prune_fst t
  have hagain := wf.prune_prune t
  rw [hprune] at hshortened htop hagain
  refine ⟨htop, fun v hv => ?_, hagain, hshortened.looksSame, ?_⟩
  · apply hshortened.steady.wellFormed.solution?_of_resolve (t := t)
    rw [hshortened.resolve_eq, ← htop, hv]
  · rintro v w u rfl hreach hlink
    have hlinks := wf.links_prune hreach hlink
    rwa [hprune] at hlinks

def chainedSession : TypeState :=
  let st : TypeState :=
    ⟨.empty, (((Store.empty.fresh "a" ∅).2.fresh "b" ∅).2.fresh "c" ∅).2⟩
  ((st.unify (.var ⟨0⟩) (.var ⟨1⟩)).2.unify (.var ⟨1⟩) (.var ⟨2⟩)).2

theorem chainedSession_arises : chainedSession.Arises := by
  have hvars : TypeState.Arises
      ⟨.empty, (((Store.empty.fresh "a" ∅).2.fresh "b" ∅).2.fresh "c" ∅).2⟩ :=
    ((Relation.ReflTransGen.single (.step (.fresh empty "a" ∅))).tail
      (.step (.fresh _ "b" ∅))).tail (.step (.fresh _ "c" ∅))
  exact (hvars.tail (.step (.unify (by decide) (by decide)))).tail
    (.step (.unify (by decide) (by decide)))

theorem prune_unobservable_chained :
    chainedSession.store.solution? ⟨0⟩ = some (.var ⟨1⟩) ∧
      (chainedSession.store.prune (.var ⟨0⟩)).1 = .var ⟨2⟩ ∧
        (chainedSession.store.prune (.var ⟨0⟩)).2.solution? ⟨0⟩ =
            some (.var ⟨2⟩) ∧
          chainedSession.store.LooksSame
            (chainedSession.store.prune (.var ⟨0⟩)).2 := by
  have hprune := prune_unobservable chainedSession_arises
    (rfl : chainedSession.store.prune (.var ⟨0⟩) = _)
  exact ⟨rfl, hprune.1, hprune.2.2.2.2 _ _ ⟨1⟩ rfl .refl rfl,
    hprune.2.2.2.1⟩

/-- All ways of looking through solutions agree: what a type stands for has no
solved variables and stands for itself, its spine is the spine of the type with
head and arguments looked through, and its variables are the unsolved variables
of the type, each listed once, where it first appears, and the ones that the
occurs check finds. -/
theorem lookups_agree (h : st.Arises) (t : Ty TyVar) :
    (∀ v ∈ (st.store.zonk t).vars, st.store.solution? v = none) ∧
      st.store.zonk (st.store.zonk t) = st.store.zonk t ∧
      (st.store.zonk t).spine = (st.store.zonk (st.store.spine t).1,
        (st.store.spine t).2.map st.store.zonk) ∧
      (st.store.freeVars t).Nodup ∧
      (∀ v, v ∈ st.store.freeVars t ↔ v ∈ (st.store.zonk t).vars) ∧
      ((st.store.freeVars t).Pairwise fun v w =>
        (st.store.zonk t).vars.idxOf v < (st.store.zonk t).vars.idxOf w) ∧
      ∀ v, st.store.occurs v t = true ↔ v ∈ st.store.freeVars t := by
  have wf := h.wellFormed.wellFormed
  refine ⟨fun v => wf.solution?_of_mem_zonk, wf.zonk_zonk t, ?_,
    st.store.nodup_freeVars t, fun v => Store.mem_freeVars,
    st.store.pairwise_freeVars t, fun v => ?_⟩
  · rw [wf.zonk_spine, wf.zonk_spine_head]
  · rw [Store.occurs_eq_true_iff, Store.mem_freeVars]

/-- `chainedSession` with one more variable, after the chain was found to
stand for the constructor of lists. -/
def listedSession : TypeState :=
  ((chainedSession.withStore (chainedSession.store.fresh "d" ∅).2).unify
    (.var ⟨2⟩) (.con .list)).2

theorem listedSession_arises : listedSession.Arises :=
  (chainedSession_arises.tail (.step (.fresh _ "d" ∅))).tail
    (.step (.unify (by decide) (by decide)))

/-- A list of functions to lists, each list with a head that is solved. -/
def listedTy : Ty TyVar :=
  .app (.var ⟨0⟩) (.arrow (.var ⟨3⟩) (.app (.var ⟨1⟩) (.var ⟨3⟩)))

theorem lookups_agree_listed :
    listedSession.store.spine listedTy = (.con .list,
        [.arrow (.var ⟨3⟩) (.app (.var ⟨1⟩) (.var ⟨3⟩))]) ∧
      (listedSession.store.zonk listedTy).spine = (.con .list,
        [.arrow (.var ⟨3⟩) (.list (.var ⟨3⟩))]) ∧
        listedSession.store.freeVars listedTy = [⟨3⟩] ∧
          listedSession.store.occurs ⟨3⟩ listedTy = true := by
  have hagree := lookups_agree listedSession_arises listedTy
  have hfree : listedSession.store.freeVars listedTy = [⟨3⟩] := rfl
  exact ⟨rfl, hagree.2.2.1, hfree,
    (hagree.2.2.2.2.2.2 ⟨3⟩).2 (hfree ▸ List.mem_cons_self)⟩

end TypeState

end HindleyMilner

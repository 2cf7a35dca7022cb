import HindleyMilner.Proofs.Extension

/-
What unification leaves alone.  A run that stays inside what some types lead to
only gives solutions to the variables that these types leave open.  All other
types are what they were with these solutions put in, and what is asked of a
variable is never taken back.
-/

namespace HindleyMilner

namespace Store

variable {table : ClassTable} {s s' : Store} {v : TyVar} {t : Ty TyVar}
  {ts : List (Ty TyVar)} {classes others : ClassSet}

/-- Whether a store is another with a substitution put in for some of its
unsolved variables.  Variables that are still unsolved may have been given
classes, the others have what they had. -/
structure Refines (table : ClassTable) (own : List TyVar)
    (subst : TyVar → Ty TyVar) (s s' : Store) : Prop where
  size_eq : s'.size = s.size
  identity : ∀ ⦃v⦄, v ∉ own → subst v = .var v
  zonk_eq : ∀ t, s'.zonk t = (s.zonk t).bind subst
  unchanged : ∀ ⦃v classes⦄, v ∉ own → s.unsolvedClasses? v = some classes →
    s'.unsolvedClasses? v = some classes
  implied : ∀ ⦃v classes others⦄, s.unsolvedClasses? v = some classes →
    s'.unsolvedClasses? v = some others →
      ∀ ⦃c⦄, classes.implies table c = true → others.implies table c = true

/-- An unsolved variable that some types lead to is one that they leave
open. -/
theorem WellFormed.mem_freeVars_of_reach (wf : s.WellFormed)
    (hv : s.solution? v = none) (h : (Footprint.reach s ts).vars v) :
    v ∈ ts.flatMap s.freeVars := by
  rcases h with ⟨t, ht, w, hw, hreach⟩
  refine List.mem_flatMap.2 ⟨t, ht, mem_freeVars.2 ?_⟩
  rw [wf.zonk_eq_bind, Ty.mem_vars_bind]
  exact ⟨w, hw, wf.mem_zonk_of_reach hv hreach⟩

/-- A variable that some types do not leave open is as it was after a run that
stays inside of what they lead to. -/
theorem Evolves.outside_freeVars (wf : s.WellFormed)
    (h : Evolves table (.reach s ts) s s') (hv : s.solution? v = none)
    (hown : v ∉ ts.flatMap s.freeVars) :
    s'.cells[v.index]? = s.cells[v.index]? :=
  h.outside fun hreach => hown (wf.mem_freeVars_of_reach hv hreach)

/-- What is asked of a variable is asked of it for as long as it is
unsolved. -/
theorem Evolves.implied (ordered : table.Ordered) {F : Footprint}
    (h : Evolves table F s s') (hv : s.unsolvedClasses? v = some classes)
    (hv' : s'.unsolvedClasses? v = some others) {c : ClassId}
    (hc : classes.implies table c = true) :
    others.implies table c = true := by
  -- Looking through all solutions of the later store satisfies the earlier.
  let a := s'.zonkAssignment ordered
  have hsat : s.SatisfiedBy a :=
    h.satisfied a (h.wellFormed.satisfiedBy_zonkAssignment ordered)
  have hmeets : a.Meets (.var v) c :=
    ClassSet.of_implies (a.meets_upward ordered (.var v))
      (hsat.unsolved hv) hc
  rw [Assignment.Meets, h.wellFormed.eval_zonkAssignment ordered,
    h.wellFormed.zonk_var_unsolved (solution?_eq_none_of_unsolved hv')]
    at hmeets
  obtain ⟨found, hfound, hc'⟩ := hmeets
  rw [hv'] at hfound
  rwa [Option.some.inj hfound]

/-- A run that stays inside of what some types lead to puts in solutions for
variables that they leave open. -/
theorem Evolves.exists_refines (ordered : table.Ordered) (wf : s.WellFormed)
    (h : Evolves table (.reach s ts) s s') :
    ∃ subst, Refines table (ts.flatMap s.freeVars) subst s s' := by
  have hextends := h.extends ordered
  refine ⟨fun v => if v ∈ ts.flatMap s.freeVars then s'.zonk (.var v)
    else .var v, h.size_eq, fun v hv => if_neg hv, fun t => ?_,
    fun v classes hv hclasses => ?_, fun v classes others hv hv' c hc =>
      h.implied ordered hv hv' hc⟩
  · rw [← hextends.bind_zonk t]
    apply Ty.bind_congr
    intro v hv
    split
    · rfl
    · rename_i hown
      have hnone := wf.solution?_of_mem_zonk hv
      apply h.wellFormed.zonk_var_unsolved
      rw [solution?, h.outside_freeVars wf hnone hown]
      exact hnone
  · rw [unsolvedClasses?, h.outside_freeVars wf
      (solution?_eq_none_of_unsolved hclasses) hv]
    exact hclasses

end Store

namespace TypeState

variable {st : TypeState} {want got : Ty TyVar}

/-- Unification refines the store, whether it succeeds or fails: it creates no
variables, and it puts in solutions only for variables that its types leave
open. -/
theorem unify_refines (h : st.Arises) (hwant : want.InRange st.store)
    (hgot : got.InRange st.store) :
    ∃ subst, st.store.Refines st.classes
      (st.store.freeVars want ++ st.store.freeVars got) subst
        (st.unify want got).2.store := by
  obtain ⟨ordered, wf⟩ := h.wellFormed
  have hevolves := Store.evolves_unify ordered wf hwant hgot
  rw [unify_snd]
  have hrefines := hevolves.exists_refines ordered wf
  rwa [List.flatMap_cons, List.flatMap_cons, List.flatMap_nil,
    List.append_nil] at hrefines

/-- The first components are made equal, which asks more of the second variable,
before the second components are found to differ. -/
theorem unify_refines_pair :
    let want : Ty TyVar := .parens [.var ⟨0⟩, .con .unit]
    let got : Ty TyVar := .parens [.list (.var ⟨1⟩), .con .char]
    (listSession.unify want got).1 =
        .error ⟨.mismatch (.con .unit) (.con .char), [1]⟩ ∧
      ∃ subst, listSession.store.Refines listSession.classes [⟨0⟩, ⟨1⟩] subst
          (listSession.unify want got).2.store ∧
        subst ⟨0⟩ = .list (.var ⟨1⟩) := by
  intro want got
  have hwant : want.InRange listSession.store := by decide
  have hgot : got.InRange listSession.store := by decide
  obtain ⟨subst, hrefines⟩ :=
    unify_refines listSession_reachable.arises hwant hgot
  exact ⟨rfl, subst, hrefines, (hrefines.zonk_eq (.var ⟨0⟩)).symm⟩

end TypeState

end HindleyMilner

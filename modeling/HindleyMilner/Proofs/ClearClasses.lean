import HindleyMilner.Proofs.Settled

/-
Classes that have no conflict.  Whenever a session gives a variable more
classes, it looks for a conflict first.  So what stands for a variable whose
classes never had one is a type that is no variable, or a variable whose
classes have none either.
-/

namespace HindleyMilner

namespace Store

variable {table : ClassTable} {s s' : Store} {v w : TyVar} {t : Ty TyVar}
  {classes others both : ClassSet}

/-- Whether a variable does not stand for one whose classes have a conflict. -/
def Clear (s : Store) (table : ClassTable) (v : TyVar) : Prop :=
  ∀ ⦃w classes⦄, s.zonk (.var v) = .var w →
    s.unsolvedClasses? w = some classes → table.conflict? classes = none

theorem WellFormed.clear_of_unsolved (wf : s.WellFormed)
    (hv : s.unsolvedClasses? v = some classes)
    (hclear : table.conflict? classes = none) : s.Clear table v := by
  intro w own hw hown
  rw [wf.zonk_var_unsolved (solution?_eq_none_of_unsolved hv)] at hw
  obtain rfl := Ty.var.inj hw
  obtain rfl := Option.some.inj (hv.symm.trans hown)
  exact hclear

theorem Clear.shortened (h : s.Clear table v) (hs' : s.Shortened s') :
    s'.Clear table v := by
  intro w own hw hown
  rw [hs'.steady.zonk_eq] at hw
  rw [hs'.unsolvedClasses?_eq] at hown
  exact h hw hown

theorem Clear.setClasses (h : s.Clear table v) (wf : s.WellFormed)
    (hw : s.unsolvedClasses? w = some classes)
    (hclear : table.conflict? others = none) :
    (s.setBinding w (.unsolved others)).Clear table v := by
  intro u own hu hown
  rw [(wf.steady_setClasses hw others).zonk_eq] at hu
  rw [unsolvedClasses?_setBinding_unsolved (lt_size_of_unsolvedClasses? hw)]
    at hown
  split at hown
  · rwa [← Option.some.inj hown]
  · exact h hu hown

/-- What a variable stands for changes where a solved variable is looked
through that was open before. -/
theorem Extends.zonk_var_cases (h : s.Extends s')
    (hw : s'.zonk (.var v) = .var w) :
    ∃ u, s.zonk (.var v) = .var u ∧ s'.zonk (.var u) = .var w := by
  rw [← h.bind_zonk] at hw
  cases hzonk : s.zonk (.var v) with
  | var u =>
      rw [hzonk] at hw
      exact ⟨u, rfl, hw⟩
  | con name =>
      rw [hzonk] at hw
      contradiction
  | app func arg =>
      rw [hzonk] at hw
      contradiction

/-- Joining two variables cannot bring a conflict to a third, as the classes of
both together have none. -/
theorem Clear.join (h : s.Clear table v) (wf : s.WellFormed) {u : TyVar}
    (hu : s.unsolvedClasses? u = some classes)
    (hw : s.unsolvedClasses? w = some others) (hne : u ≠ w)
    (hclear : table.conflict? both = none) :
    (s.join u w both).Clear table v := by
  intro x own hx hown
  have hextends := wf.extends_join hu hw hne both
  obtain ⟨y, hy, hx⟩ := hextends.zonk_var_cases hx
  rw [unsolvedClasses?_join hu hw hne] at hown
  split at hown
  · contradiction
  split at hown
  · rwa [← Option.some.inj hown]
  · rename_i hnew hold
    have hyu : y ≠ u := by
      rintro rfl
      rw [wf.zonk_join hu hw hne] at hx
      exact hold (Ty.var.inj hx).symm
    -- Any other variable is still open.
    have hyOpen : (s.join u w both).solution? y = none := by
      have hu₁ := unsolvedClasses?_setClasses_of_ne hu hw hne both
      rw [Store.join,
        solution?_setBinding_solved (lt_size_of_unsolvedClasses? hu₁),
        if_neg hyu, solution?_setBinding_unsolved hw]
      exact wf.solution?_of_resolve (wf.resolve_of_zonk_var hy)
    rw [hextends.wellFormed.zonk_var_unsolved hyOpen] at hx
    obtain rfl := Ty.var.inj hx
    exact h hy hown

/-- A variable that is solved has no classes left that could have a conflict. -/
theorem Clear.solve (h : s.Clear table v) (wf : s.WellFormed) {u : TyVar}
    (hu : s.unsolvedClasses? u = some classes) (ht : t.InRange s)
    (hvar : ∀ w, t ≠ .var w) (hoccurs : u ∉ (s.zonk t).vars) :
    (s.setBinding u (.solved t)).Clear table v := by
  intro x own hx hown
  have hlt := lt_size_of_unsolvedClasses? hu
  have hextends := wf.extends_solve hu ht hoccurs
  obtain ⟨y, hy, hx⟩ := hextends.zonk_var_cases hx
  have hyu : y ≠ u := by
    rintro rfl
    rw [wf.zonk_setBinding_solved hu hextends hoccurs] at hx
    exact wf.zonk_ne_var hvar x hx
  have hyOpen : (s.setBinding u (.solved t)).solution? y = none := by
    rw [solution?_setBinding_solved hlt, if_neg hyu]
    exact wf.solution?_of_resolve (wf.resolve_of_zonk_var hy)
  rw [hextends.wellFormed.zonk_var_unsolved hyOpen] at hx
  obtain rfl := Ty.var.inj hx
  rw [unsolvedClasses?_setBinding_solved hlt, if_neg hyu] at hown
  exact h hy hown

theorem Clear.fresh (h : s.Clear table v) (wf : s.WellFormed) (base : String)
    (classes : ClassSet) (hv : v.index < s.size) :
    (s.fresh base classes).2.Clear table v := by
  intro w own hw hown
  have hextends := extends_fresh wf base classes
  have hrange : (Ty.var v).InRange s := Ty.inRange_var hv
  have hzonk : (s.fresh base classes).2.zonk (.var v) = s.zonk (.var v) := by
    apply hextends.zonk_eq
    intro u hu
    rw [solution?_fresh]
    exact wf.solution?_of_mem_zonk hu
  rw [hzonk] at hw
  have hlt := wf.inRange_zonk hrange w (by rw [hw]; exact Ty.mem_vars_var.2 rfl)
  rw [unsolvedClasses?_fresh, if_neg] at hown
  · exact h hw hown
  · rintro rfl
    exact absurd hlt (Nat.lt_irrefl _)

/-- Whether a store of a size is well formed and has a variable that is
clear. -/
structure Clearing (table : ClassTable) (size : Nat) (v : TyVar) (s : Store) :
    Prop where
  size_eq : s.size = size
  wellFormed : s.WellFormed
  clear : s.Clear table v

end Store

open UnifyM

section

variable {table : ClassTable} {size : Nat} {v w u : TyVar} {t : Ty TyVar}

/-- Whether the variables of a type are among the first ones. -/
def Ty.Below (size : Nat) (t : Ty TyVar) : Prop :=
  ∀ v ∈ t.vars, v.index < size

theorem clears_prune (t : Ty TyVar) :
    Keeps (Store.Clearing table size v) (prune t) fun r =>
      t.Below size → r.Below size := by
  intro s hs
  have hshortened := hs.wellFormed.shortened_prune t
  rw [prune_run hs.wellFormed]
  refine ⟨⟨hshortened.steady.size_eq.trans hs.size_eq,
    hshortened.steady.wellFormed, hs.clear.shortened hshortened⟩,
    fun ht => ?_⟩
  rw [Ty.Below, ← hs.size_eq] at ht ⊢
  exact hs.wellFormed.inRange_resolve ht

/-- A class is only added where no conflict comes of it. -/
theorem clears_constrain (w : TyVar) (c : ClassId) :
    Keeps (Store.Clearing table size v) (constrain table w c)
      fun _ => True := by
  intro s hs
  cases hw : s.unsolvedClasses? w with
  | none =>
      simp only [constrain, unsolvedClasses, EStateM.run_bind, EStateM.run_get,
        hw]
      exact hs
  | some classes =>
      rw [constrain_run table hw, Store.constrained]
      cases hinsert : classes.insert? table c with
      | none => exact ⟨hs, trivial⟩
      | some larger =>
          cases hconflict : table.conflict? larger with
          | some pair =>
              simp only [hconflict]
              exact hs
          | none =>
              simp only [hconflict]
              have hsteady := hs.wellFormed.steady_setClasses hw larger
              exact ⟨⟨hsteady.size_eq.trans hs.size_eq, hsteady.wellFormed,
                hs.clear.setClasses hs.wellFormed hw hconflict⟩, trivial⟩

/-- Requirements on a type keep a variable clear, also where they fail half
way. -/
theorem clears_requireWithin (ordered : table.Ordered) (w : TyVar)
    (depth : Nat) (c : ClassId) (t : Ty TyVar) :
    Keeps (Store.Clearing table size v) (requireWithin table w depth c t)
      fun _ => True :=
  .requireWithin ordered (fun t => (clears_prune t).mono fun _ _ => trivial)
    (fun w d _ _ => clears_constrain w d) w depth c t

theorem clears_joinVars (hne : u ≠ w) :
    Keeps (Store.Clearing table size v) (joinVars table u w)
      fun _ => True := by
  intro s hs
  cases hu : s.unsolvedClasses? u with
  | none =>
      simp only [joinVars, unsolvedClasses, EStateM.run_bind, EStateM.run_get,
        hu]
      exact hs
  | some classes =>
      cases hw : s.unsolvedClasses? w with
      | none =>
          rw [joinVars, bind_run_of_ok (unsolvedClasses_run hu)]
          simp only [unsolvedClasses, EStateM.run_bind, EStateM.run_get, hw]
          exact hs
      | some others =>
          rw [joinVars_run table hu hw hne, Store.joined]
          cases hconflict : table.conflict? (classes.union table others) with
          | some pair => exact hs
          | none =>
              have hextends := hs.wellFormed.extends_join hu hw hne
                (classes.union table others)
              refine ⟨⟨?_, hextends.wellFormed,
                hs.clear.join hs.wellFormed hu hw hne hconflict⟩, trivial⟩
              rw [Store.join, Store.size_setBinding, Store.size_setBinding]
              exact hs.size_eq

theorem clears_solveVar (ordered : table.Ordered) (ht : t.Below size)
    (hvar : ∀ w, t ≠ .var w) :
    Keeps (Store.Clearing table size v) (solveVar table u t)
      fun _ => True := by
  intro s hs
  have wf := hs.wellFormed
  cases hu : s.unsolvedClasses? u with
  | none =>
      rw [solveVar, get_bind_run]
      by_cases hoccurs : s.occurs u t = true
      · rw [if_pos hoccurs]
        exact hs
      · rw [if_neg hoccurs]
        simp only [unsolvedClasses, EStateM.run_bind, EStateM.run_get, hu]
        exact hs
  | some classes =>
      rw [solveVar_run ordered wf hu]
      by_cases hoccurs : s.occurs u t = true
      · rw [if_pos hoccurs]
        exact hs
      · rw [if_neg hoccurs]
        have hrequire (s' : Store) (c : ClassId) :
            Keeps (Store.Clearing table size v)
              (requireWithin table u (s'.depthBound t) c t) fun _ => True :=
          clears_requireWithin ordered u (s'.depthBound t) c t
        have hall := Keeps.forM classes.members (fun c _ =>
          keeps_get.bind (R := fun _ => True) fun s' _ => hrequire s' c) hs
        have hs₁ := tightens_requireAll ordered wf u t classes.members
        have hopen : (classes.members.forM fun c => require table u c t) =
          classes.members.forM fun c => get >>= fun s' =>
            requireWithin table u (s'.depthBound t) c t := rfl
        rw [hopen] at hs₁ ⊢
        cases hrun : (classes.members.forM fun c => get >>= fun s' =>
            requireWithin table u (s'.depthBound t) c t).run s with
        | error e s₁ =>
            rw [hrun] at hall
            exact hall
        | ok x s₁ =>
            rw [hrun] at hall hs₁
            change s.Tightened table s₁ at hs₁
            obtain ⟨others, hothers, -⟩ := hs₁.implied hu
            have hnot : u ∉ (s₁.zonk t).vars := by
              rw [hs₁.steady.zonk_eq]
              exact mt Store.occurs_eq_true_iff.2 hoccurs
            have hrange : t.InRange s₁ := by
              rw [Ty.Below, ← hall.1.size_eq] at ht
              exact ht
            refine ⟨⟨?_, (hs₁.steady.wellFormed.extends_solve hothers hrange
              hnot).wellFormed, hall.1.clear.solve hs₁.steady.wellFormed
                hothers hrange hvar hnot⟩, trivial⟩
            rw [Store.size_setBinding]
            exact hall.1.size_eq

/-- Unification keeps a variable clear, also where it fails half way. -/
theorem clears_unifyWithin (ordered : table.Ordered) (depth : Nat)
    {want got : Ty TyVar} (hwant : want.Below size) (hgot : got.Below size) :
    Keeps (Store.Clearing table size v) (unifyWithin table depth want got)
      fun _ => True := by
  refine .unifyWithin (Ty.Below size) clears_prune ?parts
    (fun _ _ => clears_joinVars) (fun _ _ => clears_solveVar ordered) depth
    hwant hgot
  case parts =>
    intro func arg h
    exact ⟨fun v hv => h v (Ty.mem_vars_app.2 (Or.inl hv)),
      fun v hv => h v (Ty.mem_vars_app.2 (Or.inr hv))⟩

end

namespace Store

variable {table : ClassTable} {permit : Permit} {s s' : Store} {v : TyVar}

/-- A variable whose classes have no conflict never stands for one whose classes
have. -/
theorem Clear.move (h : s.Clear table v) (ordered : table.Ordered)
    (wf : s.WellFormed) (hv : v.index < s.size)
    (hmove : Move table permit s s') : s'.Clear table v := by
  cases hmove with
  | @fresh base classes _ => exact h.fresh wf base classes hv
  | @prune t _ => exact h.shortened (wf.shortened_prune t)
  | @unify want got hwant hgot =>
      have hkeeps : Keeps (Clearing table s.size v) (unify table want got)
          fun _ => True :=
        keeps_get.bind fun _ _ =>
          clears_unifyWithin ordered _ hwant.inRange hgot.inRange
      exact (hkeeps.finalState ⟨rfl, wf, h⟩).clear

/-- A variable that is clear stays so. -/
theorem Clear.moves (h : s.Clear table v) (ordered : table.Ordered)
    (wf : s.WellFormed) (hv : v.index < s.size)
    (hmoves : Moves table permit s s') : s'.Clear table v := by
  induction hmoves with
  | refl => exact h
  | tail hbefore hmove ih =>
      exact ih.move ordered (Moves.wellFormed ordered wf hbefore)
        (Nat.lt_of_lt_of_le hv (Moves.size_le ordered wf hbefore)) hmove

end Store

end HindleyMilner

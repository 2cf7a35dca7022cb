import HindleyMilner.Proofs.ClearClasses
import HindleyMilner.Proofs.FailingAgain

/-
Second copies.  When an annotation is instantiated again, as many variables are
made as the first time, in the same order and with the same classes.  So each
new variable of the first run has a second copy, which the first run, where it
went further, is ahead of.
-/

namespace HindleyMilner

/-- Whether a set is reduced and, unless there is a dispute, has no conflict. -/
structure ClassSet.Undisputed (table : ClassTable) (disputed : Prop)
    (set : ClassSet) : Prop where
  reduced : set.Reduced table
  clear : disputed ∨ table.conflict? set = none

namespace Store

variable {table : ClassTable} {permit : Permit} {disputed : Prop}
  {ok : ClassSet → Prop} {base s s' s₁ s₁' s₂ s₂' : Store} {v w : TyVar}
  {t t' : Ty TyVar} {classes : ClassSet}

theorem Moves.satisfied (ordered : table.Ordered) (wf : s.WellFormed)
    (hmoves : Moves table permit s s') (a : Assignment table)
    (ha : s'.SatisfiedBy a) : s.SatisfiedBy a := by
  induction hmoves with
  | refl => exact ha
  | tail hbefore hmove ih =>
      exact ih (hmove.satisfied ordered (Moves.wellFormed ordered wf hbefore)
        a ha)

theorem Moves.extends (ordered : table.Ordered) (wf : s.WellFormed)
    (hmoves : Moves table permit s s') : s.Extends s' :=
  .of_satisfied ordered (hmoves.wellFormed ordered wf)
    (hmoves.size_le ordered wf) (hmoves.satisfied ordered wf)

/-- A variable that was made in a run meets its classes where the run ends. -/
theorem Moves.takes (ordered : table.Ordered) (wf : s.WellFormed)
    (hmoves : Moves table permit s base)
    (hv : s.unsolvedClasses? v = some classes)
    (hclasses : classes.Undisputed table disputed) :
    base.Takes table disputed v classes where
  reduced := hclasses.reduced
  meets c hc := by
    apply hmoves.meets ordered wf
    rw [wf.zonk_var_unsolved (solution?_eq_none_of_unsolved hv)]
    exact ⟨classes, hv, ClassSet.implies_of_mem hc⟩
  clear := by
    refine hclasses.clear.imp_right fun hclear => ?_
    exact (wf.clear_of_unsolved hv hclear).moves ordered wf
      (lt_size_of_unsolvedClasses? hv) hmoves

/-! ### Stores that grow alike -/

/-- Whether two stores have got as many new variables, which are open and have
the same classes on both sides. -/
structure Grown (ok : ClassSet → Prop) (s s' s₁ s₁' : Store) : Prop where
  left : s.PartOf s₁
  right : s'.PartOf s₁'
  solution?_eq : ∀ v, s₁.solution? v = s.solution? v
  size_eq : s₁.size + s'.size = s₁'.size + s.size
  classes : ∀ ⦃k⦄, s.size + k < s₁.size → ∃ classes, ok classes ∧
    s₁.unsolvedClasses? ⟨s.size + k⟩ = some classes ∧
      s₁'.unsolvedClasses? ⟨s'.size + k⟩ = some classes

theorem Grown.refl (wf : s.WellFormed) (wf' : s'.WellFormed) :
    Grown ok s s' s s' where
  left := .refl wf
  right := .refl wf'
  solution?_eq _ := rfl
  size_eq := Nat.add_comm _ _
  classes k hk := absurd hk (Nat.not_lt_of_ge (Nat.le_add_right _ k))

theorem Grown.fresh (h : Grown ok s s' s₁ s₁') (hclasses : ok classes)
    (base base' : String) :
    Grown ok s s' (s₁.fresh base classes).2 (s₁'.fresh base' classes).2 where
  left := h.left.trans (partOf_fresh h.left.wellFormed base classes)
  right := h.right.trans (partOf_fresh h.right.wellFormed base' classes)
  solution?_eq v := by rw [solution?_fresh, h.solution?_eq]
  size_eq := by
    have heq := h.size_eq
    rw [size_fresh, size_fresh]
    omega
  classes k hk := by
    have heq := h.size_eq
    rw [size_fresh] at hk
    simp only [unsolvedClasses?_fresh, TyVar.mk.injEq]
    by_cases hlast : s.size + k = s₁.size
    · rw [if_pos hlast, if_pos (by omega)]
      exact ⟨classes, hclasses, rfl, rfl⟩
    · rw [if_neg hlast, if_neg (by omega)]
      exact h.classes (by omega)

/-- Sends the variables that a store has got to those that another has got in
the same order, and all others to themselves. -/
def renew (s s₁ s' : Store) (v : TyVar) : TyVar :=
  if s.size ≤ v.index ∧ v.index < s₁.size then
    ⟨s'.size + (v.index - s.size)⟩
  else v

theorem index_renew : (renew s s₁ s' v).index =
    if s.size ≤ v.index ∧ v.index < s₁.size then
      s'.size + (v.index - s.size)
    else v.index := by
  rw [renew]
  split <;> rfl

theorem renew_old (hv : v.index < s.size) : renew s s₁ s' v = v :=
  if_neg fun h => absurd hv (Nat.not_lt_of_ge h.1)

theorem renew_new {k : Nat} (hk : s.size + k < s₁.size) :
    renew s s₁ s' ⟨s.size + k⟩ = ⟨s'.size + k⟩ := by
  rw [renew, if_pos ⟨Nat.le_add_right _ k, hk⟩, Nat.add_sub_cancel_left]

theorem twinning_renew (hsize : base.size ≤ s'.size) :
    base.Twinning (renew s s₁ s') where
  same_or_new v _ := by
    rw [renew]
    split
    · exact Or.inr (Nat.le_trans hsize (Nat.le_add_right _ _))
    · exact Or.inl rfl
  injective v w hv hw hnew heq := by
    have hindex := congrArg TyVar.index heq
    rw [index_renew] at hnew
    rw [index_renew, index_renew] at hindex
    have hsame : v.index = w.index := by
      split_ifs at hnew hindex <;> omega
    exact congrArg TyVar.mk hsame

theorem exists_new_of_hasTwin
    (h : base.HasTwin (renew s s₁ s') v) :
    ∃ k, s.size + k < s₁.size ∧ v = ⟨s.size + k⟩ := by
  obtain ⟨hv, hnew⟩ := h
  rw [index_renew] at hnew
  split at hnew
  · rename_i hrange
    obtain ⟨k, hk⟩ := Nat.exists_eq_add_of_le hrange.1
    exact ⟨k, by omega, congrArg TyVar.mk hk⟩
  · exact absurd hv (Nat.not_lt_of_ge hnew)

/-- No variable leads to a new one. -/
theorem Grown.lone (h : Grown ok s s' s₁ s₁') (wf : s.WellFormed)
    (hv : s.size ≤ v.index) : s₁.Lone v := by
  intro u hu
  by_cases hold : u.index < s.size
  · rw [h.left.zonk_var hold] at hu
    have hrange := wf.inRange_zonk (Ty.inRange_var hold) v hu
    exact absurd hrange (Nat.not_lt_of_ge hv)
  · have hsolution : s₁.solution? u = none := by
      rw [h.solution?_eq]
      by_contra hsome
      obtain ⟨t, ht⟩ := Option.ne_none_iff_exists'.1 hsome
      exact hold (lt_size_of_solution? ht)
    rw [h.left.wellFormed.zonk_var_unsolved hsolution, Ty.mem_vars_var] at hu
    exact hu.symm

/-- The second run trails the first one, from the variables on that both have
just made. -/
theorem Grown.trails
    (h : Grown (ClassSet.Undisputed table disputed) s s' s₁ s₁')
    (ordered : table.Ordered) (wf : s.WellFormed)
    (hmoves : Moves table permit s₁ base) (hpart : base.PartOf s') :
    base.Trails table disputed (renew s s₁ s') s₁ s₁' where
  later := hmoves.extends ordered h.left.wellFormed
  partOf := hpart.trans h.right
  twins := twinning_renew hpart.size_le
  lone_or_settled v hv := by
    obtain ⟨k, hk, rfl⟩ := exists_new_of_hasTwin hv
    obtain ⟨classes, hclasses, hfirst, hsecond⟩ := h.classes hk
    rw [renew_new hk]
    exact Or.inl ⟨h.lone wf (Nat.le_add_right _ k), classes, hfirst, hsecond,
      hmoves.takes ordered h.left.wellFormed hfirst hclasses⟩

/-! ### Variables of both runs -/

/-- Whether a variable of the second run stands for what one of the first run
stands for in the end. -/
structure CaughtUp (base s s' : Store) (v w : TyVar) : Prop where
  left : v.index < s.size
  right : w.index < s'.size
  zonk_eq : s'.zonk (.var w) = base.zonk (.var v)

/-- Whether a variable of the second run has caught up with one of the first
run, or both are new and were made in the same order. -/
inductive Renewed (base s s' : Store) : TyVar → TyVar → Prop
  | old {v w : TyVar} (h : base.CaughtUp s s' v w) : Renewed base s s' v w
  | new (k : Nat) : Renewed base s s' ⟨s.size + k⟩ ⟨s'.size + k⟩

theorem CaughtUp.later (h : base.CaughtUp s s' v w) (wf : base.WellFormed)
    (hsize : s.size ≤ s₁.size) (hbase : s.size ≤ base.size)
    (hextends : s'.Extends s₁') (hpart : base.PartOf s₁') :
    base.CaughtUp s₁ s₁' v w where
  left := Nat.lt_of_lt_of_le h.left hsize
  right := Nat.lt_of_lt_of_le h.right hextends.size_le
  zonk_eq := by
    rw [← hextends.bind_zonk, h.zonk_eq, ← hpart.wellFormed.zonk_eq_bind]
    exact hpart.zonk_zonk wf
      (Ty.inRange_var (Nat.lt_of_lt_of_le h.left hbase))

theorem caughtUp_self (hpart : base.PartOf s') (hsize : s.size ≤ base.size)
    (hv : v.index < s.size) : base.CaughtUp s s' v v where
  left := hv
  right := Nat.lt_of_lt_of_le hv (Nat.le_trans hsize hpart.size_le)
  zonk_eq := hpart.zonk_var (Nat.lt_of_lt_of_le hv hsize)

/-- What stays as it is has caught up. -/
theorem alike_renewed (hpart : base.PartOf s') (hsize : s.size ≤ base.size)
    (ht : t.InRange s) : Ty.Alike (Renewed base s s') t t :=
  .of_same fun v hv => .old (caughtUp_self hpart hsize (ht v hv))

/-- Types of both runs are the same but for second copies. -/
theorem Grown.zonk_eq (h : Grown ok s s' s₁ s₁')
    (hpart : base.PartOf s') (hsize : s.size ≤ base.size)
    (ht : Ty.Alike (Renewed base s s') t t') (hrange : t.InRange s₁) :
    s₁'.zonk t' = s₁'.zonk (t.map (renew s s₁ s')) := by
  have wf' := h.right.wellFormed
  induction ht with
  | con name => rfl
  | app _ _ ihFunc ihArg =>
      rw [Ty.map, wf'.zonk_app, wf'.zonk_app,
        ihFunc fun v hv => hrange v (Ty.mem_vars_app.2 (Or.inl hv)),
        ihArg fun v hv => hrange v (Ty.mem_vars_app.2 (Or.inr hv))]
  | var hvar =>
      cases hvar with
      | new k =>
          rw [Ty.map, renew_new (hrange _ (Ty.mem_vars_var.2 rfl))]
      | old hcaught =>
          rw [Ty.map, renew_old hcaught.left, h.right.zonk_var hcaught.right,
            hcaught.zonk_eq, (hpart.trans h.right).zonk_var
              (Nat.lt_of_lt_of_le hcaught.left hsize)]

end Store

/-! ### Copying in both runs -/

open Store

section

variable {table : ClassTable} {disputed : Prop} {ok : ClassSet → Prop}
  {base s s' s₁ s₁' s₂ s₂' : Store} {scope scope' scope₁ scope₁' : Scope}
  {v w : TyVar} {t t' : Ty TyVar} {classes : ClassSet}

/-- Whether two scopes have copied the same variables in the same order, and
their copies are related. -/
def Scope.Alike (rel : TyVar → TyVar → Prop) (scope scope' : Scope) : Prop :=
  List.Forall₂ (fun p q => p.1 = q.1 ∧ rel p.2 q.2) scope.copies
    scope'.copies

theorem Scope.Alike.imp {rel rel' : TyVar → TyVar → Prop}
    (h : Scope.Alike rel scope scope') (himp : ∀ v w, rel v w → rel' v w) :
    Scope.Alike rel' scope scope' :=
  List.Forall₂.imp (fun _ _ ⟨hkey, hcopy⟩ => ⟨hkey, himp _ _ hcopy⟩) h

theorem Scope.alike_empty (rel : TyVar → TyVar → Prop) :
    Scope.Alike rel .empty .empty :=
  .nil

/-- A variable was copied in both scopes or in neither. -/
theorem Scope.Alike.lookup {rel : TyVar → TyVar → Prop}
    (h : Scope.Alike rel scope scope') (v : TyVar) :
    (∃ w w', scope.copies.lookup v = some w ∧
        scope'.copies.lookup v = some w' ∧ rel w w') ∨
      scope.copies.lookup v = none ∧ scope'.copies.lookup v = none :=
  lookup_of_forall₂ h v

/-- Whether the copies in two scopes have caught up, or are new and were made
in the same order, all before the first run came to a store. -/
abbrev Scope.Renews (base s s' s₁ : Store) : Scope → Scope → Prop :=
  Scope.Alike fun v w => Renewed base s s' v w ∧ v.index < s₁.size

/-- What has been done when types have been copied in both runs. -/
structure CopiedAgain (ok : ClassSet → Prop) (base s s' s₁ : Store)
    (first second : Ty TyVar × Scope × Store) : Prop where
  grown : Grown ok s s' first.2.2 second.2.2
  scopes : Scope.Renews base s s' first.2.2 first.2.1 second.2.1
  alike : Ty.Alike (Renewed base s s') first.1 second.1
  used : ∀ ⦃v : TyVar⦄, s₁.size ≤ v.index → v.index < first.2.2.size →
    v ∈ first.1.vars

/-- Whether a variable has the same classes in both stores. -/
def Store.Samples (ok : ClassSet → Prop) (s s' : Store) (v : TyVar) : Prop :=
  ∃ classes, ok classes ∧ s.unsolvedClasses? v = some classes ∧
    s'.unsolvedClasses? v = some classes

theorem Store.Grown.renewed_next (h : Grown ok s s' s₁ s₁') :
    Renewed base s s' ⟨s₁.size⟩ ⟨s₁'.size⟩ := by
  obtain ⟨k, hk⟩ := Nat.exists_eq_add_of_le h.left.size_le
  have heq := h.size_eq
  have hk' : s₁'.size = s'.size + k := by omega
  rw [hk, hk']
  exact .new k

theorem copiedAgain_copy (hgrown : Grown ok s s' s₁ s₁')
    (hscopes : Scope.Renews base s s' s₁ scope scope')
    (hv : Samples ok s s' v) :
    CopiedAgain ok base s s' s₁
      (((Ty.var v).mapVarsM Scope.copy).run (scope, s₁))
      (((Ty.var v).mapVarsM Scope.copy).run (scope', s₁')) := by
  rw [Scope.mapVarsM_var_run, Scope.mapVarsM_var_run]
  rcases hscopes.lookup v with ⟨w, w', hw, hw', hcopy, -⟩ | ⟨hnone, hnone'⟩
  · rw [Scope.copy_run_of_some hw, Scope.copy_run_of_some hw']
    exact ⟨hgrown, hscopes, .var hcopy, fun u hu hlt =>
      absurd hlt (Nat.not_lt_of_ge hu)⟩
  · obtain ⟨classes, hclasses, hfirst, hsecond⟩ := hv
    rw [Scope.copy_run_of_none hnone, Scope.copy_run_of_none hnone',
      hgrown.left.classes_eq (lt_size_of_unsolvedClasses? hfirst),
      hgrown.right.classes_eq (lt_size_of_unsolvedClasses? hsecond),
      hfirst, hsecond, Option.getD_some]
    have hnew : Renewed base s s' ⟨s₁.size⟩ ⟨s₁'.size⟩ := hgrown.renewed_next
    have hsize : s₁.size < (s₁.fresh (s₁.baseOf v) classes).2.size := by simp
    have hlater : Scope.Renews base s s'
        (s₁.fresh (s₁.baseOf v) classes).2 scope scope' :=
      hscopes.imp fun _ _ h => ⟨h.1, h.2.trans hsize⟩
    refine ⟨hgrown.fresh hclasses _ _, .cons ⟨rfl, hnew, hsize⟩ hlater,
      .var hnew, fun u hu hlt => ?_⟩
    simp only [size_fresh] at hlt
    have hindex : u.index = s₁.size :=
      Nat.le_antisymm (Nat.le_of_lt_succ hlt) hu
    rw [Ty.mem_vars_var]
    exact congrArg TyVar.mk hindex

/-- All variables of a type are copied in both runs in the same order. -/
theorem copiedAgain_mapVarsM (hgrown : Grown ok s s' s₁ s₁')
    (hscopes : Scope.Renews base s s' s₁ scope scope')
    (ht : ∀ v ∈ t.vars, Samples ok s s' v) :
    CopiedAgain ok base s s' s₁ ((t.mapVarsM Scope.copy).run (scope, s₁))
      ((t.mapVarsM Scope.copy).run (scope', s₁')) := by
  induction t generalizing scope s₁ scope' s₁' with
  | var v => exact copiedAgain_copy hgrown hscopes (ht v (by simp [Ty.vars]))
  | con name =>
      exact ⟨hgrown, hscopes, .con name, fun u hu hlt =>
        absurd hlt (Nat.not_lt_of_ge hu)⟩
  | app func arg ihFunc ihArg =>
      have hfunc := ihFunc hgrown hscopes
        fun v hv => ht v (Ty.mem_vars_app.2 (Or.inl hv))
      have harg := ihArg hfunc.grown hfunc.scopes
        fun v hv => ht v (Ty.mem_vars_app.2 (Or.inr hv))
      rw [Scope.mapVarsM_app_run, Scope.mapVarsM_app_run]
      refine ⟨harg.grown, harg.scopes, .app hfunc.alike harg.alike,
        fun v hv hlt => Ty.mem_vars_app.2 ?_⟩
      rcases Nat.lt_or_ge v.index
          ((func.mapVarsM Scope.copy).run (scope, s₁)).2.2.size with
        hfirst | hlast
      · exact Or.inl (hfunc.used hv hfirst)
      · exact Or.inr (harg.used hlast hlt)

/-- A type that stands for the same in both stores is instantiated in the same
way. -/
theorem copiedAgain_instantiate (wf : s.WellFormed) (hpart : base.PartOf s')
    (hsize : s.size ≤ base.size) (ht : t.InRange s)
    (hzonk : s'.zonk t = s.zonk t)
    (hscopes : Scope.Renews base s s' s scope scope')
    (hsamples : ∀ v ∈ (s.zonk t).vars, Samples ok s s' v) :
    CopiedAgain ok base s s' s ((Scope.instantiate t).run (scope, s))
      ((Scope.instantiate t).run (scope', s')) := by
  have hgrown : Grown ok s s' s s' := .refl wf hpart.wellFormed
  have hclosed : s'.freeVars t = [] ↔ s.freeVars t = [] := by
    simp only [List.eq_nil_iff_forall_not_mem, Store.mem_freeVars, hzonk]
  rw [Scope.instantiate_run, Scope.instantiate_run]
  by_cases hfree : s.freeVars t = []
  · rw [if_pos hfree, if_pos (hclosed.2 hfree)]
    exact ⟨hgrown, hscopes, alike_renewed hpart hsize ht, fun u hu hlt =>
      absurd hlt (Nat.not_lt_of_ge hu)⟩
  · rw [if_neg hfree, if_neg (mt hclosed.1 hfree), hzonk]
    exact copiedAgain_mapVarsM hgrown hscopes hsamples

/-! ### Scopes that have caught up -/

/-- Whether all copies of the second scope have caught up with those of the
first. -/
abbrev Scope.CaughtUp (base s s' : Store) : Scope → Scope → Prop :=
  Scope.Alike (base.CaughtUp s s')

theorem Scope.CaughtUp.renews (h : Scope.CaughtUp base s s' scope scope') :
    Scope.Renews base s s' s scope scope' :=
  h.imp fun _ _ hcaught => ⟨.old hcaught, hcaught.left⟩

/-- When the types that the copies are in stand for the same, all copies have
caught up. -/
theorem CopiedAgain.caughtUp {first second : Ty TyVar × Scope × Store}
    (h : CopiedAgain ok base s s' s first second) (wf : base.WellFormed)
    (hpart : base.PartOf s') (hsize : first.2.2.size ≤ base.size)
    (hrange : first.1.InRange first.2.2) (hfirst : first.2.2.size ≤ s₂.size)
    (hextends : second.2.2.Extends s₂') (hpart₂ : base.PartOf s₂')
    (hsettled : s₂'.zonk second.1 = base.zonk first.1) :
    Scope.CaughtUp base s₂ s₂' first.2.1 second.2.1 := by
  have hbefore := h.grown.left.size_le
  refine h.scopes.imp fun v w ⟨hrenewed, hlt⟩ => ?_
  cases hrenewed with
  | old hcaught =>
      exact hcaught.later wf (by omega) (by omega)
        ((h.grown.right.extends hpart.wellFormed).trans hextends) hpart₂
  | new k =>
      have hmem := h.used (v := ⟨s.size + k⟩) (Nat.le_add_right _ _) hlt
      have hmap : s₂'.zonk (first.1.map (renew s first.2.2 s')) =
          base.zonk first.1 := by
        rw [← hsettled]
        exact hextends.zonk_congr
          (h.grown.zonk_eq hpart (by omega) h.alike hrange).symm
      rw [hpart₂.wellFormed.zonk_eq_bind, wf.zonk_eq_bind, Ty.map_eq_bind,
        Ty.bind_bind] at hmap
      have hvar := Ty.eq_of_bind_eq hmap hmem
      rw [Ty.bind, renew_new hlt] at hvar
      have heq := h.grown.size_eq
      have hlater := hextends.size_le
      have hk : s.size + k < first.2.2.size := hlt
      have hright : s'.size + k < s₂'.size := by omega
      exact ⟨Nat.lt_of_lt_of_le hlt hfirst, hright, hvar⟩

end

/-! ### Unifying again -/

theorem Ty.Alike.height_eq {V W : Type} {rel : V → W → Prop} {t : Ty V}
    {u : Ty W} (h : Ty.Alike rel t u) : u.height = t.height := by
  induction h with
  | var _ => rfl
  | con name => rfl
  | app _ _ ihFunc ihArg => rw [height, height, ihFunc, ihArg]

namespace Store

variable {table : ClassTable} {permit : Permit} {disputed : Prop}
  {base s s' s₁ s₁' : Store} {t t' want got want' got' : Ty TyVar}

theorem PartOf.depthBound_le (h : base.PartOf s) (ht : t'.height = t.height) :
    base.depthBound t ≤ s.depthBound t' := by
  rw [depthBound, depthBound, ht]
  exact Nat.mul_le_mul (Nat.succ_le_succ h.size_le)
    (Nat.succ_le_succ (max_le_max h.height_le (Nat.le_refl _)))

/-- What is in front of the copies of a got side has caught up. -/
theorem Grown.anchored_settled
    (h : Grown (ClassSet.Undisputed table disputed) s s' s₁ s₁')
    (wf : base.WellFormed) (hpart : base.PartOf s') (hsize : s.size ≤ base.size)
    (ht : t.InRange s) : s₁'.zonk (t.map (renew s s₁ s')) = base.zonk t := by
  rw [← (hpart.trans h.right).zonk_eq wf (ht.of_size_le hsize), Ty.map_eq_bind,
    Ty.bind_congr (g := .var) fun v hv => by rw [renew_old (ht v hv)],
    Ty.bind_var]

/-- A unification that failed in the first run fails in the second. -/
theorem Grown.refails_unify
    (h : Grown (ClassSet.Undisputed table disputed) s s' s₁ s₁')
    (ordered : table.Ordered) (wf : s.WellFormed)
    (hreduced : base.AllClasses (ClassSet.Reduced table))
    (hmoves : Moves table permit s₁ base) (hpart : base.PartOf s')
    (hwant : want.InRange s₁) (hgot : got.InRange s₁) {e : UnifyError}
    (hrun : (unify table want got).run s₁ = .error e base)
    (hwant' : Ty.Alike (Renewed base s s') want want')
    (hgot' : Ty.Alike (Renewed base s s') got got')
    (hanchored : Anchored base s₁' (renew s s₁ s') got) :
    Refails table base disputed s₁ want got e
      ((unify table want' got').run s₁') := by
  have wf₁ := h.left.wellFormed
  have hlater := hmoves.extends ordered wf₁
  have hsize : s.size ≤ base.size :=
    Nat.le_trans h.left.size_le hlater.size_le
  have hsupports : (Footprint.reach s₁ [want, got]).Supports s₁ :=
    .reach wf₁ (by simpa using ⟨hwant, hgot⟩)
  have hcovers : ∀ t ∈ [want, got],
      (Footprint.reach s₁ [want, got]).Covers t := fun t => .reach
  have hdepth := hlater.wellFormed.height_zonk_lt_depthBound
    (hwant.of_size_le hlater.size_le)
  have hbound := (hpart.trans h.right).depthBound_le hwant'.height_eq
  rw [unify_run] at hrun ⊢
  refine refails_unifyWithin ordered hlater.wellFormed hreduced
    (.refl wf₁ hsupports) (hcovers want (by simp)) (hcovers got (by simp))
    (shallow_unify (hcovers want (by simp))) hrun
    ⟨h.trails ordered wf hmoves hpart, h.zonk_eq hpart hsize hwant' hwant,
      h.zonk_eq hpart hsize hgot' hgot, hanchored⟩ ?_
  exact Nat.lt_of_lt_of_le (Nat.lt_of_lt_of_le hdepth hbound)
    (Nat.le_max_left _ _)

/-- Where the first run made two types equal, second copies catch up in the
second run. -/
theorem Grown.caught_unify
    (h : Grown (ClassSet.Undisputed table disputed) s s' s₁ s₁')
    (ordered : table.Ordered) (wf : s.WellFormed)
    (hreduced : base.AllClasses (ClassSet.Reduced table))
    (hmoves : Moves table permit s₁ base) (hpart : base.PartOf s')
    (hwant : want.InRange s₁) (hgot : got.InRange s)
    (hequal : base.zonk want = base.zonk got)
    (hwant' : Ty.Alike (Renewed base s s') want want') :
    Caught base table disputed (renew s s₁ s') s₁' want' want
      ((unify table want' got).run s₁') := by
  have hlater := hmoves.extends ordered h.left.wellFormed
  have hsize : s.size ≤ base.size :=
    Nat.le_trans h.left.size_le hlater.size_le
  have hpart₁ := hpart.trans h.right
  have hgotBase := hgot.of_size_le hsize
  have hsettled : s₁'.zonk got = base.zonk want := by
    rw [hequal, hpart₁.zonk_eq hlater.wellFormed hgotBase]
  have hdepth := hpart₁.wellFormed.height_zonk_lt_depthBound
    (hgotBase.of_size_le hpart₁.size_le)
  rw [hsettled] at hdepth
  rw [unify_run]
  exact (h.trails ordered wf hmoves hpart).behind.caught_unifyWithin ordered
    hlater.wellFormed hreduced (hwant.of_size_le hlater.size_le)
    (h.zonk_eq hpart hsize hwant' hwant) hsettled
    (Nat.lt_of_lt_of_le hdepth (Nat.le_max_right _ _))

end Store

end HindleyMilner

import HindleyMilner.Proofs.Instantiation
import Mathlib.Data.List.Dedup

/-
Instantiation makes a fresh copy of a type.  While the variables of the type are
copied one after the other, the store grows by one variable for each copy, and
nothing that was there before changes.
-/

namespace HindleyMilner

namespace Store

variable {s s' : Store} {v w : TyVar} {t t' : Ty TyVar}
  {rename : TyVar → TyVar}

/-- Whether a type stands for what another one stands for in another store,
but for a renaming of its unsolved variables that keeps their classes. -/
structure IsCopy (s : Store) (t : Ty TyVar) (s' : Store) (t' : Ty TyVar)
    (rename : TyVar → TyVar) : Prop where
  zonk_eq : s'.zonk t' = (s.zonk t).map rename
  injective : ∀ ⦃v w⦄, v ∈ (s.zonk t).vars → w ∈ (s.zonk t).vars →
    rename v = rename w → v = w
  classes_eq : ∀ ⦃v⦄, v ∈ (s.zonk t).vars →
    s'.unsolvedClasses? (rename v) = s.unsolvedClasses? v

/-- Whether a type is a copy over new variables, one for each unsolved variable
of the original, and these are all that has been added to the store. -/
structure IsFreshCopy (s : Store) (t : Ty TyVar) (s' : Store) (t' : Ty TyVar)
    (rename : TyVar → TyVar) : Prop extends IsCopy s t s' t' rename where
  size_eq : s'.size = s.size + (s.zonk t).vars.dedup.length
  new : ∀ ⦃v⦄, v ∈ (s.zonk t).vars →
    s.size ≤ (rename v).index ∧ (rename v).index < s'.size
  old_zonk : ∀ u, s'.zonk u = s.zonk u
  old_classes : ∀ ⦃v : TyVar⦄, v.index < s.size →
    s'.unsolvedClasses? v = s.unsolvedClasses? v

/-- What holds while variables of a store are copied: the store has been
extended by one variable for each copy, with the classes of the original. -/
structure Copying (start : Store) (scope : Scope) (s : Store) : Prop where
  size_eq : s.size = start.size + scope.copies.length
  solution?_eq : ∀ v, s.solution? v = start.solution? v
  old_classes : ∀ ⦃v : TyVar⦄, v.index < start.size →
    s.unsolvedClasses? v = start.unsolvedClasses? v
  keys : (scope.copies.map Prod.fst).Nodup
  values : (scope.copies.map Prod.snd).Nodup
  copied : ∀ ⦃v w⦄, (v, w) ∈ scope.copies →
    start.size ≤ w.index ∧ w.index < s.size ∧
      s.unsolvedClasses? w = start.unsolvedClasses? v

theorem copying_empty (s : Store) : s.Copying .empty s where
  size_eq := rfl
  solution?_eq _ := rfl
  old_classes _ _ := rfl
  keys := List.nodup_nil
  values := List.nodup_nil
  copied _ _ h := absurd h List.not_mem_nil

namespace Copying

variable {start : Store} {scope scope' scope'' : Scope} {classes : ClassSet}

theorem size_le (h : start.Copying scope s) : start.size ≤ s.size := by
  rw [h.size_eq]
  exact Nat.le_add_right _ _

theorem wellFormed (h : start.Copying scope s) (wf : start.WellFormed) :
    s.WellFormed :=
  wf.of_solution?_eq h.size_le h.solution?_eq

theorem zonk_eq (h : start.Copying scope s) (wf : start.WellFormed)
    (t : Ty TyVar) : s.zonk t = start.zonk t := by
  have wf' := h.wellFormed wf
  have hextends : start.Extends s :=
    ⟨wf', h.size_le, fun v u hu =>
      wf'.zonk_var_solved ((h.solution?_eq v).trans hu)⟩
  apply hextends.zonk_eq
  intro v hv
  rw [h.solution?_eq, wf.solution?_of_mem_zonk hv]

/-- A copy that is made is new, and none of those that were made before. -/
theorem fresh (h : start.Copying scope s) (base : String)
    (hv : start.unsolvedClasses? v = some classes)
    (hnone : scope.copies.lookup v = none) :
    start.Copying { scope with copies := (v, ⟨s.size⟩) :: scope.copies }
      (s.fresh base classes).2 where
  size_eq := by
    rw [size_fresh, h.size_eq, List.length_cons, Nat.add_assoc]
  solution?_eq w := by rw [solution?_fresh, h.solution?_eq]
  old_classes w hw := by
    rw [unsolvedClasses?_fresh, if_neg, h.old_classes hw]
    rintro rfl
    exact absurd (Nat.lt_of_lt_of_le hw h.size_le) (Nat.lt_irrefl _)
  keys := by
    rw [List.map_cons, List.nodup_cons]
    refine ⟨fun hmem => ?_, h.keys⟩
    obtain ⟨p, hp, hkey⟩ := List.mem_map.1 hmem
    have hne := List.lookup_eq_none_iff.1 hnone p hp
    rw [hkey] at hne
    simp at hne
  values := by
    rw [List.map_cons, List.nodup_cons]
    refine ⟨fun hmem => ?_, h.values⟩
    obtain ⟨⟨u, w⟩, hp, rfl⟩ := List.mem_map.1 hmem
    exact absurd (h.copied hp).2.1 (Nat.lt_irrefl _)
  copied u w hp := by
    rw [size_fresh, unsolvedClasses?_fresh]
    rcases List.mem_cons.1 hp with heq | hold
    · obtain ⟨rfl, rfl⟩ := Prod.mk.inj heq
      rw [if_pos rfl, hv]
      exact ⟨h.size_le, Nat.lt_succ_self _, rfl⟩
    · obtain ⟨hnew, hlt, hclasses⟩ := h.copied hold
      have hne : w ≠ ⟨s.size⟩ := by
        rintro rfl
        exact absurd hlt (Nat.lt_irrefl _)
      rw [if_neg hne]
      exact ⟨hnew, Nat.lt_succ_of_lt hlt, hclasses⟩

end Copying

/-- What has been done when variables have been copied: each has a copy now,
and copies that there were have been kept. -/
structure Copied (start : Store) (vs : List TyVar) (scope scope' : Scope)
    (s' : Store) : Prop where
  copying : start.Copying scope' s'
  kept : ∀ ⦃v w⦄, scope.copies.lookup v = some w →
    scope'.copies.lookup v = some w
  keys_iff : ∀ v, v ∈ scope'.copies.map Prod.fst ↔
    v ∈ scope.copies.map Prod.fst ∨ v ∈ vs

namespace Copied

variable {start : Store} {scope scope' scope'' : Scope} {vs vs' : List TyVar}
  {classes : ClassSet}

theorem refl (h : start.Copying scope s) : start.Copied [] scope scope s :=
  ⟨h, fun _ _ => id, fun v => by simp⟩

theorem trans (h : start.Copied vs scope scope' s)
    (h' : start.Copied vs' scope' scope'' s') :
    start.Copied (vs ++ vs') scope scope'' s' where
  copying := h'.copying
  kept v w hw := h'.kept (h.kept hw)
  keys_iff v := by rw [h'.keys_iff, h.keys_iff, List.mem_append, or_assoc]

theorem exists_lookup (h : start.Copied vs scope scope' s) (hv : v ∈ vs) :
    ∃ w, scope'.copies.lookup v = some w := by
  obtain ⟨p, hp, rfl⟩ := List.mem_map.1 ((h.keys_iff v).2 (Or.inr hv))
  cases hlookup : scope'.copies.lookup p.1 with
  | some w => exact ⟨w, rfl⟩
  | none => simpa using List.lookup_eq_none_iff.1 hlookup p hp

end Copied

/-- Copying an unsolved variable gives its copy, which is made if there is
none. -/
theorem Copying.exists_copy {start : Store} {scope : Scope}
    {classes : ClassSet} (h : start.Copying scope s)
    (hv : start.unsolvedClasses? v = some classes) :
    ∃ w scope' s', (Scope.copy v).run (scope, s) = (w, (scope', s')) ∧
      scope'.copies.lookup v = some w ∧
        start.Copied [v] scope scope' s' := by
  cases hlookup : scope.copies.lookup v with
  | some w =>
      refine ⟨w, scope, s, Scope.copy_run_of_some hlookup, hlookup, h,
        fun _ _ => id, fun u => ?_⟩
      rw [List.mem_singleton, iff_self_or]
      rintro rfl
      exact List.mem_map.2 ⟨_, mem_of_lookup hlookup, rfl⟩
  | none =>
      have hclasses : (s.unsolvedClasses? v).getD ∅ = classes := by
        rw [h.old_classes (lt_size_of_unsolvedClasses? hv), hv,
          Option.getD_some]
      have hnext := h.fresh (s.baseOf v) hv hlookup
      rw [← hclasses] at hnext
      refine ⟨_, _, _, Scope.copy_run_of_none hlookup,
        by rw [lookup_cons_if, if_pos rfl], hnext, fun u w hw => ?_,
        fun u => ?_⟩
      · have hne : u ≠ v := by
          rintro rfl
          rw [hlookup] at hw
          contradiction
        rwa [lookup_cons_if, if_neg hne]
      · rw [List.map_cons, List.mem_cons, List.mem_singleton, or_comm]

/-- Copying all variables of a type renames them to their copies. -/
theorem Copying.exists_mapVarsM {start : Store} {scope : Scope}
    (h : start.Copying scope s)
    (ht : ∀ v ∈ t.vars, ∃ classes,
      start.unsolvedClasses? v = some classes) :
    ∃ scope' s', (t.mapVarsM Scope.copy).run (scope, s) =
        (t.bind scope'.rename, (scope', s')) ∧
      start.Copied t.vars scope scope' s' := by
  induction t generalizing scope s with
  | var v =>
      obtain ⟨classes, hclasses⟩ := ht v (Ty.mem_vars_var.2 rfl)
      obtain ⟨w, scope', s', hrun, hw, hcopied⟩ := h.exists_copy hclasses
      refine ⟨scope', s', ?_, hcopied⟩
      rw [Scope.mapVarsM_var_run, hrun, Ty.bind, Scope.rename, hw,
        Option.getD_some]
  | con name => exact ⟨scope, s, rfl, .refl h⟩
  | app func arg ihFunc ihArg =>
      obtain ⟨scope₁, s₁, hrun₁, hfunc⟩ := ihFunc h
        fun v hv => ht v (Ty.mem_vars_app.2 (Or.inl hv))
      obtain ⟨scope₂, s₂, hrun₂, harg⟩ := ihArg hfunc.copying
        fun v hv => ht v (Ty.mem_vars_app.2 (Or.inr hv))
      refine ⟨scope₂, s₂, ?_, hfunc.trans harg⟩
      have hrename : func.bind scope₁.rename = func.bind scope₂.rename := by
        apply Ty.bind_congr
        intro v hv
        obtain ⟨w, hw⟩ := hfunc.exists_lookup hv
        rw [Scope.rename, Scope.rename, hw, harg.kept hw]
      rw [Scope.mapVarsM_app_run, hrun₁]
      simp only [hrun₂, Ty.bind, hrename]

/-- A type over unsolved variables stands for itself. -/
theorem WellFormed.zonk_map (wf : s.WellFormed)
    (h : ∀ v ∈ t.vars, s.solution? (rename v) = none) :
    s.zonk (t.map rename) = t.map rename := by
  rw [wf.zonk_eq_bind, Ty.map_eq_bind, Ty.bind_bind]
  exact Ty.bind_congr fun v hv => wf.zonk_var_unsolved (h v hv)

/-- A type without unsolved variables is a copy of itself. -/
theorem isFreshCopy_self (h : s.freeVars t = []) :
    s.IsFreshCopy t s t id := by
  have hnone (v : TyVar) : v ∉ (s.zonk t).vars := by
    rw [← mem_freeVars, h]
    exact List.not_mem_nil
  have hvars : (s.zonk t).vars = [] := List.eq_nil_iff_forall_not_mem.2 hnone
  constructor
  · constructor
    · rw [Ty.map_eq_bind]
      exact (Ty.bind_var _).symm
    · exact fun v w hv => absurd hv (hnone v)
    · exact fun v hv => absurd hv (hnone v)
  · rw [hvars]
    rfl
  · exact fun v hv => absurd hv (hnone v)
  · exact fun _ => rfl
  · exact fun _ _ => rfl

/-- A type whose variables have all been copied in a new scope has become a
fresh copy. -/
theorem Copied.isFreshCopy {scope : Scope} (wf : s.WellFormed)
    (ht : t.InRange s)
    (h : s.Copied (s.zonk t).vars .empty scope s') :
    s.IsFreshCopy t s' ((s.zonk t).bind scope.rename)
      fun v => (scope.copies.lookup v).getD v := by
  have hcopying := h.copying
  have hcopy {v : TyVar} (hv : v ∈ (s.zonk t).vars) :
      (v, (scope.copies.lookup v).getD v) ∈ scope.copies := by
    obtain ⟨w, hw⟩ := h.exists_lookup hv
    rw [hw, Option.getD_some]
    exact mem_of_lookup hw
  have hmap : (s.zonk t).bind scope.rename =
      (s.zonk t).map fun v => (scope.copies.lookup v).getD v :=
    (Ty.map_eq_bind _ _).symm
  constructor
  · constructor
    · rw [hmap]
      apply (hcopying.wellFormed wf).zonk_map
      intro v hv
      obtain ⟨classes, hclasses⟩ :=
        wf.exists_unsolvedClasses?_of_mem_zonk ht hv
      apply solution?_eq_none_of_unsolved
      rw [(hcopying.copied (hcopy hv)).2.2, hclasses]
    · intro v w hv hw heq
      have hsame := List.inj_on_of_nodup_map hcopying.values (hcopy hv)
        (hcopy hw) heq
      exact congrArg Prod.fst hsame
    · exact fun v hv => (hcopying.copied (hcopy hv)).2.2
  · -- the variables that were copied are those of the type, each once
    have hperm : (scope.copies.map Prod.fst).Perm (s.zonk t).vars.dedup :=
      (List.perm_ext_iff_of_nodup hcopying.keys (List.nodup_dedup _)).2
        fun v => by simp [h.keys_iff, Scope.empty]
    rw [hcopying.size_eq, ← hperm.length_eq, List.length_map]
  · intro v hv
    obtain ⟨hnew, hlt, -⟩ := hcopying.copied (hcopy hv)
    exact ⟨hnew, hlt⟩
  · exact hcopying.zonk_eq wf
  · exact fun v hv => hcopying.old_classes hv

theorem IsFreshCopy.size_le (h : s.IsFreshCopy t s' t' rename) :
    s.size ≤ s'.size := by
  rw [h.size_eq]
  exact Nat.le_add_right _ _

/-- What is instantiated in a scope of its own is a fresh copy. -/
theorem WellFormed.exists_isFreshCopy (wf : s.WellFormed) (ht : t.InRange s)
    (hrun : s.inNewScope (Scope.instantiate t) = (t', s')) :
    s'.WellFormed ∧ ∃ rename, s.IsFreshCopy t s' t' rename := by
  have hopen : s.inNewScope (Scope.instantiate t) =
      (((Scope.instantiate t).run (.empty, s)).1,
        ((Scope.instantiate t).run (.empty, s)).2.2) := rfl
  rw [hopen, Scope.instantiate_run] at hrun
  split at hrun
  · rename_i hfree
    cases hrun
    exact ⟨wf, id, isFreshCopy_self hfree⟩
  · obtain ⟨scope, s₁, hcopies, hcopied⟩ :=
      (copying_empty s).exists_mapVarsM fun v hv =>
        wf.exists_unsolvedClasses?_of_mem_zonk ht hv
    rw [hcopies] at hrun
    cases hrun
    exact ⟨hcopied.copying.wellFormed wf, _, hcopied.isFreshCopy wf ht⟩

end Store

end HindleyMilner

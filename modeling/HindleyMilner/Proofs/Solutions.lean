import HindleyMilner.Store
import HindleyMilner.Proofs.TypeShape
import Mathlib.Data.Finset.Card
import Mathlib.Data.Finset.Range
import Mathlib.Logic.Relation
import Mathlib.Tactic.ByContra

/-
Stores whose solutions do not run in a circle.  Every solved variable has a
level, which goes down along solutions and is at most the number of variables.
So the bounded walks through a store end where nothing is left to look
through.
-/

namespace HindleyMilner

def Ty.InRange (s : Store) (t : Ty TyVar) : Prop :=
  ∀ v ∈ t.vars, v.index < s.size

instance (s : Store) (t : Ty TyVar) : Decidable (t.InRange s) :=
  inferInstanceAs (Decidable (∀ v ∈ t.vars, v.index < s.size))

namespace Store

variable {s : Store} {v w : TyVar} {t : Ty TyVar} {classes : ClassSet}

theorem solution?_eq_some_iff : s.solution? v = some t ↔
    ∃ base, s.cells[v.index]? = some ⟨base, .solved t⟩ := by
  unfold solution?
  split <;> simp_all

theorem unsolvedClasses?_eq_some_iff : s.unsolvedClasses? v = some classes ↔
    ∃ base, s.cells[v.index]? = some ⟨base, .unsolved classes⟩ := by
  unfold unsolvedClasses?
  split <;> simp_all

theorem lt_size_of_solution? (h : s.solution? v = some t) :
    v.index < s.size := by
  obtain ⟨base, hcell⟩ := solution?_eq_some_iff.1 h
  exact (Array.getElem?_eq_some_iff.1 hcell).1

theorem lt_size_of_unsolvedClasses? (h : s.unsolvedClasses? v = some classes) :
    v.index < s.size := by
  obtain ⟨base, hcell⟩ := unsolvedClasses?_eq_some_iff.1 h
  exact (Array.getElem?_eq_some_iff.1 hcell).1

theorem solution?_eq_none_of_unsolved
    (h : s.unsolvedClasses? v = some classes) : s.solution? v = none := by
  obtain ⟨base, hcell⟩ := unsolvedClasses?_eq_some_iff.1 h
  simp [solution?, hcell]

theorem unsolvedClasses?_eq_none_of_solved
    (h : (s.solution? v).isSome = true) : s.unsolvedClasses? v = none := by
  rw [Option.eq_none_iff_forall_ne_some]
  intro classes hclasses
  rw [solution?_eq_none_of_unsolved hclasses] at h
  contradiction

/-- An unsolved variable is the end of its chain. -/
theorem root_of_unsolved (h : s.unsolvedClasses? v = some classes) :
    s.root v = v := by
  rw [root]
  cases s.size with
  | zero => rfl
  | succ hops => rw [rootWithin, solution?_eq_none_of_unsolved h]

theorem isUnsolved_of_unsolved (h : s.unsolvedClasses? v = some classes) :
    s.isUnsolved v = true := by
  rw [isUnsolved, h, Option.isSome_some]

/-- A variable of the store is either solved or unsolved. -/
theorem exists_unsolvedClasses? (hrange : v.index < s.size)
    (hnone : s.solution? v = none) :
    ∃ classes, s.unsolvedClasses? v = some classes := by
  obtain ⟨cell, hcell⟩ : ∃ cell, s.cells[v.index]? = some cell :=
    ⟨s.cells[v.index], Array.getElem?_eq_getElem hrange⟩
  rcases cell with ⟨base, binding⟩
  cases binding with
  | solved ty => simp [solution?, hcell] at hnone
  | unsolved classes => exact ⟨classes, by simp [unsolvedClasses?, hcell]⟩

/-! ### Solutions that mention variables -/

def Mentions (s : Store) (v w : TyVar) : Prop :=
  ∃ t, s.solution? v = some t ∧ w ∈ t.vars

/-- A store whose solutions are types over its variables, none of which leads
back to itself. -/
structure WellFormed (s : Store) : Prop where
  inRange : ∀ ⦃v : TyVar⦄ ⦃t : Ty TyVar⦄, s.solution? v = some t → t.InRange s
  acyclic : ∀ v : TyVar, ¬ Relation.TransGen s.Mentions v v

open Classical in
/-- The solved variables that a variable leads to, itself among them. -/
noncomputable def solvedBelow (s : Store) (v : TyVar) : Finset Nat :=
  (Finset.range s.size).filter fun i =>
    s.solution? ⟨i⟩ ≠ none ∧ Relation.ReflTransGen s.Mentions v ⟨i⟩

theorem mem_solvedBelow {i : Nat} : i ∈ s.solvedBelow v ↔
    i < s.size ∧ s.solution? ⟨i⟩ ≠ none ∧
      Relation.ReflTransGen s.Mentions v ⟨i⟩ := by
  classical
  simp only [solvedBelow, Finset.mem_filter, Finset.mem_range]

theorem mem_solvedBelow_self (h : s.solution? v = some t) :
    v.index ∈ s.solvedBelow v :=
  mem_solvedBelow.2 ⟨lt_size_of_solution? h, by simp [h], .refl⟩

/-- The number of solved variables that a variable leads to. -/
noncomputable def level (s : Store) (v : TyVar) : Nat :=
  (s.solvedBelow v).card

/-- There are no more levels than variables. -/
theorem level_le_size (s : Store) (v : TyVar) : s.level v ≤ s.size := by
  classical
  calc s.level v ≤ (Finset.range s.size).card := Finset.card_filter_le _ _
    _ = s.size := Finset.card_range _

theorem solution?_eq_none_of_level_eq_zero (h : s.level v = 0) :
    s.solution? v = none := by
  cases hv : s.solution? v with
  | none => rfl
  | some t =>
      have hmem := mem_solvedBelow_self hv
      rw [Finset.card_eq_zero.1 h] at hmem
      simp at hmem

/-- Levels go down along solutions. -/
theorem WellFormed.level_lt (wf : s.WellFormed) (h : s.Mentions v w) :
    s.level w < s.level v := by
  rcases h with ⟨t, ht, hw⟩
  apply Finset.card_lt_card
  rw [Finset.ssubset_iff_of_subset]
  · refine ⟨v.index, mem_solvedBelow_self ht, fun hmem => ?_⟩
    have hback := (mem_solvedBelow.1 hmem).2.2
    exact wf.acyclic v (Relation.TransGen.head' ⟨t, ht, hw⟩ hback)
  · intro i hi
    obtain ⟨hrange, hsolved, hreach⟩ := mem_solvedBelow.1 hi
    exact mem_solvedBelow.2
      ⟨hrange, hsolved, Relation.ReflTransGen.head ⟨t, ht, hw⟩ hreach⟩

/-- Whether all variables of a type are at a level of at most `n`. -/
def LevelLe (s : Store) (n : Nat) (t : Ty TyVar) : Prop :=
  ∀ v ∈ t.vars, s.level v ≤ n

theorem levelLe_size (s : Store) (t : Ty TyVar) : s.LevelLe s.size t :=
  fun v _ => s.level_le_size v

/-- A solution has its variables at a lower level than the variable that it
solves. -/
theorem WellFormed.levelLe_solution (wf : s.WellFormed) {n : Nat}
    (hv : s.level v ≤ n + 1) (ht : s.solution? v = some t) :
    s.LevelLe n t := by
  intro w hw
  have := wf.level_lt ⟨t, ht, hw⟩
  omega

/-! ### Heights -/

theorem foldl_max_height_le_iff {cells : List Cell} {n m : Nat} :
    cells.foldl (fun highest cell =>
        match cell.binding with
        | .solved ty => max highest ty.height
        | .unsolved _ => highest) m ≤ n ↔
      m ≤ n ∧ ∀ cell ∈ cells, ∀ t, cell.binding = .solved t →
        t.height ≤ n := by
  induction cells generalizing m with
  | nil => simp
  | cons head tail ih =>
      rw [List.foldl_cons, ih, List.forall_mem_cons]
      cases hhead : head.binding with
      | solved t =>
          simp only [Nat.max_le, Binding.solved.injEq, forall_eq', and_assoc]
      | unsolved classes => simp

theorem height_le_iff {n : Nat} : s.height ≤ n ↔
    ∀ ⦃v t⦄, s.solution? v = some t → t.height ≤ n := by
  rw [height, ← Array.foldl_toList]
  apply foldl_max_height_le_iff.trans
  rw [and_iff_right (Nat.zero_le n)]
  constructor
  · intro h v t ht
    obtain ⟨base, hcell⟩ := solution?_eq_some_iff.1 ht
    exact h _ (Array.mem_toList_iff.2 (Array.mem_of_getElem? hcell)) t rfl
  · intro h cell hcell t ht
    obtain ⟨i, hi⟩ := Array.getElem?_of_mem (Array.mem_toList_iff.1 hcell)
    exact h (v := ⟨i⟩) (solution?_eq_some_iff.2 ⟨cell.base, by
      rw [hi, ← ht]⟩)

theorem height_le {n : Nat}
    (h : ∀ ⦃v t⦄, s.solution? v = some t → t.height ≤ n) : s.height ≤ n :=
  height_le_iff.2 h

theorem height_le_of_solution? (h : s.solution? v = some t) :
    t.height ≤ s.height :=
  height_le_iff.1 (Nat.le_refl _) h

/-! ### Chains of variables -/

/-- With enough hops a chain is followed to its end. -/
theorem WellFormed.solution?_rootWithin (wf : s.WellFormed) {n : Nat}
    (hv : s.level v ≤ n) :
    s.solution? (s.rootWithin n v) ≠ some (.var w) := by
  induction n generalizing v with
  | zero =>
      rw [rootWithin, solution?_eq_none_of_level_eq_zero (Nat.le_zero.1 hv)]
      simp
  | succ n ih =>
      rw [rootWithin]
      split
      · rename_i next hnext
        exact ih (wf.levelLe_solution hv hnext next (Ty.mem_vars_var.2 rfl))
      · rename_i hend
        exact hend w

/-- The end of a chain is not solved to a variable. -/
theorem WellFormed.solution?_root (wf : s.WellFormed) (v w : TyVar) :
    s.solution? (s.root v) ≠ some (.var w) :=
  wf.solution?_rootWithin (s.level_le_size v)

/-- What resolves to a variable resolves to an unsolved one. -/
theorem WellFormed.solution?_of_resolve (wf : s.WellFormed)
    (h : s.resolve t = .var v) : s.solution? v = none := by
  cases t with
  | con name => simp [resolve] at h
  | app func arg => simp [resolve] at h
  | var u =>
      simp only [resolve, rootTy] at h
      cases hroot : s.solution? (s.root u) with
      | none =>
          simp only [hroot, Option.getD_none, Ty.var.injEq] at h
          rw [← h, hroot]
      | some solution =>
          simp only [hroot, Option.getD_some] at h
          exact absurd (h ▸ hroot) (wf.solution?_root u v)

/-! ### Looking through solutions everywhere -/

/-- With all solutions looked through, only unsolved variables are left. -/
theorem WellFormed.solution?_of_mem_zonkWithin (wf : s.WellFormed) {n : Nat}
    (ht : s.LevelLe n t) (hv : v ∈ (s.zonkWithin n t).vars) :
    s.solution? v = none := by
  induction n generalizing t with
  | zero =>
      exact solution?_eq_none_of_level_eq_zero (Nat.le_zero.1 (ht v hv))
  | succ n ih =>
      rw [zonkWithin, Ty.mem_vars_bind] at hv
      rcases hv with ⟨w, hw, hv⟩
      split at hv
      · rename_i solution hsolution
        exact ih (wf.levelLe_solution (ht w hw) hsolution) hv
      · rename_i hnone
        rwa [Ty.mem_vars_var.1 hv]

/-- What shows up in a type after looking it up was reached from one of its
variables. -/
theorem exists_reach_of_mem_zonkWithin {n : Nat}
    (hv : v ∈ (s.zonkWithin n t).vars) :
    ∃ w ∈ t.vars, Relation.ReflTransGen s.Mentions w v := by
  induction n generalizing t with
  | zero => exact ⟨v, hv, .refl⟩
  | succ n ih =>
      rw [zonkWithin, Ty.mem_vars_bind] at hv
      rcases hv with ⟨w, hw, hv⟩
      refine ⟨w, hw, ?_⟩
      split at hv
      · rename_i solution hsolution
        obtain ⟨u, hu, hreach⟩ := ih hv
        exact .head ⟨solution, hsolution, hu⟩ hreach
      · rw [Ty.mem_vars_var.1 hv]

/-- Looking through solutions only meets what solutions lead to. -/
theorem exists_reach_of_mem_zonk (hv : v ∈ (s.zonk t).vars) :
    ∃ w ∈ t.vars, Relation.ReflTransGen s.Mentions w v :=
  exists_reach_of_mem_zonkWithin hv

theorem WellFormed.lt_size_of_reach (wf : s.WellFormed)
    (hw : w.index < s.size) (h : Relation.ReflTransGen s.Mentions w v) :
    v.index < s.size := by
  rcases h.cases_tail with rfl | ⟨u, -, solution, hsolution, hmem⟩
  · exact hw
  · exact wf.inRange hsolution v hmem

theorem WellFormed.inRange_zonk (wf : s.WellFormed) (ht : t.InRange s) :
    (s.zonk t).InRange s := by
  intro v hv
  obtain ⟨w, hw, hreach⟩ := exists_reach_of_mem_zonk hv
  exact wf.lt_size_of_reach (ht w hw) hreach

/-- More hops than levels change nothing. -/
theorem WellFormed.zonkWithin_succ (wf : s.WellFormed) {n : Nat}
    (ht : s.LevelLe n t) : s.zonkWithin (n + 1) t = s.zonkWithin n t := by
  induction n generalizing t with
  | zero =>
      rw [zonkWithin, zonkWithin]
      conv_rhs => rw [← t.bind_var]
      apply Ty.bind_congr
      intro v hv
      rw [solution?_eq_none_of_level_eq_zero (Nat.le_zero.1 (ht v hv))]
  | succ n ih =>
      rw [zonkWithin, zonkWithin]
      apply Ty.bind_congr
      intro v hv
      cases hsolution : s.solution? v with
      | none => rfl
      | some solution => exact ih (wf.levelLe_solution (ht v hv) hsolution)

/-- All variables are unsolved in what a type stands for. -/
theorem WellFormed.solution?_of_mem_zonk (wf : s.WellFormed)
    (hv : v ∈ (s.zonk t).vars) : s.solution? v = none :=
  wf.solution?_of_mem_zonkWithin (s.levelLe_size t) hv

theorem WellFormed.exists_unsolvedClasses?_of_mem_zonk (wf : s.WellFormed)
    (ht : t.InRange s) (hv : v ∈ (s.zonk t).vars) :
    ∃ classes, s.unsolvedClasses? v = some classes :=
  exists_unsolvedClasses? (wf.inRange_zonk ht v hv)
    (wf.solution?_of_mem_zonk hv)

/-- The variables of what a type stands for are unsolved. -/
theorem WellFormed.isUnsolved_of_mem_zonk (wf : s.WellFormed)
    (ht : t.InRange s) (hv : v ∈ (s.zonk t).vars) : s.isUnsolved v = true := by
  obtain ⟨classes, hclasses⟩ := wf.exists_unsolvedClasses?_of_mem_zonk ht hv
  exact isUnsolved_of_unsolved hclasses

/-- One more look through solutions does not change the outcome. -/
theorem WellFormed.zonk_eq (wf : s.WellFormed) (t : Ty TyVar) :
    s.zonk t = t.bind fun v =>
      match s.solution? v with
      | some solution => s.zonk solution
      | none => .var v := by
  rw [zonk, ← wf.zonkWithin_succ (s.levelLe_size t), zonkWithin]
  rfl

theorem WellFormed.zonk_var_solved (wf : s.WellFormed)
    (h : s.solution? v = some t) : s.zonk (.var v) = s.zonk t := by
  rw [wf.zonk_eq]
  simp [Ty.bind, h]

theorem WellFormed.zonk_var_unsolved (wf : s.WellFormed)
    (h : s.solution? v = none) : s.zonk (.var v) = .var v := by
  rw [wf.zonk_eq]
  simp [Ty.bind, h]

/-- A type is looked through by looking through its variables. -/
theorem WellFormed.zonk_eq_bind (wf : s.WellFormed) (t : Ty TyVar) :
    s.zonk t = t.bind fun v => s.zonk (.var v) := by
  rw [wf.zonk_eq]
  apply Ty.bind_congr
  intro v _
  cases h : s.solution? v with
  | none => rw [wf.zonk_var_unsolved h]
  | some solution => rw [wf.zonk_var_solved h]

theorem WellFormed.zonk_app (wf : s.WellFormed) (func arg : Ty TyVar) :
    s.zonk (.app func arg) = .app (s.zonk func) (s.zonk arg) := by
  rw [wf.zonk_eq_bind, Ty.bind, ← wf.zonk_eq_bind, ← wf.zonk_eq_bind]

theorem WellFormed.zonk_con (wf : s.WellFormed) (name : Name) :
    s.zonk (.con name) = .con name := by
  rw [wf.zonk_eq_bind, Ty.bind]

/-! ### Occurrences and unsolved variables -/

/-- Looking for a variable inside a type is looking for it in what the type
stands for. -/
theorem occursWithin_eq (s : Store) (v : TyVar) (n : Nat) (t : Ty TyVar) :
    s.occursWithin v n t =
      (s.zonkWithin n t).anyVar fun w => decide (v = w) := by
  induction n generalizing t with
  | zero => rfl
  | succ n ih =>
      rw [occursWithin, zonkWithin, Ty.anyVar_bind]
      congr 1
      funext w
      cases s.solution? w with
      | none => rfl
      | some solution => exact ih solution

/-- The occurs check finds the variables that are left when all solutions are
looked through. -/
theorem occurs_eq_true_iff :
    s.occurs v t = true ↔ v ∈ (s.zonk t).vars := by
  rw [occurs, occursWithin_eq, Ty.anyVar_eq_true_iff]
  simp only [zonk, decide_eq_true_eq]
  constructor
  · rintro ⟨w, hw, rfl⟩
    exact hw
  · intro h
    exact ⟨v, h, rfl⟩

theorem addFreeVarsWithin_eq (s : Store) (n : Nat) (seen : List TyVar)
    (t : Ty TyVar) :
    s.addFreeVarsWithin n seen t = (s.zonkWithin n t).foldVars note seen := by
  induction n generalizing t seen with
  | zero => rfl
  | succ n ih =>
      rw [addFreeVarsWithin, zonkWithin, Ty.foldVars_bind]
      congr 1
      funext seen w
      cases s.solution? w with
      | none => rfl
      | some solution => exact ih seen solution

theorem mem_foldl_note {seen vs : List TyVar} :
    v ∈ vs.foldl note seen ↔ v ∈ seen ∨ v ∈ vs := by
  induction vs generalizing seen with
  | nil => simp
  | cons head tail ih =>
      rw [List.foldl_cons, ih, note]
      split <;> grind

/-- The unsolved variables of a type are listed in the order of what it stands
for. -/
theorem addFreeVars_eq (s : Store) (seen : List TyVar) (t : Ty TyVar) :
    s.addFreeVars seen t = (s.zonk t).vars.foldl note seen := by
  rw [addFreeVars, addFreeVarsWithin_eq, Ty.foldVars_eq_foldl]
  rfl

theorem mem_freeVars : v ∈ s.freeVars t ↔ v ∈ (s.zonk t).vars := by
  rw [freeVars, addFreeVars_eq, mem_foldl_note]
  simp

/-! ### Spines -/

theorem spineWithin_isAtom (s : Store) (n : Nat) (t : Ty TyVar)
    (args : List (Ty TyVar)) : (s.spineWithin n t args).1.IsAtom := by
  induction n generalizing t args with
  | zero => exact Ty.isAtom_spineOnto t args
  | succ n ih =>
      rw [spineWithin]
      have hatom := Ty.isAtom_spineOnto t args
      split
      · split
        · exact ih _ _
        · trivial
      · exact hatom

theorem WellFormed.solution?_of_spineWithin (wf : s.WellFormed) {n : Nat}
    {args : List (Ty TyVar)} (ht : s.LevelLe n t)
    (h : (s.spineWithin n t args).1 = .var v) : s.solution? v = none := by
  induction n generalizing t args with
  | zero =>
      have hlevel := ht v (Ty.mem_vars_of_spineOnto h)
      exact solution?_eq_none_of_level_eq_zero (Nat.le_zero.1 hlevel)
  | succ n ih =>
      rw [spineWithin] at h
      split at h
      · rename_i w rest hspine
        have hw : w ∈ t.vars := Ty.mem_vars_of_spineOnto (by rw [hspine])
        split at h
        · rename_i solution hsolution
          exact ih (wf.levelLe_solution (ht w hw) hsolution) h
        · rename_i hnone
          rwa [← Ty.var.inj h]
      · rename_i hnot
        exact (hnot v (t.spineOnto args).2 (Prod.ext h rfl)).elim

/-- The head of a spine is no application and no solved variable. -/
theorem WellFormed.solution?_of_spine (wf : s.WellFormed)
    (h : (s.spine t).1 = .var v) : s.solution? v = none :=
  wf.solution?_of_spineWithin (s.levelLe_size t) h

theorem spine_isAtom (s : Store) (t : Ty TyVar) : (s.spine t).1.IsAtom :=
  s.spineWithin_isAtom s.size t []

end Store

end HindleyMilner

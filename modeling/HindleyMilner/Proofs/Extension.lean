import HindleyMilner.Proofs.History

/-
Stores that extend others.  Where solutions are only added, what a type stands
for later is what it stood for, looked through once more.  Changes that solve
nothing, such as shortening a chain or changing the classes of a variable,
leave the ends of all chains and the values of all types as they were.
-/

namespace HindleyMilner.Store

variable {s s' s'' : Store} {v w : TyVar} {t : Ty TyVar}
  {classes others : ClassSet}

/-! ### Ends of chains -/

/-- The root of a variable is where its chain ends. -/
theorem WellFormed.root_eq_iff (wf : s.WellFormed) :
    s.root v = w ↔
      Relation.ReflTransGen s.Links v w ∧ ∀ u, ¬ s.Links w u := by
  have hroot : Relation.ReflTransGen s.Links v (s.root v) :=
    s.reflTransGen_links_rootWithin s.size v
  have hend : ∀ u, ¬ s.Links (s.root v) u := wf.solution?_root v
  constructor
  · rintro rfl
    exact ⟨hroot, hend⟩
  · rintro ⟨hreach, hlast⟩
    -- every variable links to one other at most, so chains do not branch
    have hunique : Relator.RightUnique s.Links := fun a b c hb hc => by
      have heq : some (Ty.var b) = some (Ty.var c) := hb.symm.trans hc
      simpa using heq
    rcases Relation.ReflTransGen.total_of_right_unique hunique hroot hreach with
      hmore | hmore
    · rcases hmore.cases_head with heq | ⟨u, hu, -⟩
      · exact heq
      · exact absurd hu (hend u)
    · rcases hmore.cases_head with heq | ⟨u, hu, -⟩
      · exact heq.symm
      · exact absurd hu (hlast u)

theorem WellFormed.root_congr (wf : s.WellFormed) (wf' : s'.WellFormed)
    (h : ∀ a b, s'.Links a b ↔ s.Links a b) (v : TyVar) :
    s'.root v = s.root v := by
  have hlinks : s'.Links = s.Links := by
    funext a b
    exact propext (h a b)
  rw [wf'.root_eq_iff, hlinks]
  exact wf.root_eq_iff.1 rfl

theorem reflTransGen_links_of_mem_passedWithin {n : Nat}
    (hw : w ∈ s.passedWithin n v) : Relation.ReflTransGen s.Links v w :=
  (between_of_mem_passedWithin (fun _ _ => id) hw).1

/-- Shortening a chain leaves the ends of all chains. -/
theorem WellFormed.root_compress (wf : s.WellFormed) (v w : TyVar) :
    (s.compress v).root w = s.root w := by
  obtain ⟨hreach, hend⟩ := wf.root_eq_iff.1 (rfl : s.root w = s.root w)
  rw [(wf.compress v).root_eq_iff]
  generalize s.root w = last at hreach hend
  constructor
  · induction hreach using Relation.ReflTransGen.head_induction_on with
    | refl => exact .refl
    | @head a b hlink hrest ih =>
        by_cases hpassed : a ∈ s.passed v
        · -- then the chain from `a` is the rest of the chain from `v`
          have hroot : s.root v = last := wf.root_eq_iff.2
            ⟨(reflTransGen_links_of_mem_passedWithin hpassed).trans
              (hrest.head hlink), hend⟩
          apply Relation.ReflTransGen.single
          rw [Links, solution?_compress, if_pos hpassed, hroot]
        · refine .head ?_ ih
          rw [Links, solution?_compress, if_neg hpassed]
          exact hlink
  · intro u hu
    rw [Links, solution?_compress] at hu
    split at hu
    · rename_i hpassed
      obtain ⟨next, hnext, -⟩ := solution?_of_mem_passedWithin hpassed
      exact hend next hnext
    · exact hend u hu

/-- Where an unsolved variable is solved to another, what ended at the first
ends at the other. -/
theorem WellFormed.root_setBinding_var (wf : s.WellFormed)
    (hv : s.unsolvedClasses? v = some classes)
    (hw : s.unsolvedClasses? w = some others) (hne : v ≠ w) (u : TyVar) :
    (s.setBinding v (.solved (.var w))).root u =
      if s.root u = v then w else s.root u := by
  have hrange := lt_size_of_unsolvedClasses? hv
  have wf' : (s.setBinding v (.solved (.var w))).WellFormed := by
    apply wf.setBinding_solved hv
    · intro x hx
      rw [Ty.mem_vars_var.1 hx]
      exact lt_size_of_unsolvedClasses? hw
    · rwa [wf.zonk_var_unsolved (solution?_eq_none_of_unsolved hw),
        Ty.mem_vars_var]
  have hlinks (a b : TyVar) : (s.setBinding v (.solved (.var w))).Links a b ↔
      if a = v then b = w else s.Links a b := by
    rw [Links, solution?_setBinding_solved hrange]
    split
    · simp [eq_comm]
    · exact Iff.rfl
  obtain ⟨hreach, hend⟩ := wf.root_eq_iff.1 (rfl : s.root u = s.root u)
  have hmore : Relation.ReflTransGen
      (s.setBinding v (.solved (.var w))).Links u (s.root u) := by
    refine Relation.ReflTransGen.mono (fun a b hlink => ?_) _ _ hreach
    rw [hlinks, if_neg]
    · exact hlink
    · rintro rfl
      rw [Links, solution?_eq_none_of_unsolved hv] at hlink
      contradiction
  rw [wf'.root_eq_iff]
  split
  · rename_i hroot
    rw [hroot] at hmore
    refine ⟨hmore.tail ((hlinks v w).2 (by rw [if_pos rfl])), fun b hb => ?_⟩
    rw [hlinks, if_neg hne.symm, Links, solution?_eq_none_of_unsolved hw]
      at hb
    contradiction
  · rename_i hroot
    refine ⟨hmore, fun b hb => ?_⟩
    rw [hlinks, if_neg hroot] at hb
    exact hend b hb

/-! ### Extensions -/

/-- Whether a store keeps the solutions of another: what a solved variable
stands for is what its solution stands for. -/
structure Extends (s s' : Store) : Prop where
  wellFormed : s'.WellFormed
  size_le : s.size ≤ s'.size
  solved : ∀ ⦃v t⦄, s.solution? v = some t → s'.zonk (.var v) = s'.zonk t

/-- What a type stands for later is what it stood for, looked through once
more. -/
theorem Extends.bind_zonk (h : s.Extends s') (t : Ty TyVar) :
    (s.zonk t).bind (fun v => s'.zonk (.var v)) = s'.zonk t := by
  have heval := h.wellFormed.eval_zonkAssignment ClassTable.ordered_empty
  have hsolved :
      s.SolvedBy (s'.zonkAssignment ClassTable.ordered_empty) := by
    intro v u hu
    rw [heval]
    exact h.solved hu
  rw [← heval t, ← hsolved.eval_zonk t]
  rfl

theorem Extends.zonk_congr (h : s.Extends s') {u : Ty TyVar}
    (heq : s.zonk t = s.zonk u) : s'.zonk t = s'.zonk u := by
  rw [← h.bind_zonk t, ← h.bind_zonk u, heq]

/-- A type whose variables stay unsolved stands for what it stood for. -/
theorem Extends.zonk_eq (h : s.Extends s')
    (hstay : ∀ v ∈ (s.zonk t).vars, s'.solution? v = none) :
    s'.zonk t = s.zonk t := by
  rw [← h.bind_zonk t]
  conv_rhs => rw [← Ty.bind_var (s.zonk t)]
  exact Ty.bind_congr fun v hv => h.wellFormed.zonk_var_unsolved (hstay v hv)

theorem Extends.refl (wf : s.WellFormed) : s.Extends s :=
  ⟨wf, Nat.le_refl _, fun _ _ => wf.zonk_var_solved⟩

theorem Extends.trans (h : s.Extends s') (h' : s'.Extends s'') :
    s.Extends s'' :=
  ⟨h'.wellFormed, Nat.le_trans h.size_le h'.size_le,
    fun _ _ ht => h'.zonk_congr (h.solved ht)⟩

/-- Looking through a type twice is looking through it once. -/
theorem WellFormed.zonk_zonk (wf : s.WellFormed) (t : Ty TyVar) :
    s.zonk (s.zonk t) = s.zonk t := by
  rw [wf.zonk_eq_bind (s.zonk t)]
  exact (Extends.refl wf).bind_zonk t

theorem WellFormed.zonk_resolve (wf : s.WellFormed) (t : Ty TyVar) :
    s.zonk (s.resolve t) = s.zonk t := by
  have hsat := wf.satisfiedBy_zonkAssignment ClassTable.ordered_empty
  have heval := hsat.solved.eval_resolve t
  rwa [wf.eval_zonkAssignment, wf.eval_zonkAssignment] at heval

/-- A store that is harder to satisfy keeps the solutions of another. -/
theorem Extends.of_satisfied {table : ClassTable} (ordered : table.Ordered)
    (wf' : s'.WellFormed) (hsize : s.size ≤ s'.size)
    (hsat : ∀ a : Assignment table, s'.SatisfiedBy a → s.SatisfiedBy a) :
    s.Extends s' where
  wellFormed := wf'
  size_le := hsize
  solved v t ht := by
    have hvalue :=
      (hsat _ (wf'.satisfiedBy_zonkAssignment ordered)).solved ht
    rwa [wf'.eval_zonkAssignment] at hvalue

theorem Evolves.extends {table : ClassTable} {F : Footprint}
    (ordered : table.Ordered) (h : Evolves table F s s') : s.Extends s' :=
  .of_satisfied ordered h.wellFormed h.size_eq.ge h.satisfied

theorem extends_fresh (wf : s.WellFormed) (base : String)
    (classes : ClassSet) : s.Extends (s.fresh base classes).2 where
  wellFormed := wf.fresh base classes
  size_le := by simp
  solved v t ht := (wf.fresh base classes).zonk_var_solved (by simpa using ht)

/-- Solving a variable to a type that it does not occur in. -/
theorem WellFormed.extends_solve (wf : s.WellFormed)
    (hv : s.unsolvedClasses? v = some classes) (ht : t.InRange s)
    (hoccurs : v ∉ (s.zonk t).vars) :
    s.Extends (s.setBinding v (.solved t)) where
  wellFormed := wf.setBinding_solved hv ht hoccurs
  size_le := by simp
  solved w u hu := by
    have hne : w ≠ v := by
      rintro rfl
      rw [solution?_eq_none_of_unsolved hv] at hu
      contradiction
    apply (wf.setBinding_solved hv ht hoccurs).zonk_var_solved
    rw [solution?_setBinding_solved (lt_size_of_unsolvedClasses? hv),
      if_neg hne]
    exact hu

theorem WellFormed.zonk_setBinding_solved (wf : s.WellFormed)
    (hv : s.unsolvedClasses? v = some classes)
    (h : s.Extends (s.setBinding v (.solved t)))
    (hoccurs : v ∉ (s.zonk t).vars) :
    (s.setBinding v (.solved t)).zonk (.var v) = s.zonk t := by
  have hsolution :=
    solution?_setBinding_solved (t := t) (lt_size_of_unsolvedClasses? hv)
  rw [h.wellFormed.zonk_var_solved (by rw [hsolution, if_pos rfl])]
  apply h.zonk_eq
  intro w hw
  have hne : w ≠ v := by
    rintro rfl
    exact hoccurs hw
  rw [hsolution, if_neg hne]
  exact wf.solution?_of_mem_zonk hw

/-- Solving a variable to a type that is none leaves the ends of all
chains. -/
theorem WellFormed.root_setBinding_of_ne_var (wf : s.WellFormed)
    (hv : s.unsolvedClasses? v = some classes) (ht : ∀ w, t ≠ .var w)
    (wf' : (s.setBinding v (.solved t)).WellFormed) (u : TyVar) :
    (s.setBinding v (.solved t)).root u = s.root u := by
  refine wf.root_congr wf' (fun a b => ?_) u
  rw [Links, Links,
    solution?_setBinding_solved (lt_size_of_unsolvedClasses? hv)]
  split
  · rename_i heq
    rw [heq, solution?_eq_none_of_unsolved hv, Option.some.injEq]
    exact iff_of_false (ht b) (by simp)
  · exact Iff.rfl

/-! ### Changes that solve nothing -/

/-- Whether two stores have the same unsolved variables, chains that end at the
same variables and types that stand for the same. -/
structure Steady (s s' : Store) : Prop where
  wellFormed : s'.WellFormed
  size_eq : s'.size = s.size
  isUnsolved_eq : ∀ v, s'.isUnsolved v = s.isUnsolved v
  root_eq : ∀ v, s'.root v = s.root v
  zonk_eq : ∀ t, s'.zonk t = s.zonk t

theorem Steady.refl (wf : s.WellFormed) : s.Steady s :=
  ⟨wf, rfl, fun _ => rfl, fun _ => rfl, fun _ => rfl⟩

theorem Steady.trans (h : s.Steady s') (h' : s'.Steady s'') : s.Steady s'' where
  wellFormed := h'.wellFormed
  size_eq := h'.size_eq.trans h.size_eq
  isUnsolved_eq v := (h'.isUnsolved_eq v).trans (h.isUnsolved_eq v)
  root_eq v := (h'.root_eq v).trans (h.root_eq v)
  zonk_eq t := (h'.zonk_eq t).trans (h.zonk_eq t)

theorem Steady.extends (h : s.Steady s') (wf : s.WellFormed) :
    s.Extends s' where
  wellFormed := h.wellFormed
  size_le := Nat.le_of_eq h.size_eq.symm
  solved v t ht := by rw [h.zonk_eq, h.zonk_eq, wf.zonk_var_solved ht]

theorem solution?_compress_eq_none (h : s.solution? w = none) (v : TyVar) :
    (s.compress v).solution? w = none := by
  rw [solution?_compress, if_neg]
  · exact h
  · intro hpassed
    obtain ⟨next, hnext, -⟩ := solution?_of_mem_passedWithin hpassed
    rw [h] at hnext
    contradiction

theorem WellFormed.steady_compress (wf : s.WellFormed) (v : TyVar) :
    s.Steady (s.compress v) where
  wellFormed := wf.compress v
  size_eq := size_compress s v
  isUnsolved_eq w := by simp [isUnsolved]
  root_eq := wf.root_compress v
  zonk_eq t := by
    have hextends : s.Extends (s.compress v) :=
      .of_satisfied ClassTable.ordered_empty (wf.compress v) (by simp)
        fun a => (satisfiedBy_compress_iff v).1
    apply hextends.zonk_eq
    intro w hw
    exact solution?_compress_eq_none (wf.solution?_of_mem_zonk hw) v

theorem solution?_prune_eq_none (h : s.solution? v = none) (t : Ty TyVar) :
    (s.prune t).2.solution? v = none := by
  cases t with
  | var w => exact solution?_compress_eq_none h w
  | con name => exact h
  | app func arg => exact h

theorem WellFormed.steady_prune (wf : s.WellFormed) (t : Ty TyVar) :
    s.Steady (s.prune t).2 := by
  cases t with
  | var v => exact wf.steady_compress v
  | con name => exact .refl wf
  | app func arg => exact .refl wf

/-- Only solutions matter to chains and to what types stand for. -/
theorem WellFormed.steady_of_solution?_eq (wf : s.WellFormed)
    (hsize : s'.size = s.size)
    (hunsolved : ∀ v, s'.isUnsolved v = s.isUnsolved v)
    (hsolution : ∀ v, s'.solution? v = s.solution? v) : s.Steady s' := by
  have wf' := wf.of_solution?_eq (Nat.le_of_eq hsize.symm) hsolution
  refine ⟨wf', hsize, hunsolved, ?_, fun t => ?_⟩
  · exact wf.root_congr wf' fun a b => by rw [Links, hsolution, Links]
  · have hextends : s.Extends s' :=
      ⟨wf', Nat.le_of_eq hsize.symm, fun w u hu =>
        wf'.zonk_var_solved (by rw [hsolution, hu])⟩
    apply hextends.zonk_eq
    intro w hw
    rw [hsolution]
    exact wf.solution?_of_mem_zonk hw

theorem WellFormed.steady_setClasses (wf : s.WellFormed)
    (hv : s.unsolvedClasses? v = some classes) (others : ClassSet) :
    s.Steady (s.setBinding v (.unsolved others)) := by
  refine wf.steady_of_solution?_eq (by simp) (fun w => ?_)
    (solution?_setBinding_unsolved hv others)
  rw [isUnsolved, unsolvedClasses?_setBinding_unsolved
    (lt_size_of_unsolvedClasses? hv)]
  split
  · rename_i heq
    rw [heq, isUnsolved, hv]
    rfl
  · rfl

/-! ### Joining variables -/

section

variable {both : ClassSet} (wf : s.WellFormed)
  (hv : s.unsolvedClasses? v = some classes)
  (hw : s.unsolvedClasses? w = some others) (hne : v ≠ w)

include wf hv hw hne

theorem WellFormed.extends_join (both : ClassSet) :
    s.Extends (s.join v w both) := by
  have hsteady := wf.steady_setClasses hw both
  have hw₁ : (s.setBinding w (.unsolved both)).unsolvedClasses? w =
      some both := by
    rw [unsolvedClasses?_setBinding_unsolved (lt_size_of_unsolvedClasses? hw),
      if_pos rfl]
  refine (hsteady.extends wf).trans (hsteady.wellFormed.extends_solve
    (unsolvedClasses?_setClasses_of_ne hv hw hne both) ?_ ?_)
  · intro u hu
    rw [Ty.mem_vars_var.1 hu]
    exact lt_size_of_unsolvedClasses? hw₁
  · rwa [hsteady.wellFormed.zonk_var_unsolved
      (solution?_eq_none_of_unsolved hw₁), Ty.mem_vars_var]

theorem WellFormed.zonk_join_self :
    (s.join v w both).zonk (.var w) = .var w :=
  (wf.extends_join hv hw hne both).wellFormed.zonk_var_unsolved
    (solution?_eq_none_of_unsolved (unsolvedClasses?_join_self hv hw hne))

theorem WellFormed.zonk_join :
    (s.join v w both).zonk (.var v) = .var w := by
  have hv₁ := unsolvedClasses?_setClasses_of_ne hv hw hne both
  have hsolved : (s.join v w both).solution? v = some (.var w) := by
    rw [join, solution?_setBinding_solved (lt_size_of_unsolvedClasses? hv₁),
      if_pos rfl]
  rw [(wf.extends_join hv hw hne both).wellFormed.zonk_var_solved hsolved]
  exact wf.zonk_join_self hv hw hne

theorem WellFormed.root_join (u : TyVar) :
    (s.join v w both).root u = if s.root u = v then w else s.root u := by
  have hsteady := wf.steady_setClasses hw both
  have hw₁ : (s.setBinding w (.unsolved both)).unsolvedClasses? w =
      some both := by
    rw [unsolvedClasses?_setBinding_unsolved (lt_size_of_unsolvedClasses? hw),
      if_pos rfl]
  rw [join, hsteady.wellFormed.root_setBinding_var
    (unsolvedClasses?_setClasses_of_ne hv hw hne both) hw₁ hne, hsteady.root_eq]

end

end HindleyMilner.Store

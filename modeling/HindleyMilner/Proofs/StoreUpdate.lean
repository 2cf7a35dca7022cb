import HindleyMilner.Proofs.Solutions

/-
What the changes of a store do to it: a fresh variable, other classes, a
solution, the join of two variables, and the shortening of a chain.  None of
them makes solutions run in a circle, as long as a variable is only solved to a
type it does not occur in.
-/

namespace HindleyMilner

theorem Ty.InRange.of_size_le {s s' : Store} {t : Ty TyVar}
    (ht : t.InRange s) (hsize : s.size ≤ s'.size) : t.InRange s' :=
  fun v hv => Nat.lt_of_lt_of_le (ht v hv) hsize

theorem Ty.inRange_var {s : Store} {v : TyVar} (hv : v.index < s.size) :
    (Ty.var v).InRange s := by
  intro w hw
  rwa [mem_vars_var.1 hw]

namespace Store

variable {s s' : Store} {v w u : TyVar} {t : Ty TyVar}
  {classes : ClassSet}

theorem WellFormed.of_solution?_eq (wf : s.WellFormed)
    (hsize : s.size ≤ s'.size) (h : ∀ v, s'.solution? v = s.solution? v) :
    s'.WellFormed := by
  have hmentions : s'.Mentions = s.Mentions := by
    funext v w
    simp only [Mentions, h]
  constructor
  · intro v t ht
    rw [h] at ht
    exact (wf.inRange ht).of_size_le hsize
  · rw [hmentions]
    exact wf.acyclic

theorem wellFormed_empty : empty.WellFormed := by
  have hnone (v : TyVar) : empty.solution? v = none := by
    simp [solution?, empty]
  constructor
  · intro v t ht
    rw [hnone] at ht
    contradiction
  · intro v hcycle
    obtain ⟨w, ⟨t, ht, -⟩, -⟩ := Relation.TransGen.head'_iff.1 hcycle
    rw [hnone] at ht
    contradiction

/-! ### Fresh variables -/

variable {base : String}

@[simp] theorem fresh_fst : (s.fresh base classes).1 = ⟨s.size⟩ := rfl

@[simp] theorem size_fresh : (s.fresh base classes).2.size = s.size + 1 := by
  simp [fresh, size]

theorem getElem?_cells_fresh (v : TyVar) (hv : v.index ≠ s.size) :
    (s.fresh base classes).2.cells[v.index]? = s.cells[v.index]? := by
  simp only [fresh, Array.getElem?_push]
  exact if_neg hv

@[simp] theorem solution?_fresh (v : TyVar) :
    (s.fresh base classes).2.solution? v = s.solution? v := by
  by_cases hv : v.index = s.size
  · have hout : s.cells[v.index]? = none := by
      rw [hv]
      exact Array.getElem?_size
    have hnew : (s.fresh base classes).2.cells[v.index]? =
        some ⟨base, .unsolved classes⟩ := by
      simp only [fresh, Array.getElem?_push]
      exact if_pos hv
    rw [solution?, solution?, hout, hnew]
  · rw [solution?, solution?, getElem?_cells_fresh v hv]

theorem unsolvedClasses?_fresh (v : TyVar) :
    (s.fresh base classes).2.unsolvedClasses? v =
      if v = ⟨s.size⟩ then some classes else s.unsolvedClasses? v := by
  by_cases hv : v.index = s.size
  · have hnew : (s.fresh base classes).2.cells[v.index]? =
        some ⟨base, .unsolved classes⟩ := by
      simp only [fresh, Array.getElem?_push]
      exact if_pos hv
    have heq : v = ⟨s.size⟩ := by
      cases v
      exact congrArg TyVar.mk hv
    rw [if_pos heq, unsolvedClasses?, hnew]
  · have hne : v ≠ ⟨s.size⟩ := fun heq => hv (congrArg TyVar.index heq)
    rw [if_neg hne, unsolvedClasses?, unsolvedClasses?,
      getElem?_cells_fresh v hv]

/-- Creating a variable keeps a store well formed. -/
theorem WellFormed.fresh (wf : s.WellFormed) (base : String)
    (classes : ClassSet) : (s.fresh base classes).2.WellFormed :=
  wf.of_solution?_eq (by simp) solution?_fresh

/-! ### Another binding -/

@[simp] theorem size_setBinding (s : Store) (v : TyVar) (binding : Binding) :
    (s.setBinding v binding).size = s.size := by
  simp [setBinding, size]

theorem getElem?_cells_setBinding_of_ne {binding : Binding} (hne : w ≠ v) :
    (s.setBinding v binding).cells[w.index]? = s.cells[w.index]? := by
  have hindex : v.index ≠ w.index := by
    intro heq
    apply hne
    cases v
    cases w
    exact congrArg TyVar.mk heq.symm
  simp only [setBinding, Array.getElem?_modify, if_neg hindex]

theorem getElem?_cells_setBinding_self (hrange : v.index < s.size)
    (binding : Binding) :
    ∃ base, (s.setBinding v binding).cells[v.index]? =
      some ⟨base, binding⟩ := by
  obtain ⟨cell, hcell⟩ : ∃ cell, s.cells[v.index]? = some cell :=
    ⟨s.cells[v.index], Array.getElem?_eq_getElem hrange⟩
  refine ⟨cell.base, ?_⟩
  rw [setBinding, Array.getElem?_modify, if_pos rfl, hcell]
  rfl

theorem solution?_setBinding_solved (hrange : v.index < s.size)
    (w : TyVar) :
    (s.setBinding v (.solved t)).solution? w =
      if w = v then some t else s.solution? w := by
  by_cases heq : w = v
  · subst heq
    obtain ⟨base, hcell⟩ :=
      getElem?_cells_setBinding_self hrange (.solved t)
    rw [if_pos rfl, solution?, hcell]
  · rw [if_neg heq, solution?, solution?,
      getElem?_cells_setBinding_of_ne heq]

/-- A variable that is solved has no classes any more; all others keep
theirs. -/
theorem unsolvedClasses?_setBinding_solved (hrange : v.index < s.size)
    (w : TyVar) :
    (s.setBinding v (.solved t)).unsolvedClasses? w =
      if w = v then none else s.unsolvedClasses? w := by
  by_cases heq : w = v
  · subst heq
    obtain ⟨base, hcell⟩ :=
      getElem?_cells_setBinding_self hrange (.solved t)
    rw [if_pos rfl, unsolvedClasses?, hcell]
  · rw [if_neg heq, unsolvedClasses?, unsolvedClasses?,
      getElem?_cells_setBinding_of_ne heq]

/-- A variable that gets other classes stays unsolved. -/
theorem solution?_setBinding_unsolved
    (h : s.unsolvedClasses? v = some classes) (others : ClassSet)
    (w : TyVar) :
    (s.setBinding v (.unsolved others)).solution? w = s.solution? w := by
  by_cases heq : w = v
  · subst heq
    obtain ⟨base, hcell⟩ := getElem?_cells_setBinding_self
      (lt_size_of_unsolvedClasses? h) (.unsolved others)
    rw [solution?_eq_none_of_unsolved h, solution?, hcell]
  · rw [solution?, solution?, getElem?_cells_setBinding_of_ne heq]

theorem unsolvedClasses?_setBinding_unsolved (hrange : v.index < s.size)
    (w : TyVar) :
    (s.setBinding v (.unsolved classes)).unsolvedClasses? w =
      if w = v then some classes else s.unsolvedClasses? w := by
  by_cases heq : w = v
  · subst heq
    obtain ⟨base, hcell⟩ := getElem?_cells_setBinding_self hrange
      (.unsolved classes)
    rw [if_pos rfl, unsolvedClasses?, hcell]
  · rw [if_neg heq, unsolvedClasses?, unsolvedClasses?,
      getElem?_cells_setBinding_of_ne heq]

theorem WellFormed.setBinding_unsolved (wf : s.WellFormed)
    (h : s.unsolvedClasses? v = some classes) (others : ClassSet) :
    (s.setBinding v (.unsolved others)).WellFormed :=
  wf.of_solution?_eq (by simp) (solution?_setBinding_unsolved h others)

/-! ### Solving -/

/-- An unsolved variable that is reached stays in what the start of the path
stands for. -/
theorem WellFormed.mem_zonk_of_reach (wf : s.WellFormed)
    (hv : s.solution? v = none)
    (h : Relation.ReflTransGen s.Mentions w v) :
    v ∈ (s.zonk (.var w)).vars := by
  induction h using Relation.ReflTransGen.head_induction_on with
  | refl => simp [wf.zonk_var_unsolved hv]
  | head hstep _ ih =>
      rcases hstep with ⟨t, ht, hmem⟩
      rw [wf.zonk_var_solved ht, wf.zonk_eq_bind, Ty.mem_vars_bind]
      exact ⟨_, hmem, ih⟩

/-- Where `v` is solved to `t`, what solutions lead to is what they led to
before, or they pass through `v` and a variable of `t`. -/
theorem transGen_setBinding_solved (hrange : v.index < s.size)
    (h : Relation.TransGen (s.setBinding v (.solved t)).Mentions u w) :
    Relation.TransGen s.Mentions u w ∨
      Relation.ReflTransGen s.Mentions u v ∧
        ∃ x ∈ t.vars, Relation.ReflTransGen s.Mentions x w := by
  have hstep {x y : TyVar} (hxy : (s.setBinding v (.solved t)).Mentions x y) :
      x = v ∧ y ∈ t.vars ∨ s.Mentions x y := by
    rcases hxy with ⟨solution, hsolution, hy⟩
    rw [solution?_setBinding_solved hrange] at hsolution
    split at hsolution
    · rename_i heq
      exact Or.inl ⟨heq, Option.some.inj hsolution ▸ hy⟩
    · exact Or.inr ⟨solution, hsolution, hy⟩
  induction h with
  | single hlast =>
      rcases hstep hlast with ⟨rfl, hmem⟩ | hold
      · exact Or.inr ⟨.refl, _, hmem, .refl⟩
      · exact Or.inl (.single hold)
  | tail _ hlast ih =>
      rcases hstep hlast with ⟨rfl, hmem⟩ | hold
      · rcases ih with hold | ⟨hreach, -⟩
        · exact Or.inr ⟨hold.to_reflTransGen, _, hmem, .refl⟩
        · exact Or.inr ⟨hreach, _, hmem, .refl⟩
      · rcases ih with hbefore | ⟨hreach, x, hx, hrest⟩
        · exact Or.inl (hbefore.tail hold)
        · exact Or.inr ⟨hreach, x, hx, hrest.tail hold⟩

/-- Solving a variable to a type that it does not occur in leaves no
circle. -/
theorem WellFormed.setBinding_solved (wf : s.WellFormed)
    (h : s.unsolvedClasses? v = some classes) (ht : t.InRange s)
    (hoccurs : v ∉ (s.zonk t).vars) :
    (s.setBinding v (.solved t)).WellFormed := by
  have hrange := lt_size_of_unsolvedClasses? h
  have hfree := solution?_eq_none_of_unsolved h
  have hback : ∀ x ∈ t.vars, ¬ Relation.ReflTransGen s.Mentions x v := by
    intro x hx hreach
    apply hoccurs
    rw [wf.zonk_eq_bind, Ty.mem_vars_bind]
    exact ⟨x, hx, wf.mem_zonk_of_reach hfree hreach⟩
  constructor
  · intro w solution hsolution
    rw [solution?_setBinding_solved hrange] at hsolution
    split at hsolution
    · obtain rfl := Option.some.inj hsolution
      exact ht.of_size_le (by simp)
    · exact (wf.inRange hsolution).of_size_le (by simp)
  · intro w hcycle
    rcases transGen_setBinding_solved hrange hcycle with
      hold | ⟨hreach, x, hx, hrest⟩
    · exact wf.acyclic w hold
    · exact hback x hx (hrest.trans hreach)

/-! ### Joining variables -/

def join (s : Store) (v w : TyVar) (classes : ClassSet) : Store :=
  (s.setBinding w (.unsolved classes)).setBinding v (.solved (.var w))

section

variable {others both : ClassSet}
  (hv : s.unsolvedClasses? v = some classes)
  (hw : s.unsolvedClasses? w = some others) (hne : v ≠ w)

include hv hw hne

theorem unsolvedClasses?_setClasses_of_ne (both : ClassSet) :
    (s.setBinding w (.unsolved both)).unsolvedClasses? v = some classes := by
  rw [unsolvedClasses?_setBinding_unsolved (lt_size_of_unsolvedClasses? hw),
    if_neg hne]
  exact hv

theorem unsolvedClasses?_join (u : TyVar) :
    (s.join v w both).unsolvedClasses? u =
      if u = v then none else if u = w then some both
      else s.unsolvedClasses? u := by
  have hv₁ := unsolvedClasses?_setClasses_of_ne hv hw hne both
  rw [join, unsolvedClasses?_setBinding_solved
      (lt_size_of_unsolvedClasses? hv₁),
    unsolvedClasses?_setBinding_unsolved (lt_size_of_unsolvedClasses? hw)]

theorem unsolvedClasses?_join_self :
    (s.join v w both).unsolvedClasses? w = some both := by
  rw [unsolvedClasses?_join hv hw hne, if_neg hne.symm, if_pos rfl]

end

/-! ### Shortening a chain -/

theorem eq_rootWithin_or_mem_passedWithin (s : Store) (n : Nat) (v : TyVar) :
    v = s.rootWithin n v ∨ v ∈ s.passedWithin n v := by
  cases n with
  | zero => exact Or.inl rfl
  | succ n =>
      rw [rootWithin, passedWithin]
      split
      · exact Or.inr List.mem_cons_self
      · exact Or.inl rfl

/-- A variable that a chain passes is solved to the next one, or to the end
of the chain. -/
theorem solution?_of_mem_passedWithin {n : Nat}
    (hw : w ∈ s.passedWithin n v) :
    ∃ next, s.solution? w = some (.var next) ∧
      (next = s.rootWithin n v ∨ next ∈ s.passedWithin n v) := by
  induction n generalizing v with
  | zero => simp [passedWithin] at hw
  | succ n ih =>
      rw [passedWithin] at hw ⊢
      rw [rootWithin]
      split at hw
      · rename_i first hfirst
        rcases List.mem_cons.1 hw with rfl | hrest
        · refine ⟨first, hfirst, ?_⟩
          rcases s.eq_rootWithin_or_mem_passedWithin n first with heq | hmem
          · exact Or.inl heq
          · exact Or.inr (List.mem_cons_of_mem _ hmem)
        · obtain ⟨next, hnext, hplace⟩ := ih hrest
          refine ⟨next, hnext, ?_⟩
          rcases hplace with heq | hmem
          · exact Or.inl heq
          · exact Or.inr (List.mem_cons_of_mem _ hmem)
      · simp at hw

/-- A chain leads along any relation that a variable has to the variable that
it is solved to. -/
theorem reflTransGen_rootWithin_of {R : TyVar → TyVar → Prop} (s : Store)
    (hR : ∀ ⦃v w⦄, s.solution? v = some (.var w) → R v w) (n : Nat)
    (v : TyVar) : Relation.ReflTransGen R v (s.rootWithin n v) := by
  induction n generalizing v with
  | zero => exact .refl
  | succ n ih =>
      rw [rootWithin]
      split
      · rename_i next hnext
        exact .head (hR hnext) (ih next)
      · exact .refl

/-- The variables that a chain passes are between its start and its end. -/
theorem between_of_mem_passedWithin {R : TyVar → TyVar → Prop}
    (hR : ∀ ⦃v w⦄, s.solution? v = some (.var w) → R v w) {n : Nat}
    (hw : w ∈ s.passedWithin n v) :
    Relation.ReflTransGen R v w ∧
      Relation.TransGen R w (s.rootWithin n v) := by
  induction n generalizing v with
  | zero => simp [passedWithin] at hw
  | succ n ih =>
      rw [passedWithin] at hw
      rw [rootWithin]
      split at hw
      · rename_i next hnext
        rcases List.mem_cons.1 hw with rfl | hrest
        · exact ⟨.refl, .head' (hR hnext)
            (s.reflTransGen_rootWithin_of hR n next)⟩
        · obtain ⟨hbefore, hafter⟩ := ih hrest
          exact ⟨.head (hR hnext) hbefore, hafter⟩
      · simp at hw

theorem mentions_of_solution? (h : s.solution? v = some (.var w)) :
    s.Mentions v w :=
  ⟨.var w, h, Ty.mem_vars_var.2 rfl⟩

/-- The root is reached by following solutions. -/
theorem reflTransGen_rootWithin (s : Store) (n : Nat) (v : TyVar) :
    Relation.ReflTransGen s.Mentions v (s.rootWithin n v) :=
  s.reflTransGen_rootWithin_of (fun _ _ => mentions_of_solution?) n v

theorem transGen_of_mem_passedWithin {n : Nat}
    (hw : w ∈ s.passedWithin n v) :
    Relation.TransGen s.Mentions w (s.rootWithin n v) :=
  (between_of_mem_passedWithin (fun _ _ => mentions_of_solution?) hw).2

theorem reflTransGen_of_mem_passedWithin {n : Nat}
    (hw : w ∈ s.passedWithin n v) :
    Relation.ReflTransGen s.Mentions v w :=
  (between_of_mem_passedWithin (fun _ _ => mentions_of_solution?) hw).1

theorem lt_size_of_mem_passed (hw : w ∈ s.passed v) : w.index < s.size := by
  obtain ⟨next, hnext, -⟩ := solution?_of_mem_passedWithin hw
  exact lt_size_of_solution? hnext

theorem foldl_setBinding_solved (vs : List TyVar) (s : Store)
    (hrange : ∀ v ∈ vs, v.index < s.size) :
    let s' := vs.foldl (fun store v => store.setBinding v (.solved t)) s
    s'.size = s.size ∧
      (∀ w, s'.solution? w = if w ∈ vs then some t else s.solution? w) ∧
      (∀ w, s'.unsolvedClasses? w =
        if w ∈ vs then none else s.unsolvedClasses? w) ∧
      ∀ w ∉ vs, s'.cells[w.index]? = s.cells[w.index]? := by
  induction vs generalizing s with
  | nil => simp
  | cons head tail ih =>
      have hhead := hrange head List.mem_cons_self
      obtain ⟨hsize, hsolution, hunsolved, hcells⟩ :=
        ih (s.setBinding head (.solved t)) fun v hv => by
          simpa using hrange v (List.mem_cons_of_mem head hv)
      refine ⟨by simpa using hsize, fun w => ?_, fun w => ?_, fun w hw => ?_⟩
      · rw [List.foldl_cons, hsolution, solution?_setBinding_solved hhead]
        by_cases htail : w ∈ tail <;> by_cases heq : w = head <;>
          simp [htail, heq]
      · rw [List.foldl_cons, hunsolved,
          unsolvedClasses?_setBinding_solved hhead]
        by_cases htail : w ∈ tail <;> by_cases heq : w = head <;>
          simp [htail, heq]
      · rw [List.mem_cons, not_or] at hw
        rw [List.foldl_cons, hcells w hw.2,
          getElem?_cells_setBinding_of_ne hw.1]

@[simp] theorem size_compress (s : Store) (v : TyVar) :
    (s.compress v).size = s.size :=
  (foldl_setBinding_solved (s.passed v) s
    fun _ => lt_size_of_mem_passed).1

/-- Compression solves exactly the variables passed to the root. -/
theorem solution?_compress (s : Store) (v w : TyVar) :
    (s.compress v).solution? w =
      if w ∈ s.passed v then some (.var (s.root v)) else s.solution? w :=
  (foldl_setBinding_solved (s.passed v) s
    fun _ => lt_size_of_mem_passed).2.1 w

theorem getElem?_cells_compress (hw : w ∉ s.passed v) :
    (s.compress v).cells[w.index]? = s.cells[w.index]? :=
  (foldl_setBinding_solved (s.passed v) s
    fun _ => lt_size_of_mem_passed).2.2.2 w hw

/-- Only solved variables are on the way to the end of a chain. -/
@[simp] theorem unsolvedClasses?_compress (s : Store) (v w : TyVar) :
    (s.compress v).unsolvedClasses? w = s.unsolvedClasses? w := by
  have hfold := (foldl_setBinding_solved (t := .var (s.root v))
    (s.passed v) s fun _ => lt_size_of_mem_passed).2.2.1 w
  rw [compress, hfold]
  split
  · rename_i hpassed
    obtain ⟨next, hnext, -⟩ := solution?_of_mem_passedWithin hpassed
    cases hunsolved : s.unsolvedClasses? w with
    | none => rfl
    | some classes =>
        rw [solution?_eq_none_of_unsolved hunsolved] at hnext
        contradiction
  · rfl

@[simp] theorem unsolvedClasses?_prune (s : Store) (t : Ty TyVar)
    (v : TyVar) : (s.prune t).2.unsolvedClasses? v = s.unsolvedClasses? v := by
  cases t with
  | var w => exact unsolvedClasses?_compress s w v
  | con name => rfl
  | app func arg => rfl

/-- Pointing variables at their root makes no cycle, as they reached it
before. -/
theorem WellFormed.compress (wf : s.WellFormed) (v : TyVar) :
    (s.compress v).WellFormed := by
  have hstep {u w : TyVar} (h : (s.compress v).Mentions u w) :
      Relation.TransGen s.Mentions u w := by
    rcases h with ⟨t, ht, hw⟩
    rw [solution?_compress] at ht
    split at ht
    · rename_i hpassed
      obtain rfl := Option.some.inj ht
      rw [Ty.mem_vars_var.1 hw]
      exact transGen_of_mem_passedWithin hpassed
    · exact .single ⟨t, ht, hw⟩
  have hrange {u w : TyVar} (h : Relation.TransGen s.Mentions u w) :
      w.index < s.size := by
    obtain ⟨x, -, t, ht, hw⟩ := Relation.TransGen.tail'_iff.1 h
    exact wf.inRange ht w hw
  constructor
  · intro u t ht w hw
    rw [size_compress]
    exact hrange (hstep ⟨t, ht, hw⟩)
  · intro u hcycle
    exact wf.acyclic u
      (Relation.TransGen.closed (fun _ _ => hstep) u u hcycle)

/-- Shortening a chain leaves what the ends of chains are solved to. -/
theorem WellFormed.solution?_compress_root (wf : s.WellFormed)
    (v w : TyVar) :
    (s.compress v).solution? (s.root w) = s.solution? (s.root w) := by
  rw [solution?_compress, if_neg]
  intro hpassed
  obtain ⟨next, hnext, -⟩ := solution?_of_mem_passedWithin hpassed
  exact wf.solution?_root w next hnext

/-- Where no chain starts, there is nothing to shorten. -/
theorem prune_of_end (h : s.solution? v = none) :
    s.prune (.var v) = (.var v, s) := by
  have hroot : s.root v = v := by
    rw [root]
    cases s.size with
    | zero => rfl
    | succ hops => rw [rootWithin, h]
  have hpassed : s.passed v = [] := by
    rw [passed]
    cases s.size with
    | zero => rfl
    | succ hops => rw [passedWithin, h]
  have hcompress : s.compress v = s := by
    rw [compress, hpassed]
    rfl
  rw [prune, hcompress, hroot, rootTy, h]
  rfl

/-- What is read after a chain was shortened is what was there before. -/
theorem WellFormed.prune_fst (wf : s.WellFormed) (t : Ty TyVar) :
    (s.prune t).1 = s.resolve t := by
  cases t with
  | var v =>
      rw [Store.prune, resolve, rootTy, rootTy, wf.solution?_compress_root]
  | con name => rfl
  | app func arg => rfl

end Store

end HindleyMilner

import HindleyMilner.Proofs.Lookup
import HindleyMilner.Proofs.SetInvariant

/-
What a run may do to a store without solving anything: shorten chains, and ask
more of unsolved variables.  The requirement that a type be an instance of a
class does no more than that, whether it can be met or not.
-/

namespace HindleyMilner

namespace Store

variable {table : ClassTable} {s s' s'' : Store} {v : TyVar}
  {classes others : ClassSet}

theorem resolve_congr (hroot : ∀ v, s'.root v = s.root v)
    (hsolution : ∀ v, s'.solution? (s.root v) = s.solution? (s.root v))
    (t : Ty TyVar) : s'.resolve t = s.resolve t := by
  cases t with
  | con name => rfl
  | app func arg => rfl
  | var v => rw [resolve, resolve, rootTy, rootTy, hroot, hsolution]

/-! ### Shorter chains -/

/-- Whether a store is another with chains of variables shortened. -/
structure Shortened (s s' : Store) : Prop where
  steady : s.Steady s'
  resolve_eq : ∀ t, s'.resolve t = s.resolve t
  unsolvedClasses?_eq : ∀ v, s'.unsolvedClasses? v = s.unsolvedClasses? v

theorem Shortened.refl (wf : s.WellFormed) : s.Shortened s :=
  ⟨.refl wf, fun _ => rfl, fun _ => rfl⟩

theorem Shortened.trans (h : s.Shortened s') (h' : s'.Shortened s'') :
    s.Shortened s'' where
  steady := h.steady.trans h'.steady
  resolve_eq t := (h'.resolve_eq t).trans (h.resolve_eq t)
  unsolvedClasses?_eq v :=
    (h'.unsolvedClasses?_eq v).trans (h.unsolvedClasses?_eq v)

/-- Looking up a type does no more than shorten chains. -/
theorem WellFormed.shortened_prune (wf : s.WellFormed) (t : Ty TyVar) :
    s.Shortened (s.prune t).2 where
  steady := wf.steady_prune t
  resolve_eq u := by
    cases t with
    | con name => rfl
    | app func arg => rfl
    | var v =>
        exact resolve_congr (wf.root_compress v)
          (wf.solution?_compress_root v) u
  unsolvedClasses?_eq v := unsolvedClasses?_prune s t v

/-! ### More classes -/

/-- Whether a store is another with chains shortened and more asked of
unsolved variables. -/
structure Tightened (table : ClassTable) (s s' : Store) : Prop where
  steady : s.Steady s'
  resolve_eq : ∀ t, s'.resolve t = s.resolve t
  implied : ∀ ⦃v classes⦄, s.unsolvedClasses? v = some classes →
    ∃ others, s'.unsolvedClasses? v = some others ∧
      ∀ c, classes.implies table c = true → others.implies table c = true

theorem Shortened.tightened (h : s.Shortened s') : s.Tightened table s' :=
  ⟨h.steady, h.resolve_eq, fun v classes hv =>
    ⟨classes, by rw [h.unsolvedClasses?_eq, hv], fun _ => id⟩⟩

theorem Tightened.refl (wf : s.WellFormed) : s.Tightened table s :=
  (Shortened.refl wf).tightened

theorem Tightened.trans (h : s.Tightened table s')
    (h' : s'.Tightened table s'') : s.Tightened table s'' where
  steady := h.steady.trans h'.steady
  resolve_eq t := (h'.resolve_eq t).trans (h.resolve_eq t)
  implied v classes hv := by
    obtain ⟨others, hothers, hmore⟩ := h.implied hv
    obtain ⟨last, hlast, hlater⟩ := h'.implied hothers
    exact ⟨last, hlast, fun c hc => hlater c (hmore c hc)⟩

theorem WellFormed.tightened_setClasses (wf : s.WellFormed)
    (hv : s.unsolvedClasses? v = some classes)
    (hmore : ∀ c, classes.implies table c = true →
      others.implies table c = true) :
    s.Tightened table (s.setBinding v (.unsolved others)) where
  steady := wf.steady_setClasses hv others
  resolve_eq :=
    resolve_congr (wf.steady_setClasses hv others).root_eq fun _ =>
      solution?_setBinding_unsolved hv others _
  implied w own hw := by
    rw [unsolvedClasses?_setBinding_unsolved (lt_size_of_unsolvedClasses? hv)]
    split
    · rename_i heq
      rw [heq, hv] at hw
      obtain rfl := Option.some.inj hw
      exact ⟨others, rfl, hmore⟩
    · exact ⟨own, hw, fun _ => id⟩

end Store

/-! ### Requirements -/

/-- A set with a class added implies the class and what the set implied. -/
theorem ClassSet.implies_of_insert? {table : ClassTable}
    (ordered : table.Ordered) {set larger : ClassSet} {c : ClassId}
    (h : set.insert? table c = some larger) :
    larger.implies table c = true ∧
      ∀ d, set.implies table d = true → larger.implies table d = true := by
  have hupward : table.Upward fun d => larger.implies table d = true :=
    implies_upward ordered
  have hall := (forall_mem_insert?_iff hupward h).1 fun d => implies_of_mem
  exact ⟨hall.2, fun d => of_implies hupward hall.1⟩

/-- What comes of asking for a class of an unsolved variable that has these
classes. -/
def Store.constrained (table : ClassTable) (s : Store) (v : TyVar)
    (classes : ClassSet) (c : ClassId) :
    EStateM.Result UnifyError Store Unit :=
  match classes.insert? table c with
  | none => .ok () s
  | some larger =>
      match table.conflict? larger with
      | some (a, b) => .error ⟨.unsatisfiable a b, []⟩ s
      | none => .ok () (s.setBinding v (.unsolved larger))

/-- Adding a class leaves the larger set, or fails with the classes that
conflict. -/
theorem constrain_run (table : ClassTable) {s : Store} {v : TyVar}
    {classes : ClassSet} (h : s.unsolvedClasses? v = some classes)
    (c : ClassId) :
    (constrain table v c).run s = s.constrained table v classes c := by
  rw [constrain, bind_run_of_ok (UnifyM.unsolvedClasses_run h),
    Store.constrained]
  cases classes.insert? table c with
  | none => rfl
  | some larger =>
      cases hconflict : table.conflict? larger with
      | some pair =>
          simp only [hconflict]
          rfl
      | none =>
          simp only [hconflict]
          exact UnifyM.setClasses_run h larger

section

open UnifyM

variable {table : ClassTable} {s : Store}

theorem tightens_prune (t : Ty TyVar) :
    Keeps (s.Tightened table) (prune t) fun _ => True := by
  intro s' hs'
  have wf' := hs'.steady.wellFormed
  rw [prune_run wf']
  exact ⟨hs'.trans (wf'.shortened_prune t).tightened, trivial⟩

theorem tightens_constrain (ordered : table.Ordered) (v : TyVar)
    (c : ClassId) :
    Keeps (s.Tightened table) (constrain table v c) fun _ => True := by
  intro s' hs'
  cases hv : s'.unsolvedClasses? v with
  | none =>
      simp only [constrain, unsolvedClasses, EStateM.run_bind, EStateM.run_get,
        hv]
      exact hs'
  | some classes =>
      rw [constrain_run table hv, Store.constrained]
      cases hinsert : classes.insert? table c with
      | none => exact ⟨hs', trivial⟩
      | some larger =>
          have hmore := (ClassSet.implies_of_insert? ordered hinsert).2
          cases hconflict : table.conflict? larger with
          | some pair =>
              simp only [hconflict]
              exact hs'
          | none =>
              simp only [hconflict]
              exact ⟨hs'.trans (hs'.steady.wellFormed.tightened_setClasses hv
                hmore), trivial⟩

theorem tightens_requireArg (ordered : table.Ordered) (t : Ty TyVar)
    (c : ClassId) {f : Ty TyVar → UnifyM Unit}
    (h : ∀ inner, Keeps (s.Tightened table) (f inner) fun _ => True) :
    Keeps (s.Tightened table)
      (prune t >>= fun
        | .var w => constrain table w c
        | inner => f inner) fun _ => True :=
  .requireArg tightens_prune (fun w => tightens_constrain ordered w c) h

/-- A requirement solves nothing: it shortens chains and adds classes, also
where it fails. -/
theorem tightens_requireWithin (ordered : table.Ordered) (v : TyVar)
    (depth : Nat) (c : ClassId) (t : Ty TyVar) :
    Keeps (s.Tightened table) (requireWithin table v depth c t)
      fun _ => True :=
  .requireWithin ordered tightens_prune
    (fun w d _ _ => tightens_constrain ordered w d) v depth c t

/-- A requirement solves nothing. -/
theorem tightens_require (ordered : table.Ordered) (v : TyVar) (c : ClassId)
    (t : Ty TyVar) :
    Keeps (s.Tightened table) (require table v c t) fun _ => True :=
  keeps_get.bind fun _ _ => tightens_requireWithin ordered v _ c t

theorem tightens_requireAll (ordered : table.Ordered) (wf : s.WellFormed)
    (v : TyVar) (t : Ty TyVar) (cs : List ClassId) :
    s.Tightened table
      (finalState ((cs.forM fun c => require table v c t).run s)) :=
  (Keeps.forM cs fun c _ => tightens_require ordered v c t).finalState
    (.refl wf)

/-- Solving a variable to a type asks for its classes first, which leaves the
variable unsolved. -/
theorem solveVar_run (ordered : table.Ordered) (wf : s.WellFormed)
    {v : TyVar} {classes : ClassSet}
    (h : s.unsolvedClasses? v = some classes) (t : Ty TyVar) :
    (solveVar table v t).run s =
      if s.occurs v t then .error ⟨.circularity v t, []⟩ s
      else
        match (classes.members.forM fun c => require table v c t).run s with
        | .ok _ s₁ => .ok () (s₁.setBinding v (.solved t))
        | .error e s₁ => .error e s₁ := by
  rw [solveVar, get_bind_run]
  split
  · rfl
  · rw [bind_run_of_ok (unsolvedClasses_run h), EStateM.run_bind]
    have hs₁ := tightens_requireAll ordered wf v t classes.members
    cases hrun : (classes.members.forM fun c => require table v c t).run s with
    | error e s₁ => rfl
    | ok u s₁ =>
        rw [hrun] at hs₁
        obtain ⟨others, hothers, -⟩ := hs₁.implied h
        exact solve_run hothers t

/-- A variable is solved to a type unless the type contains it or cannot meet
what is asked of the variable. -/
theorem solveVar_error_cases (ordered : table.Ordered) (wf : s.WellFormed)
    {v : TyVar} {classes : ClassSet}
    (h : s.unsolvedClasses? v = some classes) {t : Ty TyVar} {e : UnifyError}
    {s' : Store} (hrun : (solveVar table v t).run s = .error e s') :
    (s.occurs v t = true ∧ e = ⟨.circularity v t, []⟩ ∧ s' = s) ∨
      (s.occurs v t = false ∧
        (classes.members.forM fun c => require table v c t).run s =
          .error e s') := by
  rw [solveVar_run ordered wf h] at hrun
  cases hoccurs : s.occurs v t with
  | true =>
      rw [if_pos hoccurs] at hrun
      cases hrun
      exact .inl ⟨rfl, rfl, rfl⟩
  | false =>
      rw [if_neg (by simp [hoccurs])] at hrun
      split at hrun
      · contradiction
      · rename_i hrequire
        cases hrun
        exact .inr ⟨rfl, hrequire⟩

/-- What is asked of a type leaves the classes of a variable that is not in
it. -/
theorem unsolvedClasses?_requireAll (ordered : table.Ordered)
    (wf : s.WellFormed) {v : TyVar} {classes : ClassSet}
    (h : s.unsolvedClasses? v = some classes) {t : Ty TyVar}
    (ht : t.InRange s) (hoccurs : s.occurs v t = false) {e : UnifyError}
    {s' : Store}
    (hrun : (classes.members.forM fun c => require table v c t).run s =
      .error e s') : s'.unsolvedClasses? v = some classes := by
  have himposes := imposes_requireAll ordered wf ht v classes
  rw [hrun] at himposes
  have houtside : v ∉ (s.zonk t).vars := by
    rw [← Store.occurs_eq_true_iff, hoccurs]
    exact Bool.false_ne_true
  have hfree := wf.not_reach_of_not_occurs h houtside
  rw [Store.unsolvedClasses?, himposes.evolves.outside hfree]
  exact h

end

end HindleyMilner

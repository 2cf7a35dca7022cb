import HindleyMilner.Proofs.Meets
import HindleyMilner.Proofs.StoreUpdate

/-
Assignments of types to the variables of a store.  An assignment satisfies a
store if solved variables have the values of their solutions and unsolved
variables have values that meet their classes.  Looking through solutions
never changes a value, and looking through all of them is itself an assignment
that satisfies the store.
-/

namespace HindleyMilner

/-- Values for type variables.  The values may have variables of their own, of
which it is known what classes they meet. -/
structure Assignment (table : ClassTable) where
  Var : Type
  holds : Var → ClassId → Prop
  holds_upward : ∀ v, table.Upward (holds v)
  value : TyVar → Ty Var

namespace Assignment

variable {table : ClassTable}

def eval (a : Assignment table) (t : Ty TyVar) : Ty a.Var :=
  t.bind a.value

/-- Whether the value of a type meets a class. -/
def Meets (a : Assignment table) (t : Ty TyVar) (c : ClassId) : Prop :=
  (a.eval t).Meets table a.holds c

def ground (table : ClassTable) (r : TyVar → GroundTy) : Assignment table where
  Var := Empty
  holds := Empty.elim
  holds_upward v := v.elim
  value := r

@[simp] theorem eval_var (a : Assignment table) (v : TyVar) :
    a.eval (.var v) = a.value v := rfl

@[simp] theorem eval_con (a : Assignment table) (name : Name) :
    a.eval (.con name) = .con name := rfl

@[simp] theorem eval_app (a : Assignment table) (func arg : Ty TyVar) :
    a.eval (.app func arg) = .app (a.eval func) (a.eval arg) := rfl

theorem eval_applyTo (a : Assignment table) (head : Ty TyVar)
    (args : List (Ty TyVar)) :
    a.eval (Ty.applyTo head args) =
      Ty.applyTo (a.eval head) (args.map a.eval) :=
  Ty.bind_applyTo head args a.value

theorem meets_upward (ordered : table.Ordered) (a : Assignment table)
    (t : Ty TyVar) : table.Upward (a.Meets t) :=
  Ty.meets_upward ordered a.holds_upward (a.eval t)

theorem meets_congr {a : Assignment table} {t u : Ty TyVar} {c : ClassId}
    (h : a.eval t = a.eval u) : a.Meets t c ↔ a.Meets u c := by
  rw [Meets, Meets, h]

end Assignment

namespace Store

variable {table : ClassTable} {s : Store} {a : Assignment table}
  {v w : TyVar} {t : Ty TyVar} {classes : ClassSet}

/-- Whether solved variables have the values of their solutions. -/
def SolvedBy (s : Store) (a : Assignment table) : Prop :=
  ∀ ⦃v : TyVar⦄ ⦃t : Ty TyVar⦄, s.solution? v = some t →
    a.value v = a.eval t

/-- Whether solved variables have the values of their solutions, and unsolved
variables values that meet their classes. -/
structure SatisfiedBy (s : Store) (a : Assignment table) : Prop where
  solved : s.SolvedBy a
  unsolved : ∀ ⦃v : TyVar⦄ ⦃classes : ClassSet⦄,
    s.unsolvedClasses? v = some classes →
      ∀ c ∈ classes.members, a.Meets (.var v) c

/-! ### Looking through solutions keeps values -/

theorem SolvedBy.value_rootWithin (h : s.SolvedBy a) (n : Nat)
    (v : TyVar) : a.value (s.rootWithin n v) = a.value v := by
  induction n generalizing v with
  | zero => rfl
  | succ n ih =>
      rw [rootWithin]
      split
      · rename_i next hnext
        rw [ih next, h hnext, Assignment.eval_var]
      · rfl

theorem SolvedBy.value_root (h : s.SolvedBy a) (v : TyVar) :
    a.value (s.root v) = a.value v :=
  h.value_rootWithin s.size v

theorem SolvedBy.eval_resolve (h : s.SolvedBy a) (t : Ty TyVar) :
    a.eval (s.resolve t) = a.eval t := by
  cases t with
  | con name => rfl
  | app func arg => rfl
  | var v =>
      rw [resolve, rootTy, Assignment.eval_var, ← h.value_root v]
      cases hroot : s.solution? (s.root v) with
      | none => rfl
      | some solution => exact (h hroot).symm

theorem SolvedBy.eval_zonkWithin (h : s.SolvedBy a) (n : Nat)
    (t : Ty TyVar) : a.eval (s.zonkWithin n t) = a.eval t := by
  induction n generalizing t with
  | zero => rfl
  | succ n ih =>
      rw [zonkWithin, Assignment.eval, Ty.bind_bind]
      apply Ty.bind_congr
      intro v _
      split
      · rename_i solution hsolution
        rw [h hsolution]
        exact ih solution
      · rfl

theorem SolvedBy.eval_zonk (h : s.SolvedBy a) (t : Ty TyVar) :
    a.eval (s.zonk t) = a.eval t :=
  h.eval_zonkWithin s.size t

theorem SolvedBy.eval_spineWithin (h : s.SolvedBy a) (n : Nat)
    (t : Ty TyVar) (args : List (Ty TyVar)) :
    a.eval (Ty.applyTo (s.spineWithin n t args).1
      (s.spineWithin n t args).2) = a.eval (Ty.applyTo t args) := by
  induction n generalizing t args with
  | zero => rw [spineWithin, Ty.applyTo_spineOnto]
  | succ n ih =>
      rw [spineWithin]
      split
      · rename_i v rest hspine
        have happly := Ty.applyTo_spineOnto t args
        rw [hspine] at happly
        split
        · rename_i solution hsolution
          rw [ih, ← happly, Assignment.eval_applyTo, Assignment.eval_applyTo,
            Assignment.eval_var, h hsolution]
        · rw [← happly]
      · rw [Ty.applyTo_spineOnto]

/-- The head and the arguments of a spine make up the value of the type. -/
theorem SolvedBy.eval_spine (h : s.SolvedBy a) (t : Ty TyVar) :
    a.eval t = Ty.applyTo (a.eval (s.spine t).1)
      ((s.spine t).2.map a.eval) := by
  rw [← Assignment.eval_applyTo]
  exact (h.eval_spineWithin s.size t []).symm

/-! ### The assignment that looks through solutions -/

def Requires (table : ClassTable) (s : Store) (v : TyVar) (c : ClassId) :
    Prop :=
  ∃ classes, s.unsolvedClasses? v = some classes ∧
    classes.implies table c = true

theorem requires_upward (ordered : table.Ordered) (s : Store) (v : TyVar) :
    table.Upward (s.Requires table v) := by
  rintro c d ⟨classes, hclasses, himplies⟩ hdc
  exact ⟨classes, hclasses, ClassSet.implies_upward ordered himplies hdc⟩

/-- Gives every variable what it stands for. -/
def zonkAssignment (ordered : table.Ordered) (s : Store) :
    Assignment table where
  Var := TyVar
  holds := s.Requires table
  holds_upward := s.requires_upward ordered
  value v := s.zonk (.var v)

theorem WellFormed.eval_zonkAssignment (wf : s.WellFormed)
    (ordered : table.Ordered) (t : Ty TyVar) :
    (s.zonkAssignment ordered).eval t = s.zonk t :=
  (wf.zonk_eq_bind t).symm

theorem WellFormed.satisfiedBy_zonkAssignment (wf : s.WellFormed)
    (ordered : table.Ordered) : s.SatisfiedBy (s.zonkAssignment ordered) := by
  constructor
  · intro v t ht
    rw [wf.eval_zonkAssignment]
    exact wf.zonk_var_solved ht
  · intro v classes hclasses c hc
    rw [Assignment.Meets, wf.eval_zonkAssignment,
      wf.zonk_var_unsolved (solution?_eq_none_of_unsolved hclasses)]
    exact ⟨classes, hclasses, ClassSet.implies_of_mem hc⟩

/-! ### Fresh variables -/

/-- A fresh variable only adds that its value meets its classes. -/
theorem satisfiedBy_fresh_iff {base : String} :
    (s.fresh base classes).2.SatisfiedBy a ↔
      s.SatisfiedBy a ∧ ∀ c ∈ classes.members, a.Meets (.var ⟨s.size⟩) c := by
  constructor
  · intro h
    refine ⟨⟨fun w t ht => h.solved ?_, fun w set hset => h.unsolved ?_⟩,
      h.unsolved ?_⟩
    · rwa [solution?_fresh]
    · have hne : w ≠ ⟨s.size⟩ := by
        rintro rfl
        exact Nat.lt_irrefl _ (lt_size_of_unsolvedClasses? hset)
      rwa [unsolvedClasses?_fresh, if_neg hne]
    · rw [unsolvedClasses?_fresh, if_pos rfl]
  · rintro ⟨h, hnew⟩
    constructor
    · intro w t ht
      rw [solution?_fresh] at ht
      exact h.solved ht
    · intro w set hset
      rw [unsolvedClasses?_fresh] at hset
      by_cases heq : w = ⟨s.size⟩
      · rw [if_pos heq] at hset
        obtain rfl := Option.some.inj hset
        rw [heq]
        exact hnew
      · rw [if_neg heq] at hset
        exact h.unsolved hset

theorem bind_eq_of_inRange {V : Type} {f g : TyVar → Ty V}
    (ht : t.InRange s) (h : ∀ v : TyVar, v.index < s.size → f v = g v) :
    t.bind f = t.bind g :=
  Ty.bind_congr fun v hv => h v (ht v hv)

/-- Whether a store is satisfied depends on its own variables only. -/
theorem SatisfiedBy.ground_congr {r r' : TyVar → GroundTy}
    (wf : s.WellFormed) (hr : s.SatisfiedBy (.ground table r))
    (h : ∀ v : TyVar, v.index < s.size → r' v = r v) :
    s.SatisfiedBy (.ground table r') := by
  constructor
  · intro v t ht
    have hvalue : r v = t.bind r := hr.solved ht
    change r' v = t.bind r'
    rw [h v (lt_size_of_solution? ht), hvalue]
    exact (bind_eq_of_inRange (wf.inRange ht) h).symm
  · intro v set hset c hc
    have hmeets := hr.unsolved hset c hc
    change (r' v).Meets table Empty.elim c
    rw [h v (lt_size_of_unsolvedClasses? hset)]
    exact hmeets

/-- The value of a fresh variable may be any that meets its classes. -/
theorem SatisfiedBy.exists_fresh {r : TyVar → GroundTy} (wf : s.WellFormed)
    (hr : s.SatisfiedBy (.ground table r)) (base : String) {T : GroundTy}
    (hT : ∀ c ∈ classes.members, T.Meets table Empty.elim c) :
    ∃ r' : TyVar → GroundTy,
      (s.fresh base classes).2.SatisfiedBy (.ground table r') ∧
        (∀ v : TyVar, v.index < s.size → r' v = r v) ∧ r' ⟨s.size⟩ = T := by
  have hold (v : TyVar) (hv : v.index < s.size) :
      Function.update r ⟨s.size⟩ T v = r v := by
    apply Function.update_of_ne
    rintro rfl
    exact Nat.lt_irrefl _ hv
  have hnew : Function.update r ⟨s.size⟩ T ⟨s.size⟩ = T :=
    Function.update_self ..
  refine ⟨Function.update r ⟨s.size⟩ T,
    satisfiedBy_fresh_iff.2 ⟨hr.ground_congr wf hold, fun c hc => ?_⟩,
    hold, hnew⟩
  change (Function.update r ⟨s.size⟩ T ⟨s.size⟩).Meets table Empty.elim c
  rw [hnew]
  exact hT c hc

/-! ### Changes of a store -/

/-- A store with other classes for an unsolved variable is satisfied if the
others are met and the rest is satisfied. -/
theorem satisfiedBy_setBinding_unsolved_iff
    (h : s.unsolvedClasses? v = some classes) {others : ClassSet}
    (hothers : (∀ c ∈ others.members, a.Meets (.var v) c) →
      ∀ c ∈ classes.members, a.Meets (.var v) c) :
    (s.setBinding v (.unsolved others)).SatisfiedBy a ↔
      s.SatisfiedBy a ∧ ∀ c ∈ others.members, a.Meets (.var v) c := by
  have hunsolved (u : TyVar) :
      (s.setBinding v (.unsolved others)).unsolvedClasses? u =
        if u = v then some others else s.unsolvedClasses? u :=
    unsolvedClasses?_setBinding_unsolved (lt_size_of_unsolvedClasses? h) u
  constructor
  · intro hsat
    have hv : ∀ c ∈ others.members, a.Meets (.var v) c :=
      hsat.unsolved (by rw [hunsolved, if_pos rfl])
    refine ⟨⟨fun w t ht => hsat.solved ?_, fun w set hset => ?_⟩, hv⟩
    · rwa [solution?_setBinding_unsolved h]
    · by_cases heq : w = v
      · subst heq
        rw [h] at hset
        obtain rfl := Option.some.inj hset
        exact hothers hv
      · exact hsat.unsolved (by rwa [hunsolved, if_neg heq])
  · rintro ⟨hsat, hv⟩
    constructor
    · intro w t ht
      rw [solution?_setBinding_unsolved h] at ht
      exact hsat.solved ht
    · intro w set hset
      rw [hunsolved] at hset
      by_cases heq : w = v
      · rw [if_pos heq] at hset
        obtain rfl := Option.some.inj hset
        rw [heq]
        exact hv
      · rw [if_neg heq] at hset
        exact hsat.unsolved hset

theorem SatisfiedBy.setBinding_solved (hsat : s.SatisfiedBy a)
    (hrange : v.index < s.size) (hvalue : a.value v = a.eval t) :
    (s.setBinding v (.solved t)).SatisfiedBy a := by
  constructor
  · intro w solution hsolution
    rw [solution?_setBinding_solved hrange] at hsolution
    by_cases heq : w = v
    · rw [if_pos heq] at hsolution
      obtain rfl := Option.some.inj hsolution
      rwa [heq]
    · rw [if_neg heq] at hsolution
      exact hsat.solved hsolution
  · intro w set hset
    rw [unsolvedClasses?_setBinding_solved hrange] at hset
    split at hset
    · contradiction
    · exact hsat.unsolved hset

theorem SatisfiedBy.value_of_setBinding_solved
    (hsat : (s.setBinding v (.solved t)).SatisfiedBy a)
    (hrange : v.index < s.size) : a.value v = a.eval t :=
  hsat.solved (by rw [solution?_setBinding_solved hrange, if_pos rfl])

theorem SatisfiedBy.solvedBy_before
    (hsat : (s.setBinding v (.solved t)).SatisfiedBy a)
    (h : s.unsolvedClasses? v = some classes) : s.SolvedBy a := by
  intro w solution hsolution
  have hne : w ≠ v := by
    rintro rfl
    rw [solution?_eq_none_of_unsolved h] at hsolution
    contradiction
  apply hsat.solved
  rwa [solution?_setBinding_solved (lt_size_of_unsolvedClasses? h), if_neg hne]

theorem SatisfiedBy.of_setBinding_solved
    (hsat : (s.setBinding v (.solved t)).SatisfiedBy a)
    (h : s.unsolvedClasses? v = some classes)
    (hmeets : ∀ c ∈ classes.members, a.Meets t c) : s.SatisfiedBy a := by
  have hrange := lt_size_of_unsolvedClasses? h
  have hvalue := hsat.value_of_setBinding_solved hrange
  refine ⟨hsat.solvedBy_before h, fun w set hset => ?_⟩
  by_cases heq : w = v
  · subst heq
    rw [h] at hset
    obtain rfl := Option.some.inj hset
    intro c hc
    have heval : a.eval (.var w) = a.eval t := hvalue
    exact (Assignment.meets_congr heval).2 (hmeets c hc)
  · apply hsat.unsolved
    rwa [unsolvedClasses?_setBinding_solved hrange, if_neg heq]

/-! ### Opening a solved variable -/

/-- The values of an assignment, with one variable left open. -/
def openedValue (a : Assignment table) (v w : TyVar) : Ty (Option a.Var) :=
  if w = v then .var none else (a.value w).map some

theorem openedValue_of_ne (a : Assignment table) (hne : w ≠ v) :
    openedValue a v w = (a.value w).map some :=
  if_neg hne

/-- The assignment that leaves a variable of a store open.  What is left open
meets all classes. -/
def opened (s : Store) (a : Assignment table) (v : TyVar) :
    Assignment table where
  Var := Option a.Var
  holds o c := ∀ x ∈ o, a.holds x c
  holds_upward _ _ _ hc hdc x hx := a.holds_upward x (hc x hx) hdc
  value w := (s.zonk (.var w)).bind (openedValue a v)

theorem WellFormed.eval_opened (wf : s.WellFormed) (a : Assignment table)
    (v : TyVar) (u : Ty TyVar) :
    (s.opened a v).eval u = (s.zonk u).bind (openedValue a v) := by
  rw [wf.zonk_eq_bind u, Ty.bind_bind]
  rfl

theorem meets_opened_map_iff (u : Ty a.Var) (c : ClassId) :
    (u.map some).Meets table (s.opened a v).holds c ↔
      u.Meets table a.holds c := by
  simp [Ty.meets_map_iff, opened]

/-- An assignment that gives a solved variable the value of its solution tells
nothing about the classes that the variable had.  But it can be changed to one
of the store before the solution, with the variable left open, without a
change to what the solution meets. -/
theorem SatisfiedBy.opened (wf : s.WellFormed)
    (hsat : (s.setBinding v (.solved t)).SatisfiedBy a)
    (h : s.unsolvedClasses? v = some classes) :
    s.SatisfiedBy (s.opened a v) := by
  constructor
  · intro w solution hsolution
    rw [← Assignment.eval_var, wf.eval_opened, wf.eval_opened,
      wf.zonk_var_solved hsolution]
  · intro w set hset c hc
    have hvalue : (s.opened a v).eval (.var w) = openedValue a v w := by
      rw [wf.eval_opened,
        wf.zonk_var_unsolved (solution?_eq_none_of_unsolved hset)]
      rfl
    by_cases heq : w = v
    · rw [Assignment.Meets, hvalue]
      simp [openedValue, heq, Ty.Meets, Store.opened]
    · rw [openedValue_of_ne a heq] at hvalue
      rw [Assignment.Meets, hvalue]
      apply (meets_opened_map_iff (a.value w) c).2
      apply hsat.unsolved _ c hc
      rwa [unsolvedClasses?_setBinding_solved (lt_size_of_unsolvedClasses? h),
        if_neg heq]

theorem SatisfiedBy.meets_opened_iff (wf : s.WellFormed)
    (hsat : (s.setBinding v (.solved t)).SatisfiedBy a)
    (h : s.unsolvedClasses? v = some classes)
    (hoccurs : v ∉ (s.zonk t).vars) (c : ClassId) :
    (s.opened a v).Meets t c ↔ a.Meets t c := by
  have hvalue : (s.opened a v).eval t = (a.eval t).map some := by
    rw [wf.eval_opened, ← (hsat.solvedBy_before h).eval_zonk t,
      Ty.map_eq_bind, Assignment.eval, Ty.bind_bind]
    apply Ty.bind_congr
    intro w hw
    have hne : w ≠ v := fun heq => hoccurs (heq ▸ hw)
    rw [openedValue_of_ne a hne, Ty.map_eq_bind]
  rw [Assignment.Meets, hvalue]
  exact meets_opened_map_iff (a.eval t) c

/-! ### Shortening chains -/

theorem SolvedBy.value_of_mem_passedWithin (h : s.SolvedBy a) {n : Nat}
    (hw : w ∈ s.passedWithin n v) :
    a.value w = a.value (s.rootWithin n v) := by
  have hsame ⦃v w : TyVar⦄ (hvw : s.solution? v = some (.var w)) :
      a.value v = a.value w := by
    rw [h hvw, Assignment.eval_var]
  have hafter := (between_of_mem_passedWithin hsame hw).2
  generalize s.rootWithin n v = last at hafter
  induction hafter with
  | single hstep => exact hstep
  | tail _ hstep ih => exact ih.trans hstep

/-- Shortening a chain changes nothing about the values. -/
theorem satisfiedBy_compress_iff (v : TyVar) :
    (s.compress v).SatisfiedBy a ↔ s.SatisfiedBy a := by
  constructor
  · intro h
    have hpassed : ∀ w ∈ s.passed v, a.value w = a.value (s.root v) := by
      intro w hw
      exact h.solved (by rw [solution?_compress, if_pos hw])
    constructor
    · intro w t ht
      by_cases hw : w ∈ s.passed v
      · obtain ⟨next, hnext, hplace⟩ := solution?_of_mem_passedWithin hw
        rw [hnext] at ht
        obtain rfl := Option.some.inj ht
        rw [hpassed w hw, Assignment.eval_var]
        rcases hplace with rfl | hmem
        · rfl
        · exact (hpassed next hmem).symm
      · exact h.solved (by rwa [solution?_compress, if_neg hw])
    · intro w classes hclasses
      exact h.unsolved (by rwa [unsolvedClasses?_compress])
  · intro h
    constructor
    · intro w t ht
      rw [solution?_compress] at ht
      by_cases hpassed : w ∈ s.passed v
      · rw [if_pos hpassed] at ht
        obtain rfl := Option.some.inj ht
        rw [Assignment.eval_var]
        exact h.solved.value_of_mem_passedWithin hpassed
      · rw [if_neg hpassed] at ht
        exact h.solved ht
    · intro w classes hclasses
      rw [unsolvedClasses?_compress] at hclasses
      exact h.unsolved hclasses

end Store

end HindleyMilner

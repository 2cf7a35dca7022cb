import HindleyMilner.Proofs.ReducedSet
import HindleyMilner.Proofs.Session

/-
The variables that a signature creates in a new scope.  At every point of
reading it, each name stands for a variable of its own, which is unsolved and
whose classes are the reduced set of the constraints on the name so far.  This
needs nothing of the rest of the store.
-/

namespace HindleyMilner

/-- The classes that constraints, as classes with names, ask of one name. -/
def classesOf (cs : List (ClassId × String)) (name : String) :
    List ClassId :=
  (cs.filter fun p => p.2 = name).map (·.1)

variable {table : ClassTable} {cs : List (ClassId × String)} {c : ClassId}
  {s : Store} {v w : TyVar} {x y : String} {now : Scope × Store}
  {own others : ClassSet}

theorem mem_classesOf : c ∈ classesOf cs x ↔ (c, x) ∈ cs := by
  simp [classesOf]

theorem classesOf_snoc_self (cs : List (ClassId × String)) (c : ClassId)
    (x : String) : classesOf (cs ++ [(c, x)]) x = classesOf cs x ++ [c] := by
  simp [classesOf]

theorem classesOf_snoc_of_ne (cs : List (ClassId × String)) (c : ClassId)
    (h : y ≠ x) : classesOf (cs ++ [(c, x)]) y = classesOf cs y := by
  simp [classesOf, h.symm]

/-! ### Joining a new variable with an unsolved one -/

namespace Store

theorem resolve_var_of_unsolved (h : s.unsolvedClasses? v = some own) :
    s.resolve (.var v) = .var v := by
  rw [resolve, root_of_unsolved h, rootTy, solution?_eq_none_of_unsolved h,
    Option.getD_none]

end Store

theorem UnifyM.prune_run_of_unsolved (h : s.unsolvedClasses? v = some own) :
    (UnifyM.prune (.var v)).run s = .ok (.var v) s := by
  rw [UnifyM.prune_run_eq,
    Store.prune_of_end (Store.solution?_eq_none_of_unsolved h)]

/-- Unification joins two unsolved variables as they are. -/
theorem unify_unsolved_run (table : ClassTable) (hne : v ≠ w)
    (hv : s.unsolvedClasses? v = some own)
    (hw : s.unsolvedClasses? w = some others) :
    (unify table (.var v) (.var w)).run s = (joinVars table v w).run s := by
  obtain ⟨depth, hdepth⟩ : ∃ depth,
      max (s.depthBound (.var v)) (s.depthBound (.var w)) = depth + 1 := by
    refine Nat.exists_eq_succ_of_ne_zero (Nat.ne_of_gt ?_)
    exact lt_max_of_lt_left (Nat.mul_pos (Nat.succ_pos _) (Nat.succ_pos _))
  have hopen : (unify table (.var v) (.var w)).run s =
      (unifyWithin table (depth + 1) (.var v) (.var w)).run s := by
    rw [← hdepth]
    rfl
  rw [hopen, unifyWithin, bind_run_of_ok (UnifyM.prune_run_of_unsolved hv),
    bind_run_of_ok (UnifyM.prune_run_of_unsolved hw)]
  simp only [if_neg hne]

/-! ### Names and their variables -/

/-- Whether a scope hands out what another does, and maybe more. -/
def Scope.Widens (scope wider : Scope) : Prop :=
  ∀ ⦃x v⦄, scope.named.lookup x = some v → wider.named.lookup x = some v

theorem Scope.Widens.refl (scope : Scope) : scope.Widens scope :=
  fun _ _ h => h

theorem Scope.Widens.trans {scope wider widest : Scope}
    (h : scope.Widens wider) (h' : wider.Widens widest) :
    scope.Widens widest :=
  fun _ _ hx => h' (h hx)

/-- Whether the names of a scope have variables of their own, with the reduced
sets of the classes that constraints ask of them. -/
structure Named (table : ClassTable) (cs : List (ClassId × String))
    (now : Scope × Store) : Prop where
  known : ∀ p ∈ cs, (now.1.named.lookup p.2).isSome = true
  distinct : ∀ ⦃x y v⦄, now.1.named.lookup x = some v →
    now.1.named.lookup y = some v → x = y
  classes : ∀ ⦃x v⦄, now.1.named.lookup x = some v →
    now.2.unsolvedClasses? v = some (.ofList table (classesOf cs x))

namespace Named

theorem start (table : ClassTable) (s : Store) :
    Named table [] (.empty, s) where
  known := by simp
  distinct := by simp [Scope.empty]
  classes := by simp [Scope.empty]

theorem lt_size (h : Named table cs now) (hx : now.1.named.lookup x = some v) :
    v.index < now.2.size :=
  Store.lt_size_of_unsolvedClasses? (h.classes hx)

theorem ne_new (h : Named table cs now) (hx : now.1.named.lookup x = some v) :
    v ≠ ⟨now.2.size⟩ := by
  rintro rfl
  exact Nat.lt_irrefl _ (h.lt_size hx)

theorem classes_fresh (h : Named table cs now)
    (hx : now.1.named.lookup x = some v) (base : String) (set : ClassSet) :
    (now.2.fresh base set).2.unsolvedClasses? v =
      some (.ofList table (classesOf cs x)) := by
  rw [Store.unsolvedClasses?_fresh, if_neg (h.ne_new hx), h.classes hx]

theorem classesOf_eq_nil (h : Named table cs now)
    (hx : now.1.named.lookup x = none) : classesOf cs x = [] := by
  rw [classesOf, List.map_eq_nil_iff, List.filter_eq_nil_iff]
  intro p hp heq
  have hknown := h.known p hp
  rw [of_decide_eq_true heq, hx] at hknown
  contradiction

theorem widens_cons {scope : Scope} (hx : scope.named.lookup x = none)
    (v : TyVar) :
    scope.Widens { scope with named := (x, v) :: scope.named } := by
  intro y w hy
  have hne : y ≠ x := by
    rintro rfl
    rw [hx] at hy
    contradiction
  rwa [lookup_cons_if, if_neg hne]

/-- A new name with a new variable. -/
theorem cons {scope : Scope} (h : Named table cs (scope, s))
    (hx : scope.named.lookup x = none) :
    Named table cs
      ({ scope with named := (x, ⟨s.size⟩) :: scope.named },
        (s.fresh x ∅).2) where
  known p hp := by
    obtain ⟨v, hv⟩ := Option.isSome_iff_exists.1 (h.known p hp)
    rw [widens_cons hx ⟨s.size⟩ hv, Option.isSome_some]
  distinct y z v hy hz := by
    rw [lookup_cons_if] at hy hz
    split at hy <;> split at hz
    · simp_all
    · cases hy
      exact absurd rfl (h.ne_new hz)
    · cases hz
      exact absurd rfl (h.ne_new hy)
    · exact h.distinct hy hz
  classes y v hy := by
    rw [lookup_cons_if] at hy
    split at hy
    · rename_i hyx
      cases hy
      rw [Store.unsolvedClasses?_fresh, if_pos rfl, hyx,
        h.classesOf_eq_nil hx]
      rfl
    · exact h.classes_fresh hy x ∅

/-- Asking for the variable of a name. -/
theorem var (h : Named table cs now) (x : String) :
    ∃ v next, (Scope.var x).run now = (v, next) ∧ Named table cs next ∧
      now.1.Widens next.1 ∧ next.1.named.lookup x = some v := by
  rcases now with ⟨scope, s⟩
  cases hx : scope.named.lookup x with
  | some v =>
      exact ⟨v, _, Scope.var_run_of_some hx, h, .refl scope, hx⟩
  | none =>
      refine ⟨_, _, Scope.var_run_of_none hx, h.cons hx, widens_cons hx _, ?_⟩
      rw [lookup_cons_if, if_pos rfl]

/-- One more class for the variable of a name, with the store changed at no
other variable of a name. -/
theorem snoc {scope : Scope} {s' : Store} (h : Named table cs (scope, s))
    (hx : scope.named.lookup x = some v)
    (hv : s'.unsolvedClasses? v =
      some (.ofList table (classesOf (cs ++ [(c, x)]) x)))
    (hothers : ∀ ⦃y u⦄, scope.named.lookup y = some u → u ≠ v →
      s'.unsolvedClasses? u = s.unsolvedClasses? u) :
    Named table (cs ++ [(c, x)]) (scope, s') where
  known p hp := by
    rcases List.mem_append.1 hp with hold | hlast
    · exact h.known p hold
    · rw [List.mem_singleton.1 hlast, hx]
      rfl
  distinct := h.distinct
  classes y u hy := by
    by_cases huv : u = v
    · subst huv
      rw [h.distinct hy hx]
      exact hv
    · have hyx : y ≠ x := by
        rintro rfl
        rw [hx] at hy
        exact huv (Option.some.inj hy).symm
      rw [hothers hy huv, h.classes hy, classesOf_snoc_of_ne cs c hyx]

/-- Making the variable of a name an instance of a class. -/
theorem constrainVar (ordered : table.Ordered) {scope : Scope}
    (h : Named table cs (scope, s)) (hx : scope.named.lookup x = some v)
    (pos : Nat) (c : ClassId) :
    match table.conflict? (.ofList table (classesOf (cs ++ [(c, x)]) x)) with
    | some _ => ∃ e next, (Signature.constrainVar table pos v c).run
        (scope, s) = .error e next
    | none => ∃ s', (Signature.constrainVar table pos v c).run
        (scope, s) = .ok () (scope, s') ∧
          Named table (cs ++ [(c, x)]) (scope, s') := by
  have hw : (s.fresh "" (.ofList table [c])).2.unsolvedClasses? ⟨s.size⟩ =
      some (.ofList table [c]) := by
    rw [Store.unsolvedClasses?_fresh, if_pos rfl]
  have hv := h.classes_fresh hx "" (.ofList table [c])
  have hne := (h.ne_new hx).symm
  have hrun := (unify_unsolved_run table hne hw hv).trans
    (joinVars_run table hw hv hne)
  rw [ClassSet.union_ofList ordered, ClassSet.ofList_congr ordered
    fun _ => List.perm_append_comm.mem_iff, ← classesOf_snoc_self] at hrun
  rw [Signature.constrainVar_run, hrun, Store.joined]
  cases table.conflict? (.ofList table (classesOf (cs ++ [(c, x)]) x)) with
  | some pair => exact ⟨_, _, rfl⟩
  | none =>
      refine ⟨_, rfl, h.snoc hx ?_ fun y u hy huv => ?_⟩
      · exact Store.unsolvedClasses?_join_self hw hv hne
      · -- what the new variable is solved to is not seen at any other
        rw [Store.unsolvedClasses?_join hw hv hne, if_neg (h.ne_new hy),
          if_neg huv, h.classes_fresh hy, h.classes hy]

end Named

end HindleyMilner

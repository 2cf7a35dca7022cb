import HindleyMilner.Proofs.ReadingSteps
import HindleyMilner.Proofs.Repetition
import HindleyMilner.Proofs.Reports

/-
What the context of a signature means.  The scope may have been used before, so
the variable of a name may have been solved to a type, or joined with the
variable of another name.  The ground assignments that are left are those that
satisfied the store before and give the names instances of their classes, as
far as earlier variables and names are concerned.
-/

namespace HindleyMilner

variable {table : ClassTable} {s s' : Store} {v w : TyVar}
  {classes : ClassSet} {e : UnifyError}

/-! ### Unification with a new variable -/

/-- Unsolved variables are joined unless their classes conflict. -/
theorem joinVars_error {others : ClassSet} (hne : v ≠ w)
    (hv : s.unsolvedClasses? v = some classes)
    (hw : s.unsolvedClasses? w = some others)
    (hrun : (joinVars table v w).run s = .error e s') :
    e.OfRequirement v (.var w) ∧ s' = s := by
  obtain ⟨a, b, -, rfl, rfl⟩ := conflict?_of_joinVars_error hv hw hne hrun
  exact ⟨⟨rfl, trivial⟩, rfl⟩

/-- An unsolved variable is solved to a type without it unless a requirement on
the type fails. -/
theorem solveVar_error {t : Ty TyVar} (ordered : table.Ordered)
    (wf : s.WellFormed) (hv : s.unsolvedClasses? v = some classes)
    (ht : ∀ u, t ≠ .var u) (hfree : v ∉ (s.zonk t).vars)
    (hrun : (solveVar table v t).run s = .error e s') :
    e.OfRequirement v (s.zonk t) ∧ s.Steady s' := by
  have htightened := tightens_requireAll ordered wf v t classes.members
  obtain ⟨hoccurs, -, -⟩ | ⟨-, hrequire⟩ :=
    solveVar_error_cases ordered wf hv hrun
  · exact absurd (Store.occurs_eq_true_iff.1 hoccurs) hfree
  · rw [hrequire] at htightened
    exact ⟨reports_requireAll ordered wf v (wf.zonk_ne_var ht)
      classes.members (.refl wf) hrequire, htightened.steady⟩

/-- An unsolved variable can be made equal to one that does not stand for a
type around it, unless a requirement on this type fails.  This solves
nothing. -/
theorem unify_var_error (ordered : table.Ordered) (wf : s.WellFormed)
    (hw : s.unsolvedClasses? w = some classes) (hv : v.index < s.size)
    (hfree : w ∉ (s.zonk (.var v)).vars)
    (hrun : (unify table (.var w) (.var v)).run s = .error e s') :
    e.OfRequirement w (s.zonk (.var v)) ∧ s.Steady s' := by
  obtain ⟨depth, hdepth⟩ : ∃ depth,
      max (s.depthBound (.var w)) (s.depthBound (.var v)) = depth + 1 := by
    refine Nat.exists_eq_succ_of_ne_zero (Nat.ne_of_gt ?_)
    exact lt_max_of_lt_left (Nat.mul_pos (Nat.succ_pos _) (Nat.succ_pos _))
  rw [unify_run, hdepth, unifyWithin_run wf,
    Store.resolve_var_of_unsolved hw] at hrun
  have hpruned := wf.shortened_prunedBoth (.var w) (.var v)
  generalize s.prunedBoth (.var w) (.var v) = s₁ at hrun hpruned
  have hw₁ := (hpruned.unsolvedClasses?_eq w).trans hw
  have hsolved {t : Ty TyVar} (hresolve : s.resolve (.var v) = t)
      (ht : ∀ u, t ≠ .var u)
      (hsolve : (solveVar table w t).run s₁ = .error e s') :
      e.OfRequirement w (s.zonk (.var v)) ∧ s.Steady s' := by
    have hzonk : s₁.zonk t = s.zonk (.var v) := by
      rw [hpruned.steady.zonk_eq, ← hresolve, wf.zonk_resolve]
    rw [← hzonk] at hfree ⊢
    obtain ⟨hreports, hsteady⟩ := solveVar_error ordered
      hpruned.steady.wellFormed hw₁ ht hfree hsolve
    exact ⟨hreports, hpruned.steady.trans hsteady⟩
  cases hresolve : s.resolve (.var v) with
  | var u =>
      have hzonk := wf.zonk_of_resolve_var hresolve
      have hne : w ≠ u := by
        rwa [hzonk, Ty.mem_vars_var] at hfree
      obtain ⟨others, hothers⟩ := Store.exists_unsolvedClasses?
        (wf.inRange_resolve (t := .var v) (fun x hx => by
          rwa [Ty.mem_vars_var.1 hx]) u (by rw [hresolve, Ty.mem_vars_var]))
        (wf.solution?_of_resolve hresolve)
      have hu₁ := (hpruned.unsolvedClasses?_eq u).trans hothers
      rw [hresolve] at hrun
      simp only [unifyTops, if_neg hne] at hrun
      obtain ⟨hreports, rfl⟩ := joinVars_error hne hw₁ hu₁ hrun
      exact ⟨hzonk ▸ hreports, hpruned.steady⟩
  | con name =>
      rw [hresolve] at hrun
      exact hsolved hresolve (by intro u hu; cases hu) hrun
  | app func arg =>
      rw [hresolve] at hrun
      exact hsolved hresolve (by intro u hu; cases hu) hrun

/-- A new variable is in no type that an earlier one stands for. -/
theorem Store.WellFormed.new_not_mem_zonk (wf : s.WellFormed) {base : String}
    (hv : v.index < s.size) :
    ⟨s.size⟩ ∉ ((s.fresh base classes).2.zonk (.var v)).vars := by
  intro hmem
  obtain ⟨u, hu, hreach⟩ := Store.exists_reach_of_mem_zonk hmem
  rw [Ty.mem_vars_var.1 hu] at hreach
  have hmentions : ∀ x y, (s.fresh base classes).2.Mentions x y →
      s.Mentions x y := by
    rintro x y ⟨t, ht, hy⟩
    rw [Store.solution?_fresh] at ht
    exact ⟨t, ht, hy⟩
  exact Nat.lt_irrefl _ (wf.lt_size_of_reach hv
    (Relation.ReflTransGen.mono hmentions _ _ hreach))

/-- The class of a constraint is imposed by making a new variable that has it
equal to the one of the name. -/
theorem unify_new_error (ordered : table.Ordered) (wf : s.WellFormed)
    {base : String} (hv : v.index < s.size)
    (hrun : (unify table (.var ⟨s.size⟩) (.var v)).run
      (s.fresh base classes).2 = .error e s') :
    e.OfRequirement ⟨s.size⟩ (s'.zonk (.var v)) ∧
      (s.fresh base classes).2.Steady s' := by
  have hnew : (s.fresh base classes).2.unsolvedClasses? ⟨s.size⟩ =
      some classes := by
    rw [Store.unsolvedClasses?_fresh, if_pos rfl]
  have hrange : v.index < (s.fresh base classes).2.size := by
    rw [Store.size_fresh]
    exact Nat.lt_succ_of_lt hv
  have herror := unify_var_error ordered (wf.fresh base classes) hnew hrange
    (wf.new_not_mem_zonk hv) hrun
  rw [← herror.2.zonk_eq] at herror
  exact herror

namespace Signature

variable {start now next : Scope × Store} {cs ds : List (ClassId × String)}
  {p : ClassId × String} {c : ClassId} {x : String} {scope wider : Scope}
  {r r' r'' : TyVar → GroundTy} {cause : SignatureError.Cause}
  {ts : List NamedTy} {pos : Nat}

/-! ### What constraints mean -/

/-- Whether two assignments agree on the variables of a store and on those
that a scope has for names. -/
def Agree (s : Store) (scope : Scope) (r r' : TyVar → GroundTy) : Prop :=
  ∀ v : TyVar, v.index < s.size ∨ (∃ x, scope.named.lookup x = some v) →
    r' v = r v

/-- Whether an assignment gives the name of a constraint a type that is an
instance of its class. -/
def Grants (table : ClassTable) (scope : Scope) (r : TyVar → GroundTy)
    (p : ClassId × String) : Prop :=
  ∃ v, scope.named.lookup p.2 = some v ∧ (r v).Meets table Empty.elim p.1

/-- Whether no assignment that satisfies a store grants all constraints. -/
def Denied (table : ClassTable) (s : Store) (scope : Scope)
    (cs : List (ClassId × String)) : Prop :=
  ∀ r : TyVar → GroundTy, s.SatisfiedBy (.ground table r) →
    ¬ ∀ p ∈ cs, Grants table scope r p

/-- Whether a constraint could not be imposed because a class was required of
an application that is headed by an unsolved variable, inside of what the name
stands for. -/
inductive Blocked (table : ClassTable) (now : Scope × Store)
    (cause : SignatureError.Cause) : ClassId × String → Prop
  | mk {c d : ClassId} {x : String} {v u : TyVar} {before : Store}
      {part : Ty TyVar} (hname : now.1.named.lookup x = some v)
      (hrun : (unify table (.var ⟨before.size⟩) (.var v)).run
        (before.fresh "" (.ofList table [c])).2 =
          .error ⟨.constraint ⟨before.size⟩ d part, []⟩ now.2)
      (hcause : cause =
        constraintCause table now.2 v (.constraint ⟨before.size⟩ d part))
      (hpart : (now.2.zonk (.var v)).Contains part)
      (hhead : part.spine.1 = .var u) (hargs : part.spine.2 ≠ [])
      (hopen : now.2.isUnsolved u = true) :
      Blocked table now cause (c, x)

/-- Only the error for a type that is no instance is reported so. -/
theorem Blocked.ne_unsatisfiable (h : Blocked table now cause p)
    (a b : String) : cause ≠ .unsatisfiableContext a b := by
  obtain ⟨-, -, rfl, -⟩ := h
  rw [constraintCause]
  split <;> simp

theorem Grants.widen (hp : Grants table scope r p)
    (h : scope.Widens wider) : Grants table wider r p := by
  obtain ⟨v, hv, hmeets⟩ := hp
  exact ⟨v, h hv, hmeets⟩

/-- A name that was known before means what it meant then. -/
theorem Grants.of_known (hp : Grants table wider r p)
    (h : scope.Widens wider)
    (hknown : (scope.named.lookup p.2).isSome = true) :
    Grants table scope r p := by
  obtain ⟨v, hv, hmeets⟩ := hp
  obtain ⟨u, hu⟩ := Option.isSome_iff_exists.1 hknown
  have huv : u = v := Option.some.inj ((h hu).symm.trans hv)
  exact ⟨u, hu, huv ▸ hmeets⟩

theorem Agree.of_widens (h : Agree s wider r r')
    (hwidens : scope.Widens wider) : Agree s scope r r' := by
  intro v hv
  apply h v
  exact hv.imp_right fun ⟨x, hx⟩ => ⟨x, hwidens hx⟩

theorem meets_single_iff (ordered : table.Ordered) (T : GroundTy) :
    (∀ d ∈ (ClassSet.ofList table [c]).members,
        T.Meets table Empty.elim d) ↔ T.Meets table Empty.elim c := by
  have hupward : table.Upward (T.Meets table Empty.elim) :=
    Ty.meets_upward ordered (fun u => u.elim) T
  rw [ClassSet.forall_mem_ofList_iff hupward, List.forall_mem_singleton]

/-- Whether reading has asked for constraints so far, and for nothing else. -/
structure Asks (table : ClassTable) (start : Scope × Store)
    (cs : List (ClassId × String)) (now : Scope × Store) : Prop where
  usable : Usable table now
  widens : start.1.Widens now.1
  size_le : start.2.size ≤ now.2.size
  known : ∀ p ∈ cs, (now.1.named.lookup p.2).isSome = true
  satisfied_iff : ∀ r : TyVar → GroundTy,
    (∃ r', now.2.SatisfiedBy (.ground table r') ∧
        Agree start.2 now.1 r r') ↔
      start.2.SatisfiedBy (.ground table r) ∧ ∀ p ∈ cs, Grants table now.1 r p

namespace Asks

/-- Before reading nothing is asked for. -/
theorem nothing (h : Usable table now) : Asks table now [] now where
  usable := h
  widens := .refl now.1
  size_le := Nat.le_refl _
  known := by simp
  satisfied_iff r := by
    constructor
    · rintro ⟨r', hr', hagree⟩
      refine ⟨hr'.ground_congr h.wellFormed fun v hv => ?_, by simp⟩
      exact (hagree v (.inl hv)).symm
    · rintro ⟨hr, -⟩
      exact ⟨r, hr, fun _ _ => rfl⟩

/-- The variables that count are variables of the store. -/
theorem lt_size (h : Asks table start cs now)
    (hv : v.index < start.2.size ∨ ∃ x, now.1.named.lookup x = some v) :
    v.index < now.2.size := by
  rcases hv with hv | ⟨x, hx⟩
  · exact Nat.lt_of_lt_of_le hv h.size_le
  · exact h.usable.inRange _ (mem_of_lookup hx)

/-- A new variable may have any value that meets its classes. -/
theorem exists_fresh (h : Asks table start cs (scope, s))
    (hr : start.2.SatisfiedBy (.ground table r))
    (hgrants : ∀ p ∈ cs, Grants table scope r p) (base : String)
    {T : GroundTy} (hT : ∀ c ∈ classes.members, T.Meets table Empty.elim c) :
    ∃ r', (s.fresh base classes).2.SatisfiedBy (.ground table r') ∧
      Agree start.2 scope r r' ∧ r' ⟨s.size⟩ = T := by
  obtain ⟨r', hr', hagree⟩ := (h.satisfied_iff r).2 ⟨hr, hgrants⟩
  obtain ⟨r'', hr'', hold, hnew⟩ :=
    hr'.exists_fresh h.usable.wellFormed base hT
  refine ⟨r'', hr'', fun v hv => ?_, hnew⟩
  rw [hold v (h.lt_size hv), hagree v hv]

/-- A new name has a variable that nothing is asked of. -/
theorem name (h : Asks table start cs now) (x : String) :
    Asks table start cs ((Scope.var x).run now).2 := by
  have hcontinues : Continues table now ((Scope.var x).run now).2 :=
    continues_handOut (Scope.keeps_name x) (Scope.widening_var x) now
  have hwidens := hcontinues.widens
  rcases now with ⟨scope, s⟩
  cases hx : scope.named.lookup x with
  | some v => rwa [Scope.var_run_of_some hx]
  | none =>
      have husable := hcontinues.usable h.usable
      rw [Scope.var_run_of_none hx] at hwidens husable ⊢
      refine ⟨husable, h.widens.trans hwidens, ?_, fun p hp => ?_,
        fun r => ⟨?_, ?_⟩⟩
      · rw [Store.size_fresh]
        exact Nat.le_succ_of_le h.size_le
      · obtain ⟨v, hv⟩ := Option.isSome_iff_exists.1 (h.known p hp)
        rw [hwidens hv, Option.isSome_some]
      · rintro ⟨r', hr', hagree⟩
        obtain ⟨hr, hgrants⟩ := (h.satisfied_iff r).1
          ⟨r', (Store.satisfiedBy_fresh_iff.1 hr').1,
            hagree.of_widens hwidens⟩
        exact ⟨hr, fun p hp => (hgrants p hp).widen hwidens⟩
      · rintro ⟨hr, hgrants⟩
        have hnone : ∀ c ∈ (∅ : ClassSet).members,
            (r ⟨s.size⟩).Meets table Empty.elim c :=
          fun c hc => absurd hc List.not_mem_nil
        obtain ⟨r', hr', hagree, hnew⟩ := h.exists_fresh hr
          (fun p hp => (hgrants p hp).of_known hwidens (h.known p hp)) x hnone
        refine ⟨r', hr', fun v hv => ?_⟩
        by_cases hlast : v = ⟨s.size⟩
        · rw [hlast, hnew]
        · apply hagree v
          apply hv.imp_right
          rintro ⟨y, hy⟩
          rw [lookup_cons_if] at hy
          split at hy
          · exact absurd (Option.some.inj hy).symm hlast
          · exact ⟨y, hy⟩

/-- A new variable that has a class may be given the value that a name has, if
that is an instance of the class. -/
theorem exists_equal (h : Asks table start cs (scope, s))
    (hx : scope.named.lookup x = some v)
    (hr : start.2.SatisfiedBy (.ground table r))
    (hgrants : ∀ p ∈ cs ++ [(c, x)], Grants table scope r p) :
    ∃ r', (s.fresh "" (.ofList table [c])).2.SatisfiedBy (.ground table r') ∧
      Agree start.2 scope r r' ∧ r' ⟨s.size⟩ = r' v := by
  obtain ⟨u, hu, hmeets⟩ := hgrants (c, x) (by simp)
  rw [hx] at hu
  cases hu
  obtain ⟨r', hr', hagree, hnew⟩ := h.exists_fresh hr
    (fun p hp => hgrants p (List.mem_append_left _ hp)) ""
    ((meets_single_iff h.usable.ordered (r v)).2 hmeets)
  exact ⟨r', hr', hagree, hnew.trans (hagree v (.inr ⟨x, hx⟩)).symm⟩

/-- The class of a constraint is asked of what its name stands for. -/
theorem constrained {F : Footprint} (h : Asks table start cs (scope, s))
    (hx : scope.named.lookup x = some v)
    (himposed : Imposed table F (s.fresh "" (.ofList table [c])).2
      (fun a => a.value ⟨s.size⟩ = a.value v) s') :
    Asks table start (cs ++ [(c, x)]) (scope, s') := by
  obtain ⟨ordered, wf, hscope⟩ := h.usable
  have hsize : s'.size = s.size + 1 := by
    rw [himposed.evolves.size_eq, Store.size_fresh]
  refine ⟨⟨ordered, himposed.evolves.wellFormed, fun p hp => ?_⟩, h.widens,
    ?_, fun p hp => ?_, fun r => ⟨?_, ?_⟩⟩
  · rw [hsize]
    exact Nat.lt_succ_of_lt (hscope p hp)
  · rw [hsize]
    exact Nat.le_succ_of_le h.size_le
  · rcases List.mem_append.1 hp with hp | hp
    · exact h.known p hp
    · rw [List.mem_singleton.1 hp, hx, Option.isSome_some]
  · rintro ⟨r', hr', hagree⟩
    obtain ⟨hfresh, hequal⟩ := (himposed.satisfied_iff _).1 hr'
    obtain ⟨hold, hnew⟩ := Store.satisfiedBy_fresh_iff.1 hfresh
    obtain ⟨hr, hgrants⟩ := (h.satisfied_iff r).1 ⟨r', hold, hagree⟩
    have hmeets : (r' v).Meets table Empty.elim c := by
      have hvalue : r' ⟨s.size⟩ = r' v := hequal
      rw [← hvalue]
      exact (meets_single_iff ordered _).1 hnew
    rw [hagree v (.inr ⟨x, hx⟩)] at hmeets
    refine ⟨hr, fun p hp => ?_⟩
    rcases List.mem_append.1 hp with hp | hp
    · exact hgrants p hp
    · rw [List.mem_singleton.1 hp]
      exact ⟨v, hx, hmeets⟩
  · rintro ⟨hr, hgrants⟩
    obtain ⟨r', hr', hagree, hnew⟩ := h.exists_equal hx hr hgrants
    exact ⟨r', (himposed.satisfied_iff _).2 ⟨hr', hnew⟩, hagree⟩

/-- A class is refused to a name if no assignment grants it, or if it would be
required of an application of an unsolved variable. -/
theorem refused {F : Footprint} (h : Asks table start cs (scope, s))
    (hx : scope.named.lookup x = some v)
    (hrun : (unify table (.var ⟨s.size⟩) (.var v)).run
      (s.fresh "" (.ofList table [c])).2 = .error e s')
    (hrefused : Refused table F (s.fresh "" (.ofList table [c])).2
      (fun a => a.value ⟨s.size⟩ = a.value v) e s') :
    Denied table start.2 scope (cs ++ [(c, x)]) ∨
      Blocked table (scope, s') (constraintCause table s' v e.cause)
        (c, x) := by
  obtain ⟨ordered, wf, hscope⟩ := h.usable
  rcases hrefused.refuted with ⟨w, d, part, u, hcause, hhead, hopen⟩ | hnone
  · obtain ⟨⟨hpath, hrequirement⟩, -⟩ :=
      unify_new_error ordered wf (hscope _ (mem_of_lookup hx)) hrun
    rcases e with ⟨cause, path⟩
    dsimp only at hcause hpath hrequirement
    subst hcause hpath
    obtain ⟨rfl, hpart, hne⟩ := hrequirement
    refine .inr (.mk hx hrun rfl hpart hhead (fun hargs => ?_) hopen)
    apply hne u
    rw [← part.applyTo_spine, hhead, hargs, Ty.applyTo, List.foldl_nil]
  · refine .inl fun r hr hgrants => ?_
    obtain ⟨r', hr', -, hnew⟩ := h.exists_equal hx hr hgrants
    exact hnone r' hr' hnew

theorem constrainVar (h : Asks table start cs now)
    (hx : now.1.named.lookup x = some v) (pos : Nat) (c : ClassId) :
    Yields
      (fun _ next => next.1 = now.1 ∧ Asks table start (cs ++ [(c, x)]) next)
      (fun e next => next.1 = now.1 ∧
        (Denied table start.2 next.1 (cs ++ [(c, x)]) ∨
          Blocked table next e.cause (c, x)))
      ((Signature.constrainVar table pos v c).run now) := by
  rcases now with ⟨scope, s⟩
  obtain ⟨ordered, wf, hscope⟩ := h.usable
  have hv : v.index < s.size := hscope _ (mem_of_lookup hx)
  have himposes := imposes_unify_new ordered wf hv "" (.ofList table [c])
  rw [constrainVar_run]
  split
  · rename_i u s' hrun
    rw [hrun] at himposes
    exact ⟨rfl, h.constrained hx himposes⟩
  · rename_i e s' hrun
    rw [hrun] at himposes
    exact ⟨rfl, h.refused hx hrun himposes⟩

/-- Constraints on names that have variables are asked for one after the
other. -/
theorem imposeAll (h : Asks table start cs now)
    (hts : List.Forall₂ (IsConstraint table) ts ds)
    (hknown : ∀ p ∈ ds, (now.1.named.lookup p.2).isSome = true) (pos : Nat) :
    Yields
      (fun _ next => next.1 = now.1 ∧ Asks table start (cs ++ ds) next)
      (fun e next => next.1 = now.1 ∧
        (Denied table start.2 next.1 (cs ++ ds) ∨
          ∃ p ∈ ds, Blocked table next e.cause p))
      ((ts.forM (impose table pos)).run now) := by
  induction hts generalizing cs now with
  | nil =>
      refine ⟨rfl, ?_⟩
      rwa [List.append_nil]
  | @cons t p ts ds hp _ ih =>
      rw [List.forall_mem_cons] at hknown
      obtain ⟨v, hv⟩ := Option.isSome_iff_exists.1 hknown.1
      obtain ⟨k, hk, hclass, hvar⟩ := isConstraint_iff.1 hp
      rw [← hvar] at hv
      have hrun : (impose table pos t).run now =
          (Signature.constrainVar table pos v p.1).run now := by
        rw [impose, hk]
        dsimp only
        rw [hclass]
        exact bind_run_of_ok (handOut_run (Scope.var_run_of_some hv))
      have hfirst := h.constrainVar hv pos p.1
      rw [hvar, ← hrun] at hfirst
      change Yields _ _ ((impose table pos t >>= fun _ =>
        ts.forM (impose table pos)).run now)
      have happend : cs ++ p :: ds = cs ++ [p] ++ ds := by simp
      rw [happend]
      apply hfirst.bind
      · rintro e next ⟨hscope, hdenied | hblocked⟩
        · refine ⟨hscope, .inl fun r hr hgrants => hdenied r hr ?_⟩
          exact fun q hq => hgrants q (List.mem_append_left _ hq)
        · exact ⟨hscope, .inr ⟨p, List.mem_cons_self, hblocked⟩⟩
      · rintro u mid ⟨hscope, hmid⟩
        apply (ih hmid (by rw [hscope]; exact hknown.2)).imp
        · rintro e next ⟨hscope', hdenied | ⟨q, hq, hblocked⟩⟩
          · exact ⟨hscope'.trans hscope, .inl hdenied⟩
          · exact ⟨hscope'.trans hscope,
              .inr ⟨q, List.mem_cons_of_mem _ hq, hblocked⟩⟩
        · rintro u next ⟨hscope', hnext⟩
          exact ⟨hscope'.trans hscope, hnext⟩

end Asks

/-! ### Signatures -/

/-- The names of the constraints of a context are among its tokens. -/
theorem mem_toks_of_isConstraint {first : NamedTy} {toks : List Token}
    (hfirst : IsType toks first)
    (hcs : List.Forall₂ (IsConstraint table) (contextParts first) cs)
    (hp : p ∈ cs) : .var p.2 ∈ toks := by
  obtain ⟨t, ht, htp⟩ : ∃ t ∈ contextParts first, IsConstraint table t p := by
    obtain ⟨i, hi, rfl⟩ := List.getElem_of_mem hp
    have hlength := hcs.length_eq
    exact ⟨_, List.getElem_mem (by omega), hcs.get (by omega) hi⟩
  obtain ⟨k, hk, -, hvar⟩ := isConstraint_iff.1 htp
  rw [← hvar]
  exact hfirst.mem_toks _
    (mem_vars_of_contextParts ht (mem_vars_of_constraint? hk))

/-- What comes of reading a signature: its constraints are asked for, and if
it is refused, its constraints are to blame. -/
theorem yields_asks {lexemes : List Lexeme} {t : NamedTy}
    (h : Usable table now) (hunits : BareUnits (lexemes.map (·.token)))
    (hsignature : IsSignature table (lexemes.map (·.token)) cs t)
    (textEnd : Nat) :
    Yields (fun _ next => Asks table now cs next)
      (fun e next => now.1.Widens next.1 ∧
        (∀ p ∈ cs, (next.1.named.lookup p.2).isSome = true) ∧
        (Denied table now.2 next.1 cs ∨
          ∃ p ∈ cs, Blocked table next e.cause p))
      ((elaborate table textEnd lexemes).run now) := by
  have hnames (cs : List (ClassId × String)) :
      KeptByNames (fun _ => True) (Asks table now cs) :=
    fun x _ _ hnow => hnow.name x
  rcases hsignature.readType_eq with
    ⟨rfl, hread⟩ | ⟨first, pos, rest, hread, hcontext, ht⟩
  · rw [elaborate_run_of_not_fatArrow textEnd now fun _ _ _ hread' => by
      rw [hread] at hread'
      cases hread']
    apply (yields_lastType (hnames []) (fun _ _ => trivial) textEnd
      (.nothing h)).imp
    · exact fun e next ⟨_, he⟩ => absurd he (not_breaksOff hread)
    · exact fun _ next ⟨hnext, _⟩ => hnext
  · rw [isContext_iff (hunits.bare hread)] at hcontext
    obtain ⟨consumed, rfl, hfirst⟩ := isType_of_readType hread
    rw [elaborate_run_of_fatArrow textEnd now hread]
    have hstart : Asks table now [] (handedOut now
        (consumed.map (·.token))) :=
      (hnames []).handedOut (fun _ _ => trivial) (.nothing h)
    have hknown : ∀ p ∈ cs, ((handedOut now
        (consumed.map (·.token))).1.named.lookup p.2).isSome = true :=
      fun p hp => knows_handedOut now _ _
        (mem_toks_of_isConstraint hfirst hcontext hp)
    apply (hstart.imposeAll hcontext hknown _).bind
    · rintro e next ⟨hscope, hrefused⟩
      refine ⟨?_, ?_, hrefused⟩ <;> rw [hscope]
      · exact hstart.widens
      · exact hknown
    · rintro u mid ⟨-, hmid⟩
      apply (yields_lastType (hnames _) (fun _ _ => trivial) textEnd
        hmid).imp
      · exact fun e next ⟨_, he⟩ => absurd he (not_breaksOff ht)
      · exact fun _ next ⟨hnext, _⟩ => hnext

end Signature

namespace TypeState

open Signature

variable {st : TypeState} {scope : Scope} {text : String}
  {toks : List Token} {cs : List (ClassId × String)} {t : NamedTy}

/-- Constraints mean the same on new names and on names whose variables were
solved or joined before.  If a signature is read, the ground assignments that
are left, as far as earlier variables and names are concerned, are those that
satisfied the state and give each name in the context an instance of its
class.  If a class is refused, there is none, unless the class would be
required of an application of an unsolved variable.  Unit with arguments in
front of `=>` is left open. -/
theorem parse_constraints (h : st.Arises) (hscope : scope.InRange st.store)
    (hlexes : Lexes text.toList toks) (hunits : BareUnits toks)
    (hsignature : IsSignature st.classes toks cs t) :
    scope.Widens (st.parse scope text).2.1 ∧
      (∀ p ∈ cs,
        ((st.parse scope text).2.1.named.lookup p.2).isSome = true) ∧
      (∀ ty, (st.parse scope text).1 = .ok ty → ∀ r : TyVar → GroundTy,
        (∃ r', (st.parse scope text).2.2.SatisfiedBy r' ∧
            Agree st.store (st.parse scope text).2.1 r r') ↔
          st.SatisfiedBy r ∧ ∀ p ∈ cs,
            Grants st.classes (st.parse scope text).2.1 r p) ∧
      ∀ e, (st.parse scope text).1 = .error e →
        (¬ ∃ r : TyVar → GroundTy, st.SatisfiedBy r ∧ ∀ p ∈ cs,
          Grants st.classes (st.parse scope text).2.1 r p) ∨
        (∀ a b, e.cause ≠ .unsatisfiableContext a b) ∧
          ∃ p ∈ cs, Blocked st.classes ((st.parse scope text).2.1,
            (st.parse scope text).2.2.store) e.cause p := by
  obtain ⟨ordered, wf⟩ := h.wellFormed
  obtain ⟨lexemes, hlex, rfl⟩ := tokenize_iff.2 hlexes
  have hrun : Signature.parse st.classes text =
      elaborate st.classes text.utf8ByteSize lexemes := by
    rw [Signature.parse, hlex]
  have husable : Usable st.classes (scope, st.store) :=
    ⟨ordered, wf, hscope⟩
  have hyields := yields_asks husable hunits hsignature text.utf8ByteSize
  rw [← hrun] at hyields
  rw [parse_eq]
  cases hresult : (Signature.parse st.classes text).run (scope, st.store) with
  | ok ty next =>
      rw [hresult] at hyields
      exact ⟨hyields.widens, hyields.known, fun _ _ => hyields.satisfied_iff,
        fun e he => by cases he⟩
  | error e next =>
      rw [hresult] at hyields
      refine ⟨hyields.1, hyields.2.1, fun ty hty => (by cases hty),
        fun e' he' => ?_⟩
      cases he'
      rcases hyields.2.2 with hdenied | ⟨p, hp, hblocked⟩
      · left
        rintro ⟨r, hr, hgrants⟩
        exact hdenied r hr hgrants
      · exact .inr ⟨hblocked.ne_unsatisfiable, p, hp, hblocked⟩

def solvedName : TypeState :=
  ((listSession.withStore (listSession.store.fresh "c" ∅).2).unify
    (.var ⟨1⟩) (.list (.var ⟨2⟩))).2

theorem solvedName_arises : solvedName.Arises :=
  .tail (.tail listSession_reachable.arises (.step (.fresh _ "c" ∅)))
    (.step (.unify (by decide) (by decide)))

def equalityLexemes : List Lexeme :=
  [⟨.con (.ofChars 'E' ['q']), 0⟩, ⟨.var "b", 3⟩, ⟨.fatArrow, 5⟩,
    ⟨.var "b", 8⟩]

/-- The name of a list is read, and the class comes to the elements. -/
theorem parse_constraints_solved :
    let scope : Scope := ⟨[("b", ⟨1⟩)], []⟩
    let after := (solvedName.parse scope "Eq b => b").2
    (solvedName.parse scope "Eq b => b").1 = .ok (.var ⟨1⟩) ∧
      after.2.store.unsolvedClasses? ⟨2⟩ =
        some (.ofList solvedName.classes [⟨0⟩]) ∧
      ∀ r : TyVar → GroundTy,
        (∃ r', after.2.SatisfiedBy r' ∧
            Agree solvedName.store after.1 r r') ↔
          solvedName.SatisfiedBy r ∧
            Grants solvedName.classes after.1 r (⟨0⟩, "b") := by
  intro scope after
  have hok : (solvedName.parse scope "Eq b => b").1 = .ok (.var ⟨1⟩) := by
    decide +kernel
  have hlexes : Lexes "Eq b => b".toList (equalityLexemes.map (·.token)) :=
    tokenize_iff.1 ⟨equalityLexemes, rfl, rfl⟩
  have hunits : BareUnits (equalityLexemes.map (·.token)) :=
    bareUnits_of_readType rfl (by decide)
  have hsignature : IsSignature solvedName.classes
      (equalityLexemes.map (·.token)) [(⟨0⟩, "b")] (.var "b") :=
    isSignature_of_readType rfl
      (.constraint (.mk "b" (by decide +kernel))) rfl
  have hscope : scope.InRange solvedName.store :=
    List.forall_mem_singleton.2 (by decide)
  have hconstraints := parse_constraints solvedName_arises hscope hlexes
    hunits hsignature
  refine ⟨hok, by decide +kernel, fun r => ?_⟩
  simpa using hconstraints.2.2.1 _ hok r

end TypeState

end HindleyMilner

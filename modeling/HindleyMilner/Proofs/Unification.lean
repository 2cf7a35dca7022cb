import HindleyMilner.Proofs.Requirement

/-
Unification imposes the equation of its two types on a store, and fails only
where no ground assignment makes them equal, unless a class is required of an
application of an unsolved variable.
-/

namespace HindleyMilner

variable {table : ClassTable} {F : Footprint} {s s' : Store}
  {v w : TyVar} {t : Ty TyVar} {classes : ClassSet}

/-! ### Solving variables -/

/-- A variable is solved to a type that it does not occur in and that is
already known to meet its classes. -/
theorem imposes_solve (hs : Store.Evolves table F s s) (hv : F.vars v)
    (ht : F.Covers t) (h : s.unsolvedClasses? v = some classes)
    (hoccurs : v ∉ (s.zonk t).vars)
    (hmeets : ∀ a : Assignment table,
      (s.setBinding v (.solved t)).SatisfiedBy a →
        ∀ c ∈ classes.members, a.Meets t c) :
    Imposes table F s (fun a => a.value v = a.eval t)
      ((UnifyM.solve v t).run s) := by
  have hrange := Store.lt_size_of_unsolvedClasses? h
  have hback (a : Assignment table)
      (ha : (s.setBinding v (.solved t)).SatisfiedBy a) : s.SatisfiedBy a :=
    ha.of_setBinding_solved h (hmeets a ha)
  rw [UnifyM.solve_run h]
  refine ⟨hs.setBinding_solved hv ht h hoccurs hback, fun a => ?_⟩
  constructor
  · intro ha
    exact ⟨hback a ha, ha.value_of_setBinding_solved hrange⟩
  · rintro ⟨ha, hvalue⟩
    exact ha.setBinding_solved hrange hvalue

/-- A variable is solved to another that has been given the classes of
both. -/
theorem imposes_merge (hs : Store.Evolves table F s s) (hv : F.vars v)
    (hw : F.vars w) (hne : v ≠ w) {others both : ClassSet}
    (hclasses : s.unsolvedClasses? v = some classes)
    (hothers : s.unsolvedClasses? w = some others)
    (hboth : ∀ a : Assignment table,
      (∀ c ∈ both.members, a.Meets (.var w) c) →
        (∀ c ∈ classes.members, a.Meets (.var w) c) ∧
          ∀ c ∈ others.members, a.Meets (.var w) c) :
    Imposes table F s
      (fun a => (∀ c ∈ both.members, a.Meets (.var w) c) ∧
        a.value v = a.value w)
      ((UnifyM.setClasses w both >>= fun _ => UnifyM.solve v (.var w)).run
        s) := by
  have hrange := Store.lt_size_of_unsolvedClasses? hothers
  have hset := imposes_setClasses hs hw hothers fun a ha => (hboth a ha).2
  rw [UnifyM.setClasses_run hothers] at hset
  rw [bind_run_of_ok (UnifyM.setClasses_run hothers both)]
  have hunsolved (u : TyVar) :
      (s.setBinding w (.unsolved both)).unsolvedClasses? u =
        if u = w then some both else s.unsolvedClasses? u :=
    Store.unsolvedClasses?_setBinding_unsolved hrange u
  have hv₁ := hunsolved v
  rw [if_neg hne, hclasses] at hv₁
  have hw₁ := hunsolved w
  rw [if_pos rfl] at hw₁
  refine Imposes.andThen hset (imposes_solve hset.evolves.here hv
    (Footprint.covers_var hw) hv₁ ?_ fun a ha => ?_)
  · rw [hset.evolves.wellFormed.zonk_var_unsolved
      (Store.solution?_eq_none_of_unsolved hw₁), Ty.mem_vars_var]
    exact hne
  · apply fun hmeets => (hboth a hmeets).1
    apply ha.unsolved
    rw [Store.unsolvedClasses?_setBinding_solved
      (Store.lt_size_of_unsolvedClasses? hv₁), if_neg hne.symm, hw₁]

/-- What comes of joining two unsolved variables that have the classes `both`
between them: they are joined unless the classes conflict. -/
def Store.joined (table : ClassTable) (s : Store) (v w : TyVar)
    (both : ClassSet) : EStateM.Result UnifyError Store Unit :=
  match table.conflict? both with
  | some (a, b) => .error ⟨.unsatisfiable a b, []⟩ s
  | none => .ok () (s.join v w both)

theorem joinVars_run (table : ClassTable) {others : ClassSet}
    (hv : s.unsolvedClasses? v = some classes)
    (hw : s.unsolvedClasses? w = some others) (hne : v ≠ w) :
    (joinVars table v w).run s =
      s.joined table v w (classes.union table others) := by
  rw [joinVars, bind_run_of_ok (UnifyM.unsolvedClasses_run hv),
    bind_run_of_ok (UnifyM.unsolvedClasses_run hw), Store.joined]
  cases hconflict : table.conflict? (classes.union table others) with
  | some pair =>
      simp only [hconflict]
      rfl
  | none =>
      simp only [hconflict]
      rw [bind_run_of_ok (UnifyM.setClasses_run hw _)]
      exact UnifyM.solve_run
        (Store.unsolvedClasses?_setClasses_of_ne hv hw hne _) _

/-- Variables are joined unless the classes they have between them conflict,
which is found out before anything changes. -/
theorem conflict?_of_joinVars_error {others : ClassSet} {e : UnifyError}
    (hv : s.unsolvedClasses? v = some classes)
    (hw : s.unsolvedClasses? w = some others) (hne : v ≠ w)
    (hrun : (joinVars table v w).run s = .error e s') :
    ∃ a b, table.conflict? (classes.union table others) = some (a, b) ∧
      e = ⟨.unsatisfiable a b, []⟩ ∧ s' = s := by
  rw [joinVars_run table hv hw hne, Store.joined] at hrun
  split at hrun
  · rename_i a b hconflict
    cases hrun
    exact ⟨a, b, hconflict, rfl, rfl⟩
  · contradiction

/-- Of two unsolved variables that are made equal, one gets the classes of
both. -/
theorem imposes_joinVars (ordered : table.Ordered)
    (hs : Store.Evolves table F s s) (hv : F.vars v) (hw : F.vars w)
    (hne : v ≠ w) {others : ClassSet}
    (hclasses : s.unsolvedClasses? v = some classes)
    (hothers : s.unsolvedClasses? w = some others) :
    Imposes table F s (fun a => a.value v = a.value w)
      ((joinVars table v w).run s) := by
  have hunion (a : Assignment table) :=
    ClassSet.forall_mem_union_iff (a.meets_upward ordered (.var w)) classes
      others
  have hmerged (a : Assignment table) (ha : s.SatisfiedBy a)
      (hequal : a.value v = a.value w) :
      ∀ c ∈ (classes.union table others).members, a.Meets (.var w) c := by
    have heval : a.eval (.var v) = a.eval (.var w) := hequal
    refine (hunion a).2 ⟨fun c hc => ?_, ha.unsolved hothers⟩
    exact (Assignment.meets_congr heval).1 (ha.unsolved hclasses c hc)
  rw [joinVars, bind_run_of_ok (UnifyM.unsolvedClasses_run hclasses),
    bind_run_of_ok (UnifyM.unsolvedClasses_run hothers)]
  cases hconflict : table.conflict? (classes.union table others) with
  | some pair =>
      simp only [hconflict]
      exact Imposes.conflict hs hconflict hmerged
  | none =>
      simp only [hconflict]
      have hmerge := imposes_merge hs hv hw hne hclasses hothers
        fun a => (hunion a).1
      exact hmerge.congr fun a ha => and_iff_right_of_imp (hmerged a ha)

/-- No variable has the value of a type around it. -/
theorem Store.WellFormed.value_ne_of_occurs {a : Assignment table}
    (wf : s.WellFormed) (ha : s.SatisfiedBy a) (hvar : ∀ w, t ≠ .var w)
    (hoccurs : v ∈ (s.zonk t).vars) : a.value v ≠ a.eval t := by
  rw [← ha.solved.eval_zonk t]
  cases t with
  | var w => exact absurd rfl (hvar w)
  | con name => simp [wf.zonk_con] at hoccurs
  | app func arg =>
      rw [wf.zonk_app] at hoccurs ⊢
      exact Ty.ne_bind_app hoccurs

/-- What a type leads to does not include an unsolved variable that does not
occur in it. -/
theorem Store.WellFormed.not_reach_of_not_occurs (wf : s.WellFormed)
    (h : s.unsolvedClasses? v = some classes) (hoccurs : v ∉ (s.zonk t).vars) :
    ¬ (Footprint.reach s [t]).vars v := by
  rintro ⟨u, hu, w, hw, hreach⟩
  rw [List.mem_singleton.1 hu] at hw
  apply hoccurs
  rw [wf.zonk_eq_bind, Ty.mem_vars_bind]
  exact ⟨w, hw, wf.mem_zonk_of_reach (solution?_eq_none_of_unsolved h) hreach⟩

/-- The classes are required of variables of the type only, so what it does
not lead to is left alone. -/
theorem imposes_requireAll (ordered : table.Ordered) (wf : s.WellFormed)
    (ht : t.InRange s) (v : TyVar) (classes : ClassSet) :
    Imposes table (.reach s [t]) s
      (fun a => ∀ c ∈ classes.members, a.Meets t c)
      ((classes.members.forM fun c => require table v c t).run s) := by
  have hsupports : (Footprint.reach s [t]).Supports s :=
    .reach wf fun u hu => by rwa [List.mem_singleton.1 hu]
  apply Imposes.forM _ (.refl wf hsupports)
  intro c _ s₁ hs₁
  exact imposes_require ordered v hs₁.here (.reach List.mem_cons_self) c

theorem imposes_solveVar (ordered : table.Ordered)
    (hs : Store.Evolves table F s s) (hv : F.vars v) (ht : F.Covers t)
    (hvar : ∀ w, t ≠ .var w) (h : s.unsolvedClasses? v = some classes) :
    Imposes table F s (fun a => a.value v = a.eval t)
      ((solveVar table v t).run s) := by
  rw [solveVar, get_bind_run]
  by_cases hoccurs : v ∈ (s.zonk t).vars
  · rw [if_pos (Store.occurs_eq_true_iff.2 hoccurs)]
    apply Imposes.fail hs (fun fault => by simp)
    intro a ha
    exact hs.wellFormed.value_ne_of_occurs ha hvar hoccurs
  rw [if_neg (mt Store.occurs_eq_true_iff.1 hoccurs)]
  have hts : ∀ u ∈ [t], F.Covers u := by simpa using ht
  have hmono {s₁ : Store}
      (hs₁ : Store.Evolves table (.reach s [t]) s s₁) :
      Store.Evolves table F s s₁ :=
    hs₁.mono hs.supports (fun w => hs.supports.vars_of_reach hts)
      (hs.supports.height_reach_le hts)
  have hfree := hs.wellFormed.not_reach_of_not_occurs h hoccurs
  have hrequire := imposes_requireAll ordered hs.wellFormed
    (ht.inRange hs.supports) v classes
  rw [bind_run_of_ok (UnifyM.unsolvedClasses_run h)]
  have hboth := hrequire.bind (q := fun a => a.value v = a.eval t)
      (y := UnifyM.solve v t) (fun _ => hmono) fun s₁ hrequired => by
    have hs₁ := hrequired.evolves
    have hv₁ : s₁.unsolvedClasses? v = some classes := by
      rw [Store.unsolvedClasses?, hs₁.outside hfree]
      exact h
    have hoccurs₁ : v ∉ (s₁.zonk t).vars := fun hmem =>
      hfree (hs₁.supports.vars_of_mem_zonk
        (Footprint.Covers.reach List.mem_cons_self).vars hmem)
    apply imposes_solve (hmono hs₁).here hv ht hv₁ hoccurs₁
    intro a ha
    have hopened := ha.opened hs₁.wellFormed hv₁
    intro c hc
    rw [← ha.meets_opened_iff hs₁.wellFormed hv₁ hoccurs₁]
    exact ((hrequired.satisfied_iff _).1 hopened).2 c hc
  refine hboth.congr fun a ha => and_iff_right_of_imp fun hvalue c hc => ?_
  have heval : a.eval (.var v) = a.eval t := hvalue
  exact (Assignment.meets_congr heval).1 (ha.unsolved h c hc)

/-! ### Making types equal -/

/-- Types with different heads, or with different numbers of arguments, have
different values. -/
theorem eval_ne_of_headsDiffer {a : Assignment table} {want got : Ty TyVar}
    (ha : s.SatisfiedBy a) (h : headsDiffer s want got = true) :
    a.eval want ≠ a.eval got := by
  intro hequal
  rw [headsDiffer] at h
  split at h
  · rename_i c wantArgs d gotArgs hwant hgot
    rw [ha.solved.eval_spine want, ha.solved.eval_spine got, hwant, hgot]
      at hequal
    obtain ⟨hcon, hargs⟩ := Ty.applyTo_con_inj hequal
    have hlength := congrArg List.length hargs
    simp only [List.length_map] at hlength
    simp [hcon, hlength] at h
  · contradiction

/-- Types without variables are different if no rule of unification looks into
both of them. -/
theorem eval_ne_of_no_rule {a : Assignment table} {want got : Ty TyVar}
    (hwant : ∀ v, want ≠ .var v) (hgot : ∀ v, got ≠ .var v)
    (hcons : ∀ c d, want = .con c → got ≠ .con d)
    (happs : ∀ func arg func' arg', want = .app func arg →
      got ≠ .app func' arg') : a.eval want ≠ a.eval got := by
  cases want with
  | var v => exact absurd rfl (hwant v)
  | con c =>
      cases got with
      | var w => exact absurd rfl (hgot w)
      | con d => exact absurd rfl (hcons c d rfl)
      | app func arg => simp
  | app func arg =>
      cases got with
      | var w => exact absurd rfl (hgot w)
      | con d => simp
      | app func' arg' => exact absurd rfl (happs func arg func' arg' rfl)

/-- Two types may be looked up before they are made equal. -/
theorem Imposes.pruneBoth {f : Ty TyVar → Ty TyVar → UnifyM Unit}
    {want got : Ty TyVar} {depth : Nat} (ordered : table.Ordered)
    (hs : Store.Evolves table F s s) (hwant : F.Covers want)
    (hgot : F.Covers got) (hdepth : Store.Shallow table F s want depth)
    (hrest : ∀ ⦃s₂ : Store⦄ ⦃want₂ got₂ : Ty TyVar⦄,
      Store.Evolves table F s₂ s₂ → Store.Resolved F s₂ want₂ →
        Store.Resolved F s₂ got₂ → Store.Shallow table F s₂ want₂ depth →
          Imposes table F s₂ (fun a => a.eval want₂ = a.eval got₂)
            ((f want₂ got₂).run s₂)) :
    Imposes table F s (fun a => a.eval want = a.eval got)
      ((UnifyM.prune want >>= fun want =>
        UnifyM.prune got >>= fun got => f want got).run s) := by
  apply Imposes.prune hs hwant
  intro s₁ hs₁
  apply Imposes.prune hs₁.evolves.here hgot
  intro s₂ hs₂
  have hlower := (hdepth.resolve ordered).later
    (hs₁.evolves.trans hs₂.evolves)
  refine (hrest hs₂.evolves.here (hs₁.resolved.later hs₂.unsolvedClasses?_eq)
    hs₂.resolved hlower).congr fun a ha => ?_
  have ha₁ := (hs₂.satisfied_iff a).1 ha
  rw [ha₁.solved.eval_resolve,
    ((hs₁.satisfied_iff a).1 ha₁).solved.eval_resolve]

theorem imposes_unifyWithin (ordered : table.Ordered) (depth : Nat)
    {want got : Ty TyVar} (hs : Store.Evolves table F s s)
    (hwant : F.Covers want) (hgot : F.Covers got)
    (hdepth : Store.Shallow table F s want depth) :
    Imposes table F s (fun a => a.eval want = a.eval got)
      ((unifyWithin table depth want got).run s) := by
  induction depth generalizing s want got with
  | zero => exact absurd (hdepth hs) (Nat.not_lt_zero _)
  | succ depth ih =>
      rw [unifyWithin]
      refine Imposes.pruneBoth ordered hs hwant hgot hdepth
        fun s₂ want₂ got₂ hs₂ hwant₂ hgot₂ hdepth₂ => ?_
      split
      · rename_i v w
        obtain ⟨hv, classes, hclasses⟩ := hwant₂.unsolved rfl
        obtain ⟨hw, others, hothers⟩ := hgot₂.unsolved rfl
        split
        · rename_i hsame
          exact Imposes.skip hs₂ fun a _ => by rw [hsame]
        · rename_i hne
          exact imposes_joinVars ordered hs₂ hv hw hne hclasses hothers
      · rename_i hvar
        obtain ⟨hv, classes, hclasses⟩ := hwant₂.unsolved rfl
        exact imposes_solveVar ordered hs₂ hv hgot₂.covers
          (fun w h => hvar w h) hclasses
      · rename_i hvar
        obtain ⟨hv, classes, hclasses⟩ := hgot₂.unsolved rfl
        exact (imposes_solveVar ordered hs₂ hv hwant₂.covers
          (fun w h => hvar w h) hclasses).congr fun a _ => eq_comm
      · rename_i c d
        split
        · rename_i hsame
          exact Imposes.skip hs₂ fun a _ => by rw [hsame]
        · rename_i hne
          apply Imposes.fail hs₂ (fun fault => by simp)
          intro a _ hequal
          exact hne (Ty.con.inj hequal)
      · rename_i wantFunc wantArg gotFunc gotArg
        rw [get_bind_run]
        split
        · rename_i hdiffer
          apply Imposes.fail hs₂ (fun fault => by simp)
          intro a ha
          exact eval_ne_of_headsDiffer ha hdiffer
        · have hfunc := ih hs₂ hwant₂.covers.func hgot₂.covers.func
            hdepth₂.func
          refine (Imposes.bind hfunc (fun _ => id)
            (q := fun a => a.eval wantArg = a.eval gotArg)
            fun s₃ hs₃ => ?_).congr fun a _ => by simp
          rw [get_bind_run]
          exact (ih hs₃.evolves.here hwant₂.covers.arg hgot₂.covers.arg
            (hdepth₂.arg.later hs₃.evolves)).within _
      · rename_i hwantNot hgotNot _ hcons happs
        apply Imposes.fail hs₂ (fun fault => by simp)
        intro a _
        exact eval_ne_of_no_rule hwantNot hgotNot hcons happs

/-- Unification starts at a depth that neither of its types ever reaches. -/
theorem Store.shallow_unify {want got : Ty TyVar}
    (ht : (Footprint.reach s [want, got]).Covers t) :
    Store.Shallow table (.reach s [want, got]) s t
      (max (s.depthBound want) (s.depthBound got)) := by
  apply Store.shallow_of_le ht
  rw [Store.depthBound, Store.depthBound, Nat.mul_max_mul_left]
  apply Nat.mul_le_mul_left
  simp only [Footprint.reach, List.foldr_cons, List.foldr_nil]
  omega

/-- Unification imposes that its types are equal, and changes only what they
lead to. -/
theorem imposes_unify (ordered : table.Ordered) (wf : s.WellFormed)
    {want got : Ty TyVar} (hwant : want.InRange s) (hgot : got.InRange s) :
    Imposes table (.reach s [want, got]) s (fun a => a.eval want = a.eval got)
      ((unify table want got).run s) := by
  have hsupports : (Footprint.reach s [want, got]).Supports s :=
    .reach wf (by simpa using ⟨hwant, hgot⟩)
  have hcovers : ∀ t ∈ [want, got], (Footprint.reach s [want, got]).Covers t :=
    fun t => .reach
  rw [unify, get_bind_run]
  exact imposes_unifyWithin ordered _ (.refl wf hsupports)
    (hcovers want (by simp)) (hcovers got (by simp))
    (Store.shallow_unify (hcovers want (by simp)))

end HindleyMilner

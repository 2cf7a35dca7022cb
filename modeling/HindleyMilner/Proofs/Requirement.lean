import HindleyMilner.Proofs.Evolution

/-
Runs that impose a goal on a store, and the class requirements among them.
What is said of the parts of unification is closed under sequencing, so each
part is looked at once.
-/

namespace HindleyMilner

/-- Whether an error reports a requirement on a type whose head is an unsolved
variable.  Such a requirement may be met by some types for the variable, but
cannot be written as classes of variables. -/
def UnifyError.Stuck (s : Store) (e : UnifyError) : Prop :=
  ∃ v c t w, e.cause = .constraint v c t ∧ t.spine.1 = .var w ∧
    s.isUnsolved w = true

/-- Whether an error reports classes in conflict that an assignment leaves
together on a variable of its own. -/
def UnifyError.LeftOpen {table : ClassTable} (e : UnifyError)
    (a : Assignment table) : Prop :=
  ∃ set p q x, e.cause = .unsatisfiable p q ∧
    table.conflict? set = some (p, q) ∧ ∀ c ∈ set.members, a.holds x c

/-- A run that succeeds: the goal holds from then on, and nothing else is
asked for. -/
structure Imposed (table : ClassTable) (F : Footprint) (s : Store)
    (goal : Assignment table → Prop) (s' : Store) : Prop where
  evolves : Store.Evolves table F s s'
  satisfied_iff : ∀ a : Assignment table,
    s'.SatisfiedBy a ↔ s.SatisfiedBy a ∧ goal a

/-- A run that fails: the store was not at fault, and unless the run got
stuck, an assignment only reaches the goal where it leaves open what the error
reports. -/
structure Refused (table : ClassTable) (F : Footprint) (s : Store)
    (goal : Assignment table → Prop) (e : UnifyError) (s' : Store) :
    Prop where
  evolves : Store.Evolves table F s s'
  not_fault : ∀ fault, e.cause ≠ .fault fault
  blamed : e.Stuck s' ∨ ∀ a : Assignment table,
    s.SatisfiedBy a → goal a → e.LeftOpen a

/-- Whether the outcome of a run from `s` is to impose the goal, or to fail
for a reason. -/
def Imposes (table : ClassTable) (F : Footprint) (s : Store)
    (goal : Assignment table → Prop) :
    EStateM.Result UnifyError Store Unit → Prop
  | .ok _ s' => Imposed table F s goal s'
  | .error e s' => Refused table F s goal e s'

variable {table : ClassTable} {F : Footprint} {s s' : Store}
  {v w : TyVar} {c : ClassId} {t : Ty TyVar} {classes : ClassSet}

/-- A run that fails without getting stuck has a goal that no ground assignment
reaches. -/
theorem Refused.refuted {goal : Assignment table → Prop} {e : UnifyError}
    (h : Refused table F s goal e s') :
    e.Stuck s' ∨ ∀ r : TyVar → GroundTy,
      s.SatisfiedBy (.ground table r) → ¬ goal (.ground table r) := by
  apply h.blamed.imp_right
  intro hall r hr hgoal
  obtain ⟨-, -, -, x, -⟩ := hall _ hr hgoal
  exact Empty.elim x

/-- Types that were made equal stand for the same type. -/
theorem Imposed.zonk_eq (ordered : table.Ordered) {u : Ty TyVar}
    (h : Imposed table F s (fun a => a.eval t = a.eval u) s') :
    s'.zonk t = s'.zonk u :=
  h.evolves.here.zonk_eq_of_eval_eq ordered fun a ha =>
    ((h.satisfied_iff a).1 ha).2

theorem bind_run_of_ok {E S A B : Type} {action : EStateM E S A}
    {f : A → EStateM E S B} {now next : S} {a : A}
    (h : action.run now = .ok a next) :
    (action >>= f).run now = (f a).run next := by
  rw [EStateM.run_bind, h]

theorem bind_run_of_error {E S A B : Type} {action : EStateM E S A}
    {f : A → EStateM E S B} {now next : S} {err : E}
    (h : action.run now = .error err next) :
    (action >>= f).run now = .error err next := by
  rw [EStateM.run_bind, h]

theorem get_bind_run {E S A : Type} (f : S → EStateM E S A) (now : S) :
    (get >>= f).run now = (f now).run now :=
  rfl

namespace UnifyM

theorem unsolvedClasses_run (h : s.unsolvedClasses? v = some classes) :
    (unsolvedClasses v).run s = .ok classes s := by
  simp only [unsolvedClasses, EStateM.run_bind, EStateM.run_get, h]
  rfl

theorem prune_run_eq (t : Ty TyVar) (s : Store) :
    (prune t).run s = .ok (s.prune t).1 (s.prune t).2 :=
  rfl

theorem prune_run (wf : s.WellFormed) (t : Ty TyVar) :
    (prune t).run s = .ok (s.resolve t) (s.prune t).2 := by
  rw [prune_run_eq, wf.prune_fst]

theorem setClasses_run (h : s.unsolvedClasses? v = some classes)
    (others : ClassSet) :
    (setClasses v others).run s = .ok () (s.setBinding v (.unsolved others)) :=
  bind_run_of_ok (unsolvedClasses_run h)

theorem solve_run (h : s.unsolvedClasses? v = some classes) (t : Ty TyVar) :
    (solve v t).run s = .ok () (s.setBinding v (.solved t)) :=
  bind_run_of_ok (unsolvedClasses_run h)

end UnifyM

namespace Imposes

variable {p q : Assignment table → Prop} {x y : UnifyM Unit}
  {result : EStateM.Result UnifyError Store Unit}

theorem congr (h : Imposes table F s p result)
    (hpq : ∀ a : Assignment table, s.SatisfiedBy a → (p a ↔ q a)) :
    Imposes table F s q result := by
  cases result with
  | ok _ s' =>
      refine ⟨h.evolves, fun a => ?_⟩
      rw [h.satisfied_iff a]
      exact and_congr_right (hpq a)
  | error e s' =>
      refine ⟨h.evolves, h.not_fault, ?_⟩
      apply h.blamed.imp_right
      intro hall a ha hq
      exact hall a ha ((hpq a ha).2 hq)

/-- What is imposed after a first goal is imposed together with it. -/
theorem andThen (h : Imposed table F s p s')
    (hrest : Imposes table F s' q result) :
    Imposes table F s (fun a => p a ∧ q a) result := by
  cases result with
  | ok _ s'' =>
      refine ⟨h.evolves.trans hrest.evolves, fun a => ?_⟩
      rw [hrest.satisfied_iff a, h.satisfied_iff a, and_assoc]
  | error e s'' =>
      refine ⟨h.evolves.trans hrest.evolves, hrest.not_fault, ?_⟩
      apply hrest.blamed.imp_right
      intro hall a ha hgoal
      exact hall a ((h.satisfied_iff a).2 ⟨ha, hgoal.1⟩) hgoal.2

/-- What is imposed after changes that keep the values is imposed as well. -/
theorem after (h : Imposes table F s' p result)
    (hs : Store.Evolves table F s s')
    (hsat : ∀ a : Assignment table, s'.SatisfiedBy a ↔ s.SatisfiedBy a) :
    Imposes table F s p result := by
  have hfirst : Imposed table F s (fun _ => True) s' :=
    ⟨hs, fun a => by rw [hsat a, and_true]⟩
  exact (andThen hfirst h).congr fun a _ => by rw [true_and]

theorem skip (hs : Store.Evolves table F s s)
    (hp : ∀ a : Assignment table, s.SatisfiedBy a → p a) :
    Imposes table F s p (.ok () s) :=
  ⟨hs, fun a => (and_iff_left_of_imp (hp a)).symm⟩

theorem fail {cause : UnifyError.Cause} (hs : Store.Evolves table F s s)
    (hfault : ∀ fault, cause ≠ .fault fault)
    (hnone : ∀ a : Assignment table, s.SatisfiedBy a → ¬ p a) :
    Imposes table F s p (.error ⟨cause, []⟩ s) :=
  ⟨hs, hfault, Or.inr fun a ha hgoal => absurd hgoal (hnone a ha)⟩

/-- Classes that are in conflict are met together by a variable at most. -/
theorem conflict {set : ClassSet} {pair : ClassId × ClassId}
    (hs : Store.Evolves table F s s) (h : table.conflict? set = some pair)
    (hall : ∀ a : Assignment table, s.SatisfiedBy a → p a →
      ∀ c ∈ set.members, a.Meets t c) :
    Imposes table F s p
      (.error ⟨.unsatisfiable pair.1 pair.2, []⟩ s) := by
  refine ⟨hs, fun fault => by simp, Or.inr fun a ha hgoal => ?_⟩
  have hmeets := hall a ha hgoal
  obtain ⟨x, hx⟩ := ClassTable.eq_var_of_conflict? h hmeets
  refine ⟨set, pair.1, pair.2, x, rfl, h, fun c hc => ?_⟩
  have hheld := hmeets c hc
  rwa [Assignment.Meets, hx] at hheld

theorem mono {F' : Footprint} (h : Imposes table F' s p result)
    (hF : F.Supports s) (hvars : ∀ v, F'.vars v → F.vars v)
    (hheight : F'.height ≤ F.height) : Imposes table F s p result := by
  cases result with
  | ok _ s' =>
      exact ⟨h.evolves.mono hF hvars hheight, h.satisfied_iff⟩
  | error e s' =>
      exact ⟨h.evolves.mono hF hvars hheight, h.not_fault, h.blamed⟩

/-- A run followed by another imposes both goals.  The first may keep to a
smaller footprint. -/
theorem bind {F' : Footprint} (hx : Imposes table F' s p (x.run s))
    (hmono : ∀ ⦃s'⦄, Store.Evolves table F' s s' →
      Store.Evolves table F s s')
    (hy : ∀ ⦃s'⦄, Imposed table F' s p s' →
      Imposes table F s' q (y.run s')) :
    Imposes table F s (fun a => p a ∧ q a) ((x >>= fun _ => y).run s) := by
  rw [EStateM.run_bind]
  cases hrun : x.run s with
  | error e s' =>
      rw [hrun] at hx
      refine ⟨hmono hx.evolves, hx.not_fault, ?_⟩
      exact hx.blamed.imp_right fun hall a ha hgoal => hall a ha hgoal.1
  | ok u s' =>
      rw [hrun] at hx
      exact andThen ⟨hmono hx.evolves, hx.satisfied_iff⟩ (hy hx)

/-- A loop imposes all goals of its steps, if each step imposes its own at any
later time. -/
theorem forM {A : Type} {goal : A → Assignment table → Prop}
    {f : A → UnifyM Unit} (xs : List A) (hs : Store.Evolves table F s s)
    (hstep : ∀ x ∈ xs, ∀ ⦃s'⦄, Store.Evolves table F s s' →
      Imposes table F s' (goal x) ((f x).run s')) :
    Imposes table F s (fun a => ∀ x ∈ xs, goal x a) ((xs.forM f).run s) := by
  induction xs generalizing s with
  | nil => exact skip hs fun a _ x hx => absurd hx List.not_mem_nil
  | cons head tail ih =>
      have hhead := hstep head List.mem_cons_self hs
      have hall := hhead.bind (q := fun a => ∀ x ∈ tail, goal x a)
        (y := tail.forM f) (fun _ => id) fun s' hs' => by
          apply ih hs'.evolves.here
          intro x hx s'' hs''
          exact hstep x (List.mem_cons_of_mem head hx) (hs'.evolves.trans hs'')
      exact hall.congr fun a _ => by rw [List.forall_mem_cons]

theorem within (pos : Nat) (h : Imposes table F s p (x.run s)) :
    Imposes table F s p ((UnifyM.within pos x).run s) := by
  rw [UnifyM.within, EStateM.run_adaptExcept]
  cases hrun : x.run s with
  | ok u s' =>
      rw [hrun] at h
      exact h
  | error e s' =>
      rw [hrun] at h
      exact ⟨h.evolves, h.not_fault, h.blamed⟩

theorem prune {f : Ty TyVar → UnifyM Unit} (hs : Store.Evolves table F s s)
    (ht : F.Covers t)
    (hrest : ∀ ⦃s'⦄, Store.Pruned table F s t s' →
      Imposes table F s' p ((f (s.resolve t)).run s')) :
    Imposes table F s p ((UnifyM.prune t >>= f).run s) := by
  have hpruned := hs.pruned ht
  rw [bind_run_of_ok (UnifyM.prune_run hs.wellFormed t)]
  exact (hrest hpruned).after hpruned.evolves hpruned.satisfied_iff

end Imposes

/-! ### Classes of variables -/

theorem imposes_setClasses (hs : Store.Evolves table F s s) (hv : F.vars v)
    (h : s.unsolvedClasses? v = some classes) {others : ClassSet}
    (hothers : ∀ a : Assignment table,
      (∀ c ∈ others.members, a.Meets (.var v) c) →
        ∀ c ∈ classes.members, a.Meets (.var v) c) :
    Imposes table F s (fun a => ∀ c ∈ others.members, a.Meets (.var v) c)
      ((UnifyM.setClasses v others).run s) := by
  have hiff (a : Assignment table) :=
    Store.satisfiedBy_setBinding_unsolved_iff h (hothers a)
  rw [UnifyM.setClasses_run h]
  exact ⟨hs.setBinding_unsolved hv h fun a ha => ((hiff a).1 ha).1, hiff⟩

/-- A class is added to those of an unsolved variable, unless no constructor
is an instance of all of them. -/
theorem imposes_constrain (ordered : table.Ordered)
    (hs : Store.Evolves table F s s) (hv : F.vars v)
    (h : s.unsolvedClasses? v = some classes) (c : ClassId) :
    Imposes table F s (fun a => a.Meets (.var v) c)
      ((constrain table v c).run s) := by
  have hold (a : Assignment table) (ha : s.SatisfiedBy a) :
      ∀ d ∈ classes.members, a.Meets (.var v) d := ha.unsolved h
  rw [constrain, bind_run_of_ok (UnifyM.unsolvedClasses_run h)]
  cases hinsert : classes.insert? table c with
  | none =>
      apply Imposes.skip hs
      intro a ha
      exact ClassSet.of_implies (a.meets_upward ordered _) (hold a ha)
        (ClassSet.implies_of_insert?_eq_none hinsert)
  | some larger =>
      have hlarger (a : Assignment table) :=
        ClassSet.forall_mem_insert?_iff (a.meets_upward ordered (.var v))
          hinsert
      cases hconflict : table.conflict? larger with
      | some pair =>
          simp only [hconflict]
          exact Imposes.conflict hs hconflict fun a ha hc =>
            (hlarger a).2 ⟨hold a ha, hc⟩
      | none =>
          simp only [hconflict]
          refine (imposes_setClasses hs hv h fun a ha =>
            ((hlarger a).1 ha).1).congr fun a ha => ?_
          rw [hlarger a]
          exact and_iff_right (hold a ha)

/-! ### Classes of other types -/

theorem Assignment.meets_iff_of_spine {a : Assignment table} {con : Name}
    {args : List (Ty TyVar)} (ha : s.SatisfiedBy a)
    (hspine : s.spine t = (.con con, args)) :
    a.Meets t c ↔ table.hasInstance c con = true ∧
      ∀ arg ∈ args, ∀ d ∈ (table.argClasses c con).members,
        a.Meets arg d := by
  rw [Assignment.Meets, ha.solved.eval_spine t, hspine]
  simp only [Assignment.eval_con, Ty.meets_applyTo_con_iff,
    List.forall_mem_map, Assignment.Meets]

/-- The head of what a type stands for is the head of its spine. -/
theorem Store.WellFormed.spine_zonk (wf : s.WellFormed)
    (ordered : table.Ordered) (h : (s.spine t).1 = .var v) :
    (s.zonk t).spine.1 = .var v := by
  have hzonk := (wf.satisfiedBy_zonkAssignment ordered).solved.eval_spine t
  rw [wf.eval_zonkAssignment, wf.eval_zonkAssignment, h,
    wf.zonk_var_unsolved (wf.solution?_of_spine h)] at hzonk
  rw [hzonk]
  exact congrArg Prod.fst (Ty.spine_applyTo (Ty.isAtom_var v) _)

/-- A requirement on a type whose head is no constructor is stuck. -/
theorem imposes_stuck (ordered : table.Ordered)
    (hs : Store.Evolves table F s s) (ht : F.Covers t)
    (hhead : ∀ con args, s.spine t ≠ (.con con, args)) (v : TyVar)
    (c : ClassId) {p : Assignment table → Prop} :
    Imposes table F s p (.error ⟨.constraint v c (s.zonk t), []⟩ s) := by
  have hatom := s.spine_isAtom t
  cases hspine : (s.spine t).1 with
  | con con => exact (hhead con _ (Prod.ext hspine rfl)).elim
  | app func arg =>
      rw [hspine] at hatom
      exact hatom.elim
  | var w =>
      have hzonk := hs.wellFormed.spine_zonk ordered hspine
      have hw : F.vars w :=
        hs.supports.vars_of_mem_zonk ht.vars (Ty.mem_vars_of_spineOnto hzonk)
      obtain ⟨classes, hclasses⟩ := Store.exists_unsolvedClasses?
        (hs.supports.inRange hw) (hs.wellFormed.solution?_of_spine hspine)
      exact ⟨hs, fun fault => by simp,
        Or.inl ⟨v, c, s.zonk t, w, rfl, hzonk,
          Store.isUnsolved_of_unsolved hclasses⟩⟩

/-- A class is required of an argument by adding it to a variable, or by
requiring it of the constructor that the argument has. -/
theorem imposes_requireArg (ordered : table.Ordered)
    (hs : Store.Evolves table F s s) (ht : F.Covers t) (c : ClassId)
    {f : Ty TyVar → UnifyM Unit}
    (hrest : ∀ ⦃s'⦄, Store.Evolves table F s s' → F.Covers (s.resolve t) →
      Imposes table F s' (fun a => a.Meets (s.resolve t) c)
        ((f (s.resolve t)).run s')) :
    Imposes table F s (fun a => a.Meets t c)
      ((UnifyM.prune t >>= fun
        | .var w => constrain table w c
        | inner => f inner).run s) := by
  apply Imposes.prune hs ht
  intro s' hs'
  have hequal (a : Assignment table) (ha : s'.SatisfiedBy a) :
      a.Meets (s.resolve t) c ↔ a.Meets t c :=
    Assignment.meets_congr
      (((hs'.satisfied_iff a).1 ha).solved.eval_resolve t)
  refine Imposes.congr (p := fun a => a.Meets (s.resolve t) c) ?_ hequal
  split
  · rename_i w hw
    obtain ⟨hvars, classes, hclasses⟩ := hs'.resolved.unsolved hw
    rw [hw]
    exact imposes_constrain ordered hs'.evolves.here hvars hclasses c
  · exact hrest hs'.evolves hs'.covers

/-- A class is required of a type by requiring classes of the variables in
it. -/
theorem imposes_requireWithin (ordered : table.Ordered) (v : TyVar)
    (depth : Nat) (hs : Store.Evolves table F s s) (ht : F.Covers t)
    (hdepth : Store.Shallow table F s t depth) (c : ClassId) :
    Imposes table F s (fun a => a.Meets t c)
      ((requireWithin table v depth c t).run s) := by
  induction depth generalizing s t c with
  | zero => exact absurd (hdepth hs) (Nat.not_lt_zero _)
  | succ depth ih =>
      rw [requireWithin, get_bind_run]
      split
      · rename_i con args hspine
        have hmeets (a : Assignment table) (ha : s.SatisfiedBy a) :=
          Assignment.meets_iff_of_spine (c := c) ha hspine
        split
        · rename_i hinstance
          refine Imposes.congr (p := fun a => ∀ arg ∈ args,
            ∀ d ∈ (table.argClasses c con).members, a.Meets arg d) ?_
            fun a ha => by rw [hmeets a ha, hinstance, eq_self, true_and]
          apply Imposes.forM args hs
          intro arg harg s₁ hs₁
          have hmem : arg ∈ (s.spine t).2 := by rwa [hspine]
          have hcovers := hs.supports.covers_of_mem_spine ht hmem
          have hlower := hdepth.of_mem_spine ordered hmem
          apply Imposes.forM _ hs₁.here
          intro d _ s₂ hs₂
          have hlower₂ := (hlower.later (hs₁.trans hs₂)).resolve ordered
          exact imposes_requireArg ordered hs₂.here hcovers d
            fun s₃ hs₃ hcovers₃ =>
              ih hs₃.here hcovers₃ (hlower₂.later hs₃) d
        · rename_i hinstance
          apply Imposes.fail hs (fun fault => by simp)
          intro a ha hgoal
          exact hinstance ((hmeets a ha).1 hgoal).1
      · rename_i hhead
        exact imposes_stuck ordered hs ht hhead v c

theorem imposes_require (ordered : table.Ordered) (v : TyVar)
    (hs : Store.Evolves table F s s) (ht : F.Covers t) (c : ClassId) :
    Imposes table F s (fun a => a.Meets t c) ((require table v c t).run s) := by
  -- The depth is right for the store as it is now, which may be lower than
  -- what the footprint leaves room for.
  have hts : ∀ u ∈ [t], F.Covers u := by simpa using ht
  have hsupports : (Footprint.reach s [t]).Supports s :=
    .reach hs.wellFormed fun u hu => (hts u hu).inRange hs.supports
  have hcovers : (Footprint.reach s [t]).Covers t :=
    .reach List.mem_cons_self
  rw [require, get_bind_run]
  refine Imposes.mono ?_ hs.supports (fun v => hs.supports.vars_of_reach hts)
    (hs.supports.height_reach_le hts)
  refine imposes_requireWithin ordered v _ (.refl hs.wellFormed hsupports)
    hcovers (Store.shallow_of_le hcovers ?_) c
  rw [Store.depthBound, Footprint.reach, List.foldr_cons, List.foldr_nil,
    Nat.max_comm]

end HindleyMilner

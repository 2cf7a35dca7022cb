import HindleyMilner.Proofs.ReducedSet
import HindleyMilner.Proofs.Session

/-
What holds of the classes of all unsolved variables.  Unification makes new
sets of classes in two ways: it joins the sets of two variables, and it adds
a class that a type asks of its argument.  It looks for a conflict both times.
A property of sets that survives both ways holds after every run, and after a
run that fails on its way as well.
-/

namespace HindleyMilner

/-- Whether a property of sets of classes survives unification. -/
structure ClassTable.Lasts (table : ClassTable) (ok : ClassSet → Prop) :
    Prop where
  union : ∀ ⦃a b⦄, ok a → ok b →
    table.conflict? (a.union table b) = none → ok (a.union table b)
  insert : ∀ ⦃set larger c con⦄, ok set → table.hasInstance c con = true →
    set.insert? table c = some larger →
      table.conflict? larger = none → ok larger

/-- What an instance asks of arguments are classes that it is in. -/
theorem ClassTable.hasInstance_of_mem_argClasses {table : ClassTable}
    (ordered : table.Ordered) {c d : ClassId} {con : Name}
    (hc : table.hasInstance c con = true)
    (hd : d ∈ (table.argClasses c con).members) :
    table.hasInstance d con = true := by
  have hupward := hasInstance_upward ordered con
  refine (ClassSet.forall_mem_ofList_iff hupward _).2 (fun e he => ?_) d hd
  rcases List.mem_cons.1 (List.mem_filter.1 he).1 with rfl | habove
  · exact hc
  · exact hupward hc (decide_eq_true habove)

namespace Store

variable {ok : ClassSet → Prop} {s : Store} {v : TyVar}
  {classes : ClassSet}

/-- Whether the classes of all unsolved variables have a property. -/
def AllClasses (ok : ClassSet → Prop) (s : Store) : Prop :=
  ∀ ⦃v classes⦄, s.unsolvedClasses? v = some classes → ok classes

theorem AllClasses.mono {ok' : ClassSet → Prop} (h : s.AllClasses ok)
    (hok : ∀ classes, ok classes → ok' classes) : s.AllClasses ok' :=
  fun _ _ hv => hok _ (h hv)

theorem AllClasses.fresh (h : s.AllClasses ok) (base : String)
    (hclasses : ok classes) : (s.fresh base classes).2.AllClasses ok := by
  intro w others hw
  rw [unsolvedClasses?_fresh] at hw
  split at hw
  · rwa [← Option.some.inj hw]
  · exact h hw

theorem AllClasses.prune (h : s.AllClasses ok) (t : Ty TyVar) :
    (s.prune t).2.AllClasses ok := by
  intro w others hw
  rw [unsolvedClasses?_prune] at hw
  exact h hw

theorem AllClasses.setBinding_unsolved (h : s.AllClasses ok)
    (hrange : v.index < s.size) (hclasses : ok classes) :
    (s.setBinding v (.unsolved classes)).AllClasses ok := by
  intro w others hw
  rw [unsolvedClasses?_setBinding_unsolved hrange] at hw
  split at hw
  · rwa [← Option.some.inj hw]
  · exact h hw

theorem AllClasses.setBinding_solved (h : s.AllClasses ok)
    (hrange : v.index < s.size) (t : Ty TyVar) :
    (s.setBinding v (.solved t)).AllClasses ok := by
  intro w others hw
  rw [unsolvedClasses?_setBinding_solved hrange] at hw
  split at hw
  · contradiction
  · exact h hw

/-- Whether a property of stores survives changes of their variables, where
the sets that variables are given have a property, and so have those that are
there. -/
structure Carries (P : Store → Prop) (ok : ClassSet → Prop) : Prop where
  classes : ∀ ⦃s v classes⦄, P s → s.unsolvedClasses? v = some classes →
    ok classes
  setClasses : ∀ ⦃s v classes⦄, P s → v.index < s.size → ok classes →
    P (s.setBinding v (.unsolved classes))
  solve : ∀ ⦃s v⦄ t, P s → v.index < s.size →
    P (s.setBinding v (.solved t))
  prune : ∀ ⦃s⦄ t, P s → P (s.prune t).2

/-- A property of all sets of classes is one that changes of variables carry
over. -/
theorem carries_allClasses (ok : ClassSet → Prop) :
    Carries (AllClasses ok) ok where
  classes _ _ _ h hv := h hv
  setClasses _ _ _ h hrange hclasses := h.setBinding_unsolved hrange hclasses
  solve _ _ t h hrange := h.setBinding_solved hrange t
  prune _ t h := h.prune t

end Store

/-! ### Unification -/

namespace UnifyM

variable {P : Store → Prop} {A B : Type} {Q : A → Prop} {R : B → Prop}

/-- Whether an action keeps a property of stores, also where it fails, and
returns results with a property where it does not. -/
def Keeps (P : Store → Prop) (action : UnifyM A) (Q : A → Prop) : Prop :=
  ∀ ⦃s⦄, P s →
    match action.run s with
    | .ok a s' => P s' ∧ Q a
    | .error _ s' => P s'

theorem Keeps.pure {a : A} (ha : Q a) : Keeps P (pure a) Q :=
  fun _ h => ⟨h, ha⟩

theorem Keeps.fail {cause : UnifyError.Cause} :
    Keeps P (fail cause : UnifyM A) Q :=
  fun _ h => h

theorem keeps_get : Keeps P get fun _ => True :=
  fun _ h => ⟨h, trivial⟩

theorem Keeps.bind {action : UnifyM A} {f : A → UnifyM B}
    (h : Keeps P action Q) (hf : ∀ a, Q a → Keeps P (f a) R) :
    Keeps P (action >>= f) R := by
  intro s hs
  have hfirst := h hs
  rw [EStateM.run_bind]
  cases hrun : action.run s with
  | ok a s' =>
      rw [hrun] at hfirst
      exact hf a hfirst.2 hfirst.1
  | error e s' =>
      rw [hrun] at hfirst
      exact hfirst

theorem Keeps.forM {f : B → UnifyM PUnit} (xs : List B)
    (h : ∀ x ∈ xs, Keeps P (f x) fun _ => True) :
    Keeps P (xs.forM f) fun _ => True := by
  induction xs with
  | nil => exact .pure trivial
  | cons head tail ih =>
      rw [List.forall_mem_cons] at h
      exact h.1.bind fun _ _ => ih h.2

theorem Keeps.mono {action : UnifyM A} {Q' : A → Prop} (h : Keeps P action Q)
    (hQ : ∀ a, Q a → Q' a) : Keeps P action Q' := by
  intro s hs
  have hrun := h hs
  cases hresult : action.run s with
  | ok a s' =>
      rw [hresult] at hrun
      exact ⟨hrun.1, hQ a hrun.2⟩
  | error e s' => rwa [hresult] at hrun

theorem Keeps.within {action : UnifyM A} (pos : Nat) (h : Keeps P action Q) :
    Keeps P (within pos action) Q := by
  intro s hs
  have hrun := h hs
  rw [UnifyM.within, EStateM.run_adaptExcept]
  cases hresult : action.run s <;> rwa [hresult] at hrun

/-- What is kept holds at the end, however a run ends. -/
theorem Keeps.finalState {action : UnifyM A} (h : Keeps P action Q)
    {s : Store} (hs : P s) : P (finalState (action.run s)) := by
  have hrun := h hs
  cases hresult : action.run s with
  | ok a s' =>
      rw [hresult] at hrun
      exact hrun.1
  | error e s' =>
      rw [hresult] at hrun
      exact hrun

/-! What a requirement and a unification keep comes down to what their steps
keep.  A requirement prunes types and asks for classes of unsolved variables.
A unification prunes types, joins variables and solves variables to types. -/

section

variable {table : ClassTable}

theorem Keeps.requireArg {c : ClassId} {t : Ty TyVar}
    {f : Ty TyVar → UnifyM Unit}
    (hprune : ∀ t, Keeps P (prune t) fun _ => True)
    (hconstrain : ∀ w, Keeps P (constrain table w c) fun _ => True)
    (h : ∀ inner, Keeps P (f inner) fun _ => True) :
    Keeps P
      (prune t >>= fun
        | .var w => constrain table w c
        | inner => f inner) fun _ => True := by
  apply (hprune t).bind
  intro inner _
  split
  · exact hconstrain _
  · exact h inner

/-- The classes that a requirement asks for are ones that some instance puts
its type into. -/
theorem Keeps.requireWithin (ordered : table.Ordered)
    (hprune : ∀ t, Keeps P (prune t) fun _ => True)
    (hconstrain : ∀ w d con, table.hasInstance d con = true →
      Keeps P (constrain table w d) fun _ => True)
    (v : TyVar) (depth : Nat) (c : ClassId) (t : Ty TyVar) :
    Keeps P (requireWithin table v depth c t) fun _ => True := by
  induction depth generalizing c t with
  | zero => exact .fail
  | succ depth ih =>
      rw [HindleyMilner.requireWithin]
      apply keeps_get.bind
      intro s _
      split
      · rename_i con args _
        split
        · rename_i hinstance
          apply Keeps.forM
          intro arg _
          apply Keeps.forM
          intro d hd
          exact .requireArg hprune (fun w => hconstrain w d con
            (ClassTable.hasInstance_of_mem_argClasses ordered hinstance hd))
            (ih d)
        · exact .fail
      · exact .fail

/-- Types may have to be such that variables can be solved to them, as their
parts are then. -/
theorem Keeps.unifyWithin (admits : Ty TyVar → Prop)
    (hprune : ∀ t, Keeps P (prune t) fun r => admits t → admits r)
    (hparts : ∀ func arg, admits (.app func arg) → admits func ∧ admits arg)
    (hjoin : ∀ v w, v ≠ w → Keeps P (joinVars table v w) fun _ => True)
    (hsolve : ∀ v t, admits t → (∀ w, t ≠ .var w) →
      Keeps P (solveVar table v t) fun _ => True)
    (depth : Nat) {want got : Ty TyVar} (hwant : admits want)
    (hgot : admits got) :
    Keeps P (unifyWithin table depth want got) fun _ => True := by
  induction depth generalizing want got with
  | zero => exact .fail
  | succ depth ih =>
      rw [HindleyMilner.unifyWithin]
      apply (hprune want).bind
      intro want₂ hwant₂
      apply (hprune got).bind
      intro got₂ hgot₂
      have hwant := hwant₂ hwant
      have hgot := hgot₂ hgot
      split
      · split
        · exact .pure trivial
        · rename_i hne
          exact hjoin _ _ hne
      · exact hsolve _ _ hgot (by assumption)
      · exact hsolve _ _ hwant (by assumption)
      · split
        · exact .pure trivial
        · exact .fail
      · obtain ⟨hwantFunc, hwantArg⟩ := hparts _ _ hwant
        obtain ⟨hgotFunc, hgotArg⟩ := hparts _ _ hgot
        apply keeps_get.bind
        intro s _
        split
        · exact .fail
        · apply (ih hwantFunc hgotFunc).bind
          intro _ _
          exact keeps_get.bind fun _ _ => (ih hwantArg hgotArg).within _
      · exact .fail

end

variable {ok : ClassSet → Prop}

/-- Shortening chains touches no classes. -/
theorem keeps_prune (hP : Store.Carries P ok) (t : Ty TyVar) :
    Keeps P (prune t) fun _ => True := by
  intro s hs
  rw [prune_run_eq]
  exact ⟨hP.prune t hs, trivial⟩

theorem keeps_unsolvedClasses (hP : Store.Carries P ok) (v : TyVar) :
    Keeps P (unsolvedClasses v) ok := by
  intro s hs
  cases hv : s.unsolvedClasses? v with
  | some classes =>
      rw [unsolvedClasses_run hv]
      exact ⟨hs, hP.classes hs hv⟩
  | none =>
      simp only [unsolvedClasses, EStateM.run_bind, EStateM.run_get, hv]
      exact hs

/-- A change of one unsolved variable. -/
theorem keeps_modify {v : TyVar} {binding : Binding}
    (h : ∀ ⦃s : Store⦄, P s → v.index < s.size →
      P (s.setBinding v binding)) :
    Keeps P
      (unsolvedClasses v >>= fun _ => modify (·.setBinding v binding))
      fun _ => True := by
  intro s hs
  cases hv : s.unsolvedClasses? v with
  | some classes =>
      rw [bind_run_of_ok (unsolvedClasses_run hv)]
      exact ⟨h hs (Store.lt_size_of_unsolvedClasses? hv), trivial⟩
  | none =>
      simp only [unsolvedClasses, EStateM.run_bind, EStateM.run_get, hv]
      exact hs

theorem keeps_setClasses (hP : Store.Carries P ok) (v : TyVar)
    {classes : ClassSet} (hclasses : ok classes) :
    Keeps P (setClasses v classes) fun _ => True :=
  keeps_modify fun _ hs hrange => hP.setClasses hs hrange hclasses

theorem keeps_solve (hP : Store.Carries P ok) (v : TyVar) (t : Ty TyVar) :
    Keeps P (solve v t) fun _ => True :=
  keeps_modify fun _ hs hrange => hP.solve t hs hrange

end UnifyM

open UnifyM

section

variable {table : ClassTable} {ok : ClassSet → Prop} {P : Store → Prop}

/-- A class is only added to a set where a constructor has it, so what lasts is
kept. -/
theorem keeps_constrain (hP : Store.Carries P ok) (hok : table.Lasts ok)
    (v : TyVar) {c : ClassId} {con : Name}
    (hc : table.hasInstance c con = true) :
    Keeps P (constrain table v c) fun _ => True := by
  apply (keeps_unsolvedClasses hP v).bind
  intro classes hclasses
  cases hinsert : classes.insert? table c with
  | none => exact .pure trivial
  | some larger =>
      cases hconflict : table.conflict? larger with
      | some pair =>
          simp only [hconflict]
          exact .fail
      | none =>
          simp only [hconflict]
          exact keeps_setClasses hP v
            (hok.insert hclasses hc hinsert hconflict)

theorem keeps_requireWithin (hP : Store.Carries P ok)
    (ordered : table.Ordered) (hok : table.Lasts ok) (v : TyVar)
    (depth : Nat) (c : ClassId) (t : Ty TyVar) :
    Keeps P (requireWithin table v depth c t)
      fun _ => True :=
  .requireWithin ordered (keeps_prune hP)
    (fun w _ _ hinstance => keeps_constrain hP hok w hinstance) v depth c t

theorem keeps_joinVars (hP : Store.Carries P ok) (hok : table.Lasts ok)
    (v w : TyVar) :
    Keeps P (joinVars table v w) fun _ => True := by
  apply (keeps_unsolvedClasses hP v).bind
  intro classes hclasses
  apply (keeps_unsolvedClasses hP w).bind
  intro others hothers
  cases hconflict : table.conflict? (classes.union table others) with
  | some pair =>
      simp only [hconflict]
      exact .fail
  | none =>
      simp only [hconflict]
      exact (keeps_setClasses hP w (hok.union hclasses hothers hconflict)).bind
        fun _ _ => keeps_solve hP v _

theorem keeps_solveVar (hP : Store.Carries P ok) (ordered : table.Ordered)
    (hok : table.Lasts ok) (v : TyVar) (t : Ty TyVar) :
    Keeps P (solveVar table v t) fun _ => True := by
  have hsolve : Keeps P
      (unsolvedClasses v >>= fun classes =>
        (classes.members.forM fun c => require table v c t) >>= fun _ =>
          solve v t) fun _ => True := by
    apply (keeps_unsolvedClasses hP v).bind
    intro classes _
    refine (Keeps.forM _ fun c _ => ?_).bind fun _ _ => keeps_solve hP v t
    exact keeps_get.bind fun s _ => keeps_requireWithin hP ordered hok v _ c t
  apply keeps_get.bind
  intro s _
  split
  · exact Keeps.fail.bind fun _ (_ : True) => hsolve
  · exact hsolve

/-- A property of sets that lasts is kept by unification, also where it fails
half way. -/
theorem keeps_unifyWithin (hP : Store.Carries P ok)
    (ordered : table.Ordered) (hok : table.Lasts ok) (depth : Nat)
    (want got : Ty TyVar) :
    Keeps P (unifyWithin table depth want got)
      fun _ => True :=
  .unifyWithin (fun _ => True)
    (fun t => (keeps_prune hP t).mono fun _ _ _ => trivial)
    (fun _ _ _ => ⟨trivial, trivial⟩)
    (fun v w _ => keeps_joinVars hP hok v w)
    (fun v t _ _ => keeps_solveVar hP ordered hok v t) depth trivial trivial

/-- Unification keeps what it survives, whatever the types. -/
theorem keeps_unify (hP : Store.Carries P ok) (ordered : table.Ordered)
    (hok : table.Lasts ok) (want got : Ty TyVar) :
    Keeps P (unify table want got) fun _ => True :=
  keeps_get.bind fun _ _ => keeps_unifyWithin hP ordered hok _ want got

/-! ### Moves -/

/-- Whether a property holds of the sets that new variables get, and survives
unification. -/
structure Permit.Ensures (permit : Permit) (table : ClassTable)
    (ok : ClassSet → Prop) : Prop extends table.Lasts ok where
  empty : ok ∅
  single : ∀ ⦃c⦄, c.index < table.size → ok (.ofList table [c])
  given : ∀ ⦃classes⦄, permit.classes classes → ok classes

namespace Store

variable {permit : Permit} {s s' : Store}

/-- The classes handed to a new variable have the property that all others
have. -/
theorem AllClasses.hands (h : s.AllClasses ok)
    (hok : permit.Ensures table ok) {classes : ClassSet}
    (hclasses : s.Hands table permit classes) : ok classes := by
  cases hclasses with
  | given hgiven => exact hok.given hgiven
  | none => exact hok.empty
  | single hc => exact hok.single hc
  | copy hv => exact h hv

theorem AllClasses.move (h : s.AllClasses ok) (ordered : table.Ordered)
    (hok : permit.Ensures table ok) (hmove : Move table permit s s') :
    s'.AllClasses ok := by
  cases hmove with
  | fresh base hclasses => exact h.fresh base (h.hands hok hclasses)
  | @prune t _ => exact h.prune t
  | @unify want got _ _ =>
      exact (keeps_unify (carries_allClasses ok) ordered hok.toLasts want
        got).finalState h

/-- What holds of all sets of classes goes on to hold in a session that only
gives such sets. -/
theorem AllClasses.moves (h : s.AllClasses ok) (ordered : table.Ordered)
    (hok : permit.Ensures table ok) (hmoves : Moves table permit s s') :
    s'.AllClasses ok := by
  induction hmoves with
  | refl => exact h
  | tail _ hmove ih => exact ih.move ordered hok hmove

end Store

end

end HindleyMilner

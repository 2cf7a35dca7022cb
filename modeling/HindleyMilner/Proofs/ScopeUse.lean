import HindleyMilner.Proofs.ContextMeaning
import HindleyMilner.Proofs.LexemePlaces
import HindleyMilner.Proofs.SetInvariant

/-
How a scope is used during a session: it hands out variables for names, reads
signatures and instantiates types, and in between the session does whatever it
does to the variables.  A variable keeps the name that it was created with, so
at all times a scope has its variables under their own names.
-/

namespace HindleyMilner

/-! ### Names that variables are created with -/

theorem ClassTable.lasts_true (table : ClassTable) :
    table.Lasts fun _ => True :=
  ⟨fun _ _ _ _ _ => trivial, fun _ _ _ _ _ _ _ _ => trivial⟩

namespace Store

variable {table : ClassTable} {permit : Permit} {s s' : Store} {v : TyVar}
  {P : Store → Prop} {base : String} {classes : ClassSet}

@[simp] theorem baseOf_setBinding (s : Store) (v : TyVar) (binding : Binding)
    (w : TyVar) : (s.setBinding v binding).baseOf w = s.baseOf w := by
  rw [baseOf, baseOf, setBinding, Array.getElem?_modify]
  split
  · rw [Option.map_map]
    rfl
  · rfl

@[simp] theorem baseOf_fresh_self (s : Store) (base : String)
    (classes : ClassSet) :
    (s.fresh base classes).2.baseOf ⟨s.size⟩ = base := by
  simp [baseOf, fresh, size]

theorem baseOf_fresh (hv : v.index ≠ s.size) :
    (s.fresh base classes).2.baseOf v = s.baseOf v := by
  rw [baseOf, baseOf, getElem?_cells_fresh v hv]

/-- A property that survives every change of a variable survives
unification. -/
theorem carries_of_setBinding
    (h : ∀ ⦃s⦄ v binding, P s → P (s.setBinding v binding)) :
    Carries P fun _ => True where
  classes _ _ _ _ _ := trivial
  setClasses _ v _ hs _ _ := h v _ hs
  solve _ v t hs _ := h v _ hs
  prune s t hs := by
    have hfold (passed : List TyVar) (root : TyVar) ⦃s : Store⦄ (hs : P s) :
        P (passed.foldl
          (fun s w => s.setBinding w (.solved (.var root))) s) := by
      induction passed generalizing s with
      | nil => exact hs
      | cons w passed ih => exact ih (h w _ hs)
    cases t with
    | con name => exact hs
    | app func arg => exact hs
    | var v => exact hfold (s.passed v) (s.root v) hs

/-- Variables are not renamed. -/
theorem carries_baseOf (v : TyVar) (base : String) :
    Carries (fun s => s.baseOf v = base) fun _ => True :=
  carries_of_setBinding fun _ _ _ h => by rwa [baseOf_setBinding]

theorem baseOf_unify (ordered : table.Ordered) (want got : Ty TyVar)
    (s : Store) (v : TyVar) :
    (finalState ((HindleyMilner.unify table want got).run s)).baseOf v =
      s.baseOf v :=
  (keeps_unify (carries_baseOf v _) ordered table.lasts_true want
    got).finalState rfl

theorem Move.baseOf_eq (ordered : table.Ordered)
    (h : Move table permit s s') (hv : v.index < s.size) :
    s'.baseOf v = s.baseOf v := by
  cases h with
  | fresh base _ => exact baseOf_fresh (Nat.ne_of_lt hv)
  | @prune t _ => exact (carries_baseOf v _).prune t rfl
  | unify _ _ => exact baseOf_unify ordered _ _ s v

theorem Moves.baseOf_eq (ordered : table.Ordered) (wf : s.WellFormed)
    (h : Moves table permit s s') (hv : v.index < s.size) :
    s'.baseOf v = s.baseOf v := by
  induction h with
  | refl => rfl
  | tail hmoves hmove ih =>
      have hsize := Moves.size_le ordered wf hmoves
      rw [hmove.baseOf_eq ordered (Nat.lt_of_lt_of_le hv hsize), ih]

end Store

/-! ### Scopes that know their variables by name -/

/-- Whether the variables that a scope hands out for names are variables of a
store that were created with these names. -/
def Scope.Called (scope : Scope) (s : Store) : Prop :=
  ∀ p ∈ scope.named, p.2.index < s.size ∧ s.baseOf p.2 = p.1

namespace Scope

variable {table : ClassTable} {permit : Permit} {scope : Scope}
  {s s' : Store} {now : Scope × Store}

theorem called_empty (s : Store) : Scope.empty.Called s := by
  simp [Called, empty]

theorem Called.inRange (h : scope.Called s) : scope.InRange s :=
  fun p hp => (h p hp).1

theorem Called.moves (h : scope.Called s) (ordered : table.Ordered)
    (wf : s.WellFormed) (hmoves : Store.Moves table permit s s') :
    scope.Called s' := by
  intro p hp
  obtain ⟨hv, hbase⟩ := h p hp
  exact ⟨Nat.lt_of_lt_of_le hv (hmoves.size_le ordered wf),
    (hmoves.baseOf_eq ordered wf hv).trans hbase⟩

theorem Called.fresh (h : scope.Called s) (base : String)
    (classes : ClassSet) : scope.Called (s.fresh base classes).2 := by
  intro p hp
  obtain ⟨hv, hbase⟩ := h p hp
  rw [Store.size_fresh, Store.baseOf_fresh (Nat.ne_of_lt hv)]
  exact ⟨Nat.lt_succ_of_lt hv, hbase⟩

/-- A new name gets a variable that is created with it. -/
theorem Called.var (h : now.1.Called now.2) (name : String) :
    ((var name).run now).2.1.Called ((var name).run now).2.2 := by
  rcases now with ⟨scope, s⟩
  cases hname : scope.named.lookup name with
  | some v => rwa [var_run_of_some hname]
  | none =>
      rw [var_run_of_none hname]
      refine List.forall_mem_cons.2 ⟨⟨?_, s.baseOf_fresh_self _ _⟩,
        h.fresh name ∅⟩
      simp

/-- Copying variables hands out no names. -/
theorem named_copy (v : TyVar) (now : Scope × Store) :
    ((copy v).run now).2.1.named = now.1.named := by
  rcases now with ⟨scope, s⟩
  cases hcopy : scope.copies.lookup v with
  | some w => rw [copy_run_of_some hcopy]
  | none => rw [copy_run_of_none hcopy]

theorem named_instantiate (t : Ty TyVar) (now : Scope × Store) :
    ((instantiate t).run now).2.1.named = now.1.named := by
  have hcopies (t : Ty TyVar) (now : Scope × Store) :
      ((t.mapVarsM copy).run now).2.1.named = now.1.named := by
    induction t generalizing now with
    | var v => exact named_copy v now
    | con name => rfl
    | app func arg ihFunc ihArg =>
        rw [mapVarsM_app_run]
        exact (ihArg _).trans (ihFunc now)
  rcases now with ⟨scope, s⟩
  rw [instantiate_run]
  split
  · rfl
  · exact hcopies _ _

end Scope

namespace Signature

variable {table : ClassTable} {s s' : Store} {v : TyVar} {e : UnifyError}
  {word : List Char} {toks : List Token} {text : String} {x : String}

/-! ### Reading in a scope -/

/-- Whether a scope and a store may be read in, the scope having its variables
under their own names. -/
structure Orderly (table : ClassTable) (now : Scope × Store) : Prop where
  ordered : table.Ordered
  wellFormed : now.2.WellFormed
  called : now.1.Called now.2

/-- Whether a cause is one that a context is refused for. -/
inductive OfContext : SignatureError.Cause → Prop
  | malformed : OfContext .malformedContext
  | unknown (name : Name) : OfContext (.unknownClass name)
  | unsatisfiable (a b : String) : OfContext (.unsatisfiableContext a b)
  | notAnInstance (x : Name) (c : String) : OfContext (.notAnInstance x c)

theorem OfContext.excludes {cause : SignatureError.Cause}
    (h : OfContext cause) :
    ((∀ c, cause ≠ .namelessVar c) ∧ ∀ other, cause ≠ .unification other) ∧
      (∀ c, cause ≠ .unexpectedChar c) ∧ ∀ what, cause ≠ .expected what := by
  cases h <;> simp

/-- What a requirement fails for is reported with the name that it is about. -/
theorem ofContext_constraintCause {t : Ty TyVar} {w : TyVar}
    (he : e.OfRequirement w t) (hfault : ∀ fault, e.cause ≠ .fault fault)
    (hv : s.baseOf v ≠ "") :
    OfContext (constraintCause table s v e.cause) := by
  rcases e with ⟨cause, path⟩
  obtain ⟨-, hcause⟩ := he
  cases cause with
  | constraint u c part =>
      simp only [constraintCause, Name.ofString?, dif_neg hv]
      exact .notAnInstance _ _
  | unsatisfiable a b => exact .unsatisfiable _ _
  | mismatch want got => exact hcause.elim
  | circularity u t => exact hcause.elim
  | fault fault => exact absurd rfl (hfault fault)

theorem Orderly.handing {now : Scope × Store} (h : Orderly table now) :
    Handing table .all now.2 now :=
  .start_giving _ h.ordered h.wellFormed h.called.inRange

/-- Changes of the store alone leave everything in order. -/
theorem Orderly.withStore {scope : Scope}
    (h : Orderly table (scope, s))
    (hnext : Handing table .all s (scope, s')) :
    Orderly table (scope, s') :=
  ⟨h.ordered, hnext.now_wellFormed,
    h.called.moves h.ordered h.wellFormed hnext.moves⟩

/-- Reading keeps scopes in order, and has a name to report. -/
theorem keptByReading_orderly (table : ClassTable) :
    KeptByReading table (· ≠ "") (Orderly table) OfContext where
  names x now _ hnow :=
    { ordered := hnow.ordered
      wellFormed := (Scope.keeps_var x hnow.handing trivial).1.now_wellFormed
      called := hnow.called.var x }
  constraints x v c now pos hx hnow hv hc := by
    rcases now with ⟨scope, s⟩
    have ordered := hnow.ordered
    have wf : s.WellFormed := hnow.wellFormed
    have hentry := mem_of_lookup hv
    have hrange : v.index < s.size := (hnow.called _ hentry).1
    have himposes := imposes_unify_new ordered wf hrange ""
      (.ofList table [c])
    have hkeeps := keeps_constrainVar pos v hc hnow.handing
      ⟨hrange, trivial⟩
    rw [constrainVar_run] at hkeeps ⊢
    cases hrun : (unify table (.var ⟨s.size⟩) (.var v)).run
        (s.fresh "" (.ofList table [c])).2 with
    | ok u s' =>
      rw [hrun] at hkeeps
      exact hnow.withStore hkeeps.1
    | error e s' =>
      rw [hrun] at hkeeps himposes
      have hnext := hnow.withStore hkeeps
      have hbase : s'.baseOf v = x := (hnext.called _ hentry).2
      exact ⟨hnext, rfl, ofContext_constraintCause
        (unify_new_error ordered wf hrange hrun).1 himposes.not_fault
        (hbase ▸ hx)⟩
  malformed := .malformed
  unknown := .unknown

end Signature

/-! ### Scopes in sessions -/

namespace TypeState

open Signature

variable {st st' : TypeState} {scope : Scope} {text : String}

/-- Whether a session can come to a state with a scope that it made and used
on the way: for names, for signatures and for types to instantiate, in any
order and with anything else in between. -/
inductive InUse : TypeState → Scope → Prop
  | new {st : TypeState} (h : st.Arises) : InUse st .empty
  | later {st st' : TypeState} {scope : Scope} (h : InUse st scope)
      (haction : Action st st') : InUse st' scope
  | name {st : TypeState} {scope : Scope} (h : InUse st scope)
      (x : String) :
      InUse (st.withStore ((Scope.var x).run (scope, st.store)).2.2)
        ((Scope.var x).run (scope, st.store)).2.1
  | parse {st : TypeState} {scope : Scope} (h : InUse st scope)
      (text : String) :
      InUse (st.parse scope text).2.2 (st.parse scope text).2.1
  | instantiate {st : TypeState} {scope : Scope} {t : Ty TyVar}
      (h : InUse st scope) (ht : t.InRange st.store) :
      InUse
        (st.withStore ((Scope.instantiate t).run (scope, st.store)).2.2)
        ((Scope.instantiate t).run (scope, st.store)).2.1

theorem called_action (h : st.Arises) (hcalled : scope.Called st.store)
    (haction : Action st st') : scope.Called st'.store := by
  rcases haction.change_or_moves h.wellFormed with
    ⟨larger, -, rfl⟩ | ⟨s, hmoves, rfl⟩
  · exact hcalled
  · exact hcalled.moves h.wellFormed.ordered h.wellFormed.wellFormed hmoves

theorem Arises.orderly (h : st.Arises) (hcalled : scope.Called st.store) :
    Orderly st.classes (scope, st.store) :=
  ⟨h.wellFormed.ordered, h.wellFormed.wellFormed, hcalled⟩

/-- What reading keeps holds of the scope and the state after it. -/
theorem keeps_parse {N : String → Prop} {I : Scope × Store → Prop}
    {E : SignatureError.Cause → Prop} (h : KeptByReading st.classes N I E)
    (hnames : ∀ toks, Lexes text.toList toks → ∀ x, .var x ∈ toks → N x)
    (hnow : I (scope, st.store)) :
    I ((st.parse scope text).2.1, (st.parse scope text).2.2.store) := by
  have hyields := h.yields_parse hnames hnow
  rw [parse_eq]
  cases hrun : (Signature.parse st.classes text).run (scope, st.store) with
  | ok ty next =>
      rw [hrun] at hyields
      exact hyields.1
  | error e next =>
      rw [hrun] at hyields
      exact hyields.1

theorem called_parse (h : st.Arises) (hcalled : scope.Called st.store)
    (text : String) :
    (st.parse scope text).2.1.Called (st.parse scope text).2.2.store :=
  (keeps_parse (keptByReading_orderly st.classes)
    (fun _ htoks _ => htoks.name_ne) (h.orderly hcalled)).called

/-- A scope that is used in a session has its variables under their own
names. -/
theorem InUse.arises_called (h : InUse st scope) :
    st.Arises ∧ scope.Called st.store := by
  induction h with
  | @new st h => exact ⟨h, Scope.called_empty st.store⟩
  | later _ haction ih =>
      exact ⟨ih.1.tail haction, called_action ih.1 ih.2 haction⟩
  | @name st scope _ x ih =>
      have hcalled : (scope, st.store).1.Called (scope, st.store).2 := ih.2
      exact ⟨ih.1.tail (.step (.nameVar x ih.2.inRange)), hcalled.var x⟩
  | parse _ text ih =>
      exact ⟨ih.1.tail (.step (.parse text ih.2.inRange)),
        called_parse ih.1 ih.2 text⟩
  | @instantiate st scope t _ ht ih =>
      have haction := Action.step (.instantiate ih.2.inRange ht)
      refine ⟨ih.1.tail haction, ?_⟩
      rw [Scope.Called, Scope.named_instantiate]
      exact called_action ih.1 ih.2 haction

end TypeState

end HindleyMilner

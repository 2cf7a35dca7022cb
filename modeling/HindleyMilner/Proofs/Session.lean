import HindleyMilner.TypeState
import HindleyMilner.Proofs.TableGrowth
import HindleyMilner.Proofs.Unification

/-
The states that a session can reach, by adding classes and instances, creating
variables, reading and instantiating types and unifying them.  Whatever a
session does to its store is a sequence of three kinds of moves, and each of
them keeps the store well formed.  What comes into the store from outside is
told apart from what the session makes itself.
-/

namespace HindleyMilner

/-! ### Moves of a store -/

def finalState {E S A : Type} : EStateM.Result E S A → S
  | .ok _ s => s
  | .error _ s => s

/-- What may come into a store from outside: the classes that new variables
are given, and the variables in the types that are unified. -/
structure Permit where
  classes : ClassSet → Prop
  vars : TyVar → Prop

namespace Permit

variable {permit : Permit} {s s' : Store} {t : Ty TyVar}

/-- All variables may come, and new ones are given classes with a property. -/
def giving (classes : ClassSet → Prop) : Permit := ⟨classes, fun _ => True⟩

abbrev all : Permit := giving fun _ => True

/-- Whether a type is made of variables of a store that may come. -/
def Admits (permit : Permit) (s : Store) (t : Ty TyVar) : Prop :=
  ∀ v ∈ t.vars, v.index < s.size ∧ permit.vars v

theorem Admits.inRange (h : permit.Admits s t) : t.InRange s :=
  fun v hv => (h v hv).1

theorem Admits.of_size_le (h : permit.Admits s t) (hsize : s.size ≤ s'.size) :
    permit.Admits s' t :=
  fun v hv => ⟨Nat.lt_of_lt_of_le (h v hv).1 hsize, (h v hv).2⟩

/-- A permit that only restricts classes lets in all types over the variables of
the store. -/
theorem admits_giving_iff {classes : ClassSet → Prop} :
    (giving classes).Admits s t ↔ t.InRange s :=
  ⟨Admits.inRange, fun h v hv => ⟨h v hv, trivial⟩⟩

theorem admits_var {v : TyVar} (hv : v.index < s.size)
    (hpermit : permit.vars v) : permit.Admits s (.var v) := by
  intro w hw
  rw [Ty.mem_vars_var.1 hw]
  exact ⟨hv, hpermit⟩

end Permit

namespace Store

/-- The classes that a new variable may have: those given from outside, none,
a single class, or those of another variable. -/
inductive Hands (table : ClassTable) (permit : Permit) (s : Store) :
    ClassSet → Prop
  | given {classes : ClassSet} (h : permit.classes classes) :
      Hands table permit s classes
  | none : Hands table permit s ∅
  | single {c : ClassId} (hc : c.index < table.size) :
      Hands table permit s (.ofList table [c])
  | copy {v : TyVar} {classes : ClassSet}
      (h : s.unsolvedClasses? v = some classes) : Hands table permit s classes

/-- One change that a session makes to its store. -/
inductive Move (table : ClassTable) (permit : Permit) : Store → Store → Prop
  | fresh {s : Store} (base : String) {classes : ClassSet}
      (h : s.Hands table permit classes) :
      Move table permit s (s.fresh base classes).2
  | prune {s : Store} {t : Ty TyVar} (ht : ∀ v ∈ t.vars, permit.vars v) :
      Move table permit s (s.prune t).2
  | unify {s : Store} {want got : Ty TyVar} (hwant : permit.Admits s want)
      (hgot : permit.Admits s got) :
      Move table permit s
        (finalState ((HindleyMilner.unify table want got).run s))

variable {table : ClassTable} {permit : Permit} {s s' : Store}

/-- Unification evolves a store within what its two types lead to, whether it
fails or not. -/
theorem evolves_unify (ordered : table.Ordered) (wf : s.WellFormed)
    {want got : Ty TyVar} (hwant : want.InRange s) (hgot : got.InRange s) :
    Evolves table (.reach s [want, got]) s
      (finalState ((HindleyMilner.unify table want got).run s)) := by
  have hrun := imposes_unify ordered wf hwant hgot
  cases hresult : (HindleyMilner.unify table want got).run s with
  | ok u s' =>
      rw [hresult] at hrun
      exact hrun.evolves
  | error e s' =>
      rw [hresult] at hrun
      exact hrun.evolves

theorem Move.size_le (ordered : table.Ordered) (wf : s.WellFormed)
    (h : Move table permit s s') : s.size ≤ s'.size := by
  cases h with
  | fresh base _ => rw [size_fresh]; exact Nat.le_succ _
  | @prune t _ =>
      cases t with
      | var v => rw [Store.prune, size_compress]
      | con name => exact Nat.le_refl _
      | app func arg => exact Nat.le_refl _
  | unify hwant hgot =>
      have hevolves := evolves_unify ordered wf hwant.inRange hgot.inRange
      exact Nat.le_of_eq hevolves.size_eq.symm

theorem WellFormed.prune (wf : s.WellFormed) (t : Ty TyVar) :
    (s.prune t).2.WellFormed := by
  cases t with
  | var v => exact wf.compress v
  | con name => exact wf
  | app func arg => exact wf

/-- Every change that a session makes keeps the store well formed. -/
theorem Move.wellFormed (ordered : table.Ordered) (wf : s.WellFormed)
    (h : Move table permit s s') : s'.WellFormed := by
  cases h with
  | @fresh base classes _ => exact wf.fresh base classes
  | @prune t _ => exact wf.prune t
  | unify hwant hgot =>
      exact (evolves_unify ordered wf hwant.inRange hgot.inRange).wellFormed

abbrev Moves (table : ClassTable) (permit : Permit) : Store → Store → Prop :=
  Relation.ReflTransGen (Move table permit)

theorem Moves.wellFormed (ordered : table.Ordered) (wf : s.WellFormed)
    (h : Moves table permit s s') : s'.WellFormed := by
  induction h with
  | refl => exact wf
  | tail _ hmove ih => exact hmove.wellFormed ordered ih

/-- Variables are never lost. -/
theorem Moves.size_le (ordered : table.Ordered) (wf : s.WellFormed)
    (h : Moves table permit s s') : s.size ≤ s'.size := by
  induction h with
  | refl => exact Nat.le_refl _
  | tail hmoves hmove ih =>
      exact Nat.le_trans ih
        (hmove.size_le ordered (Moves.wellFormed ordered wf hmoves))

/-- The classes that a copy of a variable gets may be handed to it. -/
theorem hands_copy (s : Store) (v : TyVar) :
    s.Hands table permit ((s.unsolvedClasses? v).getD ∅) := by
  cases h : s.unsolvedClasses? v with
  | none => exact .none
  | some classes => exact .copy h

end Store

/-- Whether variables that are new since a store may be used, and so may those
in types that stand for types without variables. -/
structure Permit.Suits (permit : Permit) (table : ClassTable) (start : Store) :
    Prop where
  new : ∀ ⦃v : TyVar⦄, start.size ≤ v.index → permit.vars v
  ground : ∀ ⦃s : Store⦄, Store.Moves table permit start s →
    ∀ ⦃t : Ty TyVar⦄, s.freeVars t = [] → ∀ v ∈ t.vars, permit.vars v

/-- A permit that only restricts classes suits every store. -/
theorem Permit.suits_giving (classes : ClassSet → Prop) (table : ClassTable)
    (start : Store) : (giving classes).Suits table start :=
  ⟨fun _ _ => trivial, fun _ _ _ _ _ _ => trivial⟩

/-- What suits a store suits the stores that come from it by moves. -/
theorem Permit.Suits.moves {table : ClassTable} {permit : Permit}
    {start s : Store} (h : permit.Suits table start)
    (hmoves : Store.Moves table permit start s)
    (hsize : start.size ≤ s.size) : permit.Suits table s :=
  ⟨fun _ hv => h.new (Nat.le_trans hsize hv),
    fun _ hmore => h.ground (hmoves.trans hmore)⟩

/-! ### Reading signatures -/

/-- Whether the variables handed out for names are variables of a store. -/
def Scope.InRange (scope : Scope) (s : Store) : Prop :=
  ∀ p ∈ scope.named, p.2.index < s.size

/-- The latest entry for a key is the one that is found. -/
theorem lookup_cons_if {K A : Type} [DecidableEq K] {k l : K} {a : A}
    {entries : List (K × A)} :
    ((k, a) :: entries).lookup l =
      if l = k then some a else entries.lookup l := by
  rw [List.lookup_cons]
  by_cases heq : l = k
  · simp [heq]
  · simp [heq, beq_eq_false_iff_ne.2 heq]

/-- Two tables with the same keys in the same order have related entries for a
key, or none. -/
theorem lookup_of_forall₂ {K A B : Type} [DecidableEq K] {rel : A → B → Prop}
    {entries : List (K × A)} {entries' : List (K × B)}
    (h : List.Forall₂ (fun p q => p.1 = q.1 ∧ rel p.2 q.2) entries entries')
    (k : K) :
    (∃ a b, entries.lookup k = some a ∧ entries'.lookup k = some b ∧
        rel a b) ∨
      entries.lookup k = none ∧ entries'.lookup k = none := by
  induction h with
  | nil => exact Or.inr ⟨rfl, rfl⟩
  | @cons p q _ _ hpq _ ih =>
      rcases p with ⟨l, a⟩
      rcases q with ⟨l', b⟩
      obtain ⟨rfl, hrel⟩ : l = l' ∧ rel a b := hpq
      rw [lookup_cons_if, lookup_cons_if]
      by_cases heq : k = l
      · rw [if_pos heq, if_pos heq]
        exact Or.inl ⟨a, b, rfl, rfl, hrel⟩
      · rw [if_neg heq, if_neg heq]
        exact ih

theorem mem_of_lookup {K A : Type} [DecidableEq K] {k : K} {a : A}
    {entries : List (K × A)} (h : entries.lookup k = some a) :
    (k, a) ∈ entries := by
  obtain ⟨before, after, rfl, -⟩ := List.lookup_eq_some_iff.1 h
  simp

namespace Scope

variable {scope : Scope} {s : Store}

/-- A name that has a variable keeps it, and nothing is created. -/
theorem var_run_of_some {name : String} {v : TyVar}
    (h : scope.named.lookup name = some v) :
    (var name).run (scope, s) = (v, (scope, s)) := by
  simp [var, h]
  rfl

/-- A name without a variable gets the next one of the store. -/
theorem var_run_of_none {name : String}
    (h : scope.named.lookup name = none) :
    (var name).run (scope, s) =
      (⟨s.size⟩, ({ scope with named := (name, ⟨s.size⟩) :: scope.named },
        (s.fresh name ∅).2)) := by
  simp [var, fresh, h]
  rfl

/-- A variable that was met before has its copy already. -/
theorem copy_run_of_some {v w : TyVar} (h : scope.copies.lookup v = some w) :
    (copy v).run (scope, s) = (w, (scope, s)) := by
  simp [copy, h]
  rfl

/-- The copy of a variable that is new to the scope is the next one of the
store, with the classes of the original. -/
theorem copy_run_of_none {v : TyVar} (h : scope.copies.lookup v = none) :
    (copy v).run (scope, s) =
      (⟨s.size⟩, ({ scope with copies := (v, ⟨s.size⟩) :: scope.copies },
        (s.fresh (s.baseOf v) ((s.unsolvedClasses? v).getD ∅)).2)) := by
  simp [copy, fresh, h]
  rfl

theorem mapVarsM_var_run (v : TyVar) (now : Scope × Store) :
    ((Ty.var v).mapVarsM copy).run now =
      (.var ((copy v).run now).1, ((copy v).run now).2) :=
  rfl

/-- The copies of the function part are made before those of the argument. -/
theorem mapVarsM_app_run (func arg : Ty TyVar) (now : Scope × Store) :
    ((Ty.app func arg).mapVarsM copy).run now =
      let first := (func.mapVarsM copy).run now
      let second := (arg.mapVarsM copy).run first.2
      (.app first.1 second.1, second.2) :=
  rfl

/-- A type without unsolved variables is left as it is; all others are copied
from what they stand for. -/
theorem instantiate_run (t : Ty TyVar) :
    (instantiate t).run (scope, s) =
      if s.freeVars t = [] then (t, (scope, s))
      else ((s.zonk t).mapVarsM copy).run (scope, s) := by
  by_cases h : s.freeVars t = []
  · simp [instantiate, h]
    rfl
  · simp [instantiate, h]

end Scope

/-- Whether a scope and a store may have come from a store by moves, the
variables handed out for names being ones that may be used. -/
structure Handing (table : ClassTable) (permit : Permit) (start : Store)
    (now : Scope × Store) : Prop where
  ordered : table.Ordered
  wellFormed : start.WellFormed
  moves : Store.Moves table permit start now.2
  inRange : now.1.InRange now.2
  suits : permit.Suits table start
  named : ∀ p ∈ now.1.named, permit.vars p.2

namespace Handing

variable {table : ClassTable} {permit : Permit} {start s s' : Store}
  {scope : Scope}

theorem start_giving (classes : ClassSet → Prop) (ordered : table.Ordered)
    (wf : s.WellFormed) (hscope : scope.InRange s) :
    Handing table (.giving classes) s (scope, s) :=
  ⟨ordered, wf, .refl, hscope, Permit.suits_giving classes table s,
    fun _ _ => trivial⟩

theorem now_wellFormed (h : Handing table permit start (scope, s)) :
    s.WellFormed :=
  Store.Moves.wellFormed h.ordered h.wellFormed h.moves

/-- The next variable may be used. -/
theorem vars_new (h : Handing table permit start (scope, s)) :
    permit.vars ⟨s.size⟩ :=
  h.suits.new (h.moves.size_le h.ordered h.wellFormed)

theorem move (h : Handing table permit start (scope, s))
    (hmove : Store.Move table permit s s') :
    Handing table permit start (scope, s') where
  ordered := h.ordered
  wellFormed := h.wellFormed
  moves := h.moves.tail hmove
  inRange p hp := Nat.lt_of_lt_of_le (h.inRange p hp)
    (hmove.size_le h.ordered h.now_wellFormed)
  suits := h.suits
  named := h.named

end Handing

namespace Scope

variable {table : ClassTable} {permit : Permit} {A B : Type}
  {P : Store → Prop} {Q : A → Store → Prop} {R : B → Store → Prop}

/-- Whether an action that starts in a store with `P` only makes moves and
returns a result with `Q`. -/
def Keeps (table : ClassTable) (permit : Permit) (P : Store → Prop)
    (action : ScopeM A) (Q : A → Store → Prop) : Prop :=
  ∀ ⦃start now⦄, Handing table permit start now → P now.2 →
    Handing table permit start (action.run now).2 ∧
      Q (action.run now).1 (action.run now).2.2

theorem Keeps.bind {action : ScopeM A} {f : A → ScopeM B}
    (h : Keeps table permit P action Q)
    (hf : ∀ a, Keeps table permit (Q a) (f a) R) :
    Keeps table permit P (action >>= f) R := by
  intro start now hnow hP
  obtain ⟨hmid, hQ⟩ := h hnow hP
  exact hf _ hmid hQ

/-- A name only ever gets a variable that is there and may be used. -/
theorem keeps_var (name : String) :
    Keeps table permit (fun _ => True) (var name)
      fun v s => v.index < s.size ∧ permit.vars v := by
  intro start now hnow _
  rcases now with ⟨scope, s⟩
  cases hlookup : scope.named.lookup name with
  | some v =>
      have hmem := mem_of_lookup hlookup
      rw [var_run_of_some hlookup]
      exact ⟨hnow, hnow.inRange _ hmem, hnow.named _ hmem⟩
  | none =>
      have hnext := hnow.move (.fresh name .none)
      have hnew : s.size < (s.fresh name ∅).2.size := by simp
      rw [var_run_of_none hlookup]
      refine ⟨{ hnext with inRange := ?_, named := ?_ }, hnew, hnow.vars_new⟩
      · exact List.forall_mem_cons.2 ⟨hnew, hnext.inRange⟩
      · exact List.forall_mem_cons.2 ⟨hnow.vars_new, hnext.named⟩

theorem keeps_name (name : String) :
    Keeps table permit (fun _ => True) (var name) fun _ _ => True :=
  fun _ _ hnow hP => ⟨(keeps_var name hnow hP).1, trivial⟩

theorem Keeps.forM {f : B → ScopeM PUnit} (xs : List B)
    (h : ∀ x, Keeps table permit (fun _ => True) (f x) fun _ _ => True) :
    Keeps table permit (fun _ => True) (xs.forM f) fun _ _ => True := by
  induction xs with
  | nil => exact fun _ _ hnow _ => ⟨hnow, trivial⟩
  | cons head tail ih => exact (h head).bind fun _ => ih

theorem Keeps.mapVarsM {V : Type} {f : V → ScopeM B} (t : Ty V)
    (h : ∀ v, Keeps table permit (fun _ => True) (f v) fun _ _ => True) :
    Keeps table permit (fun _ => True) (t.mapVarsM f) fun _ _ => True := by
  induction t with
  | var v => exact (h v).bind fun _ _ _ hnow _ => ⟨hnow, trivial⟩
  | con name => exact fun _ _ hnow _ => ⟨hnow, trivial⟩
  | app func arg ihFunc ihArg =>
      exact ihFunc.bind fun _ => ihArg.bind fun _ _ _ hnow _ =>
        ⟨hnow, trivial⟩

theorem keeps_copy (v : TyVar) :
    Keeps table permit (fun _ => True) (copy v) fun _ _ => True := by
  intro start now hnow _
  rcases now with ⟨scope, s⟩
  cases hlookup : scope.copies.lookup v with
  | some w =>
      rw [copy_run_of_some hlookup]
      exact ⟨hnow, trivial⟩
  | none =>
      have hnext := hnow.move (.fresh (s.baseOf v) (s.hands_copy v))
      rw [copy_run_of_none hlookup]
      exact ⟨{ hnext with }, trivial⟩

/-- Copying a type only creates variables. -/
theorem keeps_instantiate (t : Ty TyVar) :
    Keeps table permit (fun _ => True) (instantiate t) fun _ _ => True := by
  intro start now hnow _
  rcases now with ⟨scope, s⟩
  rw [instantiate_run]
  split
  · exact ⟨hnow, trivial⟩
  · exact (Keeps.mapVarsM (s.zonk t) keeps_copy) hnow trivial

end Scope

namespace Signature

variable {table : ClassTable} {permit : Permit} {A B : Type}
  {P : Store → Prop} {Q : A → Store → Prop} {R : B → Store → Prop}

/-- Whether reading, from a store with `P`, only makes moves, and if it
succeeds has a result with `Q`. -/
def Keeps (table : ClassTable) (permit : Permit) (P : Store → Prop)
    (action : ReadM A) (Q : A → Store → Prop) : Prop :=
  ∀ ⦃start now⦄, Handing table permit start now → P now.2 →
    match action.run now with
    | .ok a now => Handing table permit start now ∧ Q a now.2
    | .error _ now => Handing table permit start now

theorem Keeps.pure {a : A} (h : ∀ s, P s → Q a s) :
    Keeps table permit P (pure a) Q :=
  fun _ now hnow hP => ⟨hnow, h now.2 hP⟩

theorem Keeps.throw {e : SignatureError} : Keeps table permit P (throw e) Q :=
  fun _ _ h _ => h

theorem Keeps.bind {action : ReadM A} {f : A → ReadM B}
    (h : Keeps table permit P action Q)
    (hf : ∀ a, Keeps table permit (Q a) (f a) R) :
    Keeps table permit P (action >>= f) R := by
  intro start now hnow hP
  have hfirst := h hnow hP
  rw [EStateM.run_bind]
  cases hrun : action.run now with
  | ok a next =>
      rw [hrun] at hfirst
      exact hf a hfirst.1 hfirst.2
  | error e next =>
      rw [hrun] at hfirst
      exact hfirst

theorem Keeps.handOut {action : ScopeM A}
    (h : Scope.Keeps table permit P action Q) :
    Keeps table permit P (handOut action) Q :=
  fun _ _ hnow hP => h hnow hP

theorem Keeps.forM {f : B → ReadM PUnit} (xs : List B)
    (h : ∀ x, Keeps table permit (fun _ => True) (f x) fun _ _ => True) :
    Keeps table permit (fun _ => True) (xs.forM f) fun _ _ => True := by
  induction xs with
  | nil => exact Keeps.pure fun _ _ => trivial
  | cons head tail ih => exact (h head).bind fun _ => ih

/-- Imposing a class on a variable is unifying it with a fresh variable of that
class. -/
theorem constrainVar_run (table : ClassTable) (pos : Nat) (v : TyVar)
    (c : ClassId) (scope : Scope) (s : Store) :
    (constrainVar table pos v c).run (scope, s) =
      match (unify table (.var ⟨s.size⟩) (.var v)).run
        (s.fresh "" (.ofList table [c])).2 with
      | .ok _ s' => .ok () (scope, s')
      | .error e s' =>
          .error ⟨pos, constraintCause table s' v e.cause⟩ (scope, s') := by
  have hopen : (constrainVar table pos v c).run (scope, s) =
      (match (unify table (.var ⟨s.size⟩) (.var v)).run
          (s.fresh "" (.ofList table [c])).2 with
        | .ok _ s' => set (scope, s')
        | .error e s' => do
            set (scope, s')
            throw ⟨pos, constraintCause table s' v e.cause⟩ :
        ReadM Unit).run (scope, (s.fresh "" (.ofList table [c])).2) := rfl
  rw [hopen]
  cases (unify table (.var ⟨s.size⟩) (.var v)).run
    (s.fresh "" (.ofList table [c])).2 <;> rfl

theorem keeps_constrainVar (pos : Nat) (v : TyVar) {c : ClassId}
    (hc : c.index < table.size) :
    Keeps table permit (fun s => v.index < s.size ∧ permit.vars v)
      (constrainVar table pos v c) fun _ _ => True := by
  rintro start ⟨scope, s⟩ hnow ⟨hrange, hpermit⟩
  have hsize : v.index < s.size := hrange
  have hfresh := hnow.move (.fresh "" (.single hc))
  have hw : permit.Admits (s.fresh "" (.ofList table [c])).2
      (.var ⟨s.size⟩) :=
    Permit.admits_var (by simp) hnow.vars_new
  have hv : permit.Admits (s.fresh "" (.ofList table [c])).2 (.var v) :=
    Permit.admits_var (by simp; omega) hpermit
  have hunify := hfresh.move (.unify hw hv)
  rw [constrainVar_run]
  cases hresult : (unify table (.var ⟨s.size⟩) (.var v)).run
      (s.fresh "" (.ofList table [c])).2 with
  | ok u s' =>
      rw [hresult] at hunify
      exact ⟨hunify, trivial⟩
  | error e s' =>
      rw [hresult] at hunify
      exact hunify

theorem keeps_impose (pos : Nat) (ty : NamedTy) :
    Keeps table permit (fun _ => True) (impose table pos ty)
      fun _ _ => True := by
  rw [impose]
  split
  · exact Keeps.throw
  · split
    · exact Keeps.throw
    · rename_i c hfound
      exact (Keeps.handOut (Scope.keeps_var _)).bind fun v =>
        keeps_constrainVar pos v (ClassTable.find?_eq_some_iff.1 hfound).1

theorem keeps_elaborateType (textEnd : Nat) (lexemes : List Lexeme) :
    Keeps table permit (fun _ => True) (elaborateType textEnd lexemes)
      fun _ _ => True := by
  refine (Keeps.handOut (Scope.Keeps.forM _ fun name => ?_)).bind fun _ => ?_
  · exact (Scope.keeps_name name).bind fun _ _ _ hnow _ => ⟨hnow, trivial⟩
  · split
    · exact Keeps.pure fun _ _ => trivial
    · exact Keeps.throw

theorem keeps_finish (textEnd : Nat) (ty : NamedTy) (rest : List Lexeme) :
    Keeps table permit (fun _ => True) (finish textEnd ty rest)
      fun _ _ => True := by
  rw [finish]
  split
  · exact Keeps.bind (Q := fun _ _ => True) Keeps.throw fun _ =>
      Keeps.handOut (Scope.Keeps.mapVarsM ty Scope.keeps_name)
  · exact Keeps.handOut (Scope.Keeps.mapVarsM ty Scope.keeps_name)

theorem keeps_elaborate (textEnd : Nat) (lexemes : List Lexeme) :
    Keeps table permit (fun _ => True) (elaborate table textEnd lexemes)
      fun _ _ => True := by
  apply (keeps_elaborateType textEnd lexemes).bind
  intro read
  rcases read with ⟨first, rest⟩
  dsimp only
  split
  · rename_i rest
    apply (Keeps.forM _ fun ty => keeps_impose _ ty).bind
    intro _
    exact (keeps_elaborateType textEnd rest).bind fun next =>
      keeps_finish textEnd next.1 next.2
  · exact keeps_finish textEnd first rest

/-- Reading a signature only makes changes that a session may make. -/
theorem keeps_parse (text : String) :
    Keeps table permit (fun _ => True) (parse table text)
      fun _ _ => True := by
  rw [parse]
  split
  · exact keeps_elaborate _ _
  · exact Keeps.throw

end Signature

/-! ### Sessions -/

namespace TypeState

/-- One action of a session.  Types and scopes are over the variables of the
state, and superclasses are classes of the state. -/
inductive Step : TypeState → TypeState → Prop
  | addClass {st : TypeState} {name : Name} {supers : List ClassId}
      {classes : ClassTable}
      (hsupers : ∀ d ∈ supers, d.index < st.classes.size)
      (hadd : st.classes.add? name supers = some classes) :
      Step st { st with classes }
  | addInstance (st : TypeState) (c : ClassId) (con : Name) :
      Step st { st with classes := st.classes.addInstance c con }
  | addUnconstrainedInstance (st : TypeState) (c : ClassId) (con : Name) :
      Step st
        { st with classes := st.classes.addUnconstrainedInstance c con }
  | fresh (st : TypeState) (base : String) (classes : ClassSet) :
      Step st (st.withStore (st.store.fresh base classes).2)
  | prune (st : TypeState) (t : Ty TyVar) :
      Step st (st.withStore (st.store.prune t).2)
  | nameVar {st : TypeState} {scope : Scope} (name : String)
      (hscope : scope.InRange st.store) :
      Step st (st.withStore ((Scope.var name).run (scope, st.store)).2.2)
  | parse {st : TypeState} {scope : Scope} (text : String)
      (hscope : scope.InRange st.store) :
      Step st (st.parse scope text).2.2
  | instantiate {st : TypeState} {scope : Scope} {t : Ty TyVar}
      (hscope : scope.InRange st.store) (ht : t.InRange st.store) :
      Step st
        (st.withStore ((Scope.instantiate t).run (scope, st.store)).2.2)
  | unify {st : TypeState} {want got : Ty TyVar}
      (hwant : want.InRange st.store) (hgot : got.InRange st.store) :
      Step st (st.unify want got).2

/-- Whether a session can reach a state from the empty one. -/
def Reachable (st : TypeState) : Prop :=
  Relation.ReflTransGen Step empty st

/-- What all reachable states have in common. -/
structure WellFormed (st : TypeState) : Prop where
  ordered : st.classes.Ordered
  wellFormed : st.store.WellFormed

variable {st st' : TypeState}

theorem WellFormed.withStore (h : st.WellFormed) {permit : Permit} {s : Store}
    (hmoves : Store.Moves st.classes permit st.store s) :
    (st.withStore s).WellFormed :=
  ⟨h.ordered, Store.Moves.wellFormed h.ordered h.wellFormed hmoves⟩

/-- Reading in a state is reading in its store, which is put back on failure
too. -/
theorem parse_eq (st : TypeState) (scope : Scope) (text : String) :
    st.parse scope text =
      match (Signature.parse st.classes text).run (scope, st.store) with
      | .ok ty next => (.ok ty, next.1, st.withStore next.2)
      | .error e next => (.error e, next.1, st.withStore next.2) := by
  rw [parse]
  cases hrun : Signature.parse st.classes text (scope, st.store) <;>
    rw [EStateM.run, hrun]

theorem parse_snd (st : TypeState) (scope : Scope) (text : String) :
    (st.parse scope text).2.2 = st.withStore (finalState
      ((Signature.parse st.classes text).run (scope, st.store))).2 := by
  rw [parse_eq]
  cases (Signature.parse st.classes text).run (scope, st.store) <;> rfl

/-- Unification in a state is unification in its store, which is put back on
failure too. -/
theorem unify_eq (st : TypeState) (want got : Ty TyVar) :
    st.unify want got =
      match (HindleyMilner.unify st.classes want got).run st.store with
      | .ok _ store => (.ok (), st.withStore store)
      | .error e store => (.error e, st.withStore store) :=
  rfl

theorem unify_snd (st : TypeState) (want got : Ty TyVar) :
    (st.unify want got).2 = st.withStore (finalState
      ((HindleyMilner.unify st.classes want got).run st.store)) := by
  rw [unify_eq]
  cases (HindleyMilner.unify st.classes want got).run st.store <;> rfl

theorem moves_of_parse {permit : Permit} {scope : Scope} (text : String)
    (hnow : Handing st.classes permit st.store (scope, st.store)) :
    Store.Moves st.classes permit st.store (finalState
      ((Signature.parse st.classes text).run (scope, st.store))).2 := by
  have hkeeps := Signature.keeps_parse text hnow trivial
  cases hrun : (Signature.parse st.classes text).run (scope, st.store) with
  | ok ty now =>
      rw [hrun] at hkeeps
      exact hkeeps.1.moves
  | error e now =>
      rw [hrun] at hkeeps
      exact hkeeps.moves

theorem WellFormed.handing (h : st.WellFormed) (ok : ClassSet → Prop)
    {scope : Scope} (hscope : scope.InRange st.store) :
    Handing st.classes (.giving ok) st.store (scope, st.store) :=
  .start_giving ok h.ordered h.wellFormed hscope

theorem moves_unify (ok : ClassSet → Prop) {want got : Ty TyVar}
    (hwant : want.InRange st.store) (hgot : got.InRange st.store) :
    Store.Moves st.classes (.giving ok) st.store (finalState
      ((HindleyMilner.unify st.classes want got).run st.store)) :=
  .single (.unify (Permit.admits_giving_iff.2 hwant)
    (Permit.admits_giving_iff.2 hgot))

/-- A step changes the classes, or it makes moves of the store. -/
theorem Step.change_or_moves (hstep : Step st st') (h : st.WellFormed) :
    (∃ larger, st.classes.Change larger ∧
        st' = { st with classes := larger }) ∨
      ∃ s, Store.Moves st.classes .all st.store s ∧ st' = st.withStore s := by
  cases hstep with
  | addClass hsupers hadd => exact Or.inl ⟨_, .addClass hsupers hadd, rfl⟩
  | addInstance c con => exact Or.inl ⟨_, .addInstance c con, rfl⟩
  | addUnconstrainedInstance c con =>
      exact Or.inl ⟨_, .addUnconstrainedInstance c con, rfl⟩
  | fresh base classes =>
      exact Or.inr ⟨_, .single (.fresh base (.given trivial)), rfl⟩
  | prune t => exact Or.inr ⟨_, .single (.prune fun _ _ => trivial), rfl⟩
  | nameVar name hscope =>
      exact Or.inr
        ⟨_, (Scope.keeps_var name (h.handing _ hscope) trivial).1.moves, rfl⟩
  | parse text hscope =>
      exact Or.inr
        ⟨_, moves_of_parse text (h.handing _ hscope), parse_snd _ _ _⟩
  | @instantiate scope t hscope ht =>
      exact Or.inr ⟨_,
        (Scope.keeps_instantiate t (h.handing _ hscope) trivial).1.moves, rfl⟩
  | unify hwant hgot =>
      exact Or.inr ⟨_, moves_unify _ hwant hgot, unify_snd _ _ _⟩

/-- One action of a session keeps its state well formed. -/
theorem WellFormed.step (h : st.WellFormed) (hstep : Step st st') :
    st'.WellFormed := by
  rcases hstep.change_or_moves h with
    ⟨larger, hchange, rfl⟩ | ⟨s, hmoves, rfl⟩
  · exact ⟨hchange.ordered h.ordered, h.wellFormed⟩
  · exact h.withStore hmoves

theorem wellFormed_empty : empty.WellFormed :=
  ⟨ClassTable.ordered_empty, Store.wellFormed_empty⟩

/-- All reachable states are well formed. -/
theorem Reachable.wellFormed (h : st.Reachable) : st.WellFormed := by
  induction h with
  | refl => exact wellFormed_empty
  | tail _ hstep ih => exact ih.step hstep

end TypeState

end HindleyMilner

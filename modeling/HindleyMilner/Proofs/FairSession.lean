import HindleyMilner.Proofs.History
import HindleyMilner.Proofs.SetInvariant

/-
Sessions that only make variables with sets of classes that were built by the
functions for that.  The classes of all unsolved variables are then reduced at
all times, and if no new variable was given a set with a conflict, no variable
ever comes to have one: neither by what is unified, also where it fails, nor
by the classes and instances that are added later.
-/

namespace HindleyMilner

/-! ### Sets that were built -/

/-- The superclasses in a smaller table are ordered as in a larger one. -/
theorem ClassTable.Grows.ordered_of_larger {table larger : ClassTable}
    (h : table.Grows larger) (ordered : larger.Ordered) : table.Ordered :=
  fun _ _ hsuper => ordered (h.super hsuper)

namespace ClassSet

/-- The sets that can be built with a table and with those before it. -/
inductive Built : ClassTable → ClassSet → Prop
  | ofList {table : ClassTable} {cs : List ClassId}
      (hcs : ∀ c ∈ cs, c.index < table.size) : Built table (.ofList table cs)
  | insert {table : ClassTable} {set : ClassSet} {c : ClassId}
      (h : Built table set) (hc : c.index < table.size) :
      Built table (set.insert table c)
  | union {table : ClassTable} {a b : ClassSet} (ha : Built table a)
      (hb : Built table b) : Built table (a.union table b)
  | later {table larger : ClassTable} {set : ClassSet} (h : Built table set)
      (hchange : table.Change larger) : Built larger set

/-- Whether a set is reduced and made of classes of the table. -/
structure Proper (table : ClassTable) (set : ClassSet) : Prop where
  inRange : ∀ c ∈ set.members, c.index < table.size
  reduced : set.Reduced table

variable {table larger : ClassTable} {set a b : ClassSet} {c : ClassId}

theorem mem_insert_imp {d : ClassId}
    (h : d ∈ (set.insert table c).members) : d = c ∨ d ∈ set.members := by
  cases hinsert : set.insert? table c with
  | none =>
      rw [ClassSet.insert, hinsert, Option.getD_none] at h
      exact Or.inr h
  | some larger =>
      rw [ClassSet.insert, hinsert, Option.getD_some] at h
      exact ((mem_of_insert? hinsert).1 h).imp_right And.left

theorem mem_foldl_insert_imp {d : ClassId} {cs : List ClassId}
    (h : d ∈ (cs.foldl (ClassSet.insert table) set).members) :
    d ∈ set.members ∨ d ∈ cs := by
  induction cs generalizing set with
  | nil => exact Or.inl h
  | cons head tail ih =>
      rcases ih h with hset | htail
      · rcases mem_insert_imp hset with rfl | hset
        · exact Or.inr List.mem_cons_self
        · exact Or.inl hset
      · exact Or.inr (List.mem_cons_of_mem head htail)

theorem Proper.empty (table : ClassTable) : Proper table ∅ :=
  ⟨fun _ hc => absurd hc List.not_mem_nil,
    fun _ hc => absurd hc List.not_mem_nil⟩

theorem Proper.foldl_insert (ordered : table.Ordered) (h : Proper table set)
    {cs : List ClassId} (hcs : ∀ c ∈ cs, c.index < table.size) :
    Proper table (cs.foldl (ClassSet.insert table) set) :=
  ⟨fun d hd => (mem_foldl_insert_imp hd).elim (h.inRange d) (hcs d),
    h.reduced.foldl_insert ordered cs⟩

theorem proper_ofList (ordered : table.Ordered) {cs : List ClassId}
    (hcs : ∀ c ∈ cs, c.index < table.size) :
    Proper table (.ofList table cs) :=
  (Proper.empty table).foldl_insert ordered hcs

theorem Proper.ofList_single (ordered : table.Ordered)
    (hc : c.index < table.size) : Proper table (.ofList table [c]) :=
  proper_ofList ordered (by simpa using hc)

theorem Proper.insert (ordered : table.Ordered) (h : Proper table set)
    (hc : c.index < table.size) : Proper table (set.insert table c) :=
  have hcs : ∀ d ∈ [c], d.index < table.size := by simpa using hc
  h.foldl_insert ordered hcs

theorem Proper.union (ordered : table.Ordered) (ha : Proper table a)
    (hb : Proper table b) : Proper table (a.union table b) :=
  ha.foldl_insert ordered hb.inRange

theorem Proper.change (h : Proper table set) (ordered : table.Ordered)
    (hchange : table.Change larger) : Proper larger set where
  inRange c hc := Nat.lt_of_lt_of_le (h.inRange c hc) hchange.size_le
  reduced c hc d hd := by
    have hsame := hchange.grows.mem_ancestors_iff (d := c) ordered
      (hchange.ordered ordered) (h.inRange d hd)
    simpa [ClassTable.isAncestor, hsame] using h.reduced c hc d hd

theorem Built.proper (h : Built table set) (ordered : table.Ordered) :
    Proper table set := by
  induction h with
  | ofList hcs => exact proper_ofList ordered hcs
  | insert _ hc ih => exact (ih ordered).insert ordered hc
  | union _ _ iha ihb => exact (iha ordered).union ordered (ihb ordered)
  | later _ hchange ih =>
      have ordered' := hchange.grows.ordered_of_larger ordered
      exact (ih ordered').change ordered' hchange

/-- Whether a set may be given to a new variable so that it can be satisfied:
it was built and has no conflict. -/
def Fair (table : ClassTable) (set : ClassSet) : Prop :=
  set.Built table ∧ table.conflict? set = none

end ClassSet

namespace ClassTable

variable {table larger : ClassTable} {set : ClassSet} {c : ClassId}

/-- One class alone is no conflict. -/
theorem conflict?_ofList_single (ordered : table.Ordered) (c : ClassId) :
    table.conflict? (.ofList table [c]) = none := by
  have hsub : (ClassSet.ofList table [c]).members ⊆ [c] := fun d hd =>
    ((ClassSet.mem_ofList_iff ordered).1 hd).1
  rw [conflict?_eq_none_iff]
  exact Or.inl
    (List.subperm_of_subset (ClassSet.ofList table [c]).nodup hsub).length_le

/-- Classes and instances that are added bring no set into conflict. -/
theorem Change.conflict?_eq_none (hchange : table.Change larger)
    (ordered : table.Ordered) (h : table.conflict? set = none) :
    larger.conflict? set = none := by
  rw [conflict?_eq_none_iff] at h ⊢
  rcases h with hlength | ⟨con, hall⟩
  · exact Or.inl hlength
  · exact Or.inr ⟨con, fun c hc => hchange.grows.hasInstance ordered
      (hchange.ordered ordered) (hall c hc)⟩

/-- Being built of classes of the table survives unification. -/
theorem lasts_proper (ordered : table.Ordered) :
    table.Lasts (ClassSet.Proper table) where
  union _ _ ha hb _ := ha.union ordered hb
  insert set larger c con hset hc hinsert _ := by
    have hlarger := hset.insert ordered (lt_size_of_hasInstance hc)
    rwa [ClassSet.insert, hinsert, Option.getD_some] at hlarger

/-- Having no conflict survives unification, which looks for one. -/
theorem Lasts.and_conflict? {ok : ClassSet → Prop} (h : table.Lasts ok) :
    table.Lasts fun set => ok set ∧ table.conflict? set = none where
  union _ _ ha hb hnone := ⟨h.union ha.1 hb.1 hnone, hnone⟩
  insert _ _ _ _ hset hc hinsert hnone :=
    ⟨h.insert hset.1 hc hinsert hnone, hnone⟩

end ClassTable

/-! ### Sessions -/

namespace TypeState

/-- One action of a session that may infer types and gives new variables only
sets of classes with a property. -/
inductive GuardedAction (ok : ClassTable → ClassSet → Prop) :
    TypeState → TypeState → Prop
  | change {st : TypeState} {larger : ClassTable}
      (h : st.classes.Change larger) :
      GuardedAction ok st { st with classes := larger }
  | fresh {st : TypeState} (base : String) {classes : ClassSet}
      (h : ok st.classes classes) :
      GuardedAction ok st (st.withStore (st.store.fresh base classes).2)
  | prune (st : TypeState) (t : Ty TyVar) :
      GuardedAction ok st (st.withStore (st.store.prune t).2)
  | nameVar {st : TypeState} {scope : Scope} (name : String)
      (hscope : scope.InRange st.store) :
      GuardedAction ok st
        (st.withStore ((Scope.var name).run (scope, st.store)).2.2)
  | parse {st : TypeState} {scope : Scope} (text : String)
      (hscope : scope.InRange st.store) :
      GuardedAction ok st (st.parse scope text).2.2
  | instantiate {st : TypeState} {scope : Scope} {t : Ty TyVar}
      (hscope : scope.InRange st.store) (ht : t.InRange st.store) :
      GuardedAction ok st
        (st.withStore ((Scope.instantiate t).run (scope, st.store)).2.2)
  | unify {st : TypeState} {want got : Ty TyVar}
      (hwant : want.InRange st.store) (hgot : got.InRange st.store) :
      GuardedAction ok st (st.unify want got).2
  | infer {st : TypeState} {view : View} {e : Exp}
      (hview : view.InRange st.store) (he : e.parts.InRange st.store) :
      GuardedAction ok st (st.withStore
        (finalState ((e.infer st.classes).run (view, st.store))).2)

/-- Whether a session that gives new variables only sets of classes with a
property can come to a state. -/
def ArisesGuarded (ok : ClassTable → ClassSet → Prop) (st : TypeState) :
    Prop :=
  Relation.ReflTransGen (GuardedAction ok) empty st

variable {ok : ClassTable → ClassSet → Prop} {st st' : TypeState}

theorem GuardedAction.action (h : GuardedAction ok st st') :
    Action st st' := by
  cases h with
  | change hchange =>
      cases hchange with
      | addClass hsupers hadd => exact .step (.addClass hsupers hadd)
      | addInstance c con => exact .step (.addInstance st c con)
      | addUnconstrainedInstance c con =>
          exact .step (.addUnconstrainedInstance st c con)
  | fresh base _ => exact .step (.fresh st base _)
  | prune t => exact .step (.prune st t)
  | nameVar name hscope => exact .step (.nameVar name hscope)
  | parse text hscope => exact .step (.parse text hscope)
  | instantiate hscope ht => exact .step (.instantiate hscope ht)
  | unify hwant hgot => exact .step (.unify hwant hgot)
  | infer hview he => exact .infer hview he

theorem ArisesGuarded.arises (h : st.ArisesGuarded ok) : st.Arises :=
  Relation.ReflTransGen.mono (fun _ _ => GuardedAction.action) _ _ h

/-- An action changes the classes, or it makes moves that give new variables
sets with the property. -/
theorem GuardedAction.change_or_moves (haction : GuardedAction ok st st')
    (h : st.WellFormed) :
    (∃ larger, st.classes.Change larger ∧
        st' = { st with classes := larger }) ∨
      ∃ s, Store.Moves st.classes (.giving (ok st.classes)) st.store s ∧
        st' = st.withStore s := by
  cases haction with
  | change hchange => exact Or.inl ⟨_, hchange, rfl⟩
  | fresh base hclasses =>
      exact Or.inr ⟨_, .single (.fresh base (.given hclasses)), rfl⟩
  | prune t => exact Or.inr ⟨_, .single (.prune fun _ _ => trivial), rfl⟩
  | nameVar name hscope =>
      exact Or.inr
        ⟨_, (Scope.keeps_var name (h.handing _ hscope) trivial).1.moves, rfl⟩
  | parse text hscope =>
      exact Or.inr
        ⟨_, moves_of_parse text (h.handing _ hscope), parse_snd _ _ _⟩
  | @instantiate scope t hscope ht =>
      exact Or.inr ⟨_,
        (Scope.keeps_instantiate t (h.handing _ hscope) trivial).1.moves, rfl⟩
  | unify hwant hgot =>
      exact Or.inr ⟨_, moves_unify _ hwant hgot, unify_snd _ _ _⟩
  | infer hview he =>
      exact Or.inr ⟨_,
        Exp.moves_infer_giving _ h.ordered h.wellFormed hview he, rfl⟩

/-- A property of sets that the given ones have, and that survives unification
and changes of the classes, holds of the classes of all unsolved variables. -/
theorem ArisesGuarded.allClasses (h : st.ArisesGuarded ok)
    (inv : ClassTable → ClassSet → Prop)
    (hensures : ∀ ⦃table : ClassTable⦄, table.Ordered →
      (Permit.giving (ok table)).Ensures table (inv table))
    (hlater : ∀ ⦃table larger : ClassTable⦄, table.Ordered →
      table.Change larger → ∀ set, inv table set → inv larger set) :
    st.store.AllClasses (inv st.classes) := by
  induction h with
  | refl =>
      intro v classes hv
      simp [empty, Store.empty, Store.unsolvedClasses?] at hv
  | tail hbefore haction ih =>
      have hwf := (ArisesGuarded.arises hbefore).wellFormed
      rcases haction.change_or_moves hwf with
        ⟨larger, hchange, rfl⟩ | ⟨s, hmoves, rfl⟩
      · exact ih.mono (hlater hwf.ordered hchange)
      · exact ih.moves hwf.ordered (hensures hwf.ordered) hmoves

/-- The classes of all unsolved variables are reduced, if all sets for new
variables were built. -/
theorem ArisesGuarded.proper (h : st.ArisesGuarded ok)
    (hok : ∀ table set, ok table set → set.Built table) :
    st.store.AllClasses (ClassSet.Proper st.classes) := by
  apply h.allClasses ClassSet.Proper
  · intro table ordered
    exact
      { toLasts := table.lasts_proper ordered
        empty := ClassSet.Proper.empty table
        single := fun c hc => .ofList_single ordered hc
        given := fun set hset => (hok table set hset).proper ordered }
  · exact fun table larger ordered hchange set hset =>
      hset.change ordered hchange

/-- In a session that gives new variables only sets that were built and have
no conflict, the classes of every unsolved variable are reduced and have no
conflict. -/
theorem classes_reduced_satisfiable {v : TyVar} {classes : ClassSet}
    (h : st.ArisesGuarded ClassSet.Fair)
    (hv : st.store.unsolvedClasses? v = some classes) :
    classes.Reduced st.classes ∧ st.classes.conflict? classes = none := by
  have hall := h.allClasses
    (fun table set => set.Proper table ∧ table.conflict? set = none)
    (fun table ordered =>
      { toLasts := (table.lasts_proper ordered).and_conflict?
        empty := ⟨.empty table, rfl⟩
        single := fun c hc => ⟨.ofList_single ordered hc,
          table.conflict?_ofList_single ordered c⟩
        given := fun _ hset => ⟨hset.1.proper ordered, hset.2⟩ })
    (fun _ _ ordered hchange _ hset => ⟨hset.1.change ordered hchange,
      hchange.conflict?_eq_none ordered hset.2⟩)
  exact ⟨(hall hv).1.reduced, (hall hv).2⟩

/-- A session with two classes, the second below the first, that lists are
instances of, and a variable in each. -/
def rankedSession : TypeState :=
  let classes : ClassTable :=
    ⟨#[⟨⟨"Semigroup", by decide⟩, [], [Name.list], []⟩,
      ⟨⟨"Monoid", by decide⟩, [⟨0⟩], [Name.list], []⟩]⟩
  let store := (Store.empty.fresh "a" (.ofList classes [⟨0⟩])).2
  ⟨classes, (store.fresh "b" (.ofList classes [⟨1⟩])).2⟩

theorem rankedSession_arises : rankedSession.ArisesGuarded ClassSet.Fair := by
  let upper : ClassTable := ⟨#[⟨⟨"Semigroup", by decide⟩, [], [], []⟩]⟩
  let both : ClassTable :=
    ⟨#[⟨⟨"Semigroup", by decide⟩, [], [], []⟩,
      ⟨⟨"Monoid", by decide⟩, [⟨0⟩], [], []⟩]⟩
  have hupper :
      empty.classes.add? ⟨"Semigroup", by decide⟩ [] = some upper := by
    simp [upper, empty, ClassTable.add?, ClassTable.find?, ClassTable.empty]
  have hboth : upper.add? ⟨"Monoid", by decide⟩ [⟨0⟩] = some both := by
    simp [upper, both, ClassTable.add?, ClassTable.find?]
  have hclasses : ArisesGuarded ClassSet.Fair
      ⟨rankedSession.classes, .empty⟩ :=
    .tail (.tail (.tail (.single (.change (.addClass (by simp) hupper)))
      (.change (.addClass (by decide) hboth)))
      (.change (.addInstance ⟨0⟩ Name.list)))
      (.change (.addInstance ⟨1⟩ Name.list))
  have hfair (c : ClassId) (hc : c.index < 2) :
      ClassSet.Fair rankedSession.classes
        (.ofList rankedSession.classes [c]) := by
    constructor
    · exact .ofList fun d hd => by rwa [List.mem_singleton.1 hd]
    · exact ClassTable.conflict?_ofList_single
        hclasses.arises.wellFormed.ordered c
  exact .tail (.tail hclasses (.fresh "a" (hfair ⟨0⟩ (by decide))))
    (.fresh "b" (hfair ⟨1⟩ (by decide)))

def rankedJoin : TypeState :=
  (rankedSession.unify (.var ⟨1⟩) (.var ⟨0⟩)).2

theorem classes_reduced_satisfiable_join :
    rankedJoin.store.unsolvedClasses? ⟨0⟩ =
        some (.ofList rankedJoin.classes [⟨1⟩]) ∧
      (ClassSet.ofList rankedJoin.classes [⟨1⟩]).Reduced
        rankedJoin.classes ∧
      rankedJoin.classes.conflict? (.ofList rankedJoin.classes [⟨1⟩]) =
        none := by
  have hv : rankedJoin.store.unsolvedClasses? ⟨0⟩ =
      some (.ofList rankedJoin.classes [⟨1⟩]) := by decide
  have hjoin : GuardedAction ClassSet.Fair rankedSession rankedJoin :=
    .unify (by decide) (by decide)
  exact ⟨hv, classes_reduced_satisfiable (.tail rankedSession_arises hjoin) hv⟩

end TypeState

end HindleyMilner

import HindleyMilner.Proofs.ReducedSet
import HindleyMilner.Proofs.TableGrowth
import Mathlib.Order.Lattice
import Mathlib.Order.BoundedOrder.Basic

/-
Reduced sets of classes as a lattice.  They are ordered by what they imply, and
the union that adds the classes of one set to the other one by one is the least
upper bound.  So the laws of lattices hold of it, and neither the order in which
classes are added nor repeats can be seen in the outcome.
-/

namespace HindleyMilner

namespace ClassSet

variable {table : ClassTable} {a b set : ClassSet} {c : ClassId}

/-- The reduced set of the classes that two sets imply both. -/
def common (table : ClassTable) (a b : ClassSet) : ClassSet :=
  .ofList table ((a.members.flatMap fun c => c :: table.ancestors c).filter
    (b.implies table))

theorem implies_iff_mem_flatMap :
    set.implies table c = true ↔
      c ∈ set.members.flatMap fun d => d :: table.ancestors d := by
  simp [implies_iff, ClassTable.isAncestor, @eq_comm _ c]

theorem implies_common_iff (ordered : table.Ordered) :
    (a.common table b).implies table c = true ↔
      a.implies table c = true ∧ b.implies table c = true := by
  simp only [common, implies_ofList_iff ordered, List.mem_filter,
    ← implies_iff_mem_flatMap]
  constructor
  · rintro ⟨d, hd, rfl | hcd⟩
    · exact hd
    · exact ⟨implies_upward ordered hd.1 hcd, implies_upward ordered hd.2 hcd⟩
  · intro hc
    exact ⟨c, hc, Or.inl rfl⟩

theorem implies_empty : (∅ : ClassSet).implies table c = false := rfl

theorem reduced_empty (table : ClassTable) : Reduced table ∅ :=
  fun _ hc => absurd hc List.not_mem_nil

end ClassSet

/-- The reduced sets of classes of a table whose superclasses were added before
their subclasses. -/
structure ReducedSet (table : ClassTable) (ordered : table.Ordered) where
  set : ClassSet
  reduced : set.Reduced table

namespace ReducedSet

variable {table : ClassTable} {ordered : table.Ordered}

/-- A set is above another if it implies all that the other does. -/
instance : PartialOrder (ReducedSet table ordered) where
  le a b := ∀ ⦃c⦄, a.set.implies table c = true → b.set.implies table c = true
  le_refl _ _ h := h
  le_trans _ _ _ hab hbc _ h := hbc (hab h)
  le_antisymm a b hab hba := by
    have hset : a.set = b.set :=
      a.reduced.eq_of_implies ordered b.reduced fun _ => ⟨@hab _, @hba _⟩
    cases a
    cases b
    simpa using hset

instance : Lattice (ReducedSet table ordered) where
  sup a b := ⟨a.set.union table b.set, a.reduced.union ordered b.set⟩
  inf a b := ⟨a.set.common table b.set, ClassSet.reduced_ofList ordered _⟩
  le_sup_left _ _ _ h := (ClassSet.implies_union_iff ordered).2 (Or.inl h)
  le_sup_right _ _ _ h := (ClassSet.implies_union_iff ordered).2 (Or.inr h)
  sup_le _ _ _ ha hb _ h :=
    ((ClassSet.implies_union_iff ordered).1 h).elim (@ha _) (@hb _)
  inf_le_left _ _ _ h := ((ClassSet.implies_common_iff ordered).1 h).1
  inf_le_right _ _ _ h := ((ClassSet.implies_common_iff ordered).1 h).2
  le_inf _ _ _ ha hb _ h := (ClassSet.implies_common_iff ordered).2 ⟨ha h, hb h⟩

instance : OrderBot (ReducedSet table ordered) where
  bot := ⟨∅, ClassSet.reduced_empty table⟩
  bot_le _ _ h := by simp [ClassSet.implies_empty] at h

end ReducedSet

namespace ClassSet

variable {table : ClassTable} {a b set : ClassSet} {c : ClassId}

/-- Reduced sets have one union, whichever is added to the other. -/
theorem Reduced.union_comm (ordered : table.Ordered) (ha : a.Reduced table)
    (hb : b.Reduced table) : a.union table b = b.union table a :=
  congrArg ReducedSet.set
    (sup_comm (⟨a, ha⟩ : ReducedSet table ordered) ⟨b, hb⟩)

theorem Reduced.union_assoc {d : ClassSet} (ordered : table.Ordered)
    (ha : a.Reduced table) (hb : b.Reduced table) (hd : d.Reduced table) :
    (a.union table b).union table d = a.union table (b.union table d) :=
  congrArg ReducedSet.set
    (sup_assoc (⟨a, ha⟩ : ReducedSet table ordered) ⟨b, hb⟩ ⟨d, hd⟩)

theorem Reduced.empty_union (ordered : table.Ordered)
    (ha : a.Reduced table) : (∅ : ClassSet).union table a = a :=
  congrArg ReducedSet.set (bot_sup_eq (⟨a, ha⟩ : ReducedSet table ordered))

theorem union_empty (set : ClassSet) : set.union table ∅ = set := rfl

theorem Reduced.union_eq_ofList (ordered : table.Ordered)
    (ha : a.Reduced table) (hb : b.Reduced table) :
    a.union table b = ofList table (a.members ++ b.members) := by
  rw [← union_ofList ordered, ha.ofList_members ordered,
    hb.ofList_members ordered]

/-- Adding a class reports a change exactly if there is one. -/
theorem isSome_insert?_iff :
    (set.insert? table c).isSome = true ↔ set.insert table c ≠ set := by
  rw [insert]
  cases hinsert : set.insert? table c with
  | none => simp
  | some larger =>
      have hmem : c ∈ larger.members :=
        (mem_of_insert? hinsert).2 (Or.inl rfl)
      have hnew : c ∉ set.members := by
        intro hold
        simp [insert?, implies_of_mem hold] at hinsert
      refine iff_of_true rfl fun hsame => hnew ?_
      rwa [← hsame]

/-- What reduced sets are and how they are joined, for the classes of any
table.  They are a lattice, ordered by what they imply, and neither the order in
which classes are added nor repeats make a difference. -/
theorem reduced_lattice (h : table.Built) :
    (∀ cs c, c ∈ (ofList table cs).members ↔
      c ∈ cs ∧ ∀ d ∈ cs, ¬ Relation.TransGen table.Super d c) ∧
    (∀ cs ds, (∀ c, c ∈ cs ↔ c ∈ ds) → ofList table cs = ofList table ds) ∧
    (∀ (set : ClassSet) c,
      ((set.insert? table c).isSome = true ↔ set.insert table c ≠ set) ∧
      (set.Reduced table → (set.insert table c).Reduced table)) ∧
    (∀ cs ds, (ofList table cs).union table (ofList table ds) =
      ofList table (cs ++ ds)) ∧
    (∀ a b d : ClassSet,
      a.Reduced table → b.Reduced table → d.Reduced table →
      (a.union table b).Reduced table ∧
      a.union table b = b.union table a ∧
      (a.union table b).union table d = a.union table (b.union table d) ∧
      a.union table a = a ∧
      (∅ : ClassSet).union table a = a ∧ a.union table ∅ = a ∧
      a.union table b = ofList table (a.members ++ b.members)) ∧
    ∀ a b : ClassSet, a.Reduced table → b.Reduced table →
      ((∀ c, a.implies table c = true ↔ b.implies table c = true) → a = b) ∧
      (∀ c, (a.union table b).implies table c = true ↔
        a.implies table c = true ∨ b.implies table c = true) ∧
      ∃ meet : ClassSet, meet.Reduced table ∧
        ∀ c, meet.implies table c = true ↔
          a.implies table c = true ∧ b.implies table c = true := by
  have ordered := h.ordered
  refine ⟨fun cs c => ?_, fun _ _ => ofList_congr ordered,
    fun _ _ => ⟨isSome_insert?_iff, fun hset => hset.insert ordered⟩,
    union_ofList ordered, fun a b d ha hb hd => ?_, fun a b ha hb => ?_⟩
  · simp only [mem_ofList_iff ordered, ← ClassTable.isAncestor_iff ordered,
      Bool.not_eq_true]
  · exact ⟨ha.union ordered b, ha.union_comm ordered hb,
      ha.union_assoc ordered hb hd, union_self a, ha.empty_union ordered,
      union_empty a, ha.union_eq_ofList ordered hb⟩
  · exact ⟨ha.eq_of_implies ordered hb, fun _ => implies_union_iff ordered,
      a.common table b, reduced_ofList ordered _,
      fun _ => implies_common_iff ordered⟩

theorem reduced_lattice_numeric :
    let ord := ofList ClassTable.numericClasses [⟨1⟩, ⟨0⟩]
    let num := ofList ClassTable.numericClasses [⟨0⟩, ⟨2⟩, ⟨2⟩]
    ord.members = [⟨1⟩] ∧ num.members = [⟨2⟩] ∧
      ord.union ClassTable.numericClasses num =
        num.union ClassTable.numericClasses ord ∧
      ord.union ClassTable.numericClasses num =
        ofList ClassTable.numericClasses [⟨1⟩, ⟨0⟩, ⟨0⟩, ⟨2⟩, ⟨2⟩] := by
  intro ord num
  have hord : ord.Reduced ClassTable.numericClasses :=
    reduced_ofList ClassTable.numericClasses_built.ordered _
  have hnum : num.Reduced ClassTable.numericClasses :=
    reduced_ofList ClassTable.numericClasses_built.ordered _
  obtain ⟨-, -, -, hjoined, hlaws, -⟩ :=
    reduced_lattice ClassTable.numericClasses_built
  obtain ⟨-, hcomm, -⟩ := hlaws ord num ord hord hnum hord
  exact ⟨by decide, by decide, hcomm, hjoined _ _⟩

end ClassSet

end HindleyMilner

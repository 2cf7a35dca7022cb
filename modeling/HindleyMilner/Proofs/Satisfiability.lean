import HindleyMilner.Proofs.ReducedSet
import HindleyMilner.Proofs.TableGrowth
import Mathlib.Data.List.Pairwise

/-
Sets of classes that some constructor is an instance of.  A set of two or more
classes is in conflict exactly if there is no such constructor, and reducing a
list of classes does not change that.  A conflict is reported as two classes of
the set.  They have no instance in common if there are two such classes in the
set; otherwise it takes more than two classes to rule out all constructors, and
the two that are reported do have an instance in common.
-/

namespace HindleyMilner

namespace ClassTable

variable {table : ClassTable} {set : ClassSet} {a b c : ClassId}
  {con : Name} {cs : List ClassId}

/-! ### Reported pairs -/

/-- Whether no constructor is an instance of both classes. -/
def Apart (table : ClassTable) (a b : ClassId) : Prop :=
  ∀ con, ¬ (table.hasInstance a con = true ∧ table.hasInstance b con = true)

theorem Apart.symm (h : table.Apart a b) : table.Apart b a :=
  fun con hcon => h con hcon.symm

theorem disjoint_eq_true_iff :
    table.disjoint a b = true ↔ table.Apart a b := by
  simp only [disjoint, List.all_eq_true, mem_candidates, Bool.not_eq_true',
    Apart, not_and, Bool.not_eq_true]

theorem disjointPair?_eq_some (h : table.disjointPair? cs = some (a, b)) :
    [a, b].Sublist cs ∧ table.Apart a b := by
  induction cs with
  | nil => simp [disjointPair?] at h
  | cons head tail ih =>
      rw [disjointPair?] at h
      split at h
      · rename_i partner hpartner
        obtain ⟨rfl, rfl⟩ := Prod.mk.inj (Option.some.inj h)
        have hmem := List.mem_of_find?_eq_some hpartner
        exact ⟨(List.singleton_sublist.2 hmem).cons_cons _,
          disjoint_eq_true_iff.1 (List.find?_some hpartner)⟩
      · exact (ih h).imp_left (·.cons head)

theorem disjointPair?_eq_none_iff : table.disjointPair? cs = none ↔
    cs.Pairwise fun c d => ¬ table.Apart c d := by
  induction cs with
  | nil => simp [disjointPair?]
  | cons head tail ih =>
      rw [disjointPair?, List.pairwise_cons, ← ih]
      split
      · rename_i partner hpartner
        have hapart := disjoint_eq_true_iff.1 (List.find?_some hpartner)
        have hmem := List.mem_of_find?_eq_some hpartner
        simp only [reduceCtorEq, false_iff]
        exact fun hall => hall.1 partner hmem hapart
      · rename_i hnone
        rw [List.find?_eq_none] at hnone
        exact (and_iff_right fun d hd => mt disjoint_eq_true_iff.2
          (hnone d hd)).symm

/-- A conflict is reported by a pair of classes that are apart, or by the first
and the last class where no two classes of the set are. -/
theorem conflict?_eq_some (h : table.conflict? set = some (a, b)) :
    [a, b].Sublist set.members ∧
      (table.Apart a b ∨ set.members.head? = some a ∧
        set.members.getLast? = some b ∧
        set.members.Pairwise fun c d => ¬ table.Apart c d) := by
  unfold conflict? at h
  split at h
  · simp at h
  · rename_i first rest hmembers
    split at h
    · simp at h
    · obtain ⟨last, hlast, hpair⟩ := Option.map_eq_some_iff.1 h
      rw [hmembers]
      cases hfound : table.disjointPair? (first :: rest) with
      | some pair =>
          rw [hfound, Option.getD_some] at hpair
          rw [hpair] at hfound
          exact (disjointPair?_eq_some hfound).imp_right Or.inl
      | none =>
          rw [hfound, Option.getD_none] at hpair
          obtain ⟨rfl, rfl⟩ := Prod.mk.inj hpair
          have hmem := List.mem_of_getLast? hlast
          refine ⟨(List.singleton_sublist.2 hmem).cons_cons _, Or.inr
            ⟨rfl, ?_, disjointPair?_eq_none_iff.1 hfound⟩⟩
          rw [List.getLast?_cons, hlast, Option.getD_some]

/-- The classes of a reported conflict are two members of a set that no
constructor is an instance of.  The two alone have no common instance if and
only if there are two members that have none; otherwise they are the first
member and the last. -/
theorem conflict?_pair (h : table.conflict? set = some (a, b)) :
    a ∈ set.members ∧ b ∈ set.members ∧ a ≠ b ∧
      (∀ con, ∃ c ∈ set.members, table.hasInstance c con = false) ∧
      (table.Apart a b ↔ ∃ c ∈ set.members, ∃ d ∈ set.members,
        c ≠ d ∧ table.Apart c d) ∧
      (¬ table.Apart a b →
        set.members.head? = some a ∧ set.members.getLast? = some b) := by
  obtain ⟨hsub, hcase⟩ := conflict?_eq_some h
  have ha : a ∈ set.members := hsub.subset (by simp)
  have hb : b ∈ set.members := hsub.subset (by simp)
  have hne : a ≠ b := by simpa using set.nodup.sublist hsub
  refine ⟨ha, hb, hne, exists_not_hasInstance_of_conflict? h,
    ⟨fun hapart => ⟨a, ha, b, hb, hne, hapart⟩, ?_⟩, fun hnot => ?_⟩
  · rintro ⟨c, hc, d, hd, hcd, hapart⟩
    rcases hcase with hab | ⟨-, -, hnone⟩
    · exact hab
    · have hsymm : Std.Symm fun c d => ¬ table.Apart c d :=
        ⟨fun _ _ => mt Apart.symm⟩
      exact absurd hapart (hnone.forall hc hd hcd)
  · obtain ⟨hhead, hlast, -⟩ := hcase.resolve_left hnot
    exact ⟨hhead, hlast⟩

def threeClasses : ClassTable :=
  ⟨((#[].push ⟨⟨"P", by decide⟩, [], [], []⟩).push
    ⟨⟨"Q", by decide⟩, [], [], []⟩).push ⟨⟨"R", by decide⟩, [], [], []⟩⟩

theorem threeClasses_built : threeClasses.Built := by
  have hempty : empty.Built := .refl
  refine .push (.push (.push hempty ?_ ?_) ?_ ?_) ?_ ?_
  all_goals decide +kernel

/-- Three classes of which the second and the third are apart. -/
def separated : ClassTable :=
  (((threeClasses.addInstance ⟨0⟩ .unit).addInstance ⟨0⟩ .char).addInstance
    ⟨1⟩ .unit).addInstance ⟨2⟩ .char

theorem conflict?_pair_separated :
    separated.conflict? (.ofList separated [⟨2⟩, ⟨0⟩, ⟨1⟩]) =
        some (⟨1⟩, ⟨2⟩) ∧
      separated.Apart ⟨1⟩ ⟨2⟩ := by
  have hconflict : separated.conflict?
      (.ofList separated [⟨2⟩, ⟨0⟩, ⟨1⟩]) = some (⟨1⟩, ⟨2⟩) := by decide
  obtain ⟨-, -, -, -, -, hends⟩ := conflict?_pair hconflict
  refine ⟨hconflict, ?_⟩
  by_contra hnot
  -- the second class would be the first of the set
  exact absurd (hends hnot).1 (by decide)

/-- Three classes of which any two have an instance in common, but not all
three. -/
def overlapping : ClassTable :=
  (((((threeClasses.addInstance ⟨0⟩ .unit).addInstance ⟨2⟩ .unit).addInstance
    ⟨0⟩ .char).addInstance ⟨1⟩ .char).addInstance ⟨1⟩ .list).addInstance
    ⟨2⟩ .list

theorem overlapping_built : overlapping.Built :=
  (((((threeClasses_built.addInstance _ _).addInstance _ _).addInstance
    _ _).addInstance _ _).addInstance _ _).addInstance _ _

/-- The two classes that are reported for all three have an instance. -/
theorem overlapping_reported :
    overlapping.Built ∧
      overlapping.conflict? (.ofList overlapping [⟨0⟩, ⟨1⟩, ⟨2⟩]) =
        some (⟨0⟩, ⟨2⟩) ∧
      overlapping.hasInstance ⟨0⟩ .unit = true ∧
      overlapping.hasInstance ⟨2⟩ .unit = true :=
  ⟨overlapping_built, by decide, by decide, by decide⟩

/-! ### Sets without conflict -/

/-- A constructor is an instance of a class if it is declared for the class and
for all that superclass steps lead to. -/
theorem hasInstance_iff_forall_above (ordered : table.Ordered) :
    table.hasInstance c con = true ↔
      ∀ d, Relation.ReflTransGen table.Super c d →
        con ∈ table.instances d := by
  rw [hasInstance_iff]
  simp only [mem_ancestors ordered]
  constructor
  · rintro ⟨hself, habove⟩ d hd
    rcases Relation.reflTransGen_iff_eq_or_transGen.1 hd with rfl | hd
    · exact hself
    · exact habove d hd
  · intro hall
    exact ⟨hall c .refl, fun d hd => hall d hd.to_reflTransGen⟩

/-- The set of a list of classes that reduces to at least two is free of
conflict if and only if the classes of the list have a common instance. -/
theorem conflict?_ofList_eq_none_iff (ordered : table.Ordered)
    (hlength : 2 ≤ (ClassSet.ofList table cs).members.length) :
    table.conflict? (.ofList table cs) = none ↔
      ∃ con, ∀ c ∈ cs, table.hasInstance c con = true := by
  rw [conflict?_eq_none_iff, or_iff_right (Nat.not_le_of_lt hlength)]
  exact exists_congr fun con =>
    ClassSet.forall_mem_ofList_iff (hasInstance_upward ordered con) cs

/-- A set is free of conflict if and only if it has at most one class or there
is a common instance of its classes, and for the classes of a list that reduces
to at least two, a common instance of them and all their superclasses. -/
theorem conflict?_exact (h : table.Built) :
    (∀ set, table.conflict? set = none ↔
      set.members.length ≤ 1 ∨
        ∃ con, ∀ c ∈ set.members, table.hasInstance c con = true) ∧
    ∀ cs, 2 ≤ (ClassSet.ofList table cs).members.length →
      (table.conflict? (.ofList table cs) = none ↔
        ∃ con, ∀ c ∈ cs, ∀ d, Relation.ReflTransGen table.Super c d →
          con ∈ table.instances d) := by
  refine ⟨fun set => conflict?_eq_none_iff, fun cs hlength => ?_⟩
  rw [conflict?_ofList_eq_none_iff h.ordered hlength]
  simp only [hasInstance_iff_forall_above h.ordered]

theorem conflict?_exact_rationals :
    rationals.conflict? (.ofList rationals [⟨0⟩, ⟨2⟩, ⟨1⟩]) = none ∧
      ∃ con, ∀ c ∈ [(⟨0⟩ : ClassId), ⟨2⟩, ⟨1⟩], ∀ d,
        Relation.ReflTransGen rationals.Super c d →
          con ∈ rationals.instances d := by
  have hnone : rationals.conflict?
      (.ofList rationals [⟨0⟩, ⟨2⟩, ⟨1⟩]) = none := by decide
  exact ⟨hnone,
    ((conflict?_exact rationals_built).2 _ (by decide)).1 hnone⟩

end ClassTable

end HindleyMilner

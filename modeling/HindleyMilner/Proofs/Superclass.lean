import HindleyMilner.ClassSet
import Mathlib.Logic.Relation

/-
The superclass order.  In a table whose classes only name earlier classes as
superclasses, one sweep collects exactly the classes that superclass steps
lead to, and the reduced sets of classes imply exactly what their members do.
-/

namespace HindleyMilner

namespace ClassTable

variable {table : ClassTable} {c d e : ClassId}

/-- Whether `d` is a direct superclass of `c`. -/
def Super (table : ClassTable) (c d : ClassId) : Prop :=
  d ∈ table.supers c

/-- Every superclass was added before its subclass. -/
def Ordered (table : ClassTable) : Prop :=
  ∀ ⦃c d : ClassId⦄, table.Super c d → d.index < c.index

/-- The sweep finds what was found before and what superclass steps lead to
from the pending classes below the bound. -/
theorem mem_sweep (ordered : table.Ordered) (bound : Nat)
    (pending found : List ClassId) :
    d ∈ table.sweep bound pending found ↔
      d ∈ found ∨ ∃ p ∈ pending, p.index < bound ∧
        Relation.ReflTransGen table.Super p d := by
  induction bound generalizing pending found with
  | zero => simp [sweep]
  | succ bound ih =>
      have hlast (p : ClassId) (hp : p.index < bound + 1) :
          p.index < bound ∨ p = ⟨bound⟩ := by
        cases p with
        | mk index =>
            simp only [ClassId.mk.injEq]
            simp only at hp
            omega
      by_cases hpending : (⟨bound⟩ : ClassId) ∈ pending
      · simp only [sweep, hpending, ↓reduceIte, ih, List.mem_cons,
          List.mem_append]
        constructor
        · rintro ((rfl | hfound) | ⟨p, hp | hp, hlt, hreach⟩)
          · exact Or.inr ⟨_, hpending, Nat.lt_succ_self _, .refl⟩
          · exact Or.inl hfound
          · exact Or.inr ⟨_, hpending, Nat.lt_succ_self _, .head hp hreach⟩
          · exact Or.inr ⟨p, hp, Nat.lt_succ_of_lt hlt, hreach⟩
        · rintro (hfound | ⟨p, hp, hlt, hreach⟩)
          · exact Or.inl (Or.inr hfound)
          · rcases hlast p hlt with hlt | rfl
            · exact Or.inr ⟨p, Or.inr hp, hlt, hreach⟩
            · rcases hreach.cases_head with rfl | ⟨q, hq, hreach⟩
              · exact Or.inl (Or.inl rfl)
              · exact Or.inr ⟨q, Or.inl hq, ordered hq, hreach⟩
      · simp only [sweep, hpending, ↓reduceIte, ih]
        constructor
        · rintro (hfound | ⟨p, hp, hlt, hreach⟩)
          · exact Or.inl hfound
          · exact Or.inr ⟨p, hp, Nat.lt_succ_of_lt hlt, hreach⟩
        · rintro (hfound | ⟨p, hp, hlt, hreach⟩)
          · exact Or.inl hfound
          · rcases hlast p hlt with hlt | rfl
            · exact Or.inr ⟨p, hp, hlt, hreach⟩
            · exact absurd hp hpending

/-- The ancestors of a class are what one or more superclass steps lead to. -/
theorem mem_ancestors (ordered : table.Ordered) :
    d ∈ table.ancestors c ↔ Relation.TransGen table.Super c d := by
  rw [ancestors, mem_sweep ordered]
  constructor
  · rintro (hnil | ⟨p, hp, -, hreach⟩)
    · simp at hnil
    · exact Relation.TransGen.head' hp hreach
  · intro hreach
    obtain ⟨p, hp, hreach⟩ := Relation.TransGen.head'_iff.1 hreach
    exact Or.inr ⟨p, hp, ordered hp, hreach⟩

theorem isAncestor_iff (ordered : table.Ordered) :
    table.isAncestor d c = true ↔ Relation.TransGen table.Super c d := by
  rw [isAncestor, decide_eq_true_eq, mem_ancestors ordered]

theorem isAncestor_trans (ordered : table.Ordered)
    (hde : table.isAncestor e d = true) (hcd : table.isAncestor d c = true) :
    table.isAncestor e c = true := by
  rw [isAncestor_iff ordered] at hde hcd ⊢
  exact hcd.trans hde

/-! ### Tables stay ordered -/

theorem ordered_empty : empty.Ordered := by
  intro c d h
  simp [Super, supers, decl?, empty] at h

/-- A class is added with superclasses that the table has already. -/
theorem Ordered.add? (ordered : table.Ordered) {name : Name}
    {supers : List ClassId} {larger : ClassTable}
    (hsupers : ∀ d ∈ supers, d.index < table.size)
    (hadd : table.add? name supers = some larger) : larger.Ordered := by
  simp only [ClassTable.add?, Option.ite_none_left_eq_some,
    Option.some.injEq] at hadd
  rcases hadd with ⟨-, rfl⟩
  intro c d h
  simp only [Super, ClassTable.supers, decl?, Array.getElem?_push] at h
  split at h
  · rename_i hindex
    rw [hindex]
    exact hsupers d (by simpa using h)
  · exact ordered h

theorem supers_modify_of_supers_eq {f : ClassDecl → ClassDecl}
    (hf : ∀ decl, (f decl).supers = decl.supers) (changed : ClassId) :
    (⟨table.decls.modify changed.index f⟩ : ClassTable).supers c =
      table.supers c := by
  simp only [supers, decl?, Array.getElem?_modify]
  split
  · cases table.decls[c.index]? <;> simp [hf]
  · rfl

@[simp] theorem supers_addInstance (changed : ClassId) (con : Name) :
    (table.addInstance changed con).supers c = table.supers c := by
  apply supers_modify_of_supers_eq
  intro decl
  rfl

@[simp] theorem supers_addUnconstrainedInstance (changed : ClassId)
    (con : Name) :
    (table.addUnconstrainedInstance changed con).supers c =
      table.supers c := by
  apply supers_modify_of_supers_eq
  intro decl
  rfl

theorem Ordered.addInstance (ordered : table.Ordered) (changed : ClassId)
    (con : Name) : (table.addInstance changed con).Ordered := by
  intro c d h
  exact ordered (by simpa [Super] using h)

theorem Ordered.addUnconstrainedInstance (ordered : table.Ordered)
    (changed : ClassId) (con : Name) :
    (table.addUnconstrainedInstance changed con).Ordered := by
  intro c d h
  exact ordered (by simpa [Super] using h)

/-! ### Predicates that pass from a class to its superclasses -/

/-- What holds of a class holds of its superclasses. -/
def Upward (table : ClassTable) (p : ClassId → Prop) : Prop :=
  ∀ ⦃c d : ClassId⦄, p c → table.isAncestor d c = true → p d

end ClassTable

namespace ClassSet

variable {table : ClassTable} {set : ClassSet} {c d : ClassId}
  {p : ClassId → Prop}

/-- A set implies its members and everything above them. -/
theorem implies_iff :
    set.implies table c = true ↔
      ∃ d ∈ set.members, d = c ∨ table.isAncestor c d = true := by
  simp [implies]

theorem implies_of_mem (h : c ∈ set.members) : set.implies table c = true :=
  implies_iff.2 ⟨c, h, Or.inl rfl⟩

/-- What a set implies is closed under superclasses. -/
theorem implies_upward (ordered : table.Ordered) :
    table.Upward fun c => set.implies table c = true := by
  intro c d hc hdc
  obtain ⟨e, he, rfl | hce⟩ := implies_iff.1 hc
  · exact implies_iff.2 ⟨_, he, Or.inr hdc⟩
  · exact implies_iff.2
      ⟨e, he, Or.inr (ClassTable.isAncestor_trans ordered hdc hce)⟩

/-- A predicate that passes to superclasses and holds of the members of a set
holds of all that the set implies. -/
theorem of_implies (upward : table.Upward p) (hset : ∀ d ∈ set.members, p d)
    (hc : set.implies table c = true) : p c := by
  obtain ⟨d, hd, rfl | hcd⟩ := implies_iff.1 hc
  · exact hset d hd
  · exact upward (hset d hd) hcd

/-- Insertion takes the superclasses of the new class out. -/
theorem mem_of_insert? {larger : ClassSet}
    (h : set.insert? table c = some larger) :
    d ∈ larger.members ↔
      d = c ∨ d ∈ set.members ∧ table.isAncestor d c = false := by
  simp only [insert?, Option.ite_none_left_eq_some, Option.some.injEq] at h
  rcases h with ⟨-, rfl⟩
  simp [mem_place]

/-- An added class that is implied already changes nothing; another one takes
the place of its superclasses.  Either way the members say the same as the old
members and the class together. -/
theorem forall_mem_insert?_iff (upward : table.Upward p) {larger : ClassSet}
    (h : set.insert? table c = some larger) :
    (∀ d ∈ larger.members, p d) ↔ (∀ d ∈ set.members, p d) ∧ p c := by
  constructor
  · intro hlarger
    have hc : p c := hlarger c ((mem_of_insert? h).2 (Or.inl rfl))
    refine ⟨fun d hd => ?_, hc⟩
    cases hdc : table.isAncestor d c with
    | true => exact upward hc hdc
    | false => exact hlarger d ((mem_of_insert? h).2 (Or.inr ⟨hd, hdc⟩))
  · rintro ⟨hset, hc⟩ d hd
    rcases (mem_of_insert? h).1 hd with rfl | ⟨hd, -⟩
    · exact hc
    · exact hset d hd

theorem implies_of_insert?_eq_none (h : set.insert? table c = none) :
    set.implies table c = true := by
  simpa [insert?] using h

/-- For what goes upward, a reduced set says as much as the classes that it was
made of. -/
theorem forall_mem_insert_iff (upward : table.Upward p) :
    (∀ d ∈ (set.insert table c).members, p d) ↔
      (∀ d ∈ set.members, p d) ∧ p c := by
  cases h : set.insert? table c with
  | none =>
      have himplied := implies_of_insert?_eq_none h
      simp only [insert, h, Option.getD_none]
      exact ⟨fun hset => ⟨hset, of_implies upward hset himplied⟩, And.left⟩
  | some larger =>
      simp only [insert, h, Option.getD_some]
      exact forall_mem_insert?_iff upward h

theorem forall_mem_foldl_insert_iff (upward : table.Upward p)
    (cs : List ClassId) :
    (∀ d ∈ (cs.foldl (insert table) set).members, p d) ↔
      (∀ d ∈ set.members, p d) ∧ ∀ c ∈ cs, p c := by
  induction cs generalizing set with
  | nil => simp
  | cons head tail ih =>
      simp only [List.foldl_cons, ih, forall_mem_insert_iff upward,
        List.forall_mem_cons, and_assoc]

theorem forall_mem_union_iff (upward : table.Upward p) (a b : ClassSet) :
    (∀ d ∈ (a.union table b).members, p d) ↔
      (∀ d ∈ a.members, p d) ∧ ∀ d ∈ b.members, p d :=
  forall_mem_foldl_insert_iff upward b.members

theorem forall_mem_ofList_iff (upward : table.Upward p) (cs : List ClassId) :
    (∀ d ∈ (ofList table cs).members, p d) ↔ ∀ c ∈ cs, p c := by
  rw [ofList, forall_mem_foldl_insert_iff upward]
  exact and_iff_right fun d hd => absurd hd List.not_mem_nil

end ClassSet

end HindleyMilner

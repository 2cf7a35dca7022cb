import HindleyMilner.Proofs.Meets
import Mathlib.Data.List.Sort

/-
Reduced sets of classes as canonical forms.  A set is reduced if no member is
above another, and there is only one reduced set that implies given classes.
So it does not matter in which order or how often classes were added, and the
set that comes of it can be named by any list of the classes.
-/

namespace HindleyMilner

namespace ClassTable

variable {table : ClassTable} {c d : ClassId}

/-- A superclass was added before the class. -/
theorem lt_of_isAncestor (ordered : table.Ordered)
    (h : table.isAncestor d c = true) : d.index < c.index := by
  rw [isAncestor_iff ordered] at h
  induction h with
  | single hsuper => exact ordered hsuper
  | tail _ hsuper ih => exact Nat.lt_trans (ordered hsuper) ih

theorem isAncestor_self (ordered : table.Ordered) (c : ClassId) :
    table.isAncestor c c = false := by
  by_contra habove
  rw [Bool.not_eq_false] at habove
  exact Nat.lt_irrefl _ (lt_of_isAncestor ordered habove)

end ClassTable

namespace ClassSet

variable {table : ClassTable} {a b set : ClassSet} {c d : ClassId}
  {cs ds : List ClassId}

/-- Whether no member of the set is a superclass of another. -/
def Reduced (table : ClassTable) (set : ClassSet) : Prop :=
  ∀ c ∈ set.members, ∀ d ∈ set.members, table.isAncestor c d = false

theorem ext_members (h : ∀ c, c ∈ a.members ↔ c ∈ b.members) : a = b := by
  have hantisymm : Std.Antisymm fun c d : ClassId => c.index < d.index :=
    ⟨fun _ _ hcd hdc => absurd hdc (Nat.lt_asymm hcd)⟩
  have hirrefl : Std.Irrefl fun c d : ClassId => c.index < d.index :=
    ⟨fun c => Nat.lt_irrefl c.index⟩
  have hmembers := a.ordered.eq_of_mem_iff b.ordered h
  cases a
  cases b
  simpa using hmembers

theorem nodup (set : ClassSet) : set.members.Nodup :=
  set.ordered.imp fun {c d} hlt heq => by
    rw [heq] at hlt
    exact Nat.lt_irrefl d.index hlt

/-- A member of a reduced set is in every set that implies the same. -/
theorem Reduced.mem_of_implies (ha : Reduced table a)
    (h : ∀ c, a.implies table c = true ↔ b.implies table c = true)
    (ordered : table.Ordered) (hc : c ∈ a.members) : c ∈ b.members := by
  obtain ⟨d, hd, rfl | hcd⟩ := implies_iff.1 ((h c).1 (implies_of_mem hc))
  · exact hd
  · -- then `a` implies `d` by a member that is below `c`
    obtain ⟨e, he, heq⟩ := implies_iff.1 ((h d).2 (implies_of_mem hd))
    have hce : table.isAncestor c e = true := by
      rcases heq with rfl | hde
      · exact hcd
      · exact ClassTable.isAncestor_trans ordered hcd hde
    rw [ha c hc e he] at hce
    contradiction

/-- Reduced sets that imply the same classes are equal. -/
theorem Reduced.eq_of_implies (ordered : table.Ordered)
    (ha : Reduced table a) (hb : Reduced table b)
    (h : ∀ c, a.implies table c = true ↔ b.implies table c = true) :
    a = b :=
  ext_members fun _ => ⟨ha.mem_of_implies h ordered,
    hb.mem_of_implies (fun c => (h c).symm) ordered⟩

/-! ### Adding classes -/

theorem implies_insert_iff (ordered : table.Ordered) :
    (set.insert table c).implies table d = true ↔
      set.implies table d = true ∨ d = c ∨ table.isAncestor d c = true := by
  cases h : set.insert? table c with
  | none =>
      have himplied := implies_of_insert?_eq_none h
      rw [insert, h, Option.getD_none, or_iff_left_of_imp]
      rintro (rfl | hdc)
      · exact himplied
      · exact implies_upward ordered himplied hdc
  | some larger =>
      rw [insert, h, Option.getD_some, implies_iff, implies_iff]
      constructor
      · rintro ⟨e, he, hde⟩
        rcases (mem_of_insert? h).1 he with rfl | ⟨he, -⟩
        · exact Or.inr (hde.imp_left Eq.symm)
        · exact Or.inl ⟨e, he, hde⟩
      · have hc : c ∈ larger.members := (mem_of_insert? h).2 (Or.inl rfl)
        rintro (⟨e, he, hde⟩ | hdc)
        · cases hec : table.isAncestor e c with
          | false => exact ⟨e, (mem_of_insert? h).2 (Or.inr ⟨he, hec⟩), hde⟩
          | true =>
              refine ⟨c, hc, Or.inr ?_⟩
              rcases hde with rfl | hde
              · exact hec
              · exact ClassTable.isAncestor_trans ordered hde hec
        · exact ⟨c, hc, hdc.imp_left Eq.symm⟩

theorem Reduced.insert (ordered : table.Ordered) (h : Reduced table set) :
    Reduced table (set.insert table c) := by
  cases hinsert : set.insert? table c with
  | none => rwa [ClassSet.insert, hinsert, Option.getD_none]
  | some larger =>
      have hnot : set.implies table c = false := by
        by_contra himplied
        simp [insert?, himplied] at hinsert
      rw [ClassSet.insert, hinsert, Option.getD_some]
      intro d hd e he
      rcases (mem_of_insert? hinsert).1 hd with rfl | ⟨hd, hdc⟩
      · rcases (mem_of_insert? hinsert).1 he with rfl | ⟨he, -⟩
        · exact ClassTable.isAncestor_self ordered _
        · by_contra habove
          rw [Bool.not_eq_false] at habove
          rw [implies_iff.2 ⟨e, he, Or.inr habove⟩] at hnot
          contradiction
      · rcases (mem_of_insert? hinsert).1 he with rfl | ⟨he, -⟩
        · exact hdc
        · exact h d hd e he

theorem implies_foldl_insert_iff (ordered : table.Ordered) :
    (cs.foldl (ClassSet.insert table) set).implies table d = true ↔
      set.implies table d = true ∨
        ∃ c ∈ cs, d = c ∨ table.isAncestor d c = true := by
  induction cs generalizing set with
  | nil => simp
  | cons head tail ih =>
      simp only [List.foldl_cons, ih, implies_insert_iff ordered,
        List.exists_mem_cons_iff, or_assoc]

theorem Reduced.foldl_insert (ordered : table.Ordered)
    (h : Reduced table set) (cs : List ClassId) :
    Reduced table (cs.foldl (ClassSet.insert table) set) := by
  induction cs generalizing set with
  | nil => exact h
  | cons head tail ih => exact ih (h.insert ordered)

theorem implies_ofList_iff (ordered : table.Ordered) :
    (ofList table cs).implies table d = true ↔
      ∃ c ∈ cs, d = c ∨ table.isAncestor d c = true := by
  rw [ofList, implies_foldl_insert_iff ordered]
  exact or_iff_right (by simp [implies_iff, EmptyCollection.emptyCollection,
    empty])

/-- Sets that are built from lists are reduced. -/
theorem reduced_ofList (ordered : table.Ordered) (cs : List ClassId) :
    Reduced table (ofList table cs) :=
  Reduced.foldl_insert ordered (fun _ hc => absurd hc List.not_mem_nil) cs

/-- The order and the repeats of the classes do not matter. -/
theorem ofList_congr (ordered : table.Ordered)
    (h : ∀ c, c ∈ cs ↔ c ∈ ds) : ofList table cs = ofList table ds := by
  refine (reduced_ofList ordered cs).eq_of_implies ordered
    (reduced_ofList ordered ds) fun d => ?_
  simp only [implies_ofList_iff ordered, h]

/-- A reduced set is the set of its members. -/
theorem Reduced.ofList_members (ordered : table.Ordered)
    (h : Reduced table set) : ofList table set.members = set := by
  refine (reduced_ofList ordered _).eq_of_implies ordered h fun d => ?_
  simp only [implies_ofList_iff ordered, implies_iff, @eq_comm _ d]

/-- The members of a set are the classes that have no subclass among those
that it was made of. -/
theorem mem_ofList_iff (ordered : table.Ordered) :
    c ∈ (ofList table cs).members ↔
      c ∈ cs ∧ ∀ d ∈ cs, table.isAncestor c d = false := by
  have hreduced := reduced_ofList ordered cs
  constructor
  · intro hc
    have hbelow : ∀ d ∈ cs, table.isAncestor c d = false := by
      intro d hd
      by_contra habove
      rw [Bool.not_eq_false] at habove
      obtain ⟨e, he, heq⟩ := implies_iff.1
        ((implies_ofList_iff ordered).2 ⟨d, hd, Or.inl rfl⟩)
      have hce : table.isAncestor c e = true := by
        rcases heq with rfl | hde
        · exact habove
        · exact ClassTable.isAncestor_trans ordered habove hde
      rw [hreduced c hc e he] at hce
      contradiction
    obtain ⟨d, hd, rfl | hcd⟩ :=
      (implies_ofList_iff ordered).1 (implies_of_mem hc)
    · exact ⟨hd, hbelow⟩
    · rw [hbelow d hd] at hcd
      contradiction
  · rintro ⟨hc, hbelow⟩
    obtain ⟨d, hd, rfl | hcd⟩ := implies_iff.1
      ((implies_ofList_iff ordered).2 ⟨c, hc, Or.inl rfl⟩)
    · exact hd
    · obtain ⟨e, he, rfl | hde⟩ :=
        (implies_ofList_iff ordered).1 (implies_of_mem hd)
      · rw [hbelow d he] at hcd
        contradiction
      · have hce := ClassTable.isAncestor_trans ordered hcd hde
        rw [hbelow e he] at hce
        contradiction

/-! ### Joining sets -/

/-- A union implies what one of the two sets implies. -/
theorem implies_union_iff (ordered : table.Ordered) :
    (a.union table b).implies table c = true ↔
      a.implies table c = true ∨ b.implies table c = true := by
  rw [union, implies_foldl_insert_iff ordered, @implies_iff _ b]
  simp only [@eq_comm _ c]

theorem Reduced.union (ordered : table.Ordered) (ha : Reduced table a)
    (b : ClassSet) : Reduced table (a.union table b) :=
  ha.foldl_insert ordered b.members

/-- The sets of two lists have the set of the joined lists as their union. -/
theorem union_ofList (ordered : table.Ordered) (cs ds : List ClassId) :
    (ofList table cs).union table (ofList table ds) =
      ofList table (cs ++ ds) := by
  refine Reduced.eq_of_implies ordered
    ((reduced_ofList ordered cs).union ordered _)
    (reduced_ofList ordered _) fun c => ?_
  simp only [implies_union_iff ordered, implies_ofList_iff ordered,
    List.mem_append, or_and_right, exists_or]

theorem foldl_insert_of_implies
    (h : ∀ c ∈ cs, set.implies table c = true) :
    cs.foldl (ClassSet.insert table) set = set := by
  induction cs with
  | nil => rfl
  | cons head tail ih =>
      rw [List.forall_mem_cons] at h
      have hhead : set.insert table head = set := by
        rw [ClassSet.insert, insert?, if_pos h.1, Option.getD_none]
      rw [List.foldl_cons, hhead, ih h.2]

theorem union_self (set : ClassSet) : set.union table set = set :=
  foldl_insert_of_implies fun _ => implies_of_mem

end ClassSet

namespace ClassTable

variable {table : ClassTable} {set : ClassSet}

/-- A set has no conflict if it has at most one member or there is a
constructor that is an instance of all of them. -/
theorem conflict?_eq_none_iff :
    table.conflict? set = none ↔
      set.members.length ≤ 1 ∨
        ∃ con, ∀ c ∈ set.members, table.hasInstance c con = true := by
  unfold conflict?
  split
  · rename_i hnil
    simp [hnil]
  · rename_i first rest hmembers
    rw [hmembers]
    split
    · rename_i hany
      simp only [List.any_eq_true, List.all_eq_true] at hany
      obtain ⟨con, hfirst, hrest⟩ := hany
      refine iff_of_true rfl (Or.inr ⟨con, ?_⟩)
      exact List.forall_mem_cons.2 ⟨mem_candidates.1 hfirst, hrest⟩
    · rename_i hany
      simp only [List.any_eq_true, List.all_eq_true] at hany
      rw [Option.map_eq_none_iff, List.getLast?_eq_none_iff]
      constructor
      · rintro rfl
        exact Or.inl (Nat.le_refl 1)
      · rintro (hlength | ⟨con, hall⟩)
        · simpa using hlength
        · rw [List.forall_mem_cons] at hall
          exact absurd ⟨con, mem_candidates.2 hall.1, hall.2⟩ hany

/-- A set made of members of a set without conflict has none. -/
theorem conflict?_ofList_of_subset (ordered : table.Ordered)
    (h : table.conflict? set = none) {cs : List ClassId}
    (hcs : ∀ c ∈ cs, c ∈ set.members) :
    table.conflict? (.ofList table cs) = none := by
  rw [conflict?_eq_none_iff] at h ⊢
  have hsub : ∀ c ∈ (ClassSet.ofList table cs).members, c ∈ set.members :=
    fun c hc => hcs c ((ClassSet.mem_ofList_iff ordered).1 hc).1
  rcases h with hlength | ⟨con, hall⟩
  · have hnodup := (ClassSet.ofList table cs).nodup
    exact Or.inl
      (Nat.le_trans (List.subperm_of_subset hnodup hsub).length_le hlength)
  · exact Or.inr ⟨con, fun c hc => hall c (hsub c hc)⟩

end ClassTable

end HindleyMilner

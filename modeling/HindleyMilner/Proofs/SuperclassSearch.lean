import HindleyMilner.Proofs.ReducedSet
import HindleyMilner.Proofs.TableGrowth

/-
The search for everything above a class, as a loop over a stack.  Classes are
pushed as often as they are named, by any class that was found, so a class can
lie on the stack any number of times.  The loop ends because what it finds is
above the first class, and what it has found pushes its superclasses once.
This gives the exact number of turns, and at the end the classes of the sweep.
-/

namespace HindleyMilner

namespace ClassSet

/-- The set with one more member.  Its superclasses may be members too. -/
def adjoin (set : ClassSet) (c : ClassId) : ClassSet where
  members := place c set.members
  ordered := place_ordered c set.ordered

@[simp] theorem mem_adjoin {set : ClassSet} {c d : ClassId} :
    d ∈ (set.adjoin c).members ↔ d = c ∨ d ∈ set.members :=
  mem_place

end ClassSet

namespace ClassTable

/-- Where the search for everything above a class stands. -/
structure Search where
  /-- The classes that were found. -/
  found : ClassSet
  /-- The classes that are still to be looked at, from the top of the stack. -/
  pending : List ClassId

/-- What a turn of the loop comes to. -/
inductive Turn where
  | next (search : Search)
  | done (found : ClassSet)
  /-- The class on top of the stack is none of the table. -/
  | missing (c : ClassId)

/-- The direct superclasses of a class as they come to lie on the stack, if
the table has the class. -/
def stackOf? (table : ClassTable) (c : ClassId) : Option (List ClassId) :=
  (table.decl? c).map (·.supers.reverse)

namespace Search

/-- Takes a class from the stack and, if it is a new one, pushes its direct
superclasses. -/
def turn (table : ClassTable) (search : Search) : Turn :=
  match search.pending with
  | [] => .done search.found
  | c :: pending =>
      if c ∈ search.found.members then .next ⟨search.found, pending⟩
      else
        match table.stackOf? c with
        | some supers => .next ⟨search.found.adjoin c, supers ++ pending⟩
        | none => .missing c

/-- Makes turns until the search is done, or stops at a class that the table
does not have.  There is no outcome if the fuel does not last until then. -/
def run (table : ClassTable) : Nat → Search → ExceptT ClassId Option ClassSet
  | 0, _ => ExceptT.lift none
  | fuel + 1, search =>
      match search.turn table with
      | .next later => run table fuel later
      | .done found => return found
      | .missing c => throw c

end Search

def search (table : ClassTable) (fuel : Nat) (c : ClassId) :
    ExceptT ClassId Option ClassSet :=
  match table.stackOf? c with
  | some supers => Search.run table fuel ⟨∅, supers⟩
  | none => throw c

variable {table larger : ClassTable} {c d e : ClassId}

theorem stackOf?_eq (hc : c.index < table.size) :
    table.stackOf? c = some (table.supers c).reverse := by
  have hdecl : table.decl? c = some table.decls[c.index] :=
    Array.getElem?_eq_getElem hc
  simp only [stackOf?, supers, hdecl, Option.map_some, Option.getD_some]

/-! ### What the sweep collects, as a set -/

/-- The sweep goes down, so it puts what it finds in front of later classes. -/
theorem sweep_ordered (table : ClassTable) (bound : Nat)
    (pending : List ClassId) {found : List ClassId}
    (hfound : found.Pairwise (·.index < ·.index))
    (hbound : ∀ d ∈ found, bound ≤ d.index) :
    (table.sweep bound pending found).Pairwise (·.index < ·.index) := by
  induction bound generalizing pending found with
  | zero => exact hfound
  | succ bound ih =>
      by_cases hpending : (⟨bound⟩ : ClassId) ∈ pending
      · simp only [sweep, hpending, ↓reduceIte]
        apply ih
        · exact List.pairwise_cons.2 ⟨hbound, hfound⟩
        · intro d hd
          simp only [List.mem_cons] at hd
          rcases hd with rfl | hd
          · exact Nat.le_refl bound
          · exact Nat.le_of_lt (hbound d hd)
      · simp only [sweep, hpending, ↓reduceIte]
        apply ih
        · exact hfound
        · exact fun d hd => Nat.le_of_lt (hbound d hd)

theorem ancestors_ordered (table : ClassTable) (c : ClassId) :
    (table.ancestors c).Pairwise (·.index < ·.index) := by
  apply sweep_ordered
  · exact List.Pairwise.nil
  · exact fun d hd => absurd hd List.not_mem_nil

def above (table : ClassTable) (c : ClassId) : ClassSet where
  members := table.ancestors c
  ordered := table.ancestors_ordered c

theorem mem_above (ordered : table.Ordered) :
    d ∈ (table.above c).members ↔ Relation.TransGen table.Super c d :=
  mem_ancestors ordered

/-- A class has the superclasses for good that it has once it is added. -/
theorem Changes.above_eq (h : table.Changes larger) (ordered : table.Ordered)
    (hc : c.index < table.size) : larger.above c = table.above c := by
  induction h with
  | refl => rfl
  | tail hbefore hchange ih =>
      have ordered' := Changes.ordered hbefore ordered
      have hlt := Nat.lt_of_lt_of_le hc (Changes.size_le hbefore)
      have hsame (d : ClassId) := hchange.grows.mem_ancestors_iff (d := d)
        ordered' (hchange.ordered ordered') hlt
      exact (ClassSet.ext_members hsame).trans ih

/-! ### What a search knows -/

namespace Search

variable {search : Search} {found : ClassSet} {pending : List ClassId}

/-- Whether a class was found or is still to be looked at. -/
def Knows (search : Search) (d : ClassId) : Prop :=
  d ∈ search.found.members ∨ d ∈ search.pending

/-- Whether a search looks for what is above a class and has missed nothing so
far. -/
structure Seeks (search : Search) (table : ClassTable) (c : ClassId) :
    Prop where
  above : ∀ ⦃d⦄, search.Knows d → Relation.TransGen table.Super c d
  closed : ∀ ⦃d e⦄, d = c ∨ d ∈ search.found.members → table.Super d e →
    search.Knows e

theorem seeks_start (table : ClassTable) (c : ClassId) :
    Seeks ⟨∅, (table.supers c).reverse⟩ table c where
  above d hd := by
    rcases hd with hfound | hpending
    · exact absurd hfound List.not_mem_nil
    · exact Relation.TransGen.single (List.mem_reverse.1 hpending)
  closed d e hd hsuper := by
    rcases hd with rfl | hfound
    · exact Or.inr (List.mem_reverse.2 hsuper)
    · exact absurd hfound List.not_mem_nil

/-- A class that was found before is dropped. -/
theorem Seeks.skip (h : Seeks ⟨found, d :: pending⟩ table c)
    (hd : d ∈ found.members) : Seeks ⟨found, pending⟩ table c where
  above e he := h.above (he.imp_right (List.mem_cons_of_mem d))
  closed e f he hsuper := by
    rcases h.closed he hsuper with hfound | hpending
    · exact Or.inl hfound
    · rcases List.mem_cons.1 hpending with rfl | hpending
      · exact Or.inl hd
      · exact Or.inr hpending

/-- A new class is found and its direct superclasses are pushed. -/
theorem Seeks.visit (h : Seeks ⟨found, d :: pending⟩ table c) :
    Seeks ⟨found.adjoin d, (table.supers d).reverse ++ pending⟩ table c where
  above e he := by
    have hd : Relation.TransGen table.Super c d :=
      h.above (Or.inr List.mem_cons_self)
    simp only [Knows, ClassSet.mem_adjoin, List.mem_append,
      List.mem_reverse] at he
    rcases he with (rfl | hfound) | hsuper | hpending
    · exact hd
    · exact h.above (Or.inl hfound)
    · exact hd.tail hsuper
    · exact h.above (Or.inr (List.mem_cons_of_mem d hpending))
  closed e f he hsuper := by
    simp only [Knows, ClassSet.mem_adjoin, List.mem_append,
      List.mem_reverse] at he ⊢
    by_cases hed : e = d
    · subst hed
      exact Or.inr (Or.inl hsuper)
    · have hold : e = c ∨ e ∈ found.members := by
        simpa only [hed, false_or] using he
      rcases h.closed hold hsuper with hfound | hpending
      · exact Or.inl (Or.inr hfound)
      · rcases List.mem_cons.1 hpending with rfl | hpending
        · exact Or.inl (Or.inl rfl)
        · exact Or.inr (Or.inr hpending)

/-- With an empty stack, all that superclass steps lead to was found. -/
theorem Seeks.found_eq (h : Seeks ⟨found, []⟩ table c)
    (ordered : table.Ordered) : found = table.above c := by
  have hknown {d : ClassId} (hd : Knows ⟨found, []⟩ d) : d ∈ found.members :=
    hd.resolve_right List.not_mem_nil
  apply ClassSet.ext_members
  intro d
  rw [mem_above ordered]
  constructor
  · intro hfound
    exact h.above (Or.inl hfound)
  · intro hreach
    induction hreach with
    | single hsuper => exact hknown (h.closed (Or.inl rfl) hsuper)
    | tail _ hsuper ih => exact hknown (h.closed (Or.inr ih) hsuper)

/-! ### How many turns are left -/

/-- The classes above `c` that are not found yet. -/
def unfound (table : ClassTable) (c : ClassId) (found : ClassSet) :
    List ClassId :=
  (table.ancestors c).filter fun d => decide (d ∉ found.members)

theorem mem_unfound : d ∈ unfound table c found ↔
    d ∈ table.ancestors c ∧ d ∉ found.members := by
  simp only [unfound, List.mem_filter, decide_eq_true_eq]

theorem nodup_unfound (table : ClassTable) (c : ClassId) (found : ClassSet) :
    (unfound table c found).Nodup :=
  (table.above c).nodup.filter _

theorem unfound_empty (table : ClassTable) (c : ClassId) :
    unfound table c ∅ = table.ancestors c := by
  apply List.filter_eq_self.2
  intro d _
  exact decide_eq_true List.not_mem_nil

theorem unfound_above (table : ClassTable) (c : ClassId) :
    unfound table c (table.above c) = [] := by
  apply List.filter_eq_nil_iff.2
  intro d hd
  have hfound : d ∈ (table.above c).members := hd
  simp only [hfound, not_true_eq_false, decide_false, Bool.false_eq_true,
    not_false_eq_true]

theorem unfound_perm (hd : d ∈ table.ancestors c)
    (hnew : d ∉ found.members) :
    (unfound table c found).Perm
      (d :: unfound table c (found.adjoin d)) := by
  have hnodup : (d :: unfound table c (found.adjoin d)).Nodup := by
    apply List.nodup_cons.2
    constructor
    · simp [mem_unfound]
    · exact nodup_unfound table c (found.adjoin d)
  apply (List.perm_ext_iff_of_nodup (nodup_unfound table c found) hnodup).2
  intro e
  by_cases hed : e = d
  · subst hed
    simp [mem_unfound, hd, hnew]
  · simp [mem_unfound, hed]

/-- The classes that are still to be taken from the stack: those that lie on it
and those that are going to be pushed, once by each class not found yet. -/
def turnsLeft (search : Search) (table : ClassTable) (c : ClassId) : Nat :=
  search.pending.length +
    ((unfound table c search.found).flatMap table.supers).length

theorem turnsLeft_visit (hd : d ∈ table.ancestors c)
    (hnew : d ∉ found.members) :
    turnsLeft ⟨found, d :: pending⟩ table c =
      turnsLeft ⟨found.adjoin d, (table.supers d).reverse ++ pending⟩
        table c + 1 := by
  have hpushed := ((unfound_perm hd hnew).flatMap_right table.supers).length_eq
  simp only [List.flatMap_cons, List.length_append] at hpushed
  simp only [turnsLeft, List.length_cons, List.length_append,
    List.length_reverse]
  omega

/-! ### Turns and runs -/

/-- A turn ends the search with all that is above the class, or leaves it with
one turn less to make. -/
theorem Seeks.turn (h : search.Seeks table c) (ordered : table.Ordered)
    (hc : c.index < table.size) :
    (search.turn table = .done (table.above c) ∧
      search.turnsLeft table c = 0) ∨
    ∃ later, search.turn table = .next later ∧ later.Seeks table c ∧
      search.turnsLeft table c = later.turnsLeft table c + 1 := by
  obtain ⟨found, stack⟩ := search
  cases stack with
  | nil =>
      left
      have hfound : found = table.above c := h.found_eq ordered
      subst hfound
      exact ⟨rfl, by simp [turnsLeft, unfound_above]⟩
  | cons d pending =>
      right
      by_cases hd : d ∈ found.members
      · refine ⟨⟨found, pending⟩, by simp [Search.turn, hd], h.skip hd, ?_⟩
        simp only [turnsLeft, List.length_cons]
        omega
      · have hreach : Relation.TransGen table.Super c d :=
          h.above (Or.inr List.mem_cons_self)
        have habove : d ∈ table.ancestors c := (mem_ancestors ordered).2 hreach
        -- a superclass comes before the class, so the table has it
        have hlower : d.index < c.index :=
          lt_of_isAncestor ordered (decide_eq_true habove)
        have hstack := stackOf?_eq (Nat.lt_trans hlower hc)
        exact ⟨_, by simp only [Search.turn, hd, hstack, ↓reduceIte], h.visit,
          turnsLeft_visit habove hd⟩

/-- The turns that are left and a last one, which finds the stack empty, are
what the search needs. -/
theorem Seeks.run_eq (h : search.Seeks table c) (ordered : table.Ordered)
    (hc : c.index < table.size) (fuel : Nat) :
    run table fuel search =
      if search.turnsLeft table c < fuel then pure (table.above c)
      else ExceptT.lift none := by
  induction fuel generalizing search with
  | zero => simp [run]
  | succ fuel ih =>
      rcases h.turn ordered hc with
        ⟨hturn, hleft⟩ | ⟨later, hturn, hlater, hleft⟩
      · simp [run, hturn, hleft]
      · simp only [run, hturn, ih hlater, hleft, Nat.add_lt_add_iff_right]

end Search

/-- The search ends at once after it has taken every superclass that the class
or one above it names, with the set of all classes above. -/
theorem search_eq (ordered : table.Ordered) (hc : c.index < table.size)
    (fuel : Nat) :
    table.search fuel c =
      if ((c :: table.ancestors c).flatMap table.supers).length < fuel
      then pure (table.above c) else ExceptT.lift none := by
  have hrun := (Search.seeks_start table c).run_eq ordered hc fuel
  simp only [Search.turnsLeft, Search.unfound_empty,
    List.length_reverse] at hrun
  simp only [search, stackOf?_eq hc, hrun, List.flatMap_cons,
    List.length_append]

/-- The superclass relation of a table is a strict order, and it is computed
exactly.  The search over a stack ends, once it has taken all superclasses that
come to lie there, with the classes that one or more superclass steps lead to;
and what is above a class stays the same when the table grows. -/
theorem superclass_strictOrder (h : table.Built) :
    (∀ c, c.index < table.size → ∀ fuel, table.search fuel c =
      if ((c :: table.ancestors c).flatMap table.supers).length < fuel
      then pure (table.above c) else ExceptT.lift none) ∧
    (∀ c d, (d ∈ (table.above c).members ↔
        Relation.TransGen table.Super c d) ∧
      (table.isAncestor d c = true ↔ Relation.TransGen table.Super c d)) ∧
    (∀ c, table.isAncestor c c = false) ∧
    (∀ c d e, table.isAncestor e d = true → table.isAncestor d c = true →
      table.isAncestor e c = true) ∧
    ∀ larger, table.Changes larger → ∀ c, c.index < table.size →
      larger.above c = table.above c := by
  have ordered := h.ordered
  exact ⟨fun c hc => search_eq ordered hc,
    fun c d => ⟨mem_above ordered, isAncestor_iff ordered⟩,
    isAncestor_self ordered, fun c d e => isAncestor_trans ordered,
    fun larger hlarger c => hlarger.above_eq ordered⟩

/-- `numericClasses` with one more class, which names one superclass twice and
another one that is also above the first, in two ways. -/
def naturalClasses : ClassTable :=
  ⟨numericClasses.decls.push
    ⟨⟨"Natural", by decide⟩, [⟨3⟩, ⟨0⟩, ⟨3⟩], [], []⟩⟩

theorem naturalClasses_change : numericClasses.Change naturalClasses := by
  have hname : numericClasses.find? "Natural" = none := by decide +kernel
  have hadd : numericClasses.add? ⟨"Natural", by decide⟩
      [⟨3⟩, ⟨0⟩, ⟨3⟩] = some naturalClasses := by
    simp only [add?, hname, Option.isSome_none, Bool.false_eq_true, ↓reduceIte]
    rfl
  exact .addClass (by decide) hadd

/-- Seven classes are taken from the stack to find four, and the turn after
that finds it empty. -/
theorem superclass_strictOrder_repeated :
    naturalClasses.search 7 ⟨4⟩ = ExceptT.lift none ∧
      naturalClasses.search 8 ⟨4⟩ = pure (naturalClasses.above ⟨4⟩) ∧
      (naturalClasses.above ⟨4⟩).members = [⟨0⟩, ⟨1⟩, ⟨2⟩, ⟨3⟩] ∧
      Relation.TransGen naturalClasses.Super ⟨4⟩ ⟨1⟩ ∧
      naturalClasses.isAncestor ⟨4⟩ ⟨4⟩ = false ∧
      naturalClasses.isAncestor ⟨0⟩ ⟨4⟩ = true ∧
      naturalClasses.above ⟨3⟩ = numericClasses.above ⟨3⟩ := by
  have hbuilt : naturalClasses.Built :=
    numericClasses_built.tail naturalClasses_change
  obtain ⟨hsearch, habove, hirrefl, htrans, -⟩ :=
    superclass_strictOrder hbuilt
  obtain ⟨-, -, -, -, hlater⟩ := superclass_strictOrder numericClasses_built
  refine ⟨hsearch ⟨4⟩ (by decide) 7, hsearch ⟨4⟩ (by decide) 8, by decide,
    (habove _ _).1.1 (by decide), hirrefl _,
    htrans ⟨4⟩ ⟨3⟩ ⟨0⟩ (by decide) (by decide), ?_⟩
  exact hlater _ (.single naturalClasses_change) ⟨3⟩ (by decide)

end ClassTable

end HindleyMilner

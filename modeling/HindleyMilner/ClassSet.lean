import HindleyMilner.Class

/-
The sets of classes that a type variable must be an instance of.  A set is
kept reduced: a class stands for all its superclasses, which are therefore
left out.  Its members are listed in the order of the class table, so equal
sets are equal as values.
-/

namespace HindleyMilner

/-- A set of classes, as its members in the order of the class table. -/
structure ClassSet where
  members : List ClassId
  ordered : members.Pairwise (·.index < ·.index)
  deriving DecidableEq, Repr

namespace ClassSet

def empty : ClassSet := ⟨[], List.Pairwise.nil⟩

instance : EmptyCollection ClassSet := ⟨empty⟩

instance : Inhabited ClassSet := ⟨empty⟩

/-- Puts a class in its place among ordered classes. -/
def place (c : ClassId) : List ClassId → List ClassId
  | [] => [c]
  | head :: tail =>
      if c.index < head.index then c :: head :: tail
      else if c.index = head.index then head :: tail
      else head :: place c tail

theorem mem_place {c d : ClassId} {members : List ClassId} :
    d ∈ place c members ↔ d = c ∨ d ∈ members := by
  induction members with
  | nil => simp [place]
  | cons head tail ih =>
      simp only [place]
      split
      · simp
      · split
        · rename_i hindex
          have hhead : c = head := by
            cases c
            cases head
            simpa using hindex
          simp [hhead]
        · simp only [List.mem_cons, ih]
          grind

theorem place_ordered (c : ClassId) {members : List ClassId}
    (ordered : members.Pairwise (·.index < ·.index)) :
    (place c members).Pairwise (·.index < ·.index) := by
  induction members with
  | nil => simp [place]
  | cons head tail ih =>
      simp only [List.pairwise_cons] at ordered
      obtain ⟨hhead, htail⟩ := ordered
      simp only [place]
      split
      · rename_i hlt
        refine List.pairwise_cons.2 ⟨?_, List.pairwise_cons.2 ⟨hhead, htail⟩⟩
        intro d hd
        cases List.mem_cons.1 hd with
        | inl heq => simpa [heq] using hlt
        | inr hmem => exact Nat.lt_trans hlt (hhead d hmem)
      · split
        · exact List.pairwise_cons.2 ⟨hhead, htail⟩
        · refine List.pairwise_cons.2 ⟨?_, ih htail⟩
          intro d hd
          cases mem_place.1 hd with
          | inl heq =>
              subst heq
              omega
          | inr hmem => exact hhead d hmem

/-- Whether the set has a class among its members.  Superclasses of members
are implied by the set and are not members. -/
def contains (set : ClassSet) (c : ClassId) : Bool :=
  decide (c ∈ set.members)

/-- Whether every type in all classes of the set is in `c`: the set has `c` or
a subclass of it. -/
def implies (table : ClassTable) (set : ClassSet) (c : ClassId) : Bool :=
  set.members.any fun d => decide (d = c) || table.isAncestor c d

/-- Adds a class that the set does not imply, in place of its superclasses;
nothing if the class is implied already. -/
def insert? (table : ClassTable) (set : ClassSet) (c : ClassId) :
    Option ClassSet :=
  if set.implies table c then none
  else some
    { members :=
        place c (set.members.filter fun d => !table.isAncestor d c)
      ordered := place_ordered c (set.ordered.filter _) }

/-- The set that also implies a class. -/
def insert (table : ClassTable) (set : ClassSet) (c : ClassId) : ClassSet :=
  (set.insert? table c).getD set

def ofList (table : ClassTable) (cs : List ClassId) : ClassSet :=
  cs.foldl (insert table) ∅

def union (table : ClassTable) (a b : ClassSet) : ClassSet :=
  b.members.foldl (insert table) a

/-- The names of the classes in the set, in ascending order. -/
def names (table : ClassTable) (set : ClassSet) : List String :=
  sortTexts (set.members.map table.nameOf)

end ClassSet

namespace ClassTable

/-- The classes that the arguments of a constructor must be instances of for
the constructor to be an instance of `c`: the class and its superclasses, but
for those with an unconstrained instance for the constructor. -/
def argClasses (table : ClassTable) (c : ClassId) (con : Name) : ClassSet :=
  .ofList table ((c :: table.ancestors c).filter fun d =>
    decide (con ∉ table.unconstrained d))

/-- The first two classes of a list that no constructor is an instance of
both of. -/
def disjointPair? (table : ClassTable) :
    List ClassId → Option (ClassId × ClassId)
  | [] => none
  | a :: rest =>
      match rest.find? (table.disjoint a) with
      | some b => some (a, b)
      | none => table.disjointPair? rest

/-- Two classes that show that no constructor is an instance of all classes
of the set, if there are at least two and that is so.  Two classes that are
disjoint by themselves are preferred to the first and the last. -/
def conflict? (table : ClassTable) (set : ClassSet) :
    Option (ClassId × ClassId) :=
  match set.members with
  | [] => none
  | first :: rest =>
      if (table.candidates first).any
          (fun con => rest.all (table.hasInstance · con)) then none
      else rest.getLast?.map fun last =>
        (table.disjointPair? (first :: rest)).getD (first, last)

end ClassTable

end HindleyMilner

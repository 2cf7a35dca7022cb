import HindleyMilner.Name

/-
Type classes.  A class table lists the classes in the order in which they were
added, each with its direct superclasses and the type constructors that are
its instances.  Superclasses are added before their subclasses, so one sweep
from the class downwards collects everything above it.
-/

namespace HindleyMilner

/-- A class, as its position in a class table. -/
structure ClassId where
  index : Nat
  deriving DecidableEq, Repr

/-- What is known of a class. -/
structure ClassDecl where
  name : Name
  /-- The direct superclasses: an instance of the class is one of these too. -/
  supers : List ClassId
  /-- The constructors that are instances, each listed once. -/
  instances : List Name
  /-- The instances that ask nothing of the arguments of the constructor. -/
  unconstrained : List Name
  deriving Repr

/-- The classes, in the order in which they were added. -/
structure ClassTable where
  decls : Array ClassDecl
  deriving Repr

namespace ClassTable

def empty : ClassTable := ⟨#[]⟩

instance : Inhabited ClassTable := ⟨empty⟩

def size (table : ClassTable) : Nat :=
  table.decls.size

def classes (table : ClassTable) : List ClassId :=
  (List.range table.size).map .mk

def decl? (table : ClassTable) (c : ClassId) : Option ClassDecl :=
  table.decls[c.index]?

def nameOf (table : ClassTable) (c : ClassId) : String :=
  ((table.decl? c).map (·.name.text)).getD ""

def supers (table : ClassTable) (c : ClassId) : List ClassId :=
  ((table.decl? c).map (·.supers)).getD []

/-- The constructors declared to be instances of a class. -/
def instances (table : ClassTable) (c : ClassId) : List Name :=
  ((table.decl? c).map (·.instances)).getD []

/-- The instances of a class that ask nothing of the arguments. -/
def unconstrained (table : ClassTable) (c : ClassId) : List Name :=
  ((table.decl? c).map (·.unconstrained)).getD []

def find? (table : ClassTable) (name : String) : Option ClassId :=
  (table.decls.findIdx? (·.name.text == name)).map .mk

/-- Adds a class without instances, unless there is one of this name. -/
def add? (table : ClassTable) (name : Name) (supers : List ClassId) :
    Option ClassTable :=
  if (table.find? name.text).isSome then none
  else some ⟨table.decls.push ⟨name, supers, [], []⟩⟩

/-- Makes a constructor an instance of a class, if its arguments are. -/
def addInstance (table : ClassTable) (c : ClassId) (con : Name) :
    ClassTable :=
  ⟨table.decls.modify c.index fun decl =>
    { decl with instances := decl.instances.insert con }⟩

/-- Makes a constructor an instance of a class, whatever its arguments are. -/
def addUnconstrainedInstance (table : ClassTable) (c : ClassId)
    (con : Name) : ClassTable :=
  ⟨table.decls.modify c.index fun decl =>
    { decl with
      instances := decl.instances.insert con
      unconstrained := decl.unconstrained.insert con }⟩

/-- Collects the pending classes below a bound and everything above them,
from the last class added to the first.  A class is looked at after all its
subclasses, so by then it is pending if any of them was collected. -/
def sweep (table : ClassTable) :
    Nat → List ClassId → List ClassId → List ClassId
  | 0, _, found => found
  | bound + 1, pending, found =>
      if ⟨bound⟩ ∈ pending then
        table.sweep bound (table.supers ⟨bound⟩ ++ pending)
          (⟨bound⟩ :: found)
      else table.sweep bound pending found

/-- The superclasses of a class, direct or not, in the order in which they
were added. -/
def ancestors (table : ClassTable) (c : ClassId) : List ClassId :=
  table.sweep c.index (table.supers c) []

def isAncestor (table : ClassTable) (above c : ClassId) : Bool :=
  decide (above ∈ table.ancestors c)

/-- Whether a constructor is an instance of a class and of all its
superclasses. -/
def hasInstance (table : ClassTable) (c : ClassId) (con : Name) : Bool :=
  (c :: table.ancestors c).all fun d => decide (con ∈ table.instances d)

/-- The constructors that are instances of a class and of all its
superclasses. -/
def candidates (table : ClassTable) (c : ClassId) : List Name :=
  (table.instances c).filter (table.hasInstance c)

theorem mem_candidates {table : ClassTable} {c : ClassId} {con : Name} :
    con ∈ table.candidates c ↔ table.hasInstance c con = true := by
  simp only [candidates, List.mem_filter, and_iff_right_iff_imp]
  intro h
  simp only [hasInstance, List.all_cons, Bool.and_eq_true,
    decide_eq_true_eq] at h
  exact h.1

/-- Whether no constructor is an instance of both classes. -/
def disjoint (table : ClassTable) (a b : ClassId) : Bool :=
  (table.candidates a).all fun con => !table.hasInstance b con

end ClassTable

end HindleyMilner

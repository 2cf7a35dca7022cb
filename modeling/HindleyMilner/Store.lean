import HindleyMilner.ClassSet
import HindleyMilner.Ty

/-
The store of type variables.  Every variable is either solved to a type or
still unsolved, with the classes it must be an instance of.  A solution may
mention variables that are solved in turn; the functions here look through
such solutions, each in its own way.

Solutions never run in a circle, so a walk from variable to variable through
a store of `n` variables takes at most `n` hops.  That number bounds every
walk below.
-/

namespace HindleyMilner

/-- A type variable, as its position in a store. -/
structure TyVar where
  index : Nat
  deriving DecidableEq, Repr

/-- What a store knows of a variable. -/
inductive Binding where
  /-- The variable stands for this type. -/
  | solved (ty : Ty TyVar)
  /-- The variable is free to be any instance of the classes. -/
  | unsolved (classes : ClassSet)
  deriving Repr

/-- A variable in a store: the text it was named after, and its binding. -/
structure Cell where
  base : String
  binding : Binding
  deriving Repr

/-- The type variables, in the order in which they were created. -/
structure Store where
  cells : Array Cell
  deriving Repr

namespace Store

def empty : Store := ⟨#[]⟩

instance : Inhabited Store := ⟨empty⟩

def size (s : Store) : Nat :=
  s.cells.size

/-- The next variable, unsolved, and the store that has it. -/
def fresh (s : Store) (base : String) (classes : ClassSet) : TyVar × Store :=
  (⟨s.size⟩, ⟨s.cells.push ⟨base, .unsolved classes⟩⟩)

def solution? (s : Store) (v : TyVar) : Option (Ty TyVar) :=
  match s.cells[v.index]? with
  | some ⟨_, .solved ty⟩ => some ty
  | _ => none

def unsolvedClasses? (s : Store) (v : TyVar) : Option ClassSet :=
  match s.cells[v.index]? with
  | some ⟨_, .unsolved classes⟩ => some classes
  | _ => none

def isUnsolved (s : Store) (v : TyVar) : Bool :=
  (s.unsolvedClasses? v).isSome

def baseOf (s : Store) (v : TyVar) : String :=
  (s.cells[v.index]?.map (·.base)).getD ""

def setBinding (s : Store) (v : TyVar) (binding : Binding) : Store :=
  ⟨s.cells.modify v.index fun cell => { cell with binding }⟩

/-! ### Chains of variables solved to variables -/

/-- The end of a chain of variables, after at most so many hops. -/
def rootWithin (s : Store) : Nat → TyVar → TyVar
  | 0, v => v
  | hops + 1, v =>
      match s.solution? v with
      | some (.var next) => s.rootWithin hops next
      | _ => v

def root (s : Store) (v : TyVar) : TyVar :=
  s.rootWithin s.size v

/-- The variables that a chain passes before its end. -/
def passedWithin (s : Store) : Nat → TyVar → List TyVar
  | 0, _ => []
  | hops + 1, v =>
      match s.solution? v with
      | some (.var next) => v :: s.passedWithin hops next
      | _ => []

def passed (s : Store) (v : TyVar) : List TyVar :=
  s.passedWithin s.size v

/-- Points every variable on the way from `v` straight at its root. -/
def compress (s : Store) (v : TyVar) : Store :=
  let root := s.root v
  (s.passed v).foldl
    (fun store passed => store.setBinding passed (.solved (.var root))) s

/-- What the root of a chain stands for. -/
def rootTy (s : Store) (root : TyVar) : Ty TyVar :=
  (s.solution? root).getD (.var root)

/-- The type with a solved variable at its top replaced by its solution.
Variables further inside stay. -/
def resolve (s : Store) : Ty TyVar → Ty TyVar
  | .var v => s.rootTy (s.root v)
  | ty => ty

/-- Resolves a type and shortens the chain that was followed. -/
def prune (s : Store) (ty : Ty TyVar) : Ty TyVar × Store :=
  match ty with
  | .var v =>
      let compressed := s.compress v
      (compressed.rootTy (s.root v), compressed)
  | _ => (ty, s)

/-! ### Looking through solutions everywhere -/

/-- Replaces solved variables by their solutions, so many times. -/
def zonkWithin (s : Store) : Nat → Ty TyVar → Ty TyVar
  | 0, ty => ty
  | hops + 1, ty =>
      ty.bind fun v =>
        match s.solution? v with
        | some solution => s.zonkWithin hops solution
        | none => .var v

/-- The type with every solved variable replaced by what it is solved to. -/
def zonk (s : Store) (ty : Ty TyVar) : Ty TyVar :=
  s.zonkWithin s.size ty

/-- Unwinds applications, through solved heads, onto the arguments. -/
def spineWithin (s : Store) : Nat → Ty TyVar → List (Ty TyVar) →
    Ty TyVar × List (Ty TyVar)
  | 0, ty, args => ty.spineOnto args
  | hops + 1, ty, args =>
      match ty.spineOnto args with
      | (.var v, args) =>
          match s.solution? v with
          | some solution => s.spineWithin hops solution args
          | none => (.var v, args)
      | result => result

/-- The head and the arguments of a type, looking through solved heads but not
into the arguments. -/
def spine (s : Store) (ty : Ty TyVar) : Ty TyVar × List (Ty TyVar) :=
  s.spineWithin s.size ty []

/-- Whether `v` is met within so many hops. -/
def occursWithin (s : Store) (v : TyVar) : Nat → Ty TyVar → Bool
  | 0, ty => ty.anyVar fun w => decide (v = w)
  | hops + 1, ty =>
      ty.anyVar fun w =>
        match s.solution? w with
        | some solution => s.occursWithin v hops solution
        | none => decide (v = w)

def occurs (s : Store) (v : TyVar) (ty : Ty TyVar) : Bool :=
  s.occursWithin v s.size ty

/-- Lists a variable after those seen before, unless it is among them. -/
def note (seen : List TyVar) (v : TyVar) : List TyVar :=
  if v ∈ seen then seen else seen ++ [v]

/-- Adds the unsolved variables met within so many hops to those seen. -/
def addFreeVarsWithin (s : Store) :
    Nat → List TyVar → Ty TyVar → List TyVar
  | 0, seen, ty => ty.foldVars note seen
  | hops + 1, seen, ty =>
      ty.foldVars (fun seen v =>
        match s.solution? v with
        | some solution => s.addFreeVarsWithin hops seen solution
        | none => note seen v) seen

/-- Adds the unsolved variables of a type to those seen before, in order of
first appearance. -/
def addFreeVars (s : Store) (seen : List TyVar) (ty : Ty TyVar) :
    List TyVar :=
  s.addFreeVarsWithin s.size seen ty

def freeVars (s : Store) (ty : Ty TyVar) : List TyVar :=
  s.addFreeVars [] ty

/-- The classes that the root of a variable must be an instance of; nothing if
the variable stands for a type that is no variable. -/
def classes? (s : Store) (v : TyVar) : Option ClassSet :=
  s.unsolvedClasses? (s.root v)

/-! ### Bounds -/

/-- The height of the highest solution. -/
def height (s : Store) : Nat :=
  s.cells.foldl (fun highest cell =>
    match cell.binding with
    | .solved ty => max highest ty.height
    | .unsolved _ => highest) 0

/-- A bound on the number of levels that a walk into a type meets, with all
solved variables looked through: between two hops it stays inside one solution
or inside the type itself. -/
def depthBound (s : Store) (ty : Ty TyVar) : Nat :=
  (s.size + 1) * (max s.height ty.height + 1)

/-! ### Names for people -/

/-- The letters that variables without a text of their own are called by. -/
def greekLetters : List Char :=
  ['α', 'β', 'γ', 'δ', 'ε', 'ζ', 'η', 'θ', 'ι', 'κ', 'λ', 'μ',
   'ν', 'ξ', 'ο', 'π', 'ρ', 'σ', 'τ', 'υ', 'φ', 'χ', 'ψ', 'ω']

/-- The name of a variable in a store: its text and its number, or a letter
for the number if it has no text. -/
def varName (s : Store) (v : TyVar) : String :=
  if s.baseOf v = "" then
    let letter := (greekLetters[v.index % greekLetters.length]?).getD 'α'
    let round := v.index / greekLetters.length
    letter.toString ++ if round = 0 then "" else toString round
  else s.baseOf v ++ toString v.index

end Store

end HindleyMilner

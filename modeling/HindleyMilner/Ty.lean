import HindleyMilner.Name

/-
Types over a choice of variables.  The same shape serves types whose variables
live in a store, types whose variables are still names, and types without any
variables; passing from one to another is `map` or `bind`.
-/

namespace HindleyMilner

/-- A type: a variable, a constructor, or a type applied to one argument.
Constructors with several arguments are applied from left to right. -/
inductive Ty (V : Type) where
  | var (v : V)
  | con (name : Name)
  | app (func arg : Ty V)
  deriving DecidableEq, Repr

namespace Name

def arrow : Name := ⟨"->", by decide⟩

def list : Name := ⟨"[]", by decide⟩

def unit : Name := ⟨"()", by decide⟩

def char : Name := ⟨"Char", by decide⟩

/-- The synonym for a list of characters; it names no constructor. -/
def string : Name := ⟨"String", by decide⟩

/-- The constructor of tuples with this many components, `(,,)` for three. -/
def tuple (arity : Nat) : Name :=
  ofChars '(' (List.replicate (arity - 1) ',' ++ [')'])

/-- The number of components, for the name of a tuple constructor. -/
def tupleArity? (name : Name) : Option Nat :=
  match name.text.toList with
  | '(' :: rest =>
      let commas := rest.takeWhile (· == ',')
      if commas ≠ [] ∧ rest.dropWhile (· == ',') = [')'] then
        some (commas.length + 1)
      else none
  | _ => none

end Name

namespace Ty

variable {V W : Type}

/-- Replaces every variable by a type. -/
def bind (t : Ty V) (f : V → Ty W) : Ty W :=
  match t with
  | .var v => f v
  | .con name => .con name
  | .app func arg => .app (func.bind f) (arg.bind f)

/-- Renames every variable. -/
def map (f : V → W) : Ty V → Ty W
  | .var v => .var (f v)
  | .con name => .con name
  | .app func arg => .app (func.map f) (arg.map f)

def vars : Ty V → List V
  | .var v => [v]
  | .con _ => []
  | .app func arg => func.vars ++ arg.vars

def anyVar (p : V → Bool) : Ty V → Bool
  | .var v => p v
  | .con _ => false
  | .app func arg => func.anyVar p || arg.anyVar p

/-- Visits the variables from left to right. -/
def foldVars {A : Type} (step : A → V → A) : A → Ty V → A
  | acc, .var v => step acc v
  | acc, .con _ => acc
  | acc, .app func arg => arg.foldVars step (func.foldVars step acc)

/-- Replaces the variables, from left to right, by the results of actions. -/
def mapVarsM {m : Type → Type} [Monad m] (f : V → m W) : Ty V → m (Ty W)
  | .var v => return .var (← f v)
  | .con name => return .con name
  | .app func arg => return .app (← func.mapVarsM f) (← arg.mapVarsM f)

/-- The number of applications on the longest path into the type. -/
def height : Ty V → Nat
  | .var _ => 0
  | .con _ => 0
  | .app func arg => max func.height arg.height + 1

/-- The head of nested applications, with its arguments put before `args`. -/
def spineOnto : Ty V → List (Ty V) → Ty V × List (Ty V)
  | .app func arg, args => func.spineOnto (arg :: args)
  | head, args => (head, args)

/-- The head and the arguments: `Either` and `[a, b]` for `Either a b`. -/
def spine (t : Ty V) : Ty V × List (Ty V) :=
  t.spineOnto []

/-- The type applied to each of the arguments in turn. -/
def applyTo (head : Ty V) (args : List (Ty V)) : Ty V :=
  args.foldl .app head

def arrow (param result : Ty V) : Ty V :=
  .app (.app (.con .arrow) param) result

/-- The curried function type `p₁ -> p₂ -> … -> result`. -/
def arrows (params : List (Ty V)) (result : Ty V) : Ty V :=
  params.foldr arrow result

def list (elem : Ty V) : Ty V :=
  .app (.con .list) elem

/-- What a parenthesised list of types stands for: unit if it is empty, the
type itself if there is one, and their tuple otherwise. -/
def parens : List (Ty V) → Ty V
  | [] => .con .unit
  | [t] => t
  | elems => applyTo (.con (.tuple elems.length)) elems

/-- The tuple of the elements, the empty one being unit; there are no tuples
of one element. -/
def tuple? : List (Ty V) → Option (Ty V)
  | [_] => none
  | elems => some (parens elems)

theorem bind_var (t : Ty V) : t.bind .var = t := by
  induction t with
  | var v => rfl
  | con name => rfl
  | app func arg ihFunc ihArg => simp [bind, ihFunc, ihArg]

theorem bind_bind {X : Type} (t : Ty V) (f : V → Ty W) (g : W → Ty X) :
    (t.bind f).bind g = t.bind (fun v => (f v).bind g) := by
  induction t with
  | var v => rfl
  | con name => rfl
  | app func arg ihFunc ihArg => simp [bind, ihFunc, ihArg]

theorem map_eq_bind (f : V → W) (t : Ty V) :
    t.map f = t.bind (fun v => .var (f v)) := by
  induction t with
  | var v => rfl
  | con name => rfl
  | app func arg ihFunc ihArg => simp [map, bind, ihFunc, ihArg]

theorem spineOnto_eq (t : Ty V) (args : List (Ty V)) :
    t.spineOnto args = (t.spine.1, t.spine.2 ++ args) := by
  induction t generalizing args with
  | var v => rfl
  | con name => rfl
  | app func arg ihFunc _ =>
      simp only [spine, spineOnto]
      rw [ihFunc, ihFunc [arg]]
      simp

theorem spine_app (func arg : Ty V) :
    (app func arg).spine = (func.spine.1, func.spine.2 ++ [arg]) :=
  func.spineOnto_eq [arg]

theorem applyTo_spine (t : Ty V) : applyTo t.spine.1 t.spine.2 = t := by
  induction t with
  | var v => rfl
  | con name => rfl
  | app func arg ihFunc _ =>
      rw [spine_app]
      simp only [applyTo, List.foldl_append] at ihFunc ⊢
      rw [ihFunc]
      rfl

end Ty

example : (Name.tuple 3).text = "(,,)" := by decide

example : (Name.tuple 4).tupleArity? = some 4 := by decide

example : Name.unit.tupleArity? = none := by decide

end HindleyMilner

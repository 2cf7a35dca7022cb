import HindleyMilner.Catalog
import HindleyMilner.TypeState

/-
The environment: functions by name, with polymorphic signatures.  Every use of
a function gets a copy of its signature, so what is found out at one use never
touches another.
-/

namespace HindleyMilner

structure FunctionInfo where
  name : Name
  signature : Ty TyVar
  category : String
  documentation : String
  deriving DecidableEq, Repr

structure FunctionUse where
  name : Name
  signature : Ty TyVar
  deriving DecidableEq, Repr

/-- A copy of the signature, for this use. -/
def FunctionUse.instantiate (use : FunctionUse) (s : Store) :
    Ty TyVar × Store :=
  s.inNewScope (Scope.instantiate use.signature)

inductive EnvError where
  /-- No function has the name. -/
  | unbound (name : Name)
  | duplicateFunction (name : Name)
  | duplicateClass (name : Name)
  | unknownClass (name : Name)
  /-- A name is empty. -/
  | emptyName
  /-- A text is no catalog. -/
  | catalog
  /-- The version of a catalog is not supported. -/
  | version (found : Nat)
  /-- The signature of the function is none. -/
  | signature (name : Name) (e : SignatureError)
  deriving DecidableEq, Repr

def EnvError.message : EnvError → String
  | .unbound name => s!"not in scope: `{name.text}`"
  | .duplicateFunction name => s!"duplicate function: `{name.text}`"
  | .duplicateClass name => s!"duplicate class: `{name.text}`"
  | .unknownClass name => s!"unknown class: `{name.text}`"
  | .emptyName => "empty name"
  | .catalog => "couldn't parse catalog"
  | .version found =>
      "invalid catalog version: expected " ++
        toString Catalog.supportedVersion ++ ", found " ++ toString found
  | .signature name e =>
      "invalid signature for `" ++ name.text ++ "`: " ++ e.message

/-- The functions, in the order in which they were added. -/
structure Env where
  functions : List FunctionInfo
  deriving Repr

namespace Env

def empty : Env := ⟨[]⟩

instance : Inhabited Env := ⟨empty⟩

def size (env : Env) : Nat :=
  env.functions.length

def lookup? (env : Env) (name : String) : Option FunctionInfo :=
  env.functions.find? (·.name.text == name)

def insert (env : Env) (info : FunctionInfo) : Except EnvError Env :=
  match env.lookup? info.name.text with
  | some _ => .error (.duplicateFunction info.name)
  | none => .ok ⟨env.functions ++ [info]⟩

def use (env : Env) (name : String) : Except EnvError FunctionUse :=
  match Name.ofString? name with
  | none => .error .emptyName
  | some valid =>
      match env.lookup? name with
      | some info => .ok ⟨info.name, info.signature⟩
      | none => .error (.unbound valid)

def sorted (env : Env) : List FunctionInfo :=
  (sortTexts (env.functions.map (·.name.text))).filterMap env.lookup?

/-- Actions that extend an environment and its classes: what was added before
a failure stays. -/
abbrev LoadM := EStateM EnvError (Env × TypeState)

/-- The name with this text, which must not be empty. -/
def nameOf (text : String) : LoadM Name :=
  match Name.ofString? text with
  | some name => return name
  | none => throw .emptyName

/-- The class that a declaration names as a superclass. -/
def superOf (text : String) : LoadM ClassId := do
  match (← get).2.classes.find? text with
  | some c => return c
  | none => throw (.unknownClass (← nameOf text))

def modifyClasses (f : ClassTable → ClassTable) : LoadM Unit :=
  modify fun (env, st) => (env, { st with classes := f st.classes })

/-- Adds a class and then its instances. -/
def loadClass (decl : Catalog.Class) : LoadM Unit := do
  let name ← nameOf decl.name
  let supers ← decl.supers.mapM superOf
  let (env, st) ← get
  match st.classes.add? name supers with
  | none => throw (.duplicateClass name)
  | some classes =>
      let c : ClassId := ⟨st.classes.size⟩
      set (env, { st with classes })
      decl.instances.forM fun con => do
        let con ← nameOf con
        modifyClasses (·.addInstance c con)
      decl.unconstrained.forM fun con => do
        let con ← nameOf con
        modifyClasses (·.addUnconstrainedInstance c con)

/-- Adds a function, its signature being read in a scope of its own. -/
def loadFunction (decl : Catalog.Function) : LoadM Unit := do
  let name ← nameOf decl.name
  let (env, st) ← get
  let (result, _, st) := st.parse .empty decl.signature
  set (env, st)
  match result with
  | .error e => throw (.signature name e)
  | .ok signature =>
      match env.insert ⟨name, signature, decl.category, decl.documentation⟩ with
      | .error e => throw e
      | .ok env => set (env, st)

/-- Adds the classes and then the functions of a catalog. -/
def load (catalog : Catalog) : LoadM Unit := do
  if catalog.version ≠ Catalog.supportedVersion then
    throw (.version catalog.version)
  catalog.classes.forM loadClass
  catalog.functions.forM loadFunction

end Env

end HindleyMilner

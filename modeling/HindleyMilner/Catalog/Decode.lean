import HindleyMilner.Catalog.Prelude
import HindleyMilner.Toml.Document

/-
Catalogs as TOML documents:

    version = 1

    [[class]]
    name = "Ord"
    supers = ["Eq"]
    instances = ["Int", "Char", "[]"]

    [[function]]
    name = "compare"
    signature = "Ord a => a -> a -> Ordering"

A class or a function is a table, or an array of its fields in order.  Keys
that mean nothing here are ignored, and all but the version, the names and the
signatures may be left out.
-/

namespace HindleyMilner

namespace Toml.Value

def text? : Value → Option String
  | .string text => some text
  | _ => none

/-- The elements of an array, or the tables of a repeated header. -/
def elems? : Value → Option (List Value)
  | .array elems => some elems
  | .tables elems => some (elems.map (.table .header))
  | _ => none

def texts? (value : Value) : Option (List String) := do
  (← value.elems?).mapM text?

/-- The values of the given fields: of a table by key, of an array by
position. -/
def fields? (names : List String) : Value → Option (List (Option Value))
  | .table _ entries => some (names.map fun name => entries.lookup name)
  | .array elems =>
      some ((List.range names.length).map fun position => elems[position]?)
  | _ => none

end Toml.Value

namespace Catalog

open Toml (Value)

/-- A field that has to be there. -/
def required {A : Type} (decode : Value → Option A) (field : Option Value) :
    Option A :=
  field.bind decode

/-- A field that may be left out. -/
def defaulted {A : Type} (decode : Value → Option A) (default : A)
    (field : Option Value) : Option A :=
  match field with
  | none => some default
  | some value => decode value

def Class.ofValue? (value : Value) : Option Class := do
  match ← value.fields? ["name", "supers", "instances", "unconstrained"] with
  | [name, supers, instances, unconstrained] =>
      return {
        name := ← required Value.text? name
        supers := ← defaulted Value.texts? [] supers
        instances := ← defaulted Value.texts? [] instances
        unconstrained := ← defaulted Value.texts? [] unconstrained }
  | _ => none

def Function.ofValue? (value : Value) : Option Function := do
  match ← value.fields?
      ["name", "signature", "category", "documentation"] with
  | [name, signature, category, documentation] =>
      return {
        name := ← required Value.text? name
        signature := ← required Value.text? signature
        category := ← defaulted Value.text? "" category
        documentation := ← defaulted Value.text? "" documentation }
  | _ => none

/-- The version of a catalog, a number of sixteen bits without a sign. -/
def versionOf? : Value → Option Nat
  | .integer n => if 0 ≤ n ∧ n < 0x10000 then some n.toNat else none
  | _ => none

def listOf? {A : Type} (decode : Value → Option A) (value : Value) :
    Option (List A) := do
  (← value.elems?).mapM decode

/-- The catalog that a text is the document of. -/
def ofToml? (text : String) : Option Catalog := do
  let entries ← Toml.parse? text
  return {
    version := ← required versionOf? (entries.lookup "version")
    classes := ← defaulted (listOf? Class.ofValue?) []
      (entries.lookup "class")
    functions := ← defaulted (listOf? Function.ofValue?) []
      (entries.lookup "function") }

end Catalog

namespace Env

def loadText (text : String) : LoadM Unit :=
  match Catalog.ofToml? text with
  | none => throw .catalog
  | some catalog => load catalog

end Env

end HindleyMilner

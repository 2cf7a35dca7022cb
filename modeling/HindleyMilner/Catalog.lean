/-
Catalogs: declarations of classes and of functions with their signatures, as
they are read from a file.  Names are still texts here and nothing is checked.
-/

namespace HindleyMilner

structure Catalog.Class where
  name : String
  supers : List String
  /-- Constructors that are instances if their arguments are. -/
  instances : List String
  /-- Constructors that are instances whatever their arguments are. -/
  unconstrained : List String
  deriving DecidableEq, Repr

structure Catalog.Function where
  name : String
  signature : String
  /-- What the function is grouped under in menus. -/
  category : String
  documentation : String
  deriving DecidableEq, Repr

/-- Classes, each after its superclasses, and functions. -/
structure Catalog where
  version : Nat
  classes : List Catalog.Class
  functions : List Catalog.Function
  deriving DecidableEq, Repr

/-- The only version of catalogs there is. -/
def Catalog.supportedVersion : Nat := 1

end HindleyMilner

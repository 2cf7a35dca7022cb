/-
TOML values, and how the tables of a document grow while it is read.

A table remembers how it came about, since that decides who may add to it: a
table written in braces is closed, one that was only mentioned on the way to
another may still get a header of its own, and one made by a dotted key grows
by further dotted keys only.
-/

namespace HindleyMilner.Toml

/-- How a table came about. -/
inductive Origin where
  /-- It has a header of its own, or it is the whole document. -/
  | header
  /-- It was mentioned in the header of a table inside it. -/
  | mentioned
  /-- It was made by a dotted key. -/
  | dotted
  /-- It was written in braces. -/
  | braces
  deriving DecidableEq, Repr

/-- A value.  Numbers with a fraction or an exponent, and dates and times, are
only known to be well formed. -/
inductive Value where
  | string (text : String)
  | integer (n : Int)
  | float
  | boolean (b : Bool)
  | datetime
  | array (elems : List Value)
  | table (origin : Origin) (entries : List (String × Value))
  /-- The tables with one repeated header, in order. -/
  | tables (elems : List (List (String × Value)))
  deriving Repr

/-- The keys of a table with their values, in order. -/
abbrev Entries := List (String × Value)

/-- A path of keys into a table. -/
abbrev KeyPath := List String

namespace Entries

/-- Replaces the value of a key, or adds the key. -/
def put (entries : Entries) (key : String) (value : Value) : Entries :=
  if (entries.lookup key).isSome then
    entries.map fun entry =>
      if entry.1 = key then (key, value) else entry
  else entries ++ [(key, value)]

/-- Adds a key that is not there yet. -/
def addNew (entries : Entries) (key : String) (value : Value) :
    Option Entries :=
  match entries.lookup key with
  | some _ => none
  | none => some (entries ++ [(key, value)])

/-- Changes the table at the end of a path, whose missing tables are made on
the way.  A path of a header enters any table that is not closed and the last
of several with one header; a dotted key does not enter tables that have a
header. -/
def updateAt (made : Origin) (f : Origin → Entries → Option Entries) :
    KeyPath → Origin → Entries → Option Entries
  | [], origin, entries => f origin entries
  | key :: path, _, entries =>
      match entries.lookup key with
      | none => do
          let inner ← updateAt made f path made []
          return put entries key (.table made inner)
      | some (.table .braces _) => none
      | some (.table .header inner) =>
          if made = .dotted then none
          else do
            let inner ← updateAt made f path .header inner
            return put entries key (.table .header inner)
      | some (.table origin inner) => do
          let inner ← updateAt made f path origin inner
          return put entries key (.table origin inner)
      | some (.tables elems) =>
          match elems.reverse with
          | [] => none
          | last :: before => do
              let last ← updateAt made f path .header last
              return put entries key (.tables (last :: before).reverse)
      | some _ => none

/-- Adds a value under a dotted key.  Only a table that dotted keys made may
get it, or, for a key of one part, the table itself. -/
def addDotted (entries : Entries) (path : KeyPath) (key : String)
    (value : Value) : Option Entries :=
  updateAt .dotted
    (fun origin entries =>
      if path ≠ [] ∧ origin ≠ .dotted then none
      else addNew entries key value)
    path .header entries

/-- Opens the table of a header, which has no header yet. -/
def openTable (entries : Entries) (path : KeyPath) (key : String) :
    Option Entries :=
  updateAt .mentioned
    (fun _ entries =>
      match entries.lookup key with
      | none => some (put entries key (.table .header []))
      | some (.table .mentioned inner) =>
          some (put entries key (.table .header inner))
      | some _ => none)
    path .header entries

/-- Opens one more table of a header that repeats. -/
def openElement (entries : Entries) (path : KeyPath) (key : String) :
    Option Entries :=
  updateAt .mentioned
    (fun _ entries =>
      match entries.lookup key with
      | none => some (put entries key (.tables [[]]))
      | some (.tables elems) =>
          some (put entries key (.tables (elems ++ [[]])))
      | some _ => none)
    path .header entries

/-- Adds a value under a dotted key in the table of a header. -/
def addUnder (entries : Entries) (header : KeyPath) (path : KeyPath)
    (key : String) (value : Value) : Option Entries :=
  updateAt .mentioned (fun _ inner => addDotted inner path key value)
    header .header entries

end Entries

end HindleyMilner.Toml

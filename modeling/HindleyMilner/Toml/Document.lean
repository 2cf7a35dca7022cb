import HindleyMilner.Toml.Scalar

/-
TOML documents: keys, values and lines, and the table that the lines make.
-/

namespace HindleyMilner.Toml

open Reader

/-- How deep arrays and tables in braces may be nested, and how many parts a
key may have. -/
def nestingLimit : Nat := 79

/-! ### Keys -/

def isKeyChar (c : Char) : Bool :=
  c.isAlphanum || c = '_' || c = '-'

def keyPart : Reader String := do
  blanks
  let part ← shortString <|> do
    let first ← satisfy isKeyChar
    return String.ofList (first :: (← takeWhile isKeyChar))
  blanks
  return part

/-- A key: its last part and the parts before it. -/
def key : Reader (KeyPath × String) := do
  let first ← keyPart
  let rest ← many do
    if ← skip '.' then return some (← keyPart) else return none
  let parts := first :: rest
  if parts.length > nestingLimit then failure
  return (parts.dropLast, parts.getLast (List.cons_ne_nil first rest))

/-! ### Values -/

/-- The elements of an array, after its opening bracket. -/
def arrayRest (value : Reader Value) : Reader Value := do
  layout
  if ← skip ']' then return .array []
  let first ← value
  layout
  let rest ← many do
    if ← skip ',' then
      layout
      if (← peek) = some ']' then return none
      let elem ← value
      layout
      return some elem
    else return none
  char ']'
  return .array (first :: rest)

def keyValue (value : Reader Value) :
    Reader ((KeyPath × String) × Value) := do
  let path ← key
  char '='
  blanks
  return (path, ← value)

/-- The entries of a table in braces, after the opening one. -/
def bracesRest (value : Reader Value) : Reader Value := do
  blanks
  if ← skip '\x7d' then return .table .braces []
  let first ← keyValue value
  blanks
  let rest ← many do
    if ← skip ',' then
      let entry ← keyValue value
      blanks
      return some entry
    else return none
  char '\x7d'
  let entries ← (first :: rest).foldlM
    (fun (entries : Entries) ((path, key), value) =>
      liftM (entries.addDotted path key value)) []
  return .table .braces entries

/-- A value in which arrays and tables in braces are nested at most so deep. -/
def valueWithin : Nat → Reader Value
  | 0 => scalar
  | depth + 1 => do
      match ← peek with
      | some '[' =>
          char '['
          arrayRest (valueWithin depth)
      | some '\x7b' =>
          char '\x7b'
          bracesRest (valueWithin depth)
      | _ => scalar

def value : Reader Value :=
  valueWithin nestingLimit

/-! ### Lines -/

/-- What a line of a document does. -/
inductive Line where
  | blank
  /-- `[path.key]` -/
  | header (path : KeyPath) (key : String)
  /-- `[[path.key]]` -/
  | element (path : KeyPath) (key : String)
  /-- `path.key = value` -/
  | entry (path : KeyPath) (key : String) (value : Value)

/-- A header, after its opening bracket. -/
def headerRest : Reader Line := do
  if ← skip '[' then
    let (path, key) ← key
    literal "]]"
    return .element path key
  else
    let (path, key) ← key
    char ']'
    return .header path key

/-- The next line; nothing at the end of the document. -/
def line : Reader (Option Line) := do
  blanks
  match ← peek with
  | none => return none
  | some '[' =>
      char '['
      let header ← headerRest
      lineRest
      return some header
  | some c =>
      if c = '#' ∨ c = '\n' ∨ c = '\r' then
        lineRest
        return some .blank
      else
        let ((path, key), value) ← keyValue value
        lineRest
        return some (.entry path key value)

/-- The root table while a document is read, and the header that the next
entries belong under. -/
structure Draft where
  root : Entries
  under : KeyPath

/-- Does what a line does. -/
def Draft.add (draft : Draft) : Line → Option Draft
  | .blank => some draft
  | .header path key => do
      return ⟨← draft.root.openTable path key, path ++ [key]⟩
  | .element path key => do
      return ⟨← draft.root.openElement path key, path ++ [key]⟩
  | .entry path key value => do
      return { draft with
        root := ← draft.root.addUnder draft.under path key value }

/-- The table that a text is the document of; a mark of the byte order at its
start is passed over. -/
def parse? (text : String) : Option Entries := do
  let chars := match text.toList with
    | '\ufeff' :: rest => rest
    | chars => chars
  let (lines, _) ← (many line).run chars
  let draft ← lines.foldlM Draft.add ⟨[], []⟩
  return draft.root

example : (parse? "a.b = 1\n[a]\n").isNone := by decide +kernel

example : (parse? "[a.b]\nc = 1\n[a]\n").isSome := by decide +kernel

end HindleyMilner.Toml

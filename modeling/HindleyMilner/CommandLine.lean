import HindleyMilner.Catalog.Decode
import HindleyMilner.Infer
import HindleyMilner.Text.Utf8

/-
The command line: the type of a function applied to arguments.
-/

namespace HindleyMilner.CommandLine

/-- An argument of the program, with replacement characters if it is not
valid UTF-8. -/
structure Argument where
  text : String
  valid : Bool
  deriving DecidableEq, Repr

namespace Argument

def ofText (text : String) : Argument := ⟨text, true⟩

def ofBytes (bytes : List UInt8) : Argument :=
  let decoded := Utf8.decode bytes
  ⟨String.ofList decoded.chars, decoded.valid⟩

end Argument

/-- What the program prints, and whether it succeeds. -/
structure Outcome where
  success : Bool
  stdout : String
  deriving DecidableEq, Repr

namespace Outcome

def error (message : String) : Outcome :=
  ⟨false, "error: " ++ message ++ "\n"⟩

end Outcome

def usage : String :=
  String.join <| List.map (· ++ "\n")
    ["usage:",
     "  viskell-cli [options] <function> [<arg>...]",
     "",
     "options:",
     "  -h, --help",
     "    show this help",
     "  --catalog <path>",
     "    load classes and functions from this catalog file instead of the prelude",
     "  --context",
     "    show constraints as a context, like `Num a => a -> a`, instead of inline",
     "  --list",
     "    list every function in the catalog with its signature",
     "",
     "arguments:",
     "  <function>",
     "    the name of a function in the catalog",
     "  <arg>",
     "    an argument to apply the function to. one of:",
     "    - `<type>=<text>`, a literal with the type, like `Int=42` or `[Bool]=[True]`",
     "    - `_`, a hole",
     "    - the name of another function in the catalog"]

/-- An argument to apply the function to. -/
inductive Operand where
  | hole
  /-- A literal with its type. -/
  | value (ty text : String)
  | function (name : String)
  deriving DecidableEq, Repr

namespace Operand

/-- Cuts at the first `=` that is not part of `=>`. -/
def splitAtEquals : List Char → Option (List Char × List Char)
  | [] => none
  | '=' :: '>' :: rest =>
      (splitAtEquals rest).map fun (before, after) =>
        ('=' :: '>' :: before, after)
  | '=' :: rest => some ([], rest)
  | c :: rest =>
      (splitAtEquals rest).map fun (before, after) => (c :: before, after)

def ofText (text : String) : Operand :=
  if text = "_" then .hole
  else
    match splitAtEquals text.toList with
    | some (ty, rest) => .value (String.ofList ty) (String.ofList rest)
    | none => .function text

end Operand

/-- Actions that build the call of a function and read the types in it; they
fail with a message. -/
abbrev CallM := EStateM String (Supply × TypeState)

def make {A : Type} (action : BuildM A) : CallM A :=
  modifyGet fun (supply, st) =>
    let (a, supply) := action supply
    (a, supply, st)

def buildFunction (env : Env) (name : String) : CallM Exp :=
  match env.use name with
  | .ok use => make (Build.function use)
  | .error e => throw e.message

/-- The expression of an argument. -/
def buildOperand (env : Env) : Operand → CallM Exp
  | .hole => make Build.hole
  | .function name => buildFunction env name
  | .value ty text => do
      let (supply, st) ← get
      let (result, _, st) := st.parse .empty ty
      set (supply, st)
      match result with
      | .ok valueTy => make (Build.value valueTy text)
      | .error e => throw ("invalid type `" ++ ty ++ "`: " ++ e.message)

def build (env : Env) (function : String) (args : List String) :
    CallM Exp := do
  let func ← buildFunction env function
  args.foldlM (fun func arg => do
    let operand ← buildOperand env (.ofText arg)
    make (Build.apply func operand)) func

def apply (style : DisplayStyle) (st : TypeState) (env : Env)
    (function : String) (args : List String) : Outcome :=
  match build env function args (⟨0, 0⟩, st) with
  | .error message _ => .error message
  | .ok e (_, st) =>
      let source := e.toHaskell st ++ "\n"
      match e.infer st.classes (.empty, st.store) with
      | .ok ty (_, store) =>
          let text := (st.withStore store).display style ty
          ⟨true, source ++ "  :: " ++ text ++ "\n"⟩
      | .error e (_, store) =>
          let message := e.message (st.withStore store)
          ⟨false, source ++ "error: " ++ message ++ "\n"⟩

def list (style : DisplayStyle) (st : TypeState) (env : Env) : Outcome where
  success := true
  stdout := String.join <| env.sorted.map fun info =>
    info.name.text ++ " :: " ++ st.display style info.signature ++ "\n"

/-- The environment of a catalog file, or of the prelude.  `readFile` gives
the text of a file or the reason why there is none. -/
def loadEnv (readFile : String → Except String String) :
    Option String → Except String (Env × TypeState)
  | none =>
      match Env.prelude .empty with
      | (.ok env, st) => .ok (env, st)
      | (.error e, _) => .error e.message
  | some path =>
      match readFile path with
      | .error reason => .error ("couldn't read " ++ path ++ ": " ++ reason)
      | .ok text =>
          match Env.loadText text (.empty, .empty) with
          | .ok _ result => .ok result
          | .error e _ => .error (path ++ ": " ++ e.message)

/-- Takes the first argument that is an option out of the arguments. -/
def takeFlag (option : String) (args : List Argument) :
    Bool × List Argument :=
  let flag := Argument.ofText option
  (decide (flag ∈ args), args.erase flag)

/-- Takes an option and its value, the argument after it, out of the
arguments. -/
def takeOption (option : String) :
    List Argument → Except String (Option String × List Argument)
  | [] => .ok (none, [])
  | arg :: rest =>
      if arg = .ofText option then
        match rest with
        | [] =>
            .error ("the '" ++ option ++
              "' option doesn't have an associated value")
        | value :: rest =>
            if value.valid then .ok (some value.text, rest)
            else .error "argument is not a UTF-8 string"
      else do
        let (value, rest) ← takeOption option rest
        return (value, arg :: rest)

/-- What the arguments ask for: the options, and the arguments that are
none. -/
structure Request where
  style : DisplayStyle
  /-- Whether to list the functions. -/
  listing : Bool
  /-- The path of the catalog file. -/
  catalog : Option String
  free : List Argument
  deriving DecidableEq, Repr

namespace Request

/-- Reads the arguments.  Options are found anywhere among them, one after the
other. -/
def ofArguments (args : List Argument) : Except Outcome Request :=
  if .ofText "-h" ∈ args ∨ .ofText "--help" ∈ args then
    .error ⟨true, usage⟩
  else
    let (context, args) := takeFlag "--context" args
    let (listing, args) := takeFlag "--list" args
    match takeOption "--catalog" args with
    | .error message => .error (.error message)
    | .ok (catalog, free) =>
        .ok ⟨if context then .context else .inline, listing, catalog, free⟩

/-- Does what is asked for.  `readFile` gives the text of a file or the reason
why there is none. -/
def run (request : Request) (readFile : String → Except String String) :
    Outcome :=
  match request.free.find? (!·.valid) with
  | some arg => .error ("invalid UTF-8 in argument: " ++ arg.text)
  | none =>
      match loadEnv readFile request.catalog with
      | .error message => .error message
      | .ok (env, st) =>
          if request.listing then list request.style st env
          else
            match request.free.map (·.text) with
            | [] => ⟨false, usage⟩
            | function :: args => apply request.style st env function args

end Request

/-- Runs the program on its arguments. -/
def run (readFile : String → Except String String) (args : List Argument) :
    Outcome :=
  match Request.ofArguments args with
  | .error outcome => outcome
  | .ok request => request.run readFile

example : Operand.ofText "[Int]=[1]" = .value "[Int]" "[1]" := by
  decide +kernel

example : Operand.ofText "Num a => a=x" = .value "Num a => a" "x" := by
  decide +kernel

example : Operand.ofText "map" = .function "map" := by decide +kernel

end HindleyMilner.CommandLine

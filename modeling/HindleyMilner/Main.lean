import HindleyMilner.CommandLine

/-
The program: reads the catalog file, if one is asked for, and prints what the
command line asks for.
-/

namespace HindleyMilner.CommandLine

/-- A reason that the system gives, with its number.  The number may come
negated. -/
def systemReason (details : String) (code : UInt32) : String :=
  let number := if code < 0x80000000 then code else -code
  let words :=
    match number with
    | 2 => "No such file or directory"
    | 13 => "Permission denied"
    | 20 => "Not a directory"
    | 21 => "Is a directory"
    | 36 => "File name too long"
    | _ => details
  words ++ " (os error " ++ toString number ++ ")"

def fileError : IO.Error → String
  | .noFileOrDirectory _ code details => systemReason details code
  | .permissionDenied _ code details => systemReason details code
  | .inappropriateType _ code details => systemReason details code
  | .invalidArgument _ code details => systemReason details code
  | .resourceExhausted _ code details => systemReason details code
  | .otherError code details => systemReason details code
  | e => toString e

/-- The text of a file, or why there is none. -/
def readText (path : String) : IO (Except String String) := do
  try
    match String.fromUTF8? (← IO.FS.readBinFile path) with
    | some text => return .ok text
    | none => return .error "stream did not contain valid UTF-8"
  catch e =>
    return .error (fileError e)

def readCatalog : Option String → IO (Except String String)
  | some path => readText path
  | none => return .error ""

/-- What the program comes to on its arguments. -/
def outcome (args : List Argument) : IO Outcome := do
  match Request.ofArguments args with
  | .error outcome => return outcome
  | .ok request =>
      let text ← readCatalog request.catalog
      return request.run fun _ => text

end HindleyMilner.CommandLine

open HindleyMilner.CommandLine in
def main (args : List String) : IO UInt32 := do
  let outcome ← outcome (args.map .ofText)
  IO.print outcome.stdout
  return if outcome.success then 0 else 1

import HindleyMilner.Toml.Reader
import HindleyMilner.Toml.Value

/-
The values of TOML that hold no others: strings, numbers, booleans, and dates
and times.
-/

namespace HindleyMilner.Toml

open Reader

/-! ### Strings -/

def isTextChar (c : Char) : Bool :=
  c = '\t' || (' ' ≤ c && c ≠ '\x7f')

def hexValue? (c : Char) : Option Nat :=
  if c.isDigit then some (c.toNat - '0'.toNat)
  else if 'a' ≤ c ∧ c ≤ 'f' then some (c.toNat - 'a'.toNat + 10)
  else if 'A' ≤ c ∧ c ≤ 'F' then some (c.toNat - 'A'.toNat + 10)
  else none

/-- The character with the number that so many hexadecimal digits spell. -/
def hexChar : Nat → Nat → Reader Char
  | 0, code =>
      if h : code.isValidChar then return Char.ofNatAux code h else failure
  | digits + 1, code => do
      match hexValue? (← next) with
      | some d => hexChar digits (code * 16 + d)
      | none => failure

/-- The character that an escape stands for, after the backslash. -/
def escape : Reader Char := do
  match ← next with
  | 'b' => return '\x08'
  | 't' => return '\t'
  | 'n' => return '\n'
  | 'f' => return '\x0c'
  | 'r' => return '\r'
  | '\x22' => return '\x22'
  | '\x5c' => return '\x5c'
  | 'u' => hexChar 4 0
  | 'U' => hexChar 8 0
  | _ => failure

/-- The rest of a string on one line after its opening quote. -/
def shortRest (quote : Char) (escapes : Bool) : Reader String := do
  let chars ← many do
    match ← next with
    | '\x5c' =>
        if escapes then return some (← escape) else return some '\x5c'
    | c =>
        if c = quote then return none
        else if isTextChar c then return some c
        else failure
  return String.ofList chars

/-- A piece of a string that may go over several lines; nothing before its
closing quotes. -/
def longPiece (quote : Char) (escapes : Bool) :
    Reader (Option (List Char)) := do
  let cs ← get
  let quotes := cs.takeWhile (· == quote)
  if quotes.length ≥ 3 then return none
  else if quotes ≠ [] then
    set (cs.dropWhile (· == quote))
    return some quotes
  else if ← skipNewline then return some ['\n']
  else if escapes ∧ cs.head? = some '\x5c' then
    char '\x5c'
    let afterBackslash ← get
    blanks
    if ← skipNewline then
      let _ ← many do
        if (← takeWhile isBlank) ≠ [] then return some ()
        else if ← skipNewline then return some ()
        else return none
      return some []
    else
      set afterBackslash
      return some [← escape]
  else return some [← satisfy isTextChar]

/-- The rest of a string that may go over several lines, after its three
opening quotes and a line end after them.  Up to two of the last five quotes
belong to the string. -/
def longRest (quote : Char) (escapes : Bool) : Reader String := do
  let _ ← skipNewline
  let pieces ← many (longPiece quote escapes)
  let cs ← get
  let quotes := (cs.takeWhile (· == quote)).take 5
  set (cs.drop quotes.length)
  return String.ofList (pieces.flatten ++ quotes.drop 3)

def shortString : Reader String := do
  match ← next with
  | '\x22' => shortRest '\x22' true
  | '\x27' => shortRest '\x27' false
  | _ => failure

def string : Reader String :=
  (do literal "\x22\x22\x22"; longRest '\x22' true) <|>
  (do literal "\x27\x27\x27"; longRest '\x27' false) <|>
  shortString

/-! ### Numbers -/

/-- The number that digits spell in a base. -/
def numberOf (base : Nat) (digits : List Char) : Nat :=
  digits.foldl (fun n c => n * base + (hexValue? c).getD 0) 0

/-- Digits, with single underscores between them. -/
def digits (isDigit : Char → Bool) : Reader (List Char) := do
  let first ← satisfy isDigit
  let rest ← many do
    match ← get with
    | '_' :: c :: rest =>
        if isDigit c then
          set rest
          return some c
        else return none
    | c :: rest =>
        if isDigit c then
          set rest
          return some c
        else return none
    | [] => return none
  return first :: rest

/-- Whether there is a minus sign; either sign is passed over. -/
def sign : Reader Bool := do
  if ← skip '-' then return true
  let _ ← skip '+'
  return false

/-- Digits of which the first is zero only if it is the only one. -/
def plainDigits : Reader (List Char) := do
  if ← skip '0' then return ['0'] else digits Char.isDigit

/-- Whether an integer has a representation in 64 bits with a sign. -/
def fitsWord (n : Int) : Bool :=
  -0x8000000000000000 ≤ n && n < 0x8000000000000000

/-- An integer, if it fits. -/
def integerOf (n : Int) : Reader Value :=
  if fitsWord n then return .integer n else failure

def integer : Reader Value := do
  match ← get with
  | '0' :: 'x' :: rest =>
      set rest
      integerOf (numberOf 16 (← digits fun c => (hexValue? c).isSome))
  | '0' :: 'o' :: rest =>
      set rest
      integerOf (numberOf 8 (← digits fun c => '0' ≤ c && c ≤ '7'))
  | '0' :: 'b' :: rest =>
      set rest
      integerOf (numberOf 2 (← digits fun c => c = '0' || c = '1'))
  | _ => do
      let negative ← sign
      let n : Int := numberOf 10 (← plainDigits)
      integerOf (if negative then -n else n)

/-- Whether `n * 10 ^ exponent` is rounded to a number beyond all doubles. -/
def exceedsDouble (n : Nat) (exponent : Int) : Bool :=
  let limit : Nat := Nat.pow 2 1024 - Nat.pow 2 970
  let magnitude : Int := (toString n).length + exponent
  if n = 0 ∨ magnitude < 300 then false
  else if magnitude > 320 then true
  else if exponent < 0 then limit * Nat.pow 10 exponent.natAbs ≤ n
  else limit ≤ n * Nat.pow 10 exponent.natAbs

/-- The exponent of a number, after its `e`. -/
def exponent : Reader Int := do
  let _ ← satisfy fun c => c = 'e' || c = 'E'
  let negative ← sign
  let n : Int := numberOf 10 (← digits Char.isDigit)
  return if negative then -n else n

/-- A number with a fraction or an exponent that a double can hold. -/
def decimal : Reader Value := do
  let negative ← sign
  let whole ← plainDigits
  let (fraction, exp) ←
    (do return ([], ← exponent)) <|>
    (do
      char '.'
      let fraction ← digits Char.isDigit
      return (fraction, (← optional exponent).getD 0))
  let n := numberOf 10 (whole ++ fraction)
  if !negative && exceedsDouble n (exp - fraction.length) then failure
  return .float

/-- Infinity or no number. -/
def specialFloat : Reader Value := do
  let _ ← sign
  literal "inf" <|> literal "nan"
  return .float

/-! ### Dates and times -/

/-- A number of exactly so many digits, within bounds. -/
def fixed (width least greatest : Nat) : Reader Nat := do
  let ds ← (List.range width).mapM fun _ => satisfy Char.isDigit
  let n := numberOf 10 ds
  if least ≤ n ∧ n ≤ greatest then return n else failure

def daysIn (year month : Nat) : Nat :=
  if month = 2 then
    if year % 4 = 0 ∧ (year % 100 ≠ 0 ∨ year % 400 = 0) then 29 else 28
  else if month ∈ [4, 6, 9, 11] then 30
  else 31

def date : Reader Unit := do
  let year ← fixed 4 0 9999
  char '-'
  let month ← fixed 2 1 12
  char '-'
  let _ ← fixed 2 1 (daysIn year month)

def time : Reader Unit := do
  let _ ← fixed 2 0 23
  char ':'
  let _ ← fixed 2 0 59
  char ':'
  let _ ← fixed 2 0 60
  let _ ← optional do
    char '.'
    let _ ← satisfy Char.isDigit
    let _ ← takeWhile Char.isDigit

/-- The difference of a time of day from universal time. -/
def offset : Reader Unit := do
  match ← next with
  | 'Z' | 'z' => return
  | '+' | '-' =>
      let _ ← fixed 2 0 23
      char ':'
      let _ ← fixed 2 0 59
  | _ => failure

/-- A date, a time of day, or a date with a time. -/
def datetime : Reader Value := do
  (do
    date
    let _ ← optional do
      let _ ← satisfy fun c => c = 'T' || c = 't' || c = ' '
      time
      optional offset) <|> time
  return .datetime

/-- A value that holds no others. -/
def scalar : Reader Value :=
  (.string <$> string) <|>
  (do literal "true"; return .boolean true) <|>
  (do literal "false"; return .boolean false) <|>
  datetime <|> decimal <|> specialFloat <|> integer

end HindleyMilner.Toml

/-
Reading bytes as UTF-8, with a replacement character for what is not.
-/

namespace HindleyMilner.Utf8

/-- What the first byte of a character says: how many bytes follow, the bounds
of the first of these, and the bits that the byte contributes. -/
structure Lead where
  following : Nat
  least : Nat
  greatest : Nat
  bits : Nat
  deriving DecidableEq, Repr

/-- What a first byte says.  The bounds rule out characters that fewer bytes
can hold, surrogates, and numbers beyond the last character. -/
def lead? (byte : Nat) : Option Lead :=
  if byte < 0x80 then some ⟨0, 0x80, 0xBF, byte⟩
  else if byte < 0xC2 then none
  else if byte < 0xE0 then some ⟨1, 0x80, 0xBF, byte - 0xC0⟩
  else if byte = 0xE0 then some ⟨2, 0xA0, 0xBF, 0⟩
  else if byte = 0xED then some ⟨2, 0x80, 0x9F, 0xD⟩
  else if byte < 0xF0 then some ⟨2, 0x80, 0xBF, byte - 0xE0⟩
  else if byte = 0xF0 then some ⟨3, 0x90, 0xBF, 0⟩
  else if byte < 0xF4 then some ⟨3, 0x80, 0xBF, byte - 0xF0⟩
  else if byte = 0xF4 then some ⟨3, 0x80, 0x8F, 4⟩
  else none

/-- A text read from bytes, and whether all bytes were part of it. -/
structure Decoded where
  chars : List Char
  valid : Bool
  deriving DecidableEq, Repr

namespace Decoded

def nothing : Decoded := ⟨[], true⟩

def char (c : Char) : Decoded := ⟨[c], true⟩

/-- The replacement character, for bytes that are no text. -/
def replacement : Decoded := ⟨['\ufffd'], false⟩

def append (before after : Decoded) : Decoded :=
  ⟨before.chars ++ after.chars, before.valid && after.valid⟩

instance : Append Decoded := ⟨append⟩

end Decoded

/-- Takes a byte between characters: the text that it completes, and what the
next byte has to be in the middle of a character. -/
def first (byte : UInt8) : Decoded × Option Lead :=
  match lead? byte.toNat with
  | some ⟨0, _, _, bits⟩ => (.char (Char.ofNat bits), none)
  | some lead => (.nothing, some lead)
  | none => (.replacement, none)

/-- Takes a byte, in the middle of a character or not.  As many bytes as could
start a character are replaced together, and the byte that does not go on with
them is taken as a first byte. -/
def step (pending : Option Lead) (byte : UInt8) : Decoded × Option Lead :=
  match pending with
  | none => first byte
  | some lead =>
      if lead.least ≤ byte.toNat ∧ byte.toNat ≤ lead.greatest then
        let bits := lead.bits * 64 + (byte.toNat - 0x80)
        if lead.following ≤ 1 then (.char (Char.ofNat bits), none)
        else (.nothing, some ⟨lead.following - 1, 0x80, 0xBF, bits⟩)
      else
        let (text, pending) := first byte
        (.replacement ++ text, pending)

/-- Reads bytes, in the middle of a character or not. -/
def decodeFrom : Option Lead → List UInt8 → Decoded
  | none, [] => .nothing
  | some _, [] => .replacement
  | pending, byte :: rest =>
      let (text, pending) := step pending byte
      text ++ decodeFrom pending rest

/-- Reads bytes from the start of a text. -/
def decode (bytes : List UInt8) : Decoded :=
  decodeFrom none bytes

example : decode [0xE2, 0x86, 0x92] = ⟨['→'], true⟩ := by decide

example :
    decode [0x61, 0xF0, 0x9F, 0x62, 0xFF] =
      ⟨['a', '\ufffd', 'b', '\ufffd'], false⟩ := by decide

end HindleyMilner.Utf8

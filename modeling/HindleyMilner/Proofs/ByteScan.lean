import HindleyMilner.Proofs.LexemePlaces

/-
Cutting a text into tokens byte by byte, as it would run on a machine.  A byte
is looked at without the character that it belongs to, identifiers are slices
of the text, and a slice between two offsets exists only if both lie between
characters.  No byte of a wide character is taken for another character, so
the scan of the bytes finds all its slices and the tokens are those of the scan
of the characters.
-/

namespace HindleyMilner.Signature

/-! ### Bytes and slices -/

/-- The byte at an offset, as the character with its number. -/
def byteAt? (text : String) (pos : Nat) : Option Char :=
  text.toByteArray.data[pos]?.map Char.ofUInt8

/-- The part of a text between two offsets.  There is none unless both lie
between characters. -/
def slice? (text : String) (start stop : Nat) : Option String :=
  if start ≤ stop ∧ String.Pos.Raw.isValid text ⟨start⟩ = true ∧
      String.Pos.Raw.isValid text ⟨stop⟩ = true then
    String.fromUTF8? (text.toByteArray.extract start stop)
  else none

/-- The offset of the last byte of the identifier that goes on after an
offset. -/
def identEnd (text : String) : Nat → Nat → Option Nat
  | 0, _ => none
  | fuel + 1, pos =>
      if (byteAt? text (pos + 1)).any isIdentRest then
        identEnd text fuel (pos + 1)
      else some pos

/-- The identifier that starts at an offset with a byte, and the offset of its
last byte.  There is no outcome where its slice does not exist, or where the
name of a constructor would be empty. -/
def identAt (text : String) (fuel pos : Nat) (b : Char) :
    ExceptT StrayChar Option (Token × Nat) := do
  let last ← ExceptT.lift (identEnd text fuel pos)
  let word ← ExceptT.lift (slice? text pos (last + 1))
  if b.isUpper then
    let name ← ExceptT.lift (Name.ofString? word)
    return (.con name, last)
  else return (.var word, last)

def strayAt (text : String) (pos : Nat) :
    ExceptT StrayChar Option (Token × Nat) := do
  let rest ← ExceptT.lift (slice? text pos text.utf8ByteSize)
  throw ⟨rest.toList.headD '\ufffd', pos⟩

/-- The token that starts at an offset with a byte, and the offset of its last
byte. -/
def tokenAt (text : String) (fuel pos : Nat) (b : Char) :
    ExceptT StrayChar Option (Token × Nat) :=
  match punctuation? b with
  | some tok => return (tok, pos)
  | none =>
      let next? := byteAt? text (pos + 1)
      if b = '-' ∧ next? = some '>' then return (.arrow, pos + 1)
      else if b = '=' ∧ next? = some '>' then return (.fatArrow, pos + 1)
      else if isIdentStart b then identAt text fuel pos b
      else strayAt text pos

/-- The tokens from an offset on.  There is no outcome where the scan runs out
of fuel. -/
def scanBytes (text : String) :
    Nat → Nat → ExceptT StrayChar Option (List Lexeme)
  | 0, _ => ExceptT.lift none
  | fuel + 1, pos =>
      match byteAt? text pos with
      | none => return []
      | some b =>
          if isBlank b then scanBytes text fuel (pos + 1)
          else do
            let (tok, last) ← tokenAt text fuel pos b
            let lexemes ← scanBytes text fuel (last + 1)
            return ⟨tok, pos⟩ :: lexemes

variable {text : String} {b c first : Char} {cs word : List Char}
  {tok : Token} {pos fuel : Nat}

/-! ### First bytes -/

/-- The first byte of a character, as the character with its number. -/
def firstByte (c : Char) : Char :=
  Char.ofUInt8 ((String.utf8EncodeChar c).headD 0)

theorem utf8Size_eq_one (h : c.toNat < 128) : c.utf8Size = 1 :=
  Char.utf8Size_eq_one_iff.2 (UInt32.le_iff_toNat_le.2 (Nat.le_of_lt_succ h))

/-- A character of one byte is what its byte says. -/
theorem firstByte_of_lt (h : c.toNat < 128) : firstByte c = c := by
  rw [firstByte, String.utf8EncodeChar_eq_singleton (utf8Size_eq_one h)]
  apply Char.ext
  apply UInt32.toNat_inj.1
  have hlt : c.val.toNat < 256 := Nat.lt_trans h (by decide)
  change c.val.toUInt8.toUInt32.toNat = c.val.toNat
  rw [UInt8.toNat_toUInt32, UInt32.toNat_toUInt8, Nat.mod_eq_of_lt hlt]

/-- The first byte of a wide character is not that of any character of one
byte. -/
theorem le_firstByte (h : 128 ≤ c.toNat) : 128 ≤ (firstByte c).toNat := by
  have hbyte : 128 ≤ ((String.utf8EncodeChar c).headD 0).toNat := by
    rcases c.utf8Size_eq with h1 | h2 | h3 | h4
    · have hval := UInt32.le_iff_toNat_le.1 (Char.utf8Size_eq_one_iff.1 h1)
      exact absurd h (Nat.not_le.2 (Nat.lt_succ_of_le hval))
    · rw [String.utf8EncodeChar_eq_cons_cons h2, List.headD_cons,
        UInt8.toNat_or]
      exact Nat.le_trans (by decide) Nat.right_le_or
    · rw [String.utf8EncodeChar_eq_cons_cons_cons h3, List.headD_cons,
        UInt8.toNat_or]
      exact Nat.le_trans (by decide) Nat.right_le_or
    · rw [String.utf8EncodeChar_eq_cons_cons_cons_cons h4, List.headD_cons,
        UInt8.toNat_or]
      exact Nat.le_trans (by decide) Nat.right_le_or
  exact hbyte

/-- What says the same of all characters that are not ASCII says the same of a
character and of its first byte. -/
theorem apply_firstByte {A : Type} {p : Char → A} {a : A}
    (hp : ∀ c : Char, p c ≠ a → c.toNat < 128) (c : Char) :
    p (firstByte c) = p c := by
  by_cases h : c.toNat < 128
  · rw [firstByte_of_lt h]
  · have hwide {d : Char} (hd : 128 ≤ d.toNat) : p d = a := by
      by_contra hne
      exact Nat.not_lt.2 hd (hp d hne)
    have hc := Nat.not_lt.1 h
    rw [hwide (le_firstByte hc), hwide hc]

theorem lt_of_isBlank (h : isBlank c = true) : c.toNat < 128 := by
  simp only [isBlank, Bool.or_eq_true, decide_eq_true_eq] at h
  rcases h with (((rfl | rfl) | rfl) | rfl) | rfl <;> decide

theorem lt_of_punctuation? (h : punctuation? c ≠ none) : c.toNat < 128 := by
  unfold punctuation? at h
  split at h <;> first | decide | contradiction

theorem lt_of_isAlphanum (h : c.isAlphanum = true) : c.toNat < 128 := by
  delta Char.isAlphanum Char.isAlpha Char.isUpper Char.isLower at h
  simp only [Char.isDigit, UInt32.le_iff_toNat_le, ge_iff_le, Bool.or_eq_true,
    Bool.and_eq_true, decide_eq_true_eq] at h
  rcases h with (⟨-, h⟩ | ⟨-, h⟩) | ⟨-, h⟩ <;>
    exact Nat.lt_of_le_of_lt h (by decide)

/-- Identifiers are made of characters of one byte. -/
theorem lt_of_isIdentRest (h : isIdentRest c = true) : c.toNat < 128 := by
  simp only [isIdentRest, Bool.or_eq_true, decide_eq_true_eq] at h
  rcases h with ((h | rfl) | rfl) | rfl
  · exact lt_of_isAlphanum h
  all_goals decide

theorem isIdentRest_of_isIdentStart (h : isIdentStart c = true) :
    isIdentRest c = true := by
  simp only [isIdentStart, isIdentRest, Char.isAlphanum,
    Bool.or_eq_true] at h ⊢
  tauto

theorem punctuation?_of_isIdentStart (h : isIdentStart c = true) :
    punctuation? c = none := by
  unfold punctuation?
  split <;> first | rfl | exact absurd h (by decide)

theorem lt_of_isIdentStart (h : isIdentStart c = true) : c.toNat < 128 :=
  lt_of_isIdentRest (isIdentRest_of_isIdentStart h)

@[simp] theorem isBlank_firstByte (c : Char) :
    isBlank (firstByte c) = isBlank c :=
  apply_firstByte (fun _ h => lt_of_isBlank (eq_true_of_ne_false h)) c

@[simp] theorem isIdentStart_firstByte (c : Char) :
    isIdentStart (firstByte c) = isIdentStart c :=
  apply_firstByte
    (fun _ h => lt_of_isIdentStart (eq_true_of_ne_false h)) c

/-- The test for the rest of an identifier may be made on the first byte of a
character, and so may the other ones. -/
@[simp] theorem isIdentRest_firstByte (c : Char) :
    isIdentRest (firstByte c) = isIdentRest c :=
  apply_firstByte
    (fun _ h => lt_of_isIdentRest (eq_true_of_ne_false h)) c

@[simp] theorem punctuation?_firstByte (c : Char) :
    punctuation? (firstByte c) = punctuation? c :=
  apply_firstByte (fun _ h => lt_of_punctuation? h) c

/-- A byte that is a character of its own is only the first byte of that
character. -/
theorem firstByte_eq_iff (hb : b.toNat < 128) : firstByte c = b ↔ c = b := by
  have h := apply_firstByte (p := fun d => decide (d = b)) (a := false)
    (fun d hd => by
      have hdb : d = b := by simpa using hd
      rwa [hdb]) c
  exact decide_eq_decide.1 h

/-! ### What is left of a text -/

/-- Whether characters are what is left of a text from an offset on. -/
def Remains (text : String) (pos : Nat) (cs : List Char) : Prop :=
  ∃ before : String,
    text = before ++ String.ofList cs ∧ before.utf8ByteSize = pos

theorem remains_toList (text : String) : Remains text 0 text.toList :=
  ⟨"", by simp, rfl⟩

namespace Remains

/-- What is left behind a word starts after as many bytes as the word takes
up. -/
theorem behind (h : Remains text pos (word ++ cs)) :
    Remains text (pos + byteLength word) cs := by
  obtain ⟨before, rfl, rfl⟩ := h
  refine ⟨before ++ String.ofList word, ?_, ?_⟩
  · rw [String.ofList_append, String.append_assoc]
  · rw [String.utf8ByteSize_append, utf8ByteSize_ofList_eq]

theorem next (h : Remains text pos (c :: cs)) :
    Remains text (pos + c.utf8Size) cs := by
  have h' : Remains text pos ([c] ++ cs) := h
  simpa using h'.behind

/-- The byte at an offset between characters is the first one of the character
there. -/
theorem byteAt?_eq (h : Remains text pos cs) :
    byteAt? text pos = cs.head?.map firstByte := by
  obtain ⟨before, rfl, rfl⟩ := h
  have hle : before.toByteArray.data.size ≤ before.utf8ByteSize := le_rfl
  rw [byteAt?, String.toByteArray_append, ByteArray.data_append,
    Array.getElem?_append_right hle]
  cases cs with
  | nil => simp
  | cons c cs =>
      cases hbytes : String.utf8EncodeChar c with
      | nil => exact absurd hbytes String.utf8EncodeChar_ne_nil
      | cons byte bytes =>
          simp [List.utf8Encode, hbytes, firstByte, ← String.size_toByteArray]

theorem byteAt?_of_lt (h : Remains text pos (c :: cs)) (hc : c.toNat < 128) :
    byteAt? text pos = some c := by
  rw [h.byteAt?_eq, List.head?_cons, Option.map_some, firstByte_of_lt hc]

theorem byteAt?_eq_some_iff (h : Remains text pos cs) (hb : b.toNat < 128) :
    byteAt? text pos = some b ↔ ∃ rest, cs = b :: rest := by
  rw [h.byteAt?_eq]
  cases cs <;> simp [firstByte_eq_iff hb]

/-- Where characters remain is between characters, so a slice may start or end
there. -/
theorem isValid (h : Remains text pos cs) :
    String.Pos.Raw.isValid text ⟨pos⟩ = true := by
  obtain ⟨before, rfl, rfl⟩ := h
  rw [String.Pos.Raw.isValid_eq_true_iff,
    String.Pos.Raw.isValid_iff_exists_append]
  exact ⟨before, _, rfl, rfl⟩

/-- A slice of whole characters exists, and is these characters. -/
theorem slice?_eq (h : Remains text pos (word ++ cs)) :
    slice? text pos (pos + byteLength word) = some (String.ofList word) := by
  have hbytes : text.toByteArray.extract pos (pos + byteLength word) =
      (String.ofList word).toByteArray := by
    obtain ⟨before, rfl, rfl⟩ := h
    rw [String.ofList_append, String.toByteArray_append,
      String.toByteArray_append, ← utf8ByteSize_ofList_eq]
    exact (ByteArray.extract_append_size_add (i := 0)).trans
      (ByteArray.extract_append_eq_left rfl)
  rw [slice?, if_pos ⟨Nat.le_add_right _ _, h.isValid, h.behind.isValid⟩,
    hbytes, String.fromUTF8?, dif_pos (String.ofList word).isValidUTF8]
  rfl

end Remains

/-! ### One step of the scan -/

theorem lift_some_bind {A B E : Type} (a : A)
    (f : A → ExceptT E Option B) : ExceptT.lift (some a) >>= f = f a := rfl

theorem identEnd_eq (h : Remains text (pos + 1) (word ++ cs))
    (hword : ∀ c ∈ word, isIdentRest c = true) (hend : EndsWord cs)
    (hfuel : byteLength word < fuel) :
    identEnd text fuel pos = some (pos + byteLength word) := by
  induction word generalizing pos fuel with
  | nil =>
      obtain ⟨fuel, rfl⟩ := Nat.exists_eq_add_one_of_ne_zero
        (Nat.ne_of_gt hfuel)
      have hstop : (byteAt? text (pos + 1)).any isIdentRest = false := by
        rw [h.byteAt?_eq]
        cases cs with
        | nil => rfl
        | cons c cs => simpa using hend c rfl
      rw [identEnd, hstop]
      rfl
  | cons c word ih =>
      rw [List.forall_mem_cons] at hword
      have hc := lt_of_isIdentRest hword.1
      rw [byteLength_cons, utf8Size_eq_one hc] at hfuel
      obtain ⟨fuel, rfl⟩ : ∃ n, fuel = n + 1 := ⟨fuel - 1, by omega⟩
      have hnext : Remains text (pos + 1 + 1) (word ++ cs) := by
        have hnext := Remains.next h
        rwa [utf8Size_eq_one hc] at hnext
      rw [identEnd, h.byteAt?_of_lt hc, Option.any_some, hword.1, if_pos rfl,
        ih hnext hword.2 (by omega), byteLength_cons, utf8Size_eq_one hc,
        Nat.add_assoc]

theorem tokenAt_punctuation (h : punctuation? b = some tok) :
    tokenAt text fuel pos b = pure (tok, pos) := by
  rw [tokenAt, h]

theorem tokenAt_arrow (h : Remains text pos ('-' :: '>' :: cs)) :
    tokenAt text fuel pos '-' = pure (.arrow, pos + 1) := by
  have hnext : byteAt? text (pos + 1) = some '>' :=
    Remains.byteAt?_of_lt (Remains.next h) (by decide)
  simp [tokenAt, hnext, punctuation?]

theorem tokenAt_fatArrow (h : Remains text pos ('=' :: '>' :: cs)) :
    tokenAt text fuel pos '=' = pure (.fatArrow, pos + 1) := by
  have hnext : byteAt? text (pos + 1) = some '>' :=
    Remains.byteAt?_of_lt (Remains.next h) (by decide)
  simp [tokenAt, hnext, punctuation?]

/-- An arrow that shows in two bytes is one of two characters: the first byte is
not that of a wide character. -/
theorem Remains.startsArrow (h : Remains text pos (c :: cs))
    (hb : firstByte c = '-' ∨ firstByte c = '=')
    (hnext : byteAt? text (pos + 1) = some '>') : StartsArrow c cs := by
  rw [firstByte_eq_iff (by decide), firstByte_eq_iff (by decide)] at hb
  have hsize : c.utf8Size = 1 := by rcases hb with rfl | rfl <;> rfl
  have hrest := h.next
  rw [hsize] at hrest
  exact ⟨hb, (hrest.byteAt?_eq_some_iff (by decide)).1 hnext⟩

/-- The byte where no arrow and no punctuation stands starts an identifier or
nothing. -/
theorem tokenAt_firstByte (fuel : Nat) (h : Remains text pos (c :: cs))
    (harrow : ¬ StartsArrow c cs) (hchar : punctuation? c = none) :
    tokenAt text fuel pos (firstByte c) =
      if isIdentStart c then identAt text fuel pos (firstByte c)
      else strayAt text pos := by
  have hdash : ¬ (firstByte c = '-' ∧ byteAt? text (pos + 1) = some '>') :=
    fun hb => harrow (h.startsArrow (.inl hb.1) hb.2)
  have hequals : ¬ (firstByte c = '=' ∧ byteAt? text (pos + 1) = some '>') :=
    fun hb => harrow (h.startsArrow (.inr hb.1) hb.2)
  simp only [tokenAt, punctuation?_firstByte, hchar, if_neg hdash,
    if_neg hequals, isIdentStart_firstByte]

/-- The slice from the first to the last byte of an identifier exists, and it is
the identifier. -/
theorem identAt_eq (h : Remains text pos (first :: (word ++ cs)))
    (hfirst : isIdentStart first = true)
    (hword : ∀ c ∈ word, isIdentRest c = true) (hend : EndsWord cs)
    (hfuel : byteLength word < fuel) :
    identAt text fuel pos first =
      pure (.word first word, pos + byteLength word) := by
  have hsize := utf8Size_eq_one (lt_of_isIdentStart hfirst)
  have hrest := h.next
  rw [hsize] at hrest
  have hslice : slice? text pos (pos + byteLength word + 1) =
      some (String.ofList (first :: word)) := by
    have hall : Remains text pos ((first :: word) ++ cs) := h
    rw [← hall.slice?_eq, byteLength_cons, hsize, Nat.add_assoc,
      Nat.add_comm 1]
  have hname : Name.ofString? (String.ofList (first :: word)) =
      some (.ofChars first word) :=
    Name.ofString?_text (.ofChars first word)
  rw [identAt, identEnd_eq hrest hword hend hfuel, lift_some_bind, hslice,
    lift_some_bind, hname, lift_some_bind, Token.word]
  split <;> rfl

/-- A stray character is read whole, however many bytes it takes up. -/
theorem strayAt_eq (h : Remains text pos (c :: cs)) :
    strayAt text pos = throw ⟨c, pos⟩ := by
  have hall : Remains text pos ((c :: cs) ++ []) := by simpa using h
  have hend : text.utf8ByteSize = pos + byteLength (c :: cs) := by
    obtain ⟨before, rfl, rfl⟩ := h
    rw [String.utf8ByteSize_append, utf8ByteSize_ofList_eq]
  rw [strayAt, hend, hall.slice?_eq, lift_some_bind, String.toList_ofList,
    List.headD_cons]

/-! ### The tokens of a text -/

theorem scanBytes_blank (h : Remains text pos (c :: cs))
    (hblank : isBlank c = true) :
    scanBytes text (fuel + 1) pos =
      scanBytes text fuel (pos + c.utf8Size) := by
  have hc := lt_of_isBlank hblank
  simp only [scanBytes, h.byteAt?_of_lt hc, hblank, if_true,
    utf8Size_eq_one hc]

theorem scanBytes_token {last : Nat} (h : byteAt? text pos = some b)
    (hblank : isBlank b = false)
    (htok : tokenAt text fuel pos b = pure (tok, last)) :
    scanBytes text (fuel + 1) pos =
      (⟨tok, pos⟩ :: ·) <$> scanBytes text fuel (last + 1) := by
  simp only [scanBytes, h, hblank, htok]
  rfl

theorem scanBytes_punctuation (h : Remains text pos (c :: cs))
    (hchar : punctuation? c = some tok) :
    scanBytes text (fuel + 1) pos =
      (⟨tok, pos⟩ :: ·) <$> scanBytes text fuel (pos + c.utf8Size) := by
  have hc : c.toNat < 128 := lt_of_punctuation? (by simp [hchar])
  have hblank : isBlank c = false := by
    unfold punctuation? at hchar
    split at hchar <;> first | rfl | contradiction
  rw [scanBytes_token (h.byteAt?_of_lt hc) hblank (tokenAt_punctuation hchar),
    utf8Size_eq_one hc]

theorem scanBytes_arrow (h : Remains text pos ('-' :: '>' :: cs)) :
    scanBytes text (fuel + 1) pos =
      (⟨.arrow, pos⟩ :: ·) <$> scanBytes text fuel (pos + 2) :=
  scanBytes_token (h.byteAt?_of_lt (by decide)) rfl (tokenAt_arrow h)

theorem scanBytes_fatArrow (h : Remains text pos ('=' :: '>' :: cs)) :
    scanBytes text (fuel + 1) pos =
      (⟨.fatArrow, pos⟩ :: ·) <$> scanBytes text fuel (pos + 2) :=
  scanBytes_token (h.byteAt?_of_lt (by decide)) rfl (tokenAt_fatArrow h)

theorem scanBytes_word (h : Remains text pos (first :: (word ++ cs)))
    (hfirst : isIdentStart first = true)
    (hword : ∀ c ∈ word, isIdentRest c = true) (hend : EndsWord cs)
    (hfuel : byteLength word < fuel) :
    scanBytes text (fuel + 1) pos =
      (⟨.word first word, pos⟩ :: ·) <$>
        scanBytes text fuel (pos + byteLength (first :: word)) := by
  have hc := lt_of_isIdentStart hfirst
  have htok : tokenAt text fuel pos first =
      pure (.word first word, pos + byteLength word) := by
    have hident := tokenAt_firstByte fuel h
      (not_startsArrow isIdentStart rfl rfl hfirst)
      (punctuation?_of_isIdentStart hfirst)
    rw [firstByte_of_lt hc, hfirst, if_pos rfl] at hident
    rw [hident, identAt_eq h hfirst hword hend hfuel]
  rw [scanBytes_token (h.byteAt?_of_lt hc)
    (not_isBlank_of_isIdentStart hfirst) htok, byteLength_cons,
    utf8Size_eq_one hc, Nat.add_comm 1, Nat.add_assoc]

/-- The scan stops at the offset of a stray character, with the character and
not with its byte. -/
theorem scanBytes_stray (h : Remains text pos (c :: cs))
    (harrow : ¬ StartsArrow c cs) (hblank : isBlank c = false)
    (hfirst : isIdentStart c = false) (hchar : punctuation? c = none) :
    scanBytes text (fuel + 1) pos = throw ⟨c, pos⟩ := by
  have htok : tokenAt text fuel pos (firstByte c) = throw ⟨c, pos⟩ := by
    rw [tokenAt_firstByte fuel h harrow hchar, hfirst,
      if_neg Bool.false_ne_true, strayAt_eq h]
  simp only [scanBytes, h.byteAt?_eq, List.head?_cons, Option.map_some,
    isBlank_firstByte, hblank, htok]
  rfl

theorem run_map_of_run {A B E : Type} {x : ExceptT E Option A}
    {result : Except E A} (h : x.run = some result) (f : A → B) :
    (f <$> x).run = some (f <$> result) := by
  rw [ExceptT.run_map, h]
  rfl

theorem byteLength_lt_of_append (hword : word ≠ [])
    (h : byteLength (word ++ cs) < fuel + 1) : byteLength cs < fuel := by
  have hpos := byteLength_pos hword
  rw [byteLength_append] at h
  omega

theorem run_scanBytes (h : Remains text pos cs)
    (hfuel : byteLength cs < fuel) :
    (scanBytes text fuel pos).run = some (scan pos none cs) := by
  induction fuel generalizing pos cs with
  | zero => contradiction
  | succ fuel ih =>
      -- What is left behind the characters that the scan takes in one step.
      have hbehind {word rest : List Char} (hword : word ≠ [])
          (hall : cs = word ++ rest) :
          (scanBytes text fuel (pos + byteLength word)).run =
            some (scan (pos + byteLength word) none rest) := by
        subst hall
        exact ih h.behind (byteLength_lt_of_append hword hfuel)
      cases begins cs with
      | done =>
          rw [scanBytes, h.byteAt?_eq]
          rfl
      | @blank c cs hblank =>
          rw [scan_blank pos hblank, scanBytes_blank h hblank]
          exact hbehind (List.cons_ne_nil c []) rfl
      | @punctuation c tok cs hchar =>
          rw [scan_punctuation pos hchar, scanBytes_punctuation h hchar]
          exact run_map_of_run (hbehind (List.cons_ne_nil c []) rfl) _
      | @arrow cs =>
          rw [scan_arrow, scanBytes_arrow h]
          exact run_map_of_run (hbehind (List.cons_ne_nil '-' ['>']) rfl) _
      | @fatArrow cs =>
          rw [scan_fatArrow, scanBytes_fatArrow h]
          exact run_map_of_run (hbehind (List.cons_ne_nil '=' ['>']) rfl) _
      | @word first word cs hfirst hword hend =>
          have hfuel' : byteLength word < fuel := by
            have hlt : byteLength (word ++ cs) < fuel :=
              byteLength_lt_of_append (List.cons_ne_nil first []) hfuel
            rw [byteLength_append] at hlt
            exact Nat.lt_of_le_of_lt (Nat.le_add_right _ _) hlt
          rw [scan_word pos hfirst hword hend,
            scanBytes_word h hfirst hword hend hfuel']
          exact run_map_of_run (hbehind (List.cons_ne_nil first word) rfl) _
      | stray harrow hblank hfirst hchar =>
          rw [scan_stray pos harrow hblank hfirst hchar,
            scanBytes_stray h harrow hblank hfirst hchar]
          rfl

/-- Cutting a text into tokens byte by byte finds every slice that it takes
and has no empty name, whatever the characters of the text are, and gives the
tokens of the text. -/
theorem scanBytes_eq_tokenize (text : String)
    (hfuel : text.utf8ByteSize < fuel) :
    (scanBytes text fuel 0).run = some (tokenize text) := by
  refine run_scanBytes (remains_toList text) ?_
  rwa [← utf8ByteSize_ofList_eq, String.ofList_toList]

example :
    (scanBytes "f' → [b]" 12 0).run = some (.error ⟨'→', 3⟩) ∧
      (scanBytes "f->(a1)" 8 0).run =
        some (.ok [⟨.var "f", 0⟩, ⟨.arrow, 1⟩, ⟨.openRound, 3⟩,
          ⟨.var "a1", 4⟩, ⟨.closeRound, 6⟩]) := by
  decide +kernel

end HindleyMilner.Signature

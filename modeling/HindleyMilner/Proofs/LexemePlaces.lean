import HindleyMilner.Proofs.Rendering

/-
Where tokens stand in a text.  A token starts at the byte offset that it is
given, and is spelled by the characters there.  So offsets lie between
characters, whatever the characters of the text are, and they grow from token
to token.
-/

namespace HindleyMilner.Signature

/-- Whether characters spell a token. -/
inductive Spells : Token → List Char → Prop
  | punctuation {c : Char} {tok : Token} (hchar : punctuation? c = some tok) :
      Spells tok [c]
  | arrow : Spells .arrow ['-', '>']
  | fatArrow : Spells .fatArrow ['=', '>']
  | word {first : Char} {rest : List Char}
      (hfirst : isIdentStart first = true)
      (hrest : ∀ c ∈ rest, isIdentRest c = true) :
      Spells (.word first rest) (first :: rest)

variable {c : Char} {cs word : List Char} {tok : Token} {toks : List Token}
  {pos : Nat} {text x : String} {lexemes : List Lexeme} {stray : StrayChar}

theorem Spells.ne_nil (h : Spells tok word) : word ≠ [] := by
  cases h <;> exact List.cons_ne_nil _ _

/-- A token is cut out of any text that has its spelling as a word. -/
theorem Spells.renders (h : Spells tok word) :
    Renders (String.ofList word) [tok] := by
  cases h with
  | punctuation hchar =>
      exact (separates_punctuation (String.toList_ofList) hchar).renders
  | arrow =>
      exact fun rest more _ hrest => by
        simpa using Lexes.arrow hrest
  | fatArrow =>
      exact fun rest more _ hrest => by
        simpa using Lexes.fatArrow hrest
  | word hfirst hrest => exact renders_word hfirst hrest

/-- The tokens of a text are all spelled in it. -/
theorem Lexes.exists_spells (h : Lexes cs toks) :
    ∀ tok ∈ toks, ∃ word, Spells tok word := by
  induction h with
  | done => simp
  | blank _ _ ih => exact ih
  | punctuation hchar _ ih =>
      exact List.forall_mem_cons.2 ⟨⟨_, .punctuation hchar⟩, ih⟩
  | arrow _ ih => exact List.forall_mem_cons.2 ⟨⟨_, .arrow⟩, ih⟩
  | fatArrow _ ih => exact List.forall_mem_cons.2 ⟨⟨_, .fatArrow⟩, ih⟩
  | word hfirst hword _ _ ih =>
      exact List.forall_mem_cons.2 ⟨⟨_, .word hfirst hword⟩, ih⟩

theorem Spells.name_ne (h : Spells (.var x) word) : x ≠ "" := by
  generalize htok : Token.var x = tok at h
  cases h with
  | punctuation hchar =>
      subst htok
      unfold punctuation? at hchar
      split at hchar <;> simp at hchar
  | arrow => contradiction
  | fatArrow => contradiction
  | @word first rest hfirst hrest =>
      rw [Token.word] at htok
      split at htok
      · contradiction
      · cases htok
        exact (Name.ofChars first rest).nonempty

/-- The names in a text are not empty. -/
theorem Lexes.name_ne (h : Lexes text.toList toks) (hx : .var x ∈ toks) :
    x ≠ "" := by
  obtain ⟨word, hword⟩ := h.exists_spells _ hx
  exact hword.name_ne

/-- Tokens that can be spelled are those of some text. -/
theorem exists_lexes (h : ∀ tok ∈ toks, ∃ word, Spells tok word) :
    ∃ text : String, Lexes text.toList toks := by
  have hall : ∃ text, Renders text toks := by
    induction toks with
    | nil => exact ⟨"", fun rest more _ hrest => hrest⟩
    | cons tok toks ih =>
        rw [List.forall_mem_cons] at h
        obtain ⟨word, hword⟩ := h.1
        obtain ⟨text, htext⟩ := ih h.2
        exact ⟨_, hword.renders.join separates_space htext⟩
  obtain ⟨text, htext⟩ := hall
  exact ⟨text, htext.lexes⟩

/-! ### One step of the scan -/

/-- What the scan finds at the start of characters: nothing, a character that
starts no token, one that separates tokens, or a token. -/
inductive Starts (pos : Nat) : List Char → Prop
  | done : Starts pos []
  | stray {c : Char} {rest : List Char}
      (hscan : scan pos none (c :: rest) = .error ⟨c, pos⟩) :
      Starts pos (c :: rest)
  | blank {c : Char} {rest : List Char}
      (hscan : scan pos none (c :: rest) =
        scan (pos + c.utf8Size) none rest) : Starts pos (c :: rest)
  | token {tok : Token} {word rest : List Char} (hspells : Spells tok word)
      (hscan : scan pos none (word ++ rest) =
        (⟨tok, pos⟩ :: ·) <$> scan (pos + byteLength word) none rest) :
      Starts pos (word ++ rest)

theorem starts (pos : Nat) (cs : List Char) : Starts pos cs := by
  cases begins cs with
  | done => exact .done
  | blank hblank => exact .blank (scan_blank pos hblank)
  | punctuation hchar =>
      exact .token (.punctuation hchar) (scan_punctuation pos hchar)
  | @arrow rest => exact .token .arrow (scan_arrow pos none rest)
  | @fatArrow rest => exact .token .fatArrow (scan_fatArrow pos none rest)
  | word hfirst hword hend =>
      exact .token (.word hfirst hword) (scan_word pos hfirst hword hend)
  | stray harrow hblank hfirst hchar =>
      exact .stray (scan_stray pos harrow hblank hfirst hchar)

/-! ### Places -/

/-- Whether characters stand at a byte offset among others. -/
def Stands (cs : List Char) (pos : Nat) (word : List Char) : Prop :=
  ∃ before after, cs = before ++ word ++ after ∧ pos = byteLength before

theorem Stands.behind {others : List Char} (h : Stands cs pos word) :
    Stands (others ++ cs) (byteLength others + pos) word := by
  obtain ⟨before, after, rfl, rfl⟩ := h
  exact ⟨others ++ before, after, by simp, by simp⟩

theorem byteLength_pos (h : cs ≠ []) : 0 < byteLength cs := by
  cases cs with
  | nil => contradiction
  | cons c cs =>
      rw [byteLength_cons]
      exact Nat.add_pos_left c.utf8Size_pos _

/-- Whether the offsets that a scan finds, counted from an offset on, are those
of the characters. -/
def RightlyPlaced (cs : List Char) (start : Nat) :
    Except StrayChar (List Lexeme) → Prop
  | .ok lexemes => lexemes.Pairwise (·.pos < ·.pos) ∧
      ∀ lexeme ∈ lexemes, ∃ pos word, lexeme.pos = start + pos ∧
        Stands cs pos word ∧ Spells lexeme.token word
  | .error stray => ∃ pos, stray.pos = start + pos ∧
      Stands cs pos [stray.char]

theorem RightlyPlaced.behind {result : Except StrayChar (List Lexeme)}
    {others : List Char} {start : Nat}
    (h : RightlyPlaced cs (start + byteLength others) result) :
    RightlyPlaced (others ++ cs) start result := by
  cases result with
  | ok lexemes =>
      refine ⟨h.1, fun lexeme hlexeme => ?_⟩
      obtain ⟨pos, word, hpos, hstands, hspells⟩ := h.2 lexeme hlexeme
      exact ⟨_, word, by rw [hpos, Nat.add_assoc], hstands.behind, hspells⟩
  | error stray =>
      obtain ⟨pos, hpos, hstands⟩ := h
      exact ⟨_, by rw [hpos, Nat.add_assoc], hstands.behind⟩

/-- The scan counts bytes, so its offsets are those of the tokens wherever it
starts. -/
theorem rightlyPlaced_scan (start : Nat) (cs : List Char) :
    RightlyPlaced cs start (scan start none cs) := by
  induction hlength : cs.length using Nat.strong_induction_on
    generalizing cs start with
  | h length ih =>
      cases starts start cs with
      | done => exact ⟨.nil, fun lexeme hlexeme => nomatch hlexeme⟩
      | @stray c rest hscan =>
          rw [hscan]
          exact ⟨0, rfl, [], rest, rfl, rfl⟩
      | @blank c rest hscan =>
          have hrest : RightlyPlaced rest (start + byteLength [c])
              (scan (start + c.utf8Size) none rest) :=
            ih rest.length (by simp [← hlength]) _ rest rfl
          rw [hscan]
          exact hrest.behind
      | @token tok word rest hspells hscan =>
          have hword := List.length_pos_iff.2 hspells.ne_nil
          have hrest := (ih rest.length
            (by rw [← hlength, List.length_append]; omega)
            (start + byteLength word) rest rfl)
          rw [hscan]
          cases hresult : scan (start + byteLength word) none rest with
          | error stray =>
              rw [hresult] at hrest
              exact hrest.behind
          | ok lexemes =>
              rw [hresult] at hrest
              refine ⟨List.pairwise_cons.2 ⟨fun lexeme hlexeme => ?_, hrest.1⟩,
                List.forall_mem_cons.2 ⟨?_, hrest.behind.2⟩⟩
              · obtain ⟨pos, -, hpos, -⟩ := hrest.2 lexeme hlexeme
                have := byteLength_pos hspells.ne_nil
                dsimp only
                omega
              · exact ⟨0, word, rfl, ⟨[], rest, rfl, rfl⟩, hspells⟩

theorem utf8ByteSize_ofList_eq (cs : List Char) :
    (String.ofList cs).utf8ByteSize = byteLength cs := by
  induction cs with
  | nil => rfl
  | cons c cs ih =>
      rw [String.ofList_cons, String.utf8ByteSize_append,
        String.utf8ByteSize_singleton, ih, byteLength_cons]

/-- Whether a word stands at a byte offset in a text. -/
def StandsAt (text : String) (pos : Nat) (word : String) : Prop :=
  ∃ before after : String,
    text = before ++ word ++ after ∧ before.utf8ByteSize = pos

/-- Whether a byte offset in a text lies between two characters, or at its
start or its end. -/
def IsBoundary (text : String) (pos : Nat) : Prop :=
  ∃ before after : String, text = before ++ after ∧ before.utf8ByteSize = pos

theorem Stands.standsAt (h : Stands text.toList pos word) :
    StandsAt text pos (String.ofList word) := by
  obtain ⟨before, after, hchars, rfl⟩ := h
  refine ⟨.ofList before, .ofList after, ?_, utf8ByteSize_ofList_eq before⟩
  rw [← String.ofList_append, ← String.ofList_append, ← hchars,
    String.ofList_toList]

/-- Words stand between characters. -/
theorem StandsAt.isBoundary {word : String} (h : StandsAt text pos word) :
    IsBoundary text pos := by
  obtain ⟨before, after, rfl, hpos⟩ := h
  exact ⟨before, word ++ after, String.append_assoc .., hpos⟩

theorem isBoundary_end (text : String) : IsBoundary text text.utf8ByteSize :=
  ⟨text, "", by simp, rfl⟩

theorem IsBoundary.le (h : IsBoundary text pos) : pos ≤ text.utf8ByteSize := by
  obtain ⟨before, after, rfl, rfl⟩ := h
  rw [String.utf8ByteSize_append]
  exact Nat.le_add_right _ _

/-- Every token of a text stands where it is said to, in the order of the
text. -/
theorem places_of_tokenize (h : tokenize text = .ok lexemes) :
    lexemes.Pairwise (·.pos < ·.pos) ∧
      ∀ lexeme ∈ lexemes, lexeme.pos < text.utf8ByteSize ∧ ∃ word,
        StandsAt text lexeme.pos (String.ofList word) ∧
          Spells lexeme.token word := by
  have hplaced := rightlyPlaced_scan 0 text.toList
  rw [← tokenize, h] at hplaced
  refine ⟨hplaced.1, fun lexeme hlexeme => ?_⟩
  obtain ⟨pos, word, hpos, hstands, hspells⟩ := hplaced.2 lexeme hlexeme
  rw [Nat.zero_add] at hpos
  refine ⟨?_, word, hpos ▸ hstands.standsAt, hspells⟩
  obtain ⟨before, after, hchars, rfl⟩ := hstands
  have hword := byteLength_pos hspells.ne_nil
  rw [hpos, ← String.ofList_toList (s := text), hchars,
    utf8ByteSize_ofList_eq, byteLength_append, byteLength_append]
  omega

/-- A stray character stands at the offset that is reported. -/
theorem stray_of_tokenize (h : tokenize text = .error stray) :
    StandsAt text stray.pos (String.singleton stray.char) := by
  have hplaced := rightlyPlaced_scan 0 text.toList
  rw [← tokenize, h] at hplaced
  obtain ⟨pos, hpos, hstands⟩ := hplaced
  rw [hpos, Nat.zero_add]
  simpa using hstands.standsAt

end HindleyMilner.Signature

import HindleyMilner.Signature.Token
import Mathlib.Algebra.GroupWithZero.Nat
import Mathlib.Data.List.TakeWhile

/-
The tokens of a text, as a relation: which characters stand for which token,
with no positions and no pending identifier.  Cutting a text into tokens
succeeds exactly if the text has tokens, and gives these.
-/

namespace HindleyMilner.Signature

/-- The token that an identifier is: a constructor if it starts with an upper
case letter, and a variable otherwise. -/
def Token.word (first : Char) (rest : List Char) : Token :=
  if first.isUpper then .con (.ofChars first rest)
  else .var (String.ofList (first :: rest))

/-- Whether an identifier ends before the characters. -/
def EndsWord (cs : List Char) : Prop :=
  ∀ c ∈ cs.head?, isIdentRest c = false

/-- Whether characters stand for tokens.  An identifier goes on as long as it
can. -/
inductive Lexes : List Char → List Token → Prop
  | done : Lexes [] []
  | blank {c : Char} {cs : List Char} {toks : List Token}
      (hblank : isBlank c = true) (hrest : Lexes cs toks) :
      Lexes (c :: cs) toks
  | punctuation {c : Char} {tok : Token} {cs : List Char}
      {toks : List Token} (hchar : punctuation? c = some tok)
      (hrest : Lexes cs toks) : Lexes (c :: cs) (tok :: toks)
  | arrow {cs : List Char} {toks : List Token} (hrest : Lexes cs toks) :
      Lexes ('-' :: '>' :: cs) (.arrow :: toks)
  | fatArrow {cs : List Char} {toks : List Token} (hrest : Lexes cs toks) :
      Lexes ('=' :: '>' :: cs) (.fatArrow :: toks)
  | word {first : Char} {word cs : List Char} {toks : List Token}
      (hfirst : isIdentStart first = true)
      (hword : ∀ c ∈ word, isIdentRest c = true) (hend : EndsWord cs)
      (hrest : Lexes cs toks) :
      Lexes (first :: (word ++ cs)) (.word first word :: toks)

variable {c : Char} {cs word : List Char} {pos : Nat} {ident : Ident}
  {ident? : Option Ident} {tok : Token} {toks : List Token}

/-! ### One step of the scan -/

theorem scan_arrow (pos : Nat) (ident? : Option Ident) (cs : List Char) :
    scan pos ident? ('-' :: '>' :: cs) =
      (finished ident? ++ ⟨.arrow, pos⟩ :: ·) <$> scan (pos + 2) none cs := by
  rw [scan]
  rfl

theorem scan_fatArrow (pos : Nat) (ident? : Option Ident) (cs : List Char) :
    scan pos ident? ('=' :: '>' :: cs) =
      (finished ident? ++ ⟨.fatArrow, pos⟩ :: ·) <$>
        scan (pos + 2) none cs := by
  rw [scan]
  rfl

def StartsArrow (c : Char) (cs : List Char) : Prop :=
  (c = '-' ∨ c = '=') ∧ ∃ rest, cs = '>' :: rest

theorem scan_char (pos : Nat) (ident? : Option Ident)
    (h : ¬ StartsArrow c cs) :
    scan pos ident? (c :: cs) =
      match readChar pos ident? c with
      | .ok (done, later?) =>
          (done ++ ·) <$> scan (pos + c.utf8Size) later? cs
      | .error stray => .error stray := by
  rw [scan]
  · cases readChar pos ident? c <;> rfl
  · rintro rest rfl rfl
    exact h ⟨Or.inl rfl, rest, rfl⟩
  · rintro rest rfl rfl
    exact h ⟨Or.inr rfl, rest, rfl⟩

theorem not_startsArrow (p : Char → Bool) (hdash : p '-' = false)
    (hequals : p '=' = false) (h : p c = true) : ¬ StartsArrow c cs := by
  rintro ⟨rfl | rfl, -⟩
  · rw [h] at hdash
    contradiction
  · rw [h] at hequals
    contradiction

theorem not_isBlank_of_isIdentStart (h : isIdentStart c = true) :
    isBlank c = false := by
  by_contra hblank
  simp only [isBlank, Bool.not_eq_false, Bool.or_eq_true,
    decide_eq_true_eq] at hblank
  rcases hblank with (((rfl | rfl) | rfl) | rfl) | rfl <;>
    exact absurd h (by decide)

/-! ### Reading a token -/

theorem scan_blank (pos : Nat) (h : isBlank c = true) :
    scan pos none (c :: cs) = scan (pos + c.utf8Size) none cs := by
  rw [scan_char pos none (not_startsArrow isBlank rfl rfl h)]
  simp [readChar, h, finished]

theorem readChar_punctuation (pos : Nat) (h : punctuation? c = some tok) :
    readChar pos none c = .ok ([⟨tok, pos⟩], none) := by
  unfold punctuation? at h
  split at h <;> cases h <;> rfl

theorem scan_punctuation (pos : Nat) (h : punctuation? c = some tok) :
    scan pos none (c :: cs) =
      (⟨tok, pos⟩ :: ·) <$> scan (pos + c.utf8Size) none cs := by
  have hsome : (punctuation? c).isSome = true := by rw [h, Option.isSome_some]
  rw [scan_char pos none
    (not_startsArrow (fun c => (punctuation? c).isSome) rfl rfl hsome),
    readChar_punctuation pos h]
  rfl

/-- An identifier ends where it cannot go on. -/
theorem scan_endsWord (pos : Nat) (ident : Ident) (h : EndsWord cs) :
    scan pos (some ident) cs = (ident.lexeme :: ·) <$> scan pos none cs := by
  match cs with
  | [] => rfl
  | c :: cs =>
      have hc : isIdentRest c = false := h c rfl
      have hread : readChar pos (some ident) c =
          (fun next => (ident.lexeme :: next.1, next.2)) <$>
            readChar pos none c := by
        simp only [readChar, hc, finished]
        split
        · rfl
        · split
          · rfl
          · cases punctuation? c <;> rfl
      by_cases harrow : StartsArrow c cs
      · obtain ⟨rfl | rfl, rest, rfl⟩ := harrow
        · rw [scan_arrow, scan_arrow]
          cases scan (pos + 2) none rest <;> rfl
        · rw [scan_fatArrow, scan_fatArrow]
          cases scan (pos + 2) none rest <;> rfl
      · rw [scan_char _ _ harrow, scan_char _ _ harrow, hread]
        cases readChar pos none c with
        | error stray => rfl
        | ok next =>
            change (ident.lexeme :: next.1 ++ ·) <$> _ =
              (ident.lexeme :: ·) <$> (next.1 ++ ·) <$> _
            rw [← comp_map]
            rfl

theorem scan_push (pos : Nat) (ident : Ident) (h : isIdentRest c = true) :
    scan pos (some ident) (c :: cs) =
      scan (pos + c.utf8Size) (some (ident.push c)) cs := by
  rw [scan_char pos _ (not_startsArrow isIdentRest rfl rfl h)]
  simp [readChar, h]

def byteLength (cs : List Char) : Nat :=
  (cs.map Char.utf8Size).sum

@[simp] theorem byteLength_nil : byteLength [] = 0 := rfl

@[simp] theorem byteLength_cons (c : Char) (cs : List Char) :
    byteLength (c :: cs) = c.utf8Size + byteLength cs := by
  simp [byteLength]

@[simp] theorem byteLength_append (cs ds : List Char) :
    byteLength (cs ++ ds) = byteLength cs + byteLength ds := by
  simp [byteLength]

/-- The token of an identifier that is read to its end. -/
theorem scan_pending (pos : Nat) (ident : Ident)
    (hword : ∀ c ∈ word, isIdentRest c = true) (hend : EndsWord cs) :
    scan pos (some ident) (word ++ cs) =
      (⟨.word ident.first (ident.rest.reverse ++ word), ident.pos⟩ :: ·) <$>
        scan (pos + byteLength word) none cs := by
  induction word generalizing pos ident with
  | nil =>
      rw [List.nil_append, scan_endsWord pos ident hend, List.append_nil]
      rfl
  | cons c word ih =>
      rw [List.forall_mem_cons] at hword
      rw [List.cons_append, scan_push pos ident hword.1]
      simpa [Ident.push, Nat.add_assoc] using
        ih (pos + c.utf8Size) (ident.push c) hword.2

/-- An identifier is read to its last character. -/
theorem scan_word (pos : Nat) {first : Char}
    (hfirst : isIdentStart first = true)
    (hword : ∀ c ∈ word, isIdentRest c = true) (hend : EndsWord cs) :
    scan pos none (first :: (word ++ cs)) =
      (⟨.word first word, pos⟩ :: ·) <$>
        scan (pos + byteLength (first :: word)) none cs := by
  have hfresh : scan pos none (first :: (word ++ cs)) =
      scan (pos + first.utf8Size) (some ⟨pos, first, []⟩) (word ++ cs) := by
    rw [scan_char pos none (not_startsArrow isIdentStart rfl rfl hfirst)]
    simp [readChar, not_isBlank_of_isIdentStart hfirst, hfirst, finished]
  rw [hfresh, byteLength_cons, ← Nat.add_assoc]
  exact scan_pending _ ⟨pos, first, []⟩ hword hend

theorem scan_stray (pos : Nat) (harrow : ¬ StartsArrow c cs)
    (hblank : isBlank c = false) (hfirst : isIdentStart c = false)
    (hchar : punctuation? c = none) :
    scan pos none (c :: cs) = .error ⟨c, pos⟩ := by
  rw [scan_char pos none harrow]
  simp [readChar, hblank, hfirst, hchar]

/-- What can go on an identifier, and the characters after it. -/
theorem exists_word (cs : List Char) :
    ∃ word rest, cs = word ++ rest ∧
      (∀ c ∈ word, isIdentRest c = true) ∧ EndsWord rest := by
  refine ⟨cs.takeWhile isIdentRest, cs.dropWhile isIdentRest,
    List.takeWhile_append_dropWhile.symm,
    fun c hc => List.mem_takeWhile_imp hc, fun c hc => ?_⟩
  have hnot := List.head?_dropWhile_not isIdentRest cs
  rw [Option.mem_def.1 hc] at hnot
  simpa using hnot

/-- What characters begin with: nothing, a character that separates tokens, a
token, or a character that starts none. -/
inductive Begins : List Char → Prop
  | done : Begins []
  | blank {c : Char} {cs : List Char} (hblank : isBlank c = true) :
      Begins (c :: cs)
  | punctuation {c : Char} {tok : Token} {cs : List Char}
      (hchar : punctuation? c = some tok) : Begins (c :: cs)
  | arrow {cs : List Char} : Begins ('-' :: '>' :: cs)
  | fatArrow {cs : List Char} : Begins ('=' :: '>' :: cs)
  | word {first : Char} {word cs : List Char}
      (hfirst : isIdentStart first = true)
      (hword : ∀ c ∈ word, isIdentRest c = true) (hend : EndsWord cs) :
      Begins (first :: (word ++ cs))
  | stray {c : Char} {cs : List Char} (harrow : ¬ StartsArrow c cs)
      (hblank : isBlank c = false) (hfirst : isIdentStart c = false)
      (hchar : punctuation? c = none) : Begins (c :: cs)

/-- Characters always begin with one of these. -/
theorem begins (cs : List Char) : Begins cs := by
  cases cs with
  | nil => exact .done
  | cons c cs =>
      by_cases harrow : StartsArrow c cs
      · obtain ⟨rfl | rfl, rest, rfl⟩ := harrow
        · exact .arrow
        · exact .fatArrow
      cases hblank : isBlank c with
      | true => exact .blank hblank
      | false =>
      cases hfirst : isIdentStart c with
      | true =>
          obtain ⟨word, rest, rfl, hword, hend⟩ := exists_word cs
          exact .word hfirst hword hend
      | false =>
      cases hchar : punctuation? c with
      | some tok => exact .punctuation hchar
      | none => exact .stray harrow hblank hfirst hchar

/-! ### The tokens of a text -/

theorem exists_scan_of_lexes (h : Lexes cs toks) (pos : Nat) :
    ∃ lexemes, scan pos none cs = .ok lexemes ∧
      lexemes.map (·.token) = toks := by
  induction h generalizing pos with
  | done => exact ⟨[], rfl, rfl⟩
  | blank hblank _ ih =>
      rw [scan_blank pos hblank]
      exact ih _
  | punctuation hchar _ ih =>
      obtain ⟨lexemes, hscan, rfl⟩ := ih (pos + Char.utf8Size _)
      rw [scan_punctuation pos hchar, hscan]
      exact ⟨_, rfl, rfl⟩
  | arrow _ ih =>
      obtain ⟨lexemes, hscan, rfl⟩ := ih (pos + 2)
      rw [scan_arrow, hscan]
      exact ⟨_, rfl, rfl⟩
  | fatArrow _ ih =>
      obtain ⟨lexemes, hscan, rfl⟩ := ih (pos + 2)
      rw [scan_fatArrow, hscan]
      exact ⟨_, rfl, rfl⟩
  | word hfirst hword hend _ ih =>
      obtain ⟨lexemes, hscan, rfl⟩ := ih (pos + byteLength _)
      rw [scan_word pos hfirst hword hend, hscan]
      exact ⟨_, rfl, rfl⟩

theorem exists_ok_of_map_ok {A B E : Type} {f : A → B} {x : Except E A}
    {b : B} (h : f <$> x = .ok b) : ∃ a, x = .ok a ∧ f a = b := by
  cases x with
  | error e => simp [Functor.map, Except.map] at h
  | ok a => exact ⟨a, rfl, by simpa [Functor.map, Except.map] using h⟩

/-- What is scanned are the tokens that the characters stand for. -/
theorem lexes_of_scan {lexemes : List Lexeme}
    (h : scan pos none cs = .ok lexemes) :
    Lexes cs (lexemes.map (·.token)) := by
  induction hlength : cs.length using Nat.strong_induction_on
    generalizing cs pos lexemes with
  | h length ih =>
      cases begins cs with
      | done =>
          cases h
          exact .done
      | @blank c cs hblank =>
          rw [scan_blank pos hblank] at h
          exact .blank hblank (ih _ (by simp [← hlength]) h rfl)
      | @punctuation c tok cs hchar =>
          rw [scan_punctuation pos hchar] at h
          obtain ⟨lexemes, hscan, rfl⟩ := exists_ok_of_map_ok h
          exact .punctuation hchar (ih _ (by simp [← hlength]) hscan rfl)
      | @arrow cs =>
          rw [scan_arrow] at h
          obtain ⟨lexemes, hscan, rfl⟩ := exists_ok_of_map_ok h
          have hlt : cs.length < length := by
            rw [← hlength, List.length_cons, List.length_cons]
            omega
          exact .arrow (ih _ hlt hscan rfl)
      | @fatArrow cs =>
          rw [scan_fatArrow] at h
          obtain ⟨lexemes, hscan, rfl⟩ := exists_ok_of_map_ok h
          have hlt : cs.length < length := by
            rw [← hlength, List.length_cons, List.length_cons]
            omega
          exact .fatArrow (ih _ hlt hscan rfl)
      | @word first word cs hfirst hword hend =>
          rw [scan_word pos hfirst hword hend] at h
          obtain ⟨lexemes, hscan, rfl⟩ := exists_ok_of_map_ok h
          have hlt : cs.length < length := by
            rw [← hlength, List.length_cons, List.length_append]
            omega
          exact .word hfirst hword hend (ih _ hlt hscan rfl)
      | stray harrow hblank hfirst hchar =>
          rw [scan_stray pos harrow hblank hfirst hchar] at h
          contradiction

/-- A text is cut into tokens exactly if it has tokens, which are these. -/
theorem tokenize_iff {text : String} :
    (∃ lexemes, tokenize text = .ok lexemes ∧
        lexemes.map (·.token) = toks) ↔
      Lexes text.toList toks := by
  constructor
  · rintro ⟨lexemes, hscan, rfl⟩
    exact lexes_of_scan hscan
  · intro h
    exact exists_scan_of_lexes h 0

/-- Characters stand for tokens in one way only. -/
theorem Lexes.unique {others : List Token} (h : Lexes cs toks)
    (hothers : Lexes cs others) : toks = others := by
  obtain ⟨lexemes, hscan, rfl⟩ := exists_scan_of_lexes h 0
  obtain ⟨lexemes', hscan', rfl⟩ := exists_scan_of_lexes hothers 0
  rw [hscan] at hscan'
  cases hscan'
  rfl

end HindleyMilner.Signature

import HindleyMilner.Proofs.ByteScan
import HindleyMilner.Proofs.ScopeUse
import HindleyMilner.Proofs.ViablePrefix

/-
Where the errors of signatures are found.  An error lies between characters of
the text, whatever these are.  If something else was expected, then the tokens
before that place are the start of a signature that can be read in the same
state and scope, and at the next token, or at the end, they stop being so.
-/

namespace HindleyMilner.Signature

variable {table : ClassTable} {now : Scope × Store} {L : List Token → Prop}
  {lexemes consumed rest : List Lexeme} {toks left before : List Token}
  {tok : Token} {next? : Option Token} {t : NamedTy} {textEnd pos : Nat}
  {e : SignatureError}

/-! ### Where tokens break off -/

/-- Whether tokens are the start of a word of a language, and stop being so at
the next token, or are no word of it if they are all there is. -/
structure Breaks (L : List Token → Prop) (before : List Token)
    (next? : Option Token) : Prop where
  completes : ∃ more, L (before ++ more) ∧
    ∀ tok ∈ more, Machine.Completes tok
  refuses : ∀ tok ∈ next?, ∀ more, ¬ L (before ++ tok :: more)
  ends : next? = none → ¬ L before

def Types (toks : List Token) : Prop :=
  ∃ t, IsType toks t

theorem Types.not_mem_fatArrow (h : Types toks) : .fatArrow ∉ toks := by
  obtain ⟨t, ht⟩ := h
  obtain ⟨m, hm, -⟩ := Machine.exists_shifts_of_isType ht
  exact hm.not_mem_fatArrow

/-- Reading a type breaks off where no type goes on. -/
theorem exists_breaks_of_readType {result : Except Expected NamedTy}
    (hread : readType lexemes = ⟨result, rest⟩)
    (hends : rest = [] → ∀ t, result ≠ .ok t) :
    ∃ consumed, lexemes = consumed ++ rest ∧
      Breaks Types (consumed.map (·.token))
        (rest.head?.map (·.token)) := by
  obtain ⟨consumed, last, hlexemes, hshifts, hstop⟩ :=
    Machine.exists_stop .initial lexemes
  have hrest : (Machine.initial.read lexemes).rest = rest :=
    congrArg Reading.rest hread
  rw [hrest] at hlexemes hstop
  refine ⟨consumed, hlexemes, ?_, ?_, ?_⟩
  · obtain ⟨more, t, ht, hmore⟩ := hshifts.exists_isType
    exact ⟨more, ⟨t, ht⟩, hmore⟩
  · intro tok htok more
    obtain ⟨lexeme, hlexeme, rfl⟩ := Option.map_eq_some_iff.1 htok
    rintro ⟨t, ht⟩
    exact hshifts.not_isType (hstop lexeme hlexeme) ht
  · intro hnone
    obtain rfl : rest = [] := by simpa using hnone
    rintro ⟨t, ht⟩
    rw [List.append_nil] at hlexemes
    subst hlexemes
    have hread' := ht.readType_eq_nil
    rw [hread] at hread'
    cases hread'
    exact hends rfl t rfl

theorem BreaksOff.exists_breaks (h : BreaksOff textEnd lexemes e) :
    ∃ consumed rest, lexemes = consumed ++ rest ∧
      e.pos = startOf textEnd rest ∧ (∃ what, e.cause = .expected what) ∧
      Breaks Types (consumed.map (·.token))
        (rest.head?.map (·.token)) := by
  cases h with
  | @inside what rest hread =>
      obtain ⟨consumed, hlexemes, hbreaks⟩ :=
        exists_breaks_of_readType hread fun _ _ => nofun
      exact ⟨consumed, rest, hlexemes, rfl, ⟨what, rfl⟩, hbreaks⟩
  | @behind t rest hread hrest =>
      obtain ⟨consumed, hlexemes, hbreaks⟩ :=
        exists_breaks_of_readType hread fun hnil => absurd hnil hrest
      exact ⟨consumed, rest, hlexemes, rfl, ⟨_, rfl⟩, hbreaks⟩

/-! ### Types in signatures -/

theorem Breaks.not_mem_fatArrow (h : Breaks Types before next?) :
    .fatArrow ∉ before := by
  obtain ⟨more, htypes, -⟩ := h.completes
  intro hmem
  exact htypes.not_mem_fatArrow (List.mem_append_left more hmem)

/-- What is accepted is a type, or a context and a type. -/
theorem Accepted.types_or_exists (h : Accepted table now toks) :
    Types toks ∨ ∃ left right, toks = left ++ .fatArrow :: right ∧
      Types left ∧ Types right := by
  cases h with
  | type ht => exact .inl ⟨_, ht⟩
  | context hfirst _ ht => exact .inr ⟨_, _, rfl, ⟨_, hfirst⟩, _, ht⟩

/-- A signature that goes on with a fat arrow after a type ends with
another. -/
theorem Accepted.types_right {right : List Token}
    (h : Accepted table now (left ++ .fatArrow :: right))
    (hleft : Types left) : Types right := by
  rcases h.types_or_exists with
    htypes | ⟨left', right', htoks, hleft', hright'⟩
  · exact absurd (by simp) htypes.not_mem_fatArrow
  · obtain ⟨t, ht⟩ := hleft
    obtain ⟨t', ht'⟩ := hleft'
    obtain ⟨lexemes, hlexemes⟩ := exists_lexemes (left ++ .fatArrow :: right)
    obtain ⟨pos, rest, hread, rfl⟩ := ht.readType_eq_fatArrow hlexemes
    obtain ⟨pos', rest', hread', rfl⟩ :=
      ht'.readType_eq_fatArrow (hlexemes.trans htoks)
    rw [hread] at hread'
    cases hread'
    exact hright'

/-- Where the first type breaks off and is not followed by a fat arrow,
signatures break off. -/
theorem Breaks.start (h : Breaks Types before next?)
    (hfat : next? = some .fatArrow → ¬ Types before) :
    Breaks (Accepted table now) before next? where
  completes := by
    obtain ⟨more, ⟨t, ht⟩, hmore⟩ := h.completes
    exact ⟨more, .type ht, hmore⟩
  refuses tok htok more haccepted := by
    rcases haccepted.types_or_exists with
      htypes | ⟨left, right, htoks, hleft, -⟩
    · exact h.refuses tok htok more htypes
    · rcases List.append_eq_append_iff.1 htoks with
        ⟨others, rfl, htok'⟩ | ⟨others, rfl, htok'⟩
      · cases others with
        | nil =>
            cases htok'
            rw [List.append_nil] at hleft
            exact hfat htok hleft
        | cons other others =>
            cases htok'
            exact h.refuses _ htok others hleft
      · cases others with
        | nil =>
            cases htok'
            rw [List.append_nil] at hfat
            exact hfat htok hleft
        | cons other others =>
            cases htok'
            exact h.not_mem_fatArrow (by simp)
  ends hnone haccepted := by
    rcases haccepted.types_or_exists with htypes | ⟨left, right, rfl, -⟩
    · exact h.ends hnone htypes
    · exact h.not_mem_fatArrow (by simp)

/-- Where the type behind a context breaks off, signatures break off. -/
theorem Breaks.behind {first : NamedTy} (hfirst : IsType left first)
    (himposable : Imposable table now left first)
    (h : Breaks Types before next?) :
    Breaks (Accepted table now) (left ++ .fatArrow :: before) next? where
  completes := by
    obtain ⟨more, ⟨t, ht⟩, hmore⟩ := h.completes
    refine ⟨more, ?_, hmore⟩
    rw [List.append_assoc]
    exact .context hfirst himposable ht
  refuses tok htok more haccepted := by
    rw [List.append_assoc] at haccepted
    exact h.refuses tok htok more (haccepted.types_right ⟨_, hfirst⟩)
  ends hnone haccepted :=
    h.ends hnone (haccepted.types_right ⟨_, hfirst⟩)

/-- Tokens that are refused for what was expected break off as a signature
where this is reported. -/
theorem Faults.exists_breaks {E : SignatureError.Cause → Prop}
    (h : Faults table E textEnd lexemes now e) :
    ∃ consumed rest, lexemes = consumed ++ rest ∧
      e.pos = startOf textEnd rest ∧
      (E e.cause ∨ (∃ what, e.cause = .expected what) ∧
        Breaks (Accepted table now) (consumed.map (·.token))
          (rest.head?.map (·.token))) := by
  cases h with
  | first hfat he =>
      obtain ⟨consumed, rest, hlexemes, hpos, hcause, hbreaks⟩ :=
        he.exists_breaks
      refine ⟨consumed, rest, hlexemes, hpos,
        .inr ⟨hcause, hbreaks.start fun hnext ⟨t, ht⟩ => ?_⟩⟩
      subst hlexemes
      obtain ⟨lexeme, hlexeme, htok⟩ := Option.map_eq_some_iff.1 hnext
      obtain ⟨others, rfl⟩ := List.head?_eq_some_iff.1 hlexeme
      have htoks : (consumed ++ lexeme :: others).map (·.token) =
          consumed.map (·.token) ++ .fatArrow :: others.map (·.token) := by
        simp [htok]
      obtain ⟨pos, others', hread, -⟩ := ht.readType_eq_fatArrow htoks
      exact hfat t pos others' hread
  | context hpos hcause => exact ⟨[], lexemes, rfl, hpos, .inl hcause⟩
  | @last left right pos first _ hlexemes hfirst himposable he =>
      obtain ⟨consumed, rest, rfl, hpos, hcause, hbreaks⟩ := he.exists_breaks
      refine ⟨left ++ ⟨.fatArrow, pos⟩ :: consumed, rest, by simp [hlexemes],
        hpos, .inr ⟨hcause, ?_⟩⟩
      rw [List.map_append, List.map_cons]
      exact hbreaks.behind hfirst himposable

/-! ### Places of errors -/

/-- The tokens that start before an offset. -/
def tokensBefore (pos : Nat) (lexemes : List Lexeme) : List Token :=
  (lexemes.filter fun lexeme => decide (lexeme.pos < pos)).map (·.token)

theorem lt_startOf {text : String} {lexeme : Lexeme}
    (h : tokenize text = .ok (consumed ++ rest))
    (hlexeme : lexeme ∈ consumed) :
    lexeme.pos < startOf text.utf8ByteSize rest := by
  obtain ⟨hsorted, hplaces⟩ := places_of_tokenize h
  cases rest with
  | nil => exact (hplaces lexeme (List.mem_append_left _ hlexeme)).1
  | cons next rest =>
      exact (List.pairwise_append.1 hsorted).2.2 lexeme hlexeme next
        List.mem_cons_self

theorem startOf_le {text : String} {lexeme : Lexeme}
    (h : tokenize text = .ok (consumed ++ rest)) (hlexeme : lexeme ∈ rest) :
    rest.head? = some lexeme ∨
      startOf text.utf8ByteSize rest < lexeme.pos := by
  have hsorted := (List.pairwise_append.1 (places_of_tokenize h).1).2.1
  cases rest with
  | nil => contradiction
  | cons next rest =>
      rcases List.mem_cons.1 hlexeme with rfl | hlexeme
      · exact .inl rfl
      · exact .inr ((List.pairwise_cons.1 hsorted).1 lexeme hlexeme)

/-- The tokens before the first token that was not read are those that
were. -/
theorem tokensBefore_startOf {text : String}
    (h : tokenize text = .ok (consumed ++ rest)) :
    tokensBefore (startOf text.utf8ByteSize rest) (consumed ++ rest) =
      consumed.map (·.token) := by
  have hconsumed : consumed.filter (fun lexeme =>
      decide (lexeme.pos < startOf text.utf8ByteSize rest)) = consumed :=
    List.filter_eq_self.2 fun _ hlexeme =>
      decide_eq_true (lt_startOf h hlexeme)
  have hrest : rest.filter (fun lexeme =>
      decide (lexeme.pos < startOf text.utf8ByteSize rest)) = [] := by
    rw [List.filter_eq_nil_iff]
    intro lexeme hlexeme hlt
    rcases startOf_le h hlexeme with hhead | hgt
    · simp [startOf, hhead] at hlt
    · exact Nat.lt_asymm hgt (of_decide_eq_true hlt)
  rw [tokensBefore, List.filter_append, hconsumed, hrest, List.append_nil]

/-- Only the first token that was not read stands where it starts. -/
theorem head?_of_pos_eq {text : String} {lexeme : Lexeme}
    (h : tokenize text = .ok (consumed ++ rest))
    (hlexeme : lexeme ∈ consumed ++ rest)
    (hpos : lexeme.pos = startOf text.utf8ByteSize rest) :
    rest.head? = some lexeme := by
  rcases List.mem_append.1 hlexeme with hlexeme | hlexeme
  · exact absurd hpos (Nat.ne_of_lt (lt_startOf h hlexeme))
  · exact (startOf_le h hlexeme).resolve_right
      fun hgt => Nat.ne_of_gt hgt hpos

theorem Machine.Completes.exists_spells (h : Machine.Completes tok) :
    ∃ word, Spells tok word := by
  rcases h with rfl | rfl | rfl
  · have hword : Spells (.word 'a' []) ['a'] := .word rfl (by simp)
    exact ⟨_, hword⟩
  · exact ⟨[')'], .punctuation rfl⟩
  · exact ⟨[']'], .punctuation rfl⟩

theorem isBoundary_startOf {text : String}
    (h : tokenize text = .ok (consumed ++ rest)) :
    IsBoundary text (startOf text.utf8ByteSize rest) := by
  cases rest with
  | nil => exact isBoundary_end text
  | cons next rest =>
      obtain ⟨-, word, hstands, -⟩ := (places_of_tokenize h).2 next (by simp)
      exact hstands.isBoundary

end HindleyMilner.Signature

namespace HindleyMilner.TypeState

open Signature

variable {st : TypeState} {scope : Scope} {text : String}
  {toks : List Token} {lexemes consumed rest : List Lexeme} {pos : Nat}

/-- Whether tokens are those of a text that is read in a state and a scope. -/
def Reads (st : TypeState) (scope : Scope) (toks : List Token) : Prop :=
  ∃ text : String, Lexes text.toList toks ∧
    ∃ ty, (st.parse scope text).1 = .ok ty

theorem Reads.accepted (h : st.Reads scope toks) :
    Accepted st.classes (scope, st.store) toks := by
  obtain ⟨text, hlexes, hok⟩ := h
  obtain ⟨toks', hlexes', haccepted⟩ := parse_ok_iff.1 hok
  rwa [hlexes.unique hlexes']

theorem reads_of_accepted (hspelled : ∀ tok ∈ toks, ∃ word, Spells tok word)
    (h : Accepted st.classes (scope, st.store) toks) :
    st.Reads scope toks := by
  obtain ⟨text, hlexes⟩ := exists_lexes hspelled
  exact ⟨text, hlexes, parse_ok_iff.2 ⟨toks, hlexes, h⟩⟩

/-- Whether an offset is where the tokens of a text stop being the start of a
signature: the tokens before it begin one, and none goes on with the token
that is there, or ends there if there is none. -/
structure StopsAt (st : TypeState) (scope : Scope) (text : String)
    (lexemes : List Lexeme) (pos : Nat) : Prop where
  goesOn : ∃ more, st.Reads scope (tokensBefore pos lexemes ++ more)
  stops : ∀ lexeme ∈ lexemes, lexeme.pos = pos → ∀ more,
    ¬ st.Reads scope (tokensBefore pos lexemes ++ lexeme.token :: more)
  token : pos < text.utf8ByteSize → ∃ lexeme ∈ lexemes, lexeme.pos = pos
  ends : pos = text.utf8ByteSize →
    ¬ st.Reads scope (tokensBefore pos lexemes)

/-- Where tokens break off as a signature they stop being the start of one
that is read. -/
theorem stopsAt_of_breaks (hlex : tokenize text = .ok (consumed ++ rest))
    (h : Breaks (Accepted st.classes (scope, st.store))
      (consumed.map (·.token)) (rest.head?.map (·.token))) :
    st.StopsAt scope text (consumed ++ rest)
      (startOf text.utf8ByteSize rest) := by
  have hspelled : ∀ tok ∈ consumed.map (·.token), ∃ word, Spells tok word := by
    intro tok htok
    obtain ⟨lexeme, hlexeme, rfl⟩ := List.mem_map.1 htok
    obtain ⟨-, word, -, hword⟩ := (places_of_tokenize hlex).2 lexeme
      (List.mem_append_left _ hlexeme)
    exact ⟨word, hword⟩
  have hbefore := tokensBefore_startOf hlex
  refine ⟨?_, fun lexeme hlexeme hpos more hreads => ?_, fun hlt => ?_,
    fun hend hreads => ?_⟩
  · obtain ⟨more, haccepted, hmore⟩ := h.completes
    rw [hbefore]
    exact ⟨more, reads_of_accepted (List.forall_mem_append.2 ⟨hspelled,
      fun tok htok => (hmore tok htok).exists_spells⟩) haccepted⟩
  · rw [hbefore] at hreads
    have hhead := head?_of_pos_eq hlex hlexeme hpos
    exact h.refuses lexeme.token (by simp [hhead]) more hreads.accepted
  · cases rest with
    | nil => exact absurd hlt (Nat.lt_irrefl _)
    | cons next rest => exact ⟨next, by simp, rfl⟩
  · rw [hbefore] at hreads
    refine h.ends ?_ hreads.accepted
    cases rest with
    | nil => rfl
    | cons next rest =>
        exact absurd hend (Nat.ne_of_lt
          ((places_of_tokenize hlex).2 next (by simp)).1)

/-- What reading in a scope of the session reports. -/
theorem InUse.error_cases (h : st.InUse scope) {e : SignatureError}
    (he : (st.parse scope text).1 = .error e) :
    (∃ stray, tokenize text = .error stray ∧
      e = ⟨stray.pos, .unexpectedChar stray.char⟩) ∨
    ∃ consumed rest, tokenize text = .ok (consumed ++ rest) ∧
      e.pos = startOf text.utf8ByteSize rest ∧
      (OfContext e.cause ∨ (∃ what, e.cause = .expected what) ∧
        Breaks (Accepted st.classes (scope, st.store))
          (consumed.map (·.token)) (rest.head?.map (·.token))) := by
  obtain ⟨harises, hcalled⟩ := h.arises_called
  have hyields := (keptByReading_orderly st.classes).yields_parse
    (fun toks (htoks : Lexes text.toList toks) _ => htoks.name_ne)
    (harises.orderly hcalled)
  rw [parse_eq] at he
  split at he
  · cases he
  · rename_i e' next hrun
    cases he
    rw [hrun] at hyields
    rcases hyields.2 with hstray | ⟨lexemes, hlex, hfaults⟩
    · exact .inl hstray
    · obtain ⟨consumed, rest, rfl, hpos, hcause⟩ := hfaults.exists_breaks
      exact .inr ⟨consumed, rest, hlex, hpos, hcause⟩

/-- Reading a text in a scope of the session never comes to a case that is
ruled out, and its errors are exact.  The scan of the bytes finds every slice
that it takes, whatever the characters of the text are.  Every token is cut out
between two characters and no name is empty.  An error lies between two
characters of the text too, it is never about a variable without a name or
about two types that cannot be equal, and if something else was expected, it
is where the tokens stop being the start of a signature that is read. -/
theorem parse_errors (h : st.InUse scope) (text : String) :
    (∀ fuel, text.utf8ByteSize < fuel →
      (scanBytes text fuel 0).run = some (tokenize text)) ∧
    (∀ lexemes, tokenize text = .ok lexemes → ∀ lexeme ∈ lexemes,
      lexeme.token ≠ .var "" ∧ ∃ word : String,
        StandsAt text lexeme.pos word ∧
          Spells lexeme.token word.toList) ∧
    ∀ e, (st.parse scope text).1 = .error e →
      (e.pos ≤ text.utf8ByteSize ∧ IsBoundary text e.pos) ∧
      ((∀ c, e.cause ≠ .namelessVar c) ∧
        ∀ cause, e.cause ≠ .unification cause) ∧
      (∀ c, e.cause = .unexpectedChar c →
        StandsAt text e.pos (String.singleton c)) ∧
      ∀ what, e.cause = .expected what → ∃ lexemes,
        tokenize text = .ok lexemes ∧
          st.StopsAt scope text lexemes e.pos := by
  refine ⟨fun fuel hfuel => scanBytes_eq_tokenize text hfuel,
    fun lexemes hlex lexeme hlexeme => ?_, fun e he => ?_⟩
  · obtain ⟨-, word, hstands, hword⟩ :=
      (places_of_tokenize hlex).2 lexeme hlexeme
    refine ⟨?_, _, hstands, by rwa [String.toList_ofList]⟩
    intro hempty
    rw [hempty] at hword
    exact hword.name_ne rfl
  rcases h.error_cases he with
    ⟨stray, hstray, rfl⟩ | ⟨consumed, rest, hlex, hpos, hcause⟩
  · have hstands := stray_of_tokenize hstray
    refine ⟨⟨hstands.isBoundary.le, hstands.isBoundary⟩, by simp, ?_, by simp⟩
    rintro c ⟨⟩
    exact hstands
  · have hboundary := isBoundary_startOf hlex
    rw [hpos]
    refine ⟨⟨hboundary.le, hboundary⟩, ?_⟩
    rcases hcause with hcontext | ⟨⟨what, hwhat⟩, hbreaks⟩
    · obtain ⟨hruled, hchar, hexpected⟩ := hcontext.excludes
      exact ⟨hruled, fun c hc => absurd hc (hchar c),
        fun what hwhat => absurd hwhat (hexpected what)⟩
    · refine ⟨by simp [hwhat], by simp [hwhat], fun _ _ => ?_⟩
      exact ⟨_, hlex, stopsAt_of_breaks hlex hbreaks⟩

/-- `listSession` and a scope that `b` was read in. -/
def readSession : TypeState × Scope :=
  ((listSession.parse .empty "b").2.2, (listSession.parse .empty "b").2.1)

theorem readSession_inUse : readSession.1.InUse readSession.2 :=
  .parse (.new listSession_reachable.arises) "b"

def unclosedLexemes : List Lexeme :=
  [⟨.con (.ofChars 'E' ['q']), 0⟩, ⟨.var "a", 3⟩, ⟨.fatArrow, 5⟩,
    ⟨.openRound, 8⟩, ⟨.var "a", 9⟩, ⟨.comma, 10⟩, ⟨.var "b", 12⟩]

theorem parse_errors_unclosed :
    (readSession.1.parse readSession.2 "Eq a => (a, b").1 =
        .error ⟨13, .expected .closeRound⟩ ∧
      (∃ more, readSession.1.Reads readSession.2
        (unclosedLexemes.map (·.token) ++ more)) ∧
      ¬ readSession.1.Reads readSession.2
        (unclosedLexemes.map (·.token)) := by
  have herror : (readSession.1.parse readSession.2 "Eq a => (a, b").1 =
      .error ⟨13, .expected .closeRound⟩ := by
    decide +kernel
  have hlex : tokenize "Eq a => (a, b" = .ok unclosedLexemes := rfl
  obtain ⟨lexemes, hlex', hstops⟩ :=
    ((parse_errors readSession_inUse "Eq a => (a, b").2.2 _ herror).2.2.2 _ rfl
  rw [hlex] at hlex'
  cases hlex'
  exact ⟨herror, hstops.goesOn, hstops.ends rfl⟩

end HindleyMilner.TypeState

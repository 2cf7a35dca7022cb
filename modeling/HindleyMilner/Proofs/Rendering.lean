import HindleyMilner.Display
import HindleyMilner.Proofs.Grammar
import HindleyMilner.Proofs.Lexing
import HindleyMilner.Proofs.TypeShape
import Mathlib.Data.List.Forall2

/-
Types as they are written, and how such texts are read.  A text is put
together from identifiers and from punctuation that no identifier goes on
with, so its tokens are those of its parts; and what is written in a place is
a type, an operand of an arrow or an argument of the grammar, as the place
needs it.
-/

namespace HindleyMilner

def Ty.cons {V : Type} : Ty V → List Name
  | .var _ => []
  | .con name => [name]
  | .app func arg => func.cons ++ arg.cons

namespace Signature

/-! ### Texts and their tokens -/

/-- Whether a text is cut into tokens in front of anything that no identifier
goes on with. -/
def Renders (text : String) (toks : List Token) : Prop :=
  ∀ ⦃rest more⦄, EndsWord rest → Lexes rest more →
    Lexes (text.toList ++ rest) (toks ++ more)

/-- Whether a text is cut into tokens in front of anything, and no identifier
goes on with it. -/
structure Separates (text : String) (toks : List Token) : Prop where
  endsWord : ∀ rest, EndsWord (text.toList ++ rest)
  lexes : ∀ ⦃rest more⦄, Lexes rest more →
    Lexes (text.toList ++ rest) (toks ++ more)

variable {a b sep text : String} {as bs toks more : List Token}
  {t u func : NamedTy} {ts : List NamedTy}

theorem Renders.lexes (h : Renders text toks) : Lexes text.toList toks := by
  have hend : EndsWord [] := fun c hc => nomatch hc
  simpa using h hend .done

theorem Separates.renders (h : Separates text toks) : Renders text toks :=
  fun _ _ _ hrest => h.lexes hrest

theorem Renders.before (ha : Renders a as) (hsep : Separates sep toks) :
    Renders (a ++ sep) (as ++ toks) := by
  intro rest more _ hrest
  rw [String.toList_append, List.append_assoc, List.append_assoc]
  exact ha (hsep.endsWord rest) (hsep.lexes hrest)

theorem Renders.after (hb : Renders b bs) (hsep : Separates sep toks) :
    Renders (sep ++ b) (toks ++ bs) := by
  intro rest more hend hrest
  rw [String.toList_append, List.append_assoc, List.append_assoc]
  exact hsep.lexes (hb hend hrest)

/-- Texts with a separator between them are cut into the tokens of all three. -/
theorem Renders.join (ha : Renders a as) (hsep : Separates sep toks)
    (hb : Renders b bs) : Renders (a ++ sep ++ b) (as ++ toks ++ bs) := by
  intro rest more hend hrest
  rw [String.toList_append, String.toList_append, List.append_assoc,
    List.append_assoc, List.append_assoc, List.append_assoc]
  exact ha (hsep.endsWord _) (hsep.lexes (hb hend hrest))

theorem separates_of_head {c : Char} {cs : List Char}
    (htext : text.toList = c :: cs) (hc : isIdentRest c = false)
    (h : ∀ ⦃rest more⦄, Lexes rest more →
      Lexes (c :: cs ++ rest) (toks ++ more)) : Separates text toks where
  endsWord rest := by
    rw [htext]
    intro d hd
    cases hd
    exact hc
  lexes rest more hrest := by
    rw [htext]
    exact h hrest

theorem separates_punctuation {c : Char} {tok : Token}
    (htext : text.toList = [c]) (hchar : punctuation? c = some tok) :
    Separates text [tok] := by
  have hc : isIdentRest c = false := by
    unfold punctuation? at hchar
    split at hchar <;> cases hchar <;> rfl
  exact separates_of_head htext hc fun _ _ h => .punctuation hchar h

theorem separates_space : Separates " " [] :=
  separates_of_head rfl rfl fun _ _ h => .blank rfl h

theorem separates_comma : Separates ", " [.comma] :=
  separates_of_head rfl rfl fun _ _ h => .punctuation rfl (.blank rfl h)

theorem separates_arrow : Separates " -> " [.arrow] :=
  separates_of_head rfl rfl fun _ _ h =>
    .blank rfl (.arrow (.blank rfl h))

theorem separates_fatArrow : Separates " => " [.fatArrow] :=
  separates_of_head rfl rfl fun _ _ h =>
    .blank rfl (.fatArrow (.blank rfl h))

theorem separates_openRound : Separates "(" [.openRound] :=
  separates_punctuation rfl rfl

theorem separates_closeRound : Separates ")" [.closeRound] :=
  separates_punctuation rfl rfl

theorem separates_openSquare : Separates "[" [.openSquare] :=
  separates_punctuation rfl rfl

theorem separates_closeSquare : Separates "]" [.closeSquare] :=
  separates_punctuation rfl rfl

theorem renders_word {first : Char} {rest : List Char}
    (hfirst : isIdentStart first = true)
    (hrest : ∀ c ∈ rest, isIdentRest c = true) :
    Renders (String.ofList (first :: rest)) [.word first rest] := by
  intro after more hend hafter
  rw [String.toList_ofList]
  exact .word hfirst hrest hend hafter

end Signature

open Signature Display Writer

/-! ### Names of variables -/

namespace Display

theorem letter_isIdent :
    ∀ n < 26, isIdentStart (Char.ofNat (97 + n)) = true ∧
      isIdentRest (Char.ofNat (97 + n)) = true ∧
        (Char.ofNat (97 + n)).isUpper = false := by
  decide

theorem letter_injective :
    ∀ m < 26, ∀ n < 26, Char.ofNat (97 + m) = Char.ofNat (97 + n) → m = n := by
  decide

theorem letters_eq (position : Nat) :
    letters position = String.ofList (Char.ofNat (97 + position % 26) ::
      List.replicate (position / 26) (Char.ofNat (97 + position % 26))) := by
  rw [letters, List.replicate_succ]

/-- No two positions share a name. -/
theorem letters_injective : Function.Injective letters := by
  intro m n h
  rw [letters_eq, letters_eq] at h
  have hchars := String.ofList_injective h
  rw [List.cons.injEq] at hchars
  obtain ⟨hfirst, hrest⟩ := hchars
  have hmod := letter_injective _ (Nat.mod_lt m (by decide)) _
    (Nat.mod_lt n (by decide)) hfirst
  have hdiv := congrArg List.length hrest
  rw [List.length_replicate, List.length_replicate] at hdiv
  rw [← Nat.div_add_mod m 26, ← Nat.div_add_mod n 26, hmod, hdiv]

/-- The letters for a position are read as one variable. -/
theorem renders_letters (position : Nat) :
    Renders (letters position) [.var (letters position)] := by
  obtain ⟨hstart, hrest, hupper⟩ :=
    letter_isIdent _ (Nat.mod_lt position (by decide))
  have hword := renders_word hstart
    fun c (hc : c ∈ List.replicate (position / 26) _) =>
      List.eq_of_mem_replicate hc ▸ hrest
  rwa [Token.word, hupper, if_neg Bool.false_ne_true, ← letters_eq] at hword

end Display

/-! ### Names of constructors -/

/-- Whether a text is an identifier that starts with an upper case letter and
stands for itself. -/
def IsConstructor (text : String) : Prop :=
  text ≠ Name.string.text ∧
    ∃ first rest, text = String.ofList (first :: rest) ∧
      first.isUpper = true ∧ ∀ c ∈ rest, isIdentRest c = true

/-- Whether a constructor can be written in a signature. -/
def Writable (name : Name) : Prop :=
  IsConstructor name.text ∨ name = .arrow ∨ name = .list ∨ name = .unit ∨
    ∃ more, name = .tuple (more + 2)

theorem IsConstructor.isUpper {text : String} (h : IsConstructor text)
    {c : Char} (hc : text.toList.head? = some c) : c.isUpper = true := by
  obtain ⟨-, first, rest, rfl, hupper, -⟩ := h
  rw [String.toList_ofList, List.head?_cons] at hc
  rwa [← Option.some.inj hc]

theorem renders_constructor {name : Name} (h : IsConstructor name.text) :
    Renders name.text [.con name] := by
  obtain ⟨-, first, rest, htext, hupper, hrest⟩ := h
  have hstart : isIdentStart first = true := by
    have halpha : first.isAlpha = true := Bool.or_eq_true_iff.2 (.inl hupper)
    simp [isIdentStart, halpha]
  have hname : name = .ofChars first rest := Name.text_injective htext
  have hword := renders_word hstart hrest
  rw [Token.word, hupper, if_pos rfl, ← hname] at hword
  rwa [htext]

/-! ### Types in places -/

namespace Signature

/-- Whether tokens are a type of the grammar that may stand in a place. -/
def Fits : Place → List Token → NamedTy → Prop
  | .whole => IsType
  | .param => IsBtype
  | .argument => IsAtype

/-- Whether a text for every place is read as a type in that place. -/
def Writes (text : Place → String) (t : NamedTy) : Prop :=
  ∀ place, ∃ toks, Renders (text place) toks ∧ Fits place toks t

variable {a b sep text : String} {as bs toks more : List Token}
  {t u func param result : NamedTy} {ts : List NamedTy} {place : Place}
  {arg : Place → String} {args : List (Place → String)} {name : Name}

/-- What needs no brackets may stand anywhere. -/
theorem fits_of_isAtype (h : IsAtype toks t) (place : Place) :
    Fits place toks t := by
  cases place with
  | whole => exact .btype (.atype h)
  | param => exact .atype h
  | argument => exact h

theorem writes_of_isAtype (htext : Renders text toks) (h : IsAtype toks t) :
    Writes (fun _ => text) t :=
  fun place => ⟨toks, htext, fits_of_isAtype h place⟩

theorem renders_parens (h : Renders text toks) :
    Renders ("(" ++ text ++ ")") (.openRound :: (toks ++ [.closeRound])) :=
  (h.after separates_openRound).before separates_closeRound

/-- Applications are put in parentheses as arguments, where only those need
them. -/
theorem writes_parenIf_argument (htext : Renders text toks)
    (h : IsBtype toks t) :
    Writes (fun place => parenIf (place = .argument) text) t := by
  intro place
  cases place with
  | whole => exact ⟨toks, htext, .btype h⟩
  | param => exact ⟨toks, htext, h⟩
  | argument => exact ⟨_, renders_parens htext, .parens (.btype h)⟩

/-- Functions are put in parentheses everywhere but as a whole type. -/
theorem writes_parenIf_not_whole (htext : Renders text toks)
    (h : IsType toks t) :
    Writes (fun place => parenIf (place ≠ .whole) text) t := by
  intro place
  cases place with
  | whole => exact ⟨toks, htext, h⟩
  | param => exact ⟨_, renders_parens htext, .atype (.parens h)⟩
  | argument => exact ⟨_, renders_parens htext, .parens h⟩

/-- A head with arguments after it, with blanks between them. -/
theorem renders_application (hfunc : Renders text toks)
    (h : IsBtype toks func) (hargs : List.Forall₂ Writes args ts) :
    ∃ toks, Renders (" ".intercalate (text :: args.map (· .argument))) toks ∧
      IsBtype toks (.applyTo func ts) := by
  induction hargs generalizing text toks func with
  | nil => exact ⟨toks, by rwa [List.map_nil, String.intercalate_singleton], h⟩
  | @cons arg t args ts harg hargs ih =>
      obtain ⟨argToks, hrenders, hfits⟩ := harg .argument
      have hjoin := hfunc.join separates_space hrenders
      rw [List.append_nil] at hjoin
      obtain ⟨all, hall, htype⟩ := ih hjoin (.app h hfits)
      refine ⟨all, ?_, htype⟩
      cases args with
      | nil => simpa using hall
      | cons next args =>
          simpa only [List.map_cons, String.intercalate_cons_cons,
            String.append_assoc] using hall

theorem writes_applied (hfunc : Renders text toks) (h : IsAtype toks func)
    (hargs : List.Forall₂ Writes args ts) :
    Writes (applied text args) (.applyTo func ts) := by
  cases hargs with
  | nil => exact writes_of_isAtype hfunc h
  | cons harg hargs =>
      obtain ⟨all, hall, htype⟩ :=
        renders_application hfunc (.atype h) (.cons harg hargs)
      exact writes_parenIf_argument hall htype

/-- Whether a text is read as a type. -/
def ReadsAs (text : String) (t : NamedTy) : Prop :=
  ∃ toks, Renders text toks ∧ IsType toks t

theorem readsAs_whole (hargs : List.Forall₂ Writes args ts) :
    List.Forall₂ ReadsAs (args.map (· .whole)) ts :=
  List.forall₂_map_left_iff.2 (hargs.imp fun _ _ h => h .whole)

/-- Components with commas between them. -/
theorem renders_components {texts : List String} (h : ReadsAs text t)
    (hmore : List.Forall₂ ReadsAs texts ts) :
    ∃ first more, Renders (commas (text :: texts)) (first ++ more) ∧
      IsType first t ∧ AreTypes more ts := by
  induction hmore generalizing text t with
  | nil =>
      obtain ⟨first, hrenders, hfirst⟩ := h
      refine ⟨first, [], ?_, hfirst, .nil⟩
      simpa [commas] using hrenders
  | cons hnext _ ih =>
      obtain ⟨first, hrenders, hfirst⟩ := h
      obtain ⟨second, more, hmore, hsecond, htypes⟩ := ih hnext
      refine ⟨first, .comma :: (second ++ more), ?_, hfirst,
        .cons hsecond htypes⟩
      rw [commas, String.intercalate_cons_cons]
      have hjoin := hrenders.join separates_comma hmore
      rwa [List.append_assoc] at hjoin

theorem lexes_commas (n : Nat) {rest : List Char} (h : Lexes rest more) :
    Lexes (List.replicate n ',' ++ rest)
      (List.replicate n .comma ++ more) := by
  induction n with
  | zero => exact h
  | succ n ih => exact .punctuation rfl ih

theorem separates_arrowCon :
    Separates "(->)" [.openRound, .arrow, .closeRound] :=
  separates_of_head rfl rfl fun _ _ h =>
    .punctuation rfl (.arrow (.punctuation rfl h))

theorem renders_tuple (more : Nat) :
    Renders (Name.tuple (more + 2)).text
      (.openRound :: (List.replicate (more + 1) .comma ++ [.closeRound])) := by
  intro rest others _ hrest
  rw [Name.toList_text_tuple]
  simp only [List.cons_append, List.append_assoc]
  exact .punctuation rfl (lexes_commas _ (.punctuation rfl hrest))

/-- A constructor by itself. -/
theorem renders_con (h : Writable name) :
    ∃ toks, Renders (Writer.con name) toks ∧ IsAtype toks (.con name) := by
  rcases h with h | rfl | rfl | rfl | ⟨more, rfl⟩
  · have hstring : name ≠ .string := by
      rintro rfl
      exact h.1 rfl
    have harrow : name ≠ .arrow := by
      rintro rfl
      exact absurd (h.isUpper rfl) (by decide)
    rw [Writer.con, if_neg harrow]
    exact ⟨_, renders_constructor h, .con hstring⟩
  · exact ⟨_, separates_arrowCon.renders, .arrow⟩
  · exact ⟨_, separates_openSquare.renders.before separates_closeSquare, .list⟩
  · exact ⟨_, separates_openRound.renders.before separates_closeRound, .unit⟩
  · rw [Writer.con, if_neg (Name.tuple_ne rfl more)]
    exact ⟨_, renders_tuple more, .tuple more⟩

/-- Functions and lists have forms of their own; all other constructors are
written like tuples or in front of their arguments. -/
theorem conApplied_cases (name : Name) (args : List (Place → String)) :
    (∃ param result, name = .arrow ∧ args = [param, result]) ∨
      (∃ elem, name = .list ∧ args = [elem]) ∨
        conApplied name args = tupleApplied name args := by
  match args with
  | [] => exact Or.inr (Or.inr rfl)
  | [elem] =>
      by_cases hname : name = .list
      · exact Or.inr (Or.inl ⟨elem, hname, rfl⟩)
      · refine Or.inr (Or.inr (funext fun place => ?_))
        rw [conApplied, if_neg hname]
  | [param, result] =>
      by_cases hname : name = .arrow
      · exact Or.inl ⟨param, result, hname, rfl⟩
      · refine Or.inr (Or.inr (funext fun place => ?_))
        rw [conApplied, if_neg hname]
  | _ :: _ :: _ :: _ => exact Or.inr (Or.inr rfl)

/-- A tuple with all its components, or the plain form. -/
theorem writes_tupleApplied (h : Writable name)
    (hargs : List.Forall₂ Writes args ts) :
    Writes (tupleApplied name args) (.applyTo (.con name) ts) := by
  by_cases harity : name.tupleArity? = some args.length
  · have hopen : tupleApplied name args =
        fun _ => "(" ++ commas (args.map (· .whole)) ++ ")" :=
      funext fun place => if_pos harity
    rw [hopen]
    obtain ⟨more, hmore, rfl⟩ := Name.eq_tuple_of_tupleArity? harity
    cases hargs with
    | nil => contradiction
    | @cons arg t args ts harg hargs =>
        obtain ⟨first, rest, hcomps, hfirst, hrest⟩ :=
          renders_components (harg .whole) (readsAs_whole hargs)
        rw [List.length_cons, hargs.length_eq] at hmore
        have hne : ts ≠ [] := by
          rintro rfl
          simp at hmore
        rw [← hmore]
        exact writes_of_isAtype (renders_parens hcomps)
          (.tupleOf hfirst hrest hne)
  · have hopen : tupleApplied name args = applied (Writer.con name) args :=
      funext fun place => if_neg harity
    rw [hopen]
    obtain ⟨toks, hrenders, hatype⟩ := renders_con h
    exact writes_applied hrenders hatype hargs

/-- Every form of a constructor is read as the constructor applied to its
arguments. -/
theorem writes_conApplied (h : Writable name)
    (hargs : List.Forall₂ Writes args ts) :
    Writes (conApplied name args) (.applyTo (.con name) ts) := by
  rcases conApplied_cases name args with
    ⟨param, result, rfl, rfl⟩ | ⟨elem, rfl, rfl⟩ | heq
  · obtain ⟨_, _, hparam, hlast, rfl⟩ := List.forall₂_cons_left_iff.1 hargs
    obtain ⟨_, _, hresult, hnil, rfl⟩ := List.forall₂_cons_left_iff.1 hlast
    cases hnil
    obtain ⟨left, hleft, hbtype⟩ := hparam .param
    obtain ⟨right, hright, htype⟩ := hresult .whole
    have hjoin := hleft.join separates_arrow hright
    rw [List.append_assoc] at hjoin
    exact writes_parenIf_not_whole hjoin (.arrow hbtype htype)
  · obtain ⟨_, _, helem, hnil, rfl⟩ := List.forall₂_cons_left_iff.1 hargs
    cases hnil
    obtain ⟨toks, hrenders, htype⟩ := helem .whole
    exact writes_of_isAtype ((hrenders.after separates_openSquare).before
      separates_closeSquare) (.listOf htype)
  · rw [heq]
    exact writes_tupleApplied h hargs

theorem var_eq {w : Writer} {v : TyVar} (hinline : w.inline = false)
    (hv : v ∈ w.vars) (place : Place) :
    w.var v place = letters (w.vars.idxOf v) := by
  have hidx : w.vars.idxOf? v = some (w.vars.idxOf v) :=
    List.findIdx?_eq_some_iff_findIdx_eq.2
      ⟨List.idxOf_lt_length_iff.2 hv, rfl⟩
  rw [Writer.var, hidx]
  simp [hinline]

/-- A type that is written without classes, applied to arguments: it is read
with the letters of its variables as their names. -/
theorem writes_tyApplied {w : Writer} (hinline : w.inline = false)
    (z : Ty TyVar) (hvars : ∀ v ∈ z.vars, v ∈ w.vars)
    (hcons : ∀ name ∈ z.cons, Writable name)
    (hargs : List.Forall₂ Writes args ts) :
    Writes (w.tyApplied z args)
      (.applyTo (z.map fun v => letters (w.vars.idxOf v)) ts) := by
  induction z generalizing args ts with
  | var v =>
      have hv := var_eq hinline (hvars v (Ty.mem_vars_var.2 rfl))
      have hopen : w.tyApplied (.var v) args =
          applied (letters (w.vars.idxOf v)) args := by
        cases args with
        | nil => exact funext hv
        | cons arg args =>
            have hhead : w.tyApplied (.var v) (arg :: args) =
                applied (w.var v .argument) (arg :: args) := rfl
            rw [hhead, hv]
      rw [hopen]
      exact writes_applied (renders_letters _) (.var _) hargs
  | con name => exact writes_conApplied (hcons name (by simp [Ty.cons])) hargs
  | app func arg ihFunc ihArg =>
      simp only [Ty.mem_vars_app] at hvars
      simp only [Ty.cons, List.mem_append] at hcons
      have harg := ihArg (fun v hv => hvars v (Or.inr hv))
        (fun name hname => hcons name (Or.inr hname)) .nil
      exact ihFunc (fun v hv => hvars v (Or.inl hv))
        (fun name hname => hcons name (Or.inl hname)) (.cons harg hargs)

end Signature

end HindleyMilner

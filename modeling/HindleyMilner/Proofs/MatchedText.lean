import HindleyMilner.Proofs.RoundTrip

/-
Texts that show where they end.  A word goes on as long as it can, and a text
in round brackets that match ends at the bracket that matches the first, so
what comes behind either of them can be told from it.  Types are written with
brackets that match.
-/

namespace HindleyMilner

open Signature Display Writer

/-! ### Words -/

/-- Whether a text is a word of letters and digits. -/
def IsPlain (text : String) : Prop :=
  text ≠ "" ∧ ∀ c ∈ text.toList, c.isAlphanum = true

variable {a b t t' sep text : String} {ts ts' : List String}
  {cs cs' rest rest' word word' : List Char} {c : Char}

theorem endsWord_cons (h : isIdentRest c = false) : EndsWord (c :: cs) := by
  intro d hd
  cases hd
  exact h

theorem endsWord_text (htext : text.toList = c :: cs)
    (h : isIdentRest c = false) (rest : List Char) :
    EndsWord (text.toList ++ rest) := by
  rw [htext]
  exact endsWord_cons h

/-- Where words end is determined by the characters. -/
theorem word_cut (hword : ∀ c ∈ word, isIdentRest c = true)
    (hword' : ∀ c ∈ word', isIdentRest c = true) (hend : EndsWord rest)
    (hend' : EndsWord rest') (h : word ++ rest = word' ++ rest') :
    word = word' ∧ rest = rest' := by
  induction word generalizing word' with
  | nil =>
      cases word' with
      | nil => exact ⟨rfl, h⟩
      | cons c word' =>
          have hc := hend c (by rw [List.nil_append] at h; rw [h]; rfl)
          rw [hword' c List.mem_cons_self] at hc
          cases hc
  | cons c word ih =>
      cases word' with
      | nil =>
          have hc := hend' c (by rw [List.nil_append] at h; rw [← h]; rfl)
          rw [hword c List.mem_cons_self] at hc
          cases hc
      | cons c' word' =>
          rw [List.cons_append, List.cons_append, List.cons.injEq] at h
          rw [List.forall_mem_cons] at hword hword'
          obtain ⟨rfl, hrest⟩ := ih hword.2 hword'.2 h.2
          exact ⟨by rw [h.1], hrest⟩

namespace IsPlain

theorem isIdentRest (h : IsPlain text) :
    ∀ c ∈ text.toList, isIdentRest c = true := by
  intro c hc
  simp [Signature.isIdentRest, h.2 c hc]

/-- A word starts with a letter or a digit. -/
theorem exists_cons (h : IsPlain text) :
    ∃ c cs, text.toList = c :: cs ∧ c.isAlphanum = true := by
  obtain ⟨c, cs, htext⟩ := List.exists_cons_of_ne_nil
    (mt String.toList_eq_nil_iff.1 h.1)
  exact ⟨c, cs, htext, h.2 c (htext ▸ List.mem_cons_self)⟩

end IsPlain

/-! ### Round brackets -/

/-- What stands behind the bracket that closes a number of open ones and one
more. -/
def afterClose : Nat → List Char → List Char
  | _, [] => []
  | depth, c :: cs =>
      if c = '(' then afterClose (depth + 1) cs
      else if c = ')' then
        if depth = 0 then cs else afterClose (depth - 1) cs
      else afterClose depth cs

/-- Whether all round brackets in a text match. -/
def Closed (text : String) : Prop :=
  ∀ depth rest, afterClose depth (text.toList ++ rest) = afterClose depth rest

namespace Closed

theorem of_forall_ne (h : ∀ c ∈ text.toList, c ≠ '(' ∧ c ≠ ')') :
    Closed text := by
  intro depth rest
  generalize text.toList = cs at h
  induction cs with
  | nil => rfl
  | cons c cs ih =>
      rw [List.forall_mem_cons] at h
      rw [List.cons_append, afterClose, if_neg h.1.1, if_neg h.1.2]
      exact ih h.2

theorem append (ha : Closed a) (hb : Closed b) : Closed (a ++ b) := by
  intro depth rest
  rw [String.toList_append, List.append_assoc, ha, hb]

theorem parens (h : Closed text) : Closed ("(" ++ text ++ ")") := by
  intro depth rest
  simp only [String.toList_append, List.append_assoc]
  show afterClose depth ('(' :: (text.toList ++ ')' :: rest)) = _
  rw [afterClose, if_pos rfl, h, afterClose]
  rfl

theorem parenIf (h : Closed text) (needed : Bool) :
    Closed (parenIf needed text) := by
  cases needed with
  | false => exact h
  | true => exact h.parens

theorem intercalate (hsep : Closed sep) (h : ∀ t ∈ ts, Closed t) :
    Closed (sep.intercalate ts) := by
  induction ts with
  | nil => exact fun _ _ => rfl
  | cons t ts ih =>
      rw [List.forall_mem_cons] at h
      cases ts with
      | nil => rw [String.intercalate_singleton]; exact h.1
      | cons t' ts =>
          rw [String.intercalate_cons_cons]
          exact (h.1.append hsep).append (ih h.2)

/-- A text in brackets ends at the bracket that matches the first. -/
theorem cut (ha : Closed a) (hb : Closed b)
    (h : a.toList ++ ')' :: rest = b.toList ++ ')' :: rest') :
    a = b ∧ rest = rest' := by
  have hrest : rest = rest' := by
    have hafter := congrArg (afterClose 0) h
    rw [ha, hb] at hafter
    exact hafter
  rw [hrest] at h
  exact ⟨String.toList_injective (List.append_cancel_right h), hrest⟩

end Closed

theorem IsPlain.closed (h : IsPlain text) : Closed text := by
  refine .of_forall_ne fun c hc => ?_
  have halnum := h.2 c hc
  constructor <;>
  · rintro rfl
    exact absurd halnum (by decide)

/-! ### Words and texts in brackets -/

/-- Whether a text is a word, or stands in brackets as a whole. -/
def Enclosed (text : String) : Prop :=
  IsPlain text ∨ ∃ inner, Closed inner ∧ text = "(" ++ inner ++ ")"

namespace Enclosed

theorem closed (h : Enclosed text) : Closed text := by
  rcases h with h | ⟨inner, hinner, rfl⟩
  · exact h.closed
  · exact hinner.parens

theorem exists_cons (h : Enclosed text) :
    ∃ c cs, text.toList = c :: cs ∧ (c.isAlphanum = true ∨ c = '(') := by
  rcases h with h | ⟨inner, -, rfl⟩
  · obtain ⟨c, cs, htext, hc⟩ := h.exists_cons
    exact ⟨c, cs, htext, .inl hc⟩
  · exact ⟨'(', inner.toList ++ [')'], by simp, .inr rfl⟩

/-- Such a text shows where it ends. -/
theorem cut (h : Enclosed t) (h' : Enclosed t') (hend : EndsWord rest)
    (hend' : EndsWord rest') (heq : t.toList ++ rest = t'.toList ++ rest') :
    t = t' ∧ rest = rest' := by
  have hclash {word inner : String} {cs cs' : List Char} (hword : IsPlain word)
      (heq : word.toList ++ cs = ("(" ++ inner ++ ")").toList ++ cs') :
      False := by
    obtain ⟨c, more, hchars, hc⟩ := hword.exists_cons
    rw [hchars] at heq
    simp at heq
    rw [heq.1] at hc
    exact absurd hc (by decide)
  rcases h with h | ⟨inner, hinner, rfl⟩ <;>
    rcases h' with h' | ⟨inner', hinner', rfl⟩
  · obtain ⟨htext, hrest⟩ :=
      word_cut h.isIdentRest h'.isIdentRest hend hend' heq
    exact ⟨String.toList_injective htext, hrest⟩
  · exact (hclash h heq).elim
  · exact (hclash h' heq.symm).elim
  · simp only [String.toList_append, List.append_assoc,
      List.append_cancel_left_eq] at heq
    obtain ⟨rfl, hrest⟩ := hinner.cut hinner' heq
    exact ⟨rfl, hrest⟩

end Enclosed

/-! ### Texts with something between them -/

/-- Whether texts of a kind show where they end, if no word goes on there. -/
def ShowsEnd (P : String → Prop) : Prop :=
  ∀ ⦃t t' rest rest'⦄, P t → P t' → EndsWord rest → EndsWord rest' →
    t.toList ++ rest = t'.toList ++ rest' → t = t' ∧ rest = rest'

/-- Words of letters and digits show where they end. -/
theorem showsEnd_isPlain : ShowsEnd IsPlain :=
  fun _ _ _ _ h h' => Enclosed.cut (.inl h) (.inl h')

/-- Whether something ends a list of texts: it ends a word, and neither a text
nor another text behind the separator starts there. -/
structure EndsList (P : String → Prop) (sep : String) (rest : List Char) :
    Prop where
  endsWord : EndsWord rest
  not_first : ∀ t more, P t → t.toList ++ more ≠ rest
  not_next : ∀ t more, P t → sep.toList ++ (t.toList ++ more) ≠ rest

section

variable {P : String → Prop}

theorem toList_intercalate_cons (sep t : String) (ts : List String) :
    (sep.intercalate (t :: ts)).toList =
      t.toList ++ ts.flatMap fun t => sep.toList ++ t.toList := by
  induction ts generalizing t with
  | nil => simp
  | cons t' ts ih =>
      rw [String.intercalate_cons_cons, String.toList_append, ih]
      simp

/-- Texts that show where they end can be told apart behind a separator. -/
theorem separated_cut
    (cut : ShowsEnd P)
    (hsep : ∀ cs, EndsWord (sep.toList ++ cs)) (hts : ∀ t ∈ ts, P t)
    (hts' : ∀ t ∈ ts', P t) (hend : EndsList P sep rest)
    (hend' : EndsList P sep rest')
    (h : (ts.flatMap fun t => sep.toList ++ t.toList) ++ rest =
      (ts'.flatMap fun t => sep.toList ++ t.toList) ++ rest') :
    ts = ts' ∧ rest = rest' := by
  have hnext {ts : List String} {rest : List Char} (hend : EndsWord rest) :
      EndsWord ((ts.flatMap fun t => sep.toList ++ t.toList) ++ rest) := by
    cases ts with
    | nil => exact hend
    | cons t ts =>
        simp only [List.flatMap_cons, List.append_assoc]
        exact hsep _
  induction ts generalizing ts' with
  | nil =>
      cases ts' with
      | nil => exact ⟨rfl, h⟩
      | cons t' ts' =>
          simp only [List.flatMap_cons, List.append_assoc] at h
          exact absurd h.symm
            (hend.not_next t' _ (hts' t' List.mem_cons_self))
  | cons t ts ih =>
      cases ts' with
      | nil =>
          simp only [List.flatMap_cons, List.append_assoc] at h
          exact absurd h (hend'.not_next t _ (hts t List.mem_cons_self))
      | cons t' ts' =>
          simp only [List.flatMap_cons, List.append_assoc,
            List.append_cancel_left_eq] at h
          rw [List.forall_mem_cons] at hts hts'
          obtain ⟨rfl, hmore⟩ := cut hts.1 hts'.1 (hnext hend.endsWord)
            (hnext hend'.endsWord) h
          obtain ⟨rfl, hrest⟩ := ih hts.2 hts'.2 hmore
          exact ⟨rfl, hrest⟩

/-- Texts that show where they end can be told apart with a separator between
them. -/
theorem intercalate_cut
    (cut : ShowsEnd P)
    (hsep : ∀ cs, EndsWord (sep.toList ++ cs)) (hts : ∀ t ∈ ts, P t)
    (hts' : ∀ t ∈ ts', P t) (hend : EndsList P sep rest)
    (hend' : EndsList P sep rest')
    (h : (sep.intercalate ts).toList ++ rest =
      (sep.intercalate ts').toList ++ rest') :
    ts = ts' ∧ rest = rest' := by
  cases ts with
  | nil =>
      cases ts' with
      | nil => exact ⟨rfl, h⟩
      | cons t' ts' =>
          rw [toList_intercalate_cons, List.append_assoc] at h
          exact absurd h.symm
            (hend.not_first t' _ (hts' t' List.mem_cons_self))
  | cons t ts =>
      cases ts' with
      | nil =>
          rw [toList_intercalate_cons, List.append_assoc] at h
          exact absurd h (hend'.not_first t _ (hts t List.mem_cons_self))
      | cons t' ts' =>
          have hall := congrArg (sep.toList ++ ·) h
          simp only [toList_intercalate_cons] at hall
          refine separated_cut cut hsep hts hts' hend hend' ?_
          simpa only [List.flatMap_cons, List.append_assoc] using hall

end

/-! ### Types -/

/-- Whether the name of a constructor is a word, or one of those that have a
form of their own. -/
def IsPlainCon (name : Name) : Prop :=
  IsPlain name.text ∨ name = .arrow ∨ name = .list ∨ name = .unit ∨
    ∃ more, name = .tuple (more + 2)

/-- Whether a type is written in words: its constructors and the classes of its
variables are. -/
structure TypeState.WritesPlainly (st : TypeState) (ty : Ty TyVar) : Prop where
  cons : ∀ name ∈ (st.store.zonk ty).cons, IsPlainCon name
  classes : ∀ v ∈ (st.store.zonk ty).vars, ∀ set,
    st.store.classes? v = some set →
      ∀ c ∈ set.members, IsPlain (st.classes.nameOf c)

section

variable {w : Writer} {name : Name} {args : List (Place → String)}

theorem closed_letters (position : Nat) : Closed (letters position) := by
  refine .of_forall_ne fun c hc => ?_
  rw [letters, String.toList_ofList] at hc
  have hletter := letter_isIdent _ (Nat.mod_lt position (by decide))
  rw [← List.eq_of_mem_replicate hc] at hletter
  constructor <;>
  · rintro rfl
    exact absurd hletter.1 (by decide)

theorem closed_commas (h : ∀ t ∈ ts, Closed t) : Closed (commas ts) :=
  .intercalate (.of_forall_ne (by simp)) h

theorem closed_con (h : IsPlainCon name) : Closed (Writer.con name) := by
  unfold Writer.con
  split
  · exact Closed.parens (show Closed "->" from .of_forall_ne (by simp))
  · rcases h with h | rfl | rfl | rfl | ⟨more, rfl⟩
    · exact h.closed
    · contradiction
    · exact .of_forall_ne (by simp [Name.list])
    · exact Closed.parens (show Closed "" from .of_forall_ne (by simp))
    · have htext : (Name.tuple (more + 2)).text = "(" ++
          String.ofList (List.replicate (more + 1) ',') ++ ")" := by
        apply String.toList_injective
        rw [Name.toList_text_tuple]
        simp
      rw [htext]
      refine .parens (.of_forall_ne fun c hc => ?_)
      rw [String.toList_ofList] at hc
      rw [List.eq_of_mem_replicate hc]
      decide

theorem closed_applied (h : Closed text)
    (hargs : ∀ arg ∈ args, ∀ place, Closed (arg place)) (place : Place) :
    Closed (applied text args place) := by
  cases args with
  | nil => exact h
  | cons arg args =>
      refine .parenIf (.intercalate (.of_forall_ne (by simp)) ?_) _
      rw [List.forall_mem_cons, List.forall_mem_map]
      exact ⟨h, fun arg harg => hargs arg harg .argument⟩

theorem closed_tupleApplied (h : IsPlainCon name)
    (hargs : ∀ arg ∈ args, ∀ place, Closed (arg place)) (place : Place) :
    Closed (tupleApplied name args place) := by
  unfold tupleApplied
  split
  · refine .parens (closed_commas ?_)
    rw [List.forall_mem_map]
    exact fun arg harg => hargs arg harg .whole
  · exact closed_applied (closed_con h) hargs place

/-- Every form of a constructor has its brackets matched if the arguments
have. -/
theorem closed_conApplied (h : IsPlainCon name)
    (hargs : ∀ arg ∈ args, ∀ place, Closed (arg place)) (place : Place) :
    Closed (conApplied name args place) := by
  rcases conApplied_cases name args with
    ⟨param, result, rfl, rfl⟩ | ⟨elem, rfl, rfl⟩ | heq
  · simp only [List.forall_mem_cons] at hargs
    exact .parenIf (((hargs.1 .param).append (.of_forall_ne (by simp))).append
      (hargs.2.1 .whole)) _
  · rw [List.forall_mem_cons] at hargs
    exact ((Closed.of_forall_ne (by simp)).append (hargs.1 .whole)).append
      (.of_forall_ne (by simp))
  · rw [heq]
    exact closed_tupleApplied h hargs place

theorem closed_tyApplied (hinline : w.inline = false) (z : Ty TyVar)
    (hvars : ∀ v ∈ z.vars, v ∈ w.vars)
    (hcons : ∀ name ∈ z.cons, IsPlainCon name)
    (hargs : ∀ arg ∈ args, ∀ place, Closed (arg place)) (place : Place) :
    Closed (w.tyApplied z args place) := by
  induction z generalizing args place with
  | var v =>
      have hv (place : Place) : Closed (w.var v place) := by
        rw [var_eq hinline (hvars v (Ty.mem_vars_var.2 rfl))]
        exact closed_letters _
      cases args with
      | nil => exact hv place
      | cons arg args => exact closed_applied (hv .argument) hargs place
  | con name =>
      exact closed_conApplied (hcons name (by simp [Ty.cons])) hargs place
  | app func arg ihFunc ihArg =>
      simp only [Ty.mem_vars_app] at hvars
      simp only [Ty.cons, List.mem_append] at hcons
      refine ihFunc (fun v hv => hvars v (.inl hv))
        (fun name hname => hcons name (.inl hname)) ?_ place
      rw [List.forall_mem_cons]
      exact ⟨ihArg (fun v hv => hvars v (.inr hv))
        (fun name hname => hcons name (.inr hname)) (by simp), hargs⟩

theorem closed_context
    (h : ∀ v ∈ w.vars, ∀ cls ∈ w.classNames v, IsPlain cls) :
    Closed w.context := by
  have htexts : ∀ t ∈ (requirements w).map requirementText, Closed t := by
    rw [List.forall_mem_map]
    intro p hp
    obtain ⟨v, hv, hcls⟩ := mem_requirements.1 hp
    have hplain := h v (List.mem_of_getElem? hv) p.1 hcls
    exact (hplain.closed.append (.of_forall_ne (by simp))).append
      (closed_letters p.2)
  have hfatArrow : Closed " => " := .of_forall_ne (by simp)
  rw [context_eq]
  generalize (requirements w).map requirementText = texts at htexts
  match texts with
  | [] => exact .of_forall_ne (by simp [contextText])
  | [text] =>
      rw [contextText]
      exact (htexts text List.mem_cons_self).append hfatArrow
  | first :: second :: texts =>
      have hopen : contextText (first :: second :: texts) =
          "(" ++ commas (first :: second :: texts) ++ ")" ++ " => " := by
        rw [String.append_assoc]
        rfl
      rw [hopen]
      exact (closed_commas htexts).parens.append hfatArrow

/-- A type that is written in words has all its brackets matched. -/
theorem TypeState.WritesPlainly.closed {st : TypeState} {ty : Ty TyVar}
    (h : st.WritesPlainly ty) : Closed (st.display .context ty) := by
  have hclasses : ∀ v ∈ (Writer.ofTypes st [ty]).vars,
      ∀ cls ∈ (Writer.ofTypes st [ty]).classNames v, IsPlain cls := by
    intro v hv cls hcls
    have hnames : (Writer.ofTypes st [ty]).classNames v =
        ((st.store.classes? v).map (·.names st.classes)).getD [] := rfl
    rw [hnames] at hcls
    cases hset : st.store.classes? v with
    | none => simp [hset] at hcls
    | some set =>
        rw [hset, Option.map_some, Option.getD_some, mem_names] at hcls
        obtain ⟨c, hc, rfl⟩ := hcls
        exact h.classes v (mem_vars_ofTypes.1 hv) set hset c hc
  have htype := @closed_tyApplied
    { Writer.ofTypes st [ty] with inline := false } [] rfl
    (st.store.zonk ty) (fun v hv => mem_vars_ofTypes.2 hv) h.cons (by simp)
    .whole
  rw [display_context_eq]
  exact (closed_context hclasses).append htype

end

end HindleyMilner

import HindleyMilner.Exp.Haskell
import HindleyMilner.Proofs.MatchedText

/-
What can be read off the source of an expression.  A source is a word or
stands in brackets, so it shows where it ends, whatever comes after it; and
behind the first word or source in a pair of brackets stands what tells the
forms of expressions apart.
-/

namespace HindleyMilner

open Signature Display Writer

variable {text : String}

/-! ### Expressions -/

mutual

/-- Whether an expression is written in words: its names and the texts of its
literals are, and the types that it is annotated with are written in words. -/
def Exp.Plain (st : TypeState) : Exp → Prop
  | .value _ _ text => IsPlain text
  | .localVar _ binder => IsPlain binder.name.text
  | .function _ use => IsPlain use.name.text
  | .hole _ => True
  | .apply _ func arg => func.Plain st ∧ arg.Plain st
  | .lambda _ params body =>
      (∀ param ∈ params, IsPlain param.name.text) ∧ body.Plain st
  | .letIn _ bindings body => bindings.Plain st ∧ body.Plain st
  | .annotated _ inner ty => inner.Plain st ∧ st.WritesPlainly ty

def Bindings.Plain (st : TypeState) : Bindings → Prop
  | .nil => True
  | .cons binder bound rest =>
      IsPlain binder.name.text ∧ bound.Plain st ∧ rest.Plain st

end

def Exp.word? : Exp → Option String
  | .localVar _ binder => some binder.name.text
  | .function _ use => some use.name.text
  | .hole _ => some "undefined"
  | _ => none

mutual

/-- Whether two expressions have the same form, with the same words in the same
places and annotations that are written the same. -/
inductive Exp.LooksLike (st : TypeState) : Exp → Exp → Prop
  | value {id id' : ExpId} {ty ty' : Ty TyVar} (text : String) :
      Exp.LooksLike st (.value id ty text) (.value id' ty' text)
  | word {e e' : Exp} {text : String} (h : e.word? = some text)
      (h' : e'.word? = some text) : Exp.LooksLike st e e'
  | apply {id id' : ExpId} {func func' arg arg' : Exp}
      (hfunc : func.LooksLike st func') (harg : arg.LooksLike st arg') :
      Exp.LooksLike st (.apply id func arg) (.apply id' func' arg')
  | lambda {id id' : ExpId} {params params' : List Binder} {body body' : Exp}
      (hparams : params.map (·.name) = params'.map (·.name))
      (hbody : body.LooksLike st body') :
      Exp.LooksLike st (.lambda id params body) (.lambda id' params' body')
  | letIn {id id' : ExpId} {bindings bindings' : Bindings} {body body' : Exp}
      (hbindings : bindings.LooksLike st bindings')
      (hbody : body.LooksLike st body') :
      Exp.LooksLike st (.letIn id bindings body) (.letIn id' bindings' body')
  | annotated {id id' : ExpId} {inner inner' : Exp} {ty ty' : Ty TyVar}
      (hinner : inner.LooksLike st inner')
      (hty : st.display .context ty = st.display .context ty') :
      Exp.LooksLike st (.annotated id inner ty) (.annotated id' inner' ty')

inductive Bindings.LooksLike (st : TypeState) : Bindings → Bindings → Prop
  | nil : Bindings.LooksLike st .nil .nil
  | cons {binder binder' : Binder} {bound bound' : Exp}
      {rest rest' : Bindings} (hname : binder.name = binder'.name)
      (hbound : bound.LooksLike st bound')
      (hrest : rest.LooksLike st rest') :
      Bindings.LooksLike st (.cons binder bound rest)
        (.cons binder' bound' rest')

end

inductive SourceForm where
  | literal
  | application
  | abstraction
  | bindings
  | typed
  deriving DecidableEq, Repr

namespace SourceForm

/-- The form of an expression, by what stands behind the first word or source
in its brackets. -/
def ofNext : List Char → SourceForm
  | ')' :: _ => .literal
  | ' ' :: '\x7b' :: _ => .bindings
  | ' ' :: ':' :: _ => .typed
  | ' ' :: _ => .application
  | _ => .abstraction

/-- The form of an expression, if it stands in brackets. -/
def ofExp? : Exp → Option SourceForm
  | .value .. => some .literal
  | .apply .. => some .application
  | .lambda .. => some .abstraction
  | .letIn .. => some .bindings
  | .annotated .. => some .typed
  | _ => none

theorem ofNext_blank {c : Char} {cs : List Char}
    (h : c.isAlphanum = true ∨ c = '(') :
    ofNext (' ' :: c :: cs) = .application := by
  unfold ofNext
  split
  · rename_i heq
    exact absurd (List.cons.inj heq).1 (by decide)
  · rename_i heq
    cases heq
    exact absurd h (by decide)
  · rename_i heq
    cases heq
    exact absurd h (by decide)
  · rfl
  · rename_i hblank
    exact absurd rfl (hblank _)

end SourceForm

variable {st : TypeState} {e e' : Exp}

/-- What stands in brackets: the first word or source, which a lambda does not
have, and what stands behind it. -/
def Exp.lead (st : TypeState) : Exp → String × String
  | .value _ _ text => (text, ")")
  | .apply _ func arg => (func.toHaskell st, " " ++ arg.toHaskell st ++ ")")
  | .lambda _ params body =>
      ("", "\x5c" ++ " ".intercalate (params.map (·.name.text)) ++ " -> " ++
        body.toHaskell st ++ ")")
  | .letIn _ bindings body =>
      ("let", " \x7b" ++ "; ".intercalate (bindings.toHaskell st) ++
        "\x7d in " ++ body.toHaskell st ++ ")")
  | .annotated _ inner ty =>
      (inner.toHaskell st, " :: " ++ st.display .context ty ++ ")")
  | e => (e.toHaskell st, "")

def IsBinding (text : String) : Prop :=
  ∃ name bound, IsPlain name ∧ Enclosed bound ∧
    text = name ++ " = " ++ bound

theorem IsBinding.closed (h : IsBinding text) : Closed text := by
  obtain ⟨name, bound, hname, hbound, rfl⟩ := h
  exact (hname.closed.append (.of_forall_ne (by simp))).append hbound.closed

theorem isPlain_undefined : IsPlain "undefined" :=
  ⟨by simp, by simp⟩

theorem isPlain_let : IsPlain "let" :=
  ⟨by simp, by simp⟩

mutual

/-- The source of an expression is a word or stands in brackets. -/
theorem Exp.enclosed : (e : Exp) → e.Plain st → Enclosed (e.toHaskell st)
  | .value _ _ text, he => .inr ⟨text, he.closed, rfl⟩
  | .localVar _ binder, he => .inl he
  | .function _ use, he => .inl he
  | .hole _, _ => .inl isPlain_undefined
  | .apply _ func arg, he => by
      have hfunc := (func.enclosed he.1).closed
      have harg := (arg.enclosed he.2).closed
      exact .inr ⟨func.toHaskell st ++ " " ++ arg.toHaskell st,
        (hfunc.append (.of_forall_ne (by simp))).append harg,
        by simp [Exp.toHaskell, ← String.toList_inj]⟩
  | .lambda _ params body, he => by
      have hparams : Closed (" ".intercalate (params.map (·.name.text))) :=
        .intercalate (.of_forall_ne (by simp)) (List.forall_mem_map.2
          fun param hparam => (he.1 param hparam).closed)
      have hbody := (body.enclosed he.2).closed
      exact .inr ⟨"\x5c" ++ " ".intercalate (params.map (·.name.text)) ++
          " -> " ++ body.toHaskell st,
        (((Closed.of_forall_ne (by simp)).append hparams).append
          (.of_forall_ne (by simp))).append hbody,
        by simp [Exp.toHaskell, ← String.toList_inj]⟩
  | .letIn _ bindings body, he => by
      have hbindings : Closed ("; ".intercalate (bindings.toHaskell st)) :=
        .intercalate (.of_forall_ne (by simp))
          fun text htext => (bindings.isBinding he.1 text htext).closed
      have hbody := (body.enclosed he.2).closed
      exact .inr ⟨"let \x7b" ++ "; ".intercalate (bindings.toHaskell st) ++
          "\x7d in " ++ body.toHaskell st,
        (((Closed.of_forall_ne (by simp)).append hbindings).append
          (.of_forall_ne (by simp))).append hbody,
        by simp [Exp.toHaskell, ← String.toList_inj]⟩
  | .annotated _ inner ty, he => by
      have hinner := (inner.enclosed he.1).closed
      exact .inr ⟨inner.toHaskell st ++ " :: " ++ st.display .context ty,
        (hinner.append (.of_forall_ne (by simp))).append he.2.closed,
        by simp [Exp.toHaskell, ← String.toList_inj]⟩

/-- The sources of bindings are names with what is bound to them. -/
theorem Bindings.isBinding :
    (bindings : Bindings) → bindings.Plain st →
      ∀ text ∈ bindings.toHaskell st, IsBinding text
  | .nil, _ => by simp [Bindings.toHaskell]
  | .cons binder bound rest, he => by
      rw [Bindings.toHaskell, List.forall_mem_cons]
      exact ⟨⟨_, _, he.1, bound.enclosed he.2.1, rfl⟩,
        rest.isBinding he.2.2⟩

end

variable {form form' : SourceForm}

namespace Exp

/-- The source of an expression that stands in brackets. -/
theorem toHaskell_eq_lead (h : SourceForm.ofExp? e = some form) :
    (e.toHaskell st).toList =
      '(' :: ((e.lead st).1.toList ++ (e.lead st).2.toList) := by
  cases e with
  | value | apply | lambda | letIn | annotated => simp [toHaskell, lead]
  | localVar | function | hole => cases h

/-- The first word or source in brackets shows where it ends, and what stands
behind it shows the form; a lambda has a backslash there. -/
theorem lead_spec (he : e.Plain st) (h : SourceForm.ofExp? e = some form) :
    SourceForm.ofNext (e.lead st).2.toList = form ∧
      ((Enclosed (e.lead st).1 ∧ EndsWord (e.lead st).2.toList) ∨
        (e.lead st).1 = "" ∧ ∃ cs, (e.lead st).2.toList = '\x5c' :: cs) := by
  cases e with
  | localVar | function | hole => cases h
  | value id ty text =>
      cases h
      exact ⟨by simp [lead, SourceForm.ofNext],
        .inl ⟨.inl he, by simpa [lead] using endsWord_cons rfl⟩⟩
  | apply id func arg =>
      cases h
      obtain ⟨c, cs, harg, hc⟩ := (arg.enclosed he.2).exists_cons
      have hnext : (Exp.lead st (.apply id func arg)).2.toList =
          ' ' :: c :: (cs ++ [')']) := by simp [lead, harg]
      rw [hnext]
      exact ⟨SourceForm.ofNext_blank hc,
        .inl ⟨func.enclosed he.1, endsWord_cons rfl⟩⟩
  | lambda id params body =>
      cases h
      have hnext : ∃ cs, (Exp.lead st (.lambda id params body)).2.toList =
          '\x5c' :: cs := by simp [lead]
      refine ⟨?_, .inr ⟨rfl, hnext⟩⟩
      obtain ⟨cs, hcs⟩ := hnext
      rw [hcs]
      rfl
  | letIn id bindings body =>
      cases h
      have hnext : ∃ cs, (Exp.lead st (.letIn id bindings body)).2.toList =
          ' ' :: '\x7b' :: cs := by simp [lead]
      obtain ⟨cs, hcs⟩ := hnext
      rw [hcs]
      exact ⟨rfl, .inl ⟨.inl isPlain_let, endsWord_cons rfl⟩⟩
  | annotated id inner ty =>
      cases h
      have hnext : ∃ cs, (Exp.lead st (.annotated id inner ty)).2.toList =
          ' ' :: ':' :: cs := by simp [lead]
      obtain ⟨cs, hcs⟩ := hnext
      rw [hcs]
      exact ⟨rfl, .inl ⟨inner.enclosed he.1, endsWord_cons rfl⟩⟩

/-- Expressions in brackets with the same source have the same form and the
same parts. -/
theorem lead_cut (he : e.Plain st) (he' : e'.Plain st)
    (hform : SourceForm.ofExp? e = some form)
    (hform' : SourceForm.ofExp? e' = some form')
    (h : e.toHaskell st = e'.toHaskell st) :
    form = form' ∧ e.lead st = e'.lead st := by
  have hclash {first next next' : String} {cs : List Char}
      (hfirst : Enclosed first) (hnext : next.toList = '\x5c' :: cs)
      (heq : first.toList ++ next'.toList = "".toList ++ next.toList) :
      False := by
    obtain ⟨c, more, hchars, hc⟩ := hfirst.exists_cons
    rw [hchars, hnext] at heq
    have hhead : c = '\x5c' := (List.cons.inj heq).1
    rw [hhead] at hc
    exact absurd hc (by decide)
  have hchars := congrArg String.toList h
  rw [toHaskell_eq_lead hform, toHaskell_eq_lead hform',
    List.cons.injEq] at hchars
  obtain ⟨hofNext, hspec⟩ := lead_spec he hform
  obtain ⟨hofNext', hspec'⟩ := lead_spec he' hform'
  have hlead : e.lead st = e'.lead st := by
    rcases hspec with ⟨hfirst, hend⟩ | ⟨hempty, cs, hcs⟩ <;>
      rcases hspec' with ⟨hfirst', hend'⟩ | ⟨hempty', cs', hcs'⟩
    · obtain ⟨hfst, hsnd⟩ := hfirst.cut hfirst' hend hend' hchars.2
      exact Prod.ext hfst (String.toList_injective hsnd)
    · rw [hempty'] at hchars
      exact (hclash hfirst hcs' hchars.2).elim
    · rw [hempty] at hchars
      exact (hclash hfirst' hcs hchars.2.symm).elim
    · rw [hempty, hempty', List.append_cancel_left_eq] at hchars
      exact Prod.ext (hempty.trans hempty'.symm)
        (String.toList_injective hchars.2)
  exact ⟨by rw [← hofNext, hlead, hofNext'], hlead⟩

theorem toHaskell_of_word? (h : e.word? = some text) :
    e.toHaskell st = text := by
  cases e with
  | localVar | function | hole =>
      cases h
      rfl
  | value | apply | lambda | letIn | annotated => cases h

theorem isPlain_of_word? (he : e.Plain st) (h : e.word? = some text) :
    IsPlain text := by
  cases e with
  | localVar | function =>
      cases h
      exact he
  | hole =>
      cases h
      exact isPlain_undefined
  | value | apply | lambda | letIn | annotated => cases h

/-- An expression is written as a word or stands in brackets. -/
theorem word_or_form (e : Exp) :
    (∃ text, e.word? = some text) ∨
      ∃ form, SourceForm.ofExp? e = some form := by
  cases e with
  | localVar | function | hole => exact .inl ⟨_, rfl⟩
  | value | apply | lambda | letIn | annotated => exact .inr ⟨_, rfl⟩

theorem ne_of_word?_of_form (he : e.Plain st) (hword : e.word? = some text)
    (hform' : SourceForm.ofExp? e' = some form') :
    e.toHaskell st ≠ e'.toHaskell st := by
  intro h
  obtain ⟨c, cs, hchars, hc⟩ := (isPlain_of_word? he hword).exists_cons
  rw [← toHaskell_of_word? hword, h, toHaskell_eq_lead hform'] at hchars
  rw [← (List.cons.inj hchars).1] at hc
  exact absurd hc (by decide)

/-- An expression with the source of a word is written as this word. -/
theorem looksLike_of_word? (he : e.Plain st) (hword : e.word? = some text)
    (h : e.toHaskell st = e'.toHaskell st) : e.LooksLike st e' := by
  rcases word_or_form e' with ⟨text', hword'⟩ | ⟨form, hform'⟩
  · rw [toHaskell_of_word? hword, toHaskell_of_word? hword'] at h
    exact .word hword (h ▸ hword')
  · exact absurd h (ne_of_word?_of_form he hword hform')

/-- An expression with the source of one in brackets has the same form and the
same parts. -/
theorem lead_eq (he : e.Plain st) (he' : e'.Plain st)
    (hform : SourceForm.ofExp? e = some form)
    (h : e.toHaskell st = e'.toHaskell st) :
    SourceForm.ofExp? e' = some form ∧ e.lead st = e'.lead st := by
  rcases word_or_form e' with ⟨text, hword'⟩ | ⟨form', hform'⟩
  · exact absurd h.symm (ne_of_word?_of_form he' hword' hform)
  · obtain ⟨rfl, hlead⟩ := lead_cut he he' hform hform' h
    exact ⟨hform', hlead⟩

end Exp

/-! ### Names and bindings in a source -/

theorem endsWord_equals (cs : List Char) : EndsWord (" = ".toList ++ cs) :=
  endsWord_text rfl rfl cs

theorem showsEnd_isBinding : ShowsEnd IsBinding := by
  rintro _ _ rest rest' ⟨name, bound, hname, hbound, rfl⟩
    ⟨name', bound', hname', hbound', rfl⟩ hend hend' h
  simp only [String.toList_append, List.append_assoc] at h
  obtain ⟨rfl, hmore⟩ :=
    showsEnd_isPlain hname hname' (endsWord_equals _) (endsWord_equals _) h
  rw [List.append_cancel_left_eq] at hmore
  obtain ⟨rfl, hrest⟩ := hbound.cut hbound' hend hend' hmore
  exact ⟨rfl, hrest⟩

theorem endsList_params (cs : List Char) :
    EndsList IsPlain " " (" -> ".toList ++ cs) := by
  refine ⟨endsWord_text rfl rfl _, fun t more ht h => ?_, fun t more ht h => ?_⟩ <;>
  · obtain ⟨c, _, hchars, hc⟩ := ht.exists_cons
    simp [hchars] at h
    rw [h.1] at hc
    exact absurd hc (by decide)

theorem endsList_bindings (cs : List Char) :
    EndsList IsBinding "; " ("\x7d in ".toList ++ cs) := by
  refine ⟨endsWord_text rfl rfl _, ?_, fun t more ht h => by simp at h⟩
  rintro _ more ⟨name, bound, hname, -, rfl⟩ h
  obtain ⟨c, _, hchars, hc⟩ := hname.exists_cons
  simp [hchars] at h
  rw [h.1] at hc
  exact absurd hc (by decide)

theorem map_name_eq_iff {params params' : List Binder} :
    params.map (·.name.text) = params'.map (·.name.text) ↔
      params.map (·.name) = params'.map (·.name) := by
  have hinjective : Function.Injective Name.text :=
    fun _ _ => Name.text_injective
  rw [← hinjective.list_map.eq_iff, List.map_map, List.map_map]
  rfl

mutual

/-- Expressions with the same source look alike. -/
theorem Exp.looksLike_of_toHaskell_eq : (e e' : Exp) → e.Plain st →
    e'.Plain st → e.toHaskell st = e'.toHaskell st → e.LooksLike st e'
  | .localVar .., _, he, _, h => Exp.looksLike_of_word? he rfl h
  | .function .., _, he, _, h => Exp.looksLike_of_word? he rfl h
  | .hole .., _, he, _, h => Exp.looksLike_of_word? he rfl h
  | .value id ty text, e', he, he', h => by
      obtain ⟨hform, hlead⟩ := Exp.lead_eq he he' rfl h
      cases e' with
      | value id' ty' text' =>
          obtain rfl : text = text' := congrArg Prod.fst hlead
          exact .value text
      | _ => cases hform
  | .apply id func arg, e', he, he', h => by
      obtain ⟨hform, hlead⟩ := Exp.lead_eq he he' rfl h
      cases e' with
      | apply id' func' arg' =>
          have hfunc : func.toHaskell st = func'.toHaskell st :=
            congrArg Prod.fst hlead
          have harg := congrArg (String.toList ∘ Prod.snd) hlead
          simp only [Exp.lead, Function.comp_apply, String.toList_append,
            List.append_cancel_left_eq, List.append_cancel_right_eq] at harg
          exact .apply
            (func.looksLike_of_toHaskell_eq func' he.1 he'.1 hfunc)
            (arg.looksLike_of_toHaskell_eq arg' he.2 he'.2
              (String.toList_injective harg))
      | _ => cases hform
  | .lambda id params body, e', he, he', h => by
      obtain ⟨hform, hlead⟩ := Exp.lead_eq he he' rfl h
      cases e' with
      | lambda id' params' body' =>
          have hchars := congrArg (String.toList ∘ Prod.snd) hlead
          simp only [Exp.lead, Function.comp_apply, String.toList_append,
            List.append_assoc, List.append_cancel_left_eq] at hchars
          obtain ⟨hparams, hbody⟩ := intercalate_cut showsEnd_isPlain
            (endsWord_text rfl rfl) (List.forall_mem_map.2 he.1)
            (List.forall_mem_map.2 he'.1) (endsList_params _)
            (endsList_params _) hchars
          rw [List.append_cancel_left_eq, List.append_cancel_right_eq] at hbody
          exact .lambda (map_name_eq_iff.1 hparams)
            (body.looksLike_of_toHaskell_eq body' he.2 he'.2
              (String.toList_injective hbody))
      | _ => cases hform
  | .letIn id bindings body, e', he, he', h => by
      obtain ⟨hform, hlead⟩ := Exp.lead_eq he he' rfl h
      cases e' with
      | letIn id' bindings' body' =>
          have hchars := congrArg (String.toList ∘ Prod.snd) hlead
          simp only [Exp.lead, Function.comp_apply, String.toList_append,
            List.append_assoc, List.append_cancel_left_eq] at hchars
          obtain ⟨hbindings, hbody⟩ := intercalate_cut showsEnd_isBinding
            (endsWord_text rfl rfl) (bindings.isBinding he.1)
            (bindings'.isBinding he'.1) (endsList_bindings _)
            (endsList_bindings _) hchars
          rw [List.append_cancel_left_eq, List.append_cancel_right_eq] at hbody
          exact .letIn
            (bindings.looksLike_of_toHaskell_eq bindings' he.1 he'.1 hbindings)
            (body.looksLike_of_toHaskell_eq body' he.2 he'.2
              (String.toList_injective hbody))
      | _ => cases hform
  | .annotated id inner ty, e', he, he', h => by
      obtain ⟨hform, hlead⟩ := Exp.lead_eq he he' rfl h
      cases e' with
      | annotated id' inner' ty' =>
          have hinner : inner.toHaskell st = inner'.toHaskell st :=
            congrArg Prod.fst hlead
          have hty := congrArg (String.toList ∘ Prod.snd) hlead
          simp only [Exp.lead, Function.comp_apply, String.toList_append,
            List.append_cancel_left_eq, List.append_cancel_right_eq] at hty
          exact .annotated
            (inner.looksLike_of_toHaskell_eq inner' he.1 he'.1 hinner)
            (String.toList_injective hty)
      | _ => cases hform

/-- Bindings with the same sources look alike. -/
theorem Bindings.looksLike_of_toHaskell_eq : (bindings bindings' : Bindings) →
    bindings.Plain st → bindings'.Plain st →
      bindings.toHaskell st = bindings'.toHaskell st →
        bindings.LooksLike st bindings'
  | .nil, .nil, _, _, _ => .nil
  | .nil, .cons .., _, _, h => nomatch h
  | .cons .., .nil, _, _, h => nomatch h
  | .cons binder bound rest, .cons binder' bound' rest', he, he', h => by
      rw [Bindings.toHaskell, Bindings.toHaskell, List.cons.injEq] at h
      have hchars := congrArg String.toList h.1
      simp only [String.toList_append, List.append_assoc] at hchars
      obtain ⟨hname, hbound⟩ := showsEnd_isPlain he.1 he'.1
        (endsWord_equals _) (endsWord_equals _) hchars
      rw [List.append_cancel_left_eq] at hbound
      exact .cons (Name.text_injective hname)
        (bound.looksLike_of_toHaskell_eq bound' he.2.1 he'.2.1
          (String.toList_injective hbound))
        (rest.looksLike_of_toHaskell_eq rest' he.2.2 he'.2.2 h.2)

end

mutual

/-- Expressions that look alike have the same source. -/
theorem Exp.LooksLike.toHaskell_eq : {e e' : Exp} → e.LooksLike st e' →
    e.toHaskell st = e'.toHaskell st
  | _, _, .value text => rfl
  | _, _, .word h h' => by
      rw [Exp.toHaskell_of_word? h, Exp.toHaskell_of_word? h']
  | _, _, .apply hfunc harg => by
      rw [Exp.toHaskell, Exp.toHaskell, hfunc.toHaskell_eq, harg.toHaskell_eq]
  | _, _, .lambda hparams hbody => by
      rw [Exp.toHaskell, Exp.toHaskell, hbody.toHaskell_eq,
        map_name_eq_iff.2 hparams]
  | _, _, .letIn hbindings hbody => by
      rw [Exp.toHaskell, Exp.toHaskell, hbindings.toHaskell_eq,
        hbody.toHaskell_eq]
  | _, _, .annotated hinner hty => by
      rw [Exp.toHaskell, Exp.toHaskell, hinner.toHaskell_eq, hty]

theorem Bindings.LooksLike.toHaskell_eq : {bindings bindings' : Bindings} →
    bindings.LooksLike st bindings' →
      bindings.toHaskell st = bindings'.toHaskell st
  | _, _, .nil => rfl
  | _, _, .cons hname hbound hrest => by
      rw [Bindings.toHaskell, Bindings.toHaskell, hname, hbound.toHaskell_eq,
        hrest.toHaskell_eq]

end

/-- A source has one reading: expressions that are written in words have the
same source exactly if they have the same form, with the same words and the
same annotations.  A binder and a function of its name cannot be told apart,
and neither can a hole and what is called `undefined`. -/
theorem Exp.toHaskell_eq_iff (he : e.Plain st) (he' : e'.Plain st) :
    e.toHaskell st = e'.toHaskell st ↔ e.LooksLike st e' :=
  ⟨e.looksLike_of_toHaskell_eq e' he he', fun h => h.toHaskell_eq⟩

def annotatedUse (use missing : ExpId → Exp) : Exp :=
  let binder (index : Nat) (name : Name) : Binder := ⟨⟨index⟩, name, none⟩
  let z := binder 0 ⟨"z", by decide⟩
  .letIn ⟨7⟩
    (.cons (binder 2 ⟨"f", by decide⟩)
      (.lambda ⟨3⟩ [z, binder 1 ⟨"y", by decide⟩]
        (.apply ⟨2⟩ (.localVar ⟨0⟩ z) (missing ⟨1⟩))) .nil)
    (.annotated ⟨6⟩
      (.apply ⟨5⟩ (use ⟨4⟩) (.value ⟨8⟩ (.con ⟨"Double", by decide⟩) "1"))
      TypeState.partialTy)

theorem writesPlainly_partialTy :
    TypeState.orderedSession.WritesPlainly TypeState.partialTy := by
  constructor
  · have hcons : (TypeState.orderedSession.store.zonk
        TypeState.partialTy).cons = [.arrow, .list, ⟨"Maybe", by decide⟩] :=
      rfl
    simp only [hcons, List.forall_mem_cons]
    exact ⟨.inr (.inl rfl), .inr (.inr (.inl rfl)),
      .inl ⟨by simp, by simp⟩, by simp⟩
  · have hvars : (TypeState.orderedSession.store.zonk
        TypeState.partialTy).vars = [⟨1⟩, ⟨2⟩] := rfl
    simp only [hvars, List.forall_mem_cons]
    refine ⟨fun set hset => ?_, fun set hset => ?_, by simp⟩
    · cases hset
      exact fun c hc => absurd hc List.not_mem_nil
    · cases hset
      intro c hc
      have hmembers : (ClassSet.ofList TypeState.comparisons.classes
          [⟨0⟩, ⟨1⟩]).members = [⟨1⟩] := by decide +kernel
      rw [hmembers, List.mem_singleton] at hc
      have hname : TypeState.orderedSession.classes.nameOf ⟨1⟩ = "Ord" := rfl
      rw [hc, hname]
      exact ⟨by simp, by simp⟩

theorem annotatedUse_toHaskell :
    let f : Name := ⟨"f", by decide⟩
    let bound := annotatedUse (.localVar · ⟨⟨2⟩, f, none⟩) .hole
    let free := annotatedUse (.function · ⟨f, .var ⟨0⟩⟩)
      (.function · ⟨⟨"undefined", by decide⟩, .var ⟨0⟩⟩)
    bound.toHaskell TypeState.orderedSession =
        "(let \x7bf = (\x5cz y -> (z undefined))\x7d in " ++
          "((f (1)) :: Ord b => a b -> [Maybe]))" ∧
      bound.LooksLike TypeState.orderedSession free := by
  have hplain (use missing : ExpId → Exp)
      (huse : ∀ id, (use id).Plain TypeState.orderedSession)
      (hmissing : ∀ id, (missing id).Plain TypeState.orderedSession) :
      (annotatedUse use missing).Plain TypeState.orderedSession := by
    refine ⟨⟨⟨by simp, by simp⟩, ⟨?_, ⟨⟨by simp, by simp⟩, hmissing _⟩⟩,
      trivial⟩, ⟨huse _, ⟨by simp, by simp⟩⟩, writesPlainly_partialTy⟩
    simp [IsPlain]
  refine ⟨rfl, (Exp.toHaskell_eq_iff (hplain _ _ (fun id => ?_) fun id => ?_)
    (hplain _ _ (fun id => ?_) fun id => ?_)).1 rfl⟩
  · exact ⟨by simp, by simp⟩
  · trivial
  · exact ⟨by simp, by simp⟩
  · exact isPlain_undefined

end HindleyMilner

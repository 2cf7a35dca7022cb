import HindleyMilner.CommandLine
import HindleyMilner.Proofs.Lexing
import HindleyMilner.Proofs.Session

/-
How an argument of the command line is read.  It is cut at the first `=` that
is not followed by `>`, whatever it is meant to be.  A type has no such `=`, so
a literal is cut behind its type, unless its text starts with `>`.  A name may
have one, and then it is taken for a literal.
-/

namespace HindleyMilner

/-- Whether there is an `=` among characters that is not followed by `>`. -/
def HasBareEquals : List Char → Prop
  | [] => False
  | c :: cs => (c = '=' ∧ cs.head? ≠ some '>') ∨ HasBareEquals cs

instance decidableHasBareEquals :
    (cs : List Char) → Decidable (HasBareEquals cs)
  | [] => isFalse id
  | c :: cs =>
      have := decidableHasBareEquals cs
      inferInstanceAs (Decidable ((c = '=' ∧ cs.head? ≠ some '>') ∨ _))

section

variable {c : Char} {cs before after : List Char}

theorem not_hasBareEquals_cons (hne : c ≠ '=') (h : ¬ HasBareEquals cs) :
    ¬ HasBareEquals (c :: cs) := by
  rintro (⟨rfl, -⟩ | hcs)
  · exact hne rfl
  · exact h hcs

theorem not_hasBareEquals_append (hall : ∀ c ∈ before, c ≠ '=')
    (h : ¬ HasBareEquals after) : ¬ HasBareEquals (before ++ after) := by
  induction before with
  | nil => exact h
  | cons c before ih =>
      rw [List.forall_mem_cons] at hall
      exact not_hasBareEquals_cons hall.1 (ih hall.2)

theorem hasBareEquals_fatArrow :
    HasBareEquals ('=' :: '>' :: cs) ↔ HasBareEquals cs := by
  simp [HasBareEquals]

/-- Induction on characters where `=>` is looked at as a whole. -/
theorem equals_induction {motive : List Char → Prop} (nil : motive [])
    (fatArrow : ∀ cs, motive cs → motive ('=' :: '>' :: cs))
    (bare : ∀ cs : List Char, cs.head? ≠ some '>' → motive ('=' :: cs))
    (other : ∀ c cs, c ≠ '=' → motive cs → motive (c :: cs))
    (cs : List Char) : motive cs := by
  induction cs using CommandLine.Operand.splitAtEquals.induct with
  | case1 => exact nil
  | case2 rest ih => exact fatArrow rest ih
  | case3 rest hnot =>
      apply bare
      rw [Ne, List.head?_eq_some_iff]
      rintro ⟨more, heq⟩
      exact hnot more heq
  | case4 c rest _ hne ih => exact other c rest hne ih

end

/-- Where a text has tokens, every `=` in it is part of `=>`. -/
theorem Signature.Lexes.not_hasBareEquals {cs : List Char}
    {toks : List Token} (h : Lexes cs toks) : ¬ HasBareEquals cs := by
  induction h with
  | done => exact id
  | blank hblank _ ih =>
      refine not_hasBareEquals_cons ?_ ih
      rintro rfl
      exact absurd hblank (by decide)
  | punctuation hchar _ ih =>
      refine not_hasBareEquals_cons ?_ ih
      rintro rfl
      exact nomatch hchar
  | arrow _ ih =>
      exact not_hasBareEquals_cons (by decide)
        (not_hasBareEquals_cons (by decide) ih)
  | fatArrow _ ih => rwa [hasBareEquals_fatArrow]
  | word hfirst hword _ _ ih =>
      refine not_hasBareEquals_cons ?_ (not_hasBareEquals_append ?_ ih)
      · rintro rfl
        exact absurd hfirst (by decide)
      · rintro c hc rfl
        exact absurd (hword _ hc) (by decide)

namespace CommandLine

open Signature

variable {cs before after : List Char}

/-! ### Cutting an argument -/

theorem splitAtEquals_bare (h : after.head? ≠ some '>') :
    Operand.splitAtEquals ('=' :: after) = some ([], after) := by
  rw [Operand.splitAtEquals]
  rintro rest rfl
  exact h rfl

theorem splitAtEquals_other {c : Char} (hne : c ≠ '=') :
    Operand.splitAtEquals (c :: cs) =
      (Operand.splitAtEquals cs).map fun cut => (c :: cut.1, cut.2) := by
  rw [Operand.splitAtEquals]
  · exact fun _ h => absurd h hne
  · exact hne

/-- What is cut off starts behind an `=` that is not followed by `>`. -/
theorem eq_of_splitAtEquals
    (h : Operand.splitAtEquals cs = some (before, after)) :
    cs = before ++ '=' :: after ∧ after.head? ≠ some '>' := by
  induction cs using equals_induction generalizing before with
  | nil => cases h
  | fatArrow cs ih =>
      rw [Operand.splitAtEquals, Option.map_eq_some_iff] at h
      obtain ⟨⟨front, back⟩, hrest, hcut⟩ := h
      cases hcut
      obtain ⟨heq, hafter⟩ := ih hrest
      exact ⟨by rw [heq]; rfl, hafter⟩
  | bare cs hbare =>
      rw [splitAtEquals_bare hbare] at h
      cases h
      exact ⟨rfl, hbare⟩
  | other c cs hne ih =>
      rw [splitAtEquals_other hne, Option.map_eq_some_iff] at h
      obtain ⟨⟨front, back⟩, hrest, hcut⟩ := h
      cases hcut
      obtain ⟨heq, hafter⟩ := ih hrest
      exact ⟨by rw [heq]; rfl, hafter⟩

theorem splitAtEquals_append (hbefore : ¬ HasBareEquals before)
    (hafter : after.head? ≠ some '>') :
    Operand.splitAtEquals (before ++ '=' :: after) = some (before, after) := by
  induction before using equals_induction with
  | nil => exact splitAtEquals_bare hafter
  | fatArrow cs ih =>
      rw [hasBareEquals_fatArrow] at hbefore
      rw [List.cons_append, List.cons_append, Operand.splitAtEquals,
        ih hbefore]
      rfl
  | bare cs hbare => exact absurd (Or.inl ⟨rfl, hbare⟩) hbefore
  | other c cs hne ih =>
      rw [List.cons_append, splitAtEquals_other hne,
        ih fun hrest => hbefore (Or.inr hrest)]
      rfl

theorem splitAtEquals_eq_none_iff :
    Operand.splitAtEquals cs = none ↔ ¬ HasBareEquals cs := by
  induction cs using equals_induction with
  | nil => exact iff_of_true rfl id
  | fatArrow cs ih =>
      rw [Operand.splitAtEquals, Option.map_eq_none_iff, ih,
        hasBareEquals_fatArrow]
  | bare cs hbare =>
      rw [splitAtEquals_bare hbare]
      exact iff_of_false (by simp) (not_not_intro (Or.inl ⟨rfl, hbare⟩))
  | other c cs hne ih =>
      rw [splitAtEquals_other hne, Option.map_eq_none_iff, ih, not_iff_not]
      exact ⟨Or.inr, Or.rec (fun h => absurd h.1 hne) id⟩

theorem ofText_of_cut {text : String} {cut : List Char × List Char}
    (hne : text ≠ "_") (h : Operand.splitAtEquals text.toList = some cut) :
    Operand.ofText text =
      .value (String.ofList cut.1) (String.ofList cut.2) := by
  rw [Operand.ofText, if_neg hne, h]

theorem ofText_of_uncut {text : String} (hne : text ≠ "_")
    (h : Operand.splitAtEquals text.toList = none) :
    Operand.ofText text = .function text := by
  rw [Operand.ofText, if_neg hne, h]

/-! ### Reading an argument -/

/-- Goes on from the function so far with one more argument. -/
def buildArgument (env : Env) (call : Exp) (arg : String) : CallM Exp := do
  let operand ← buildOperand env (.ofText arg)
  make (Build.apply call operand)

theorem build_eq (env : Env) (function : String) (args : List String) :
    build env function args =
      buildFunction env function >>= fun func =>
        args.foldlM (buildArgument env) func :=
  rfl

/-- The arguments are read from left to right. -/
theorem build_append (env : Env) (function : String)
    (args more : List String) :
    build env function (args ++ more) =
      build env function args >>= fun call =>
        more.foldlM (buildArgument env) call := by
  rw [build_eq, build_eq, bind_assoc]
  simp only [List.foldlM_append]

/-- Whether an argument is read as an operand, after `args` and in whatever
comes then: the call so far is applied to it. -/
def ReadsAs (env : Env) (function : String) (args : List String)
    (start : Supply × TypeState) (arg : String) (call : Exp)
    (operand : ExpId → Exp) (supply : Supply) (st : TypeState) : Prop :=
  ∀ more, (build env function (args ++ arg :: more)).run start =
    (more.foldlM (buildArgument env)
      (.apply ⟨supply.exps + 1⟩ call (operand ⟨supply.exps⟩))).run
        ({ supply with exps := supply.exps + 2 }, st)

section

variable {env : Env} {function arg name ty text : String}
  {args : List String} {info : FunctionInfo} {call : Exp}
  {operand : ExpId → Exp} {start : Supply × TypeState} {supply : Supply}
  {st st' : TypeState} {valueTy : Ty TyVar} {scope scope' : Scope}

def applied (call : Exp) (operand : ExpId → Exp) (supply : Supply)
    (st : TypeState) : EStateM.Result String (Supply × TypeState) Exp :=
  .ok (.apply ⟨supply.exps + 1⟩ call (operand ⟨supply.exps⟩))
    ({ supply with exps := supply.exps + 2 }, st)

theorem applied_inj {operand' : ExpId → Exp}
    (h : applied call operand supply st = applied call operand' supply st') :
    operand ⟨supply.exps⟩ = operand' ⟨supply.exps⟩ := by
  injection h with hcall
  exact (Exp.apply.inj hcall).2.2

theorem buildArgument_run_value (h : Operand.ofText arg = .value ty text) :
    (buildArgument env call arg).run (supply, st) =
      match st.parse .empty ty with
      | (.ok valueTy, _, st') => applied call (.value · valueTy text) supply st'
      | (.error e, _, st') =>
          .error ("invalid type `" ++ ty ++ "`: " ++ e.message)
            (supply, st') := by
  rw [buildArgument, h, buildOperand, bind_assoc, get_bind_run]
  dsimp only
  rcases st.parse .empty ty with ⟨result, scope, st'⟩
  cases result <;> rfl

theorem buildArgument_run_function (h : Operand.ofText arg = .function name) :
    (buildArgument env call arg).run (supply, st) =
      match env.use name with
      | .ok use => applied call (.function · use) supply st
      | .error e => .error e.message (supply, st) := by
  rw [buildArgument, h, buildOperand, buildFunction]
  cases env.use name <;> rfl

/-- An argument is read as an operand if it is so where nothing comes after
it. -/
theorem readsAs_iff
    (hcall : (build env function args).run start = .ok call (supply, st)) :
    ReadsAs env function args start arg call operand supply st' ↔
      (buildArgument env call arg).run (supply, st) =
        applied call operand supply st' := by
  constructor
  · intro h
    have hlast := h []
    rw [build_append, bind_run_of_ok hcall, List.foldlM_cons] at hlast
    simpa [applied] using hlast
  · intro h more
    rw [build_append, bind_run_of_ok hcall, List.foldlM_cons,
      bind_run_of_ok h]

theorem use_of_lookup? (h : env.lookup? name = some info) :
    env.use name = .ok ⟨info.name, info.signature⟩ := by
  have hname : info.name.text = name := by
    simpa using List.find?_some h
  rw [Env.use, h, ← hname, Name.ofString?_text]

/-- A type that can be read has no `=` but in `=>`. -/
theorem not_hasBareEquals_of_parse
    (h : st.parse scope ty = (.ok valueTy, scope', st')) :
    ¬ HasBareEquals ty.toList := by
  rw [TypeState.parse_eq, Signature.parse] at h
  cases htokens : tokenize ty with
  | error stray =>
      rw [htokens] at h
      cases h
  | ok lexemes => exact (lexes_of_scan htokens).not_hasBareEquals

/-- The name of a function is read as a use of it, unless it can be cut. -/
theorem readsAs_function_iff
    (hcall : (build env function args).run start = .ok call (supply, st))
    (hinfo : env.lookup? name = some info) (hne : name ≠ "_") :
    ReadsAs env function args start name call
        (.function · ⟨info.name, info.signature⟩) supply st ↔
      ¬ HasBareEquals name.toList := by
  rw [readsAs_iff hcall, ← splitAtEquals_eq_none_iff]
  cases hsplit : Operand.splitAtEquals name.toList with
  | none =>
      rw [buildArgument_run_function (ofText_of_uncut hne hsplit),
        use_of_lookup? hinfo]
      exact iff_of_true rfl rfl
  | some cut =>
      rw [buildArgument_run_value (ofText_of_cut hne hsplit)]
      refine iff_of_false (fun hrun => ?_) (Option.some_ne_none _)
      split at hrun
      · exact nomatch applied_inj hrun
      · cases hrun

/-- A literal is read with its type and its text, unless it is not cut between
them. -/
theorem readsAs_value_iff
    (hcall : (build env function args).run start = .ok call (supply, st))
    (hparse : st.parse .empty ty = (.ok valueTy, scope, st')) :
    ReadsAs env function args start (ty ++ "=" ++ text) call
        (.value · valueTy text) supply st' ↔
      text.toList.head? ≠ some '>' := by
  have hchars : (ty ++ "=" ++ text).toList =
      ty.toList ++ '=' :: text.toList := by simp
  have hne : ty ++ "=" ++ text ≠ "_" := by
    intro heq
    rw [heq] at hchars
    have hmem : '=' ∈ "_".toList := by rw [hchars]; simp
    exact absurd hmem (by decide)
  rw [readsAs_iff hcall]
  constructor
  · intro hrun
    cases hsplit : Operand.splitAtEquals (ty ++ "=" ++ text).toList with
    | none =>
        rw [buildArgument_run_function (ofText_of_uncut hne hsplit)] at hrun
        split at hrun
        · exact nomatch applied_inj hrun
        · cases hrun
    | some cut =>
        rw [buildArgument_run_value (ofText_of_cut hne hsplit)] at hrun
        split at hrun
        · have htext := (Exp.value.inj (applied_inj hrun)).2.2
          -- If the text was kept, it is what was cut off.
          rw [← htext, String.toList_ofList]
          exact (eq_of_splitAtEquals hsplit).2
        · cases hrun
  · intro hafter
    have hsplit := splitAtEquals_append (not_hasBareEquals_of_parse hparse)
      hafter
    rw [← hchars] at hsplit
    rw [buildArgument_run_value (ofText_of_cut hne hsplit),
      String.ofList_toList, String.ofList_toList, hparse]

/-- Which arguments are read as what they are meant to be.  The name of a
function is, unless it has an `=` that is not followed by `>`; then it is taken
for a literal.  A literal is, unless its text starts with `>`; then its `=` is
taken for a part of the type. -/
theorem build_argument
    (hcall : (build env function args).run start = .ok call (supply, st)) :
    (∀ name info, env.lookup? name = some info → name ≠ "_" →
      (ReadsAs env function args start name call
          (.function · ⟨info.name, info.signature⟩) supply st ↔
        ¬ HasBareEquals name.toList)) ∧
      ∀ ty text valueTy scope st',
        st.parse .empty ty = (.ok valueTy, scope, st') →
          (ReadsAs env function args start (ty ++ "=" ++ text) call
              (.value · valueTy text) supply st' ↔
            text.toList.head? ≠ some '>') :=
  ⟨fun _ _ hinfo hne => readsAs_function_iff hcall hinfo hne,
    fun _ _ _ _ _ hparse => readsAs_value_iff hcall hparse⟩

end

def succeeds {E S A : Type} : EStateM.Result E S A → Bool
  | .ok _ _ => true
  | .error _ _ => false

theorem exists_ok_of_succeeds {E S A : Type} {result : EStateM.Result E S A}
    (h : succeeds result = true) :
    ∃ a, result = .ok a (finalState result) := by
  cases result with
  | ok a s => exact ⟨a, rfl⟩
  | error e s => contradiction

theorem exists_error_of_not_succeeds {E S A : Type}
    {result : EStateM.Result E S A} (h : succeeds result = false) :
    ∃ e s, result = .error e s := by
  cases result with
  | ok a s => contradiction
  | error e s => exact ⟨e, s, rfl⟩

/-- A catalog with a function that has an `=` in its name. -/
def equalityCatalog : Catalog where
  version := Catalog.supportedVersion
  classes := [⟨"Eq", [], [], []⟩]
  functions :=
    [⟨"id", "a -> a", "", ""⟩, ⟨"(==)", "Eq a => a -> a -> ()", "", ""⟩]

def equalityEnv : Env × TypeState :=
  finalState ((Env.load equalityCatalog).run (.empty, .empty))

theorem load_equalityCatalog :
    (Env.load equalityCatalog).run (.empty, .empty) = .ok () equalityEnv := by
  have hok : succeeds ((Env.load equalityCatalog).run (.empty, .empty)) =
      true := by decide +kernel
  obtain ⟨u, hrun⟩ := exists_ok_of_succeeds hok
  exact hrun

def identityInfo : FunctionInfo where
  name := ⟨"id", by decide⟩
  signature := .arrow (.var ⟨0⟩) (.var ⟨0⟩)
  category := ""
  documentation := ""

def equalityInfo : FunctionInfo where
  name := ⟨"(==)", by decide⟩
  signature := .arrow (.var ⟨1⟩) (.arrow (.var ⟨1⟩) (.con .unit))
  category := ""
  documentation := ""

theorem lookup?_identity :
    equalityEnv.1.lookup? "id" = some identityInfo := by
  decide +kernel

theorem lookup?_equality :
    equalityEnv.1.lookup? "(==)" = some equalityInfo := by
  decide +kernel

theorem parse_unit : ∃ scope st,
    equalityEnv.2.parse .empty "()" = (.ok (.con .unit), scope, st) := by
  have hread : (equalityEnv.2.parse .empty "()").1 = .ok (.con .unit) := by
    decide +kernel
  exact ⟨_, _, Prod.ext hread rfl⟩

def identityCall : Exp :=
  .function ⟨0⟩ ⟨identityInfo.name, identityInfo.signature⟩

theorem build_identity :
    (build equalityEnv.1 "id" []).run (⟨0, 0⟩, equalityEnv.2) =
      .ok identityCall (⟨1, 0⟩, equalityEnv.2) := by
  rw [build_eq, buildFunction, use_of_lookup? lookup?_identity]
  rfl

theorem build_argument_identity :
    ∃ scope st,
      equalityEnv.2.parse .empty "()" = (.ok (.con .unit), scope, st) ∧
        ReadsAs equalityEnv.1 "id" [] (⟨0, 0⟩, equalityEnv.2) "id"
          identityCall (.function · ⟨identityInfo.name, identityInfo.signature⟩)
          ⟨1, 0⟩ equalityEnv.2 ∧
        ReadsAs equalityEnv.1 "id" [] (⟨0, 0⟩, equalityEnv.2)
          ("()" ++ "=" ++ "=>") identityCall (.value · (.con .unit) "=>")
          ⟨1, 0⟩ st := by
  have hargument := build_argument build_identity
  obtain ⟨scope, st, hparse⟩ := parse_unit
  exact ⟨scope, st, hparse,
    (hargument.1 "id" identityInfo lookup?_identity (by decide)).2 (by decide),
    (hargument.2 "()" "=>" (.con .unit) scope st hparse).2 (by decide)⟩

/-- The function `(==)` of a catalog cannot be passed as an argument, since its
name is cut, and neither can a literal whose text starts with `>`, since it is
not. -/
theorem equality_misread :
    (Env.load equalityCatalog).run (.empty, .empty) = .ok () equalityEnv ∧
      equalityEnv.1.lookup? "(==)" = some equalityInfo ∧
      (∃ e next, (build equalityEnv.1 "id" ["(==)"]).run
        (⟨0, 0⟩, equalityEnv.2) = .error e next) ∧
      (∃ scope st,
        equalityEnv.2.parse .empty "()" = (.ok (.con .unit), scope, st)) ∧
      ∃ e next, (build equalityEnv.1 "id" ["()" ++ "=" ++ ">5"]).run
        (⟨0, 0⟩, equalityEnv.2) = .error e next :=
  ⟨load_equalityCatalog, lookup?_equality,
    exists_error_of_not_succeeds (by decide +kernel), parse_unit,
    exists_error_of_not_succeeds (by decide +kernel)⟩

end CommandLine

end HindleyMilner

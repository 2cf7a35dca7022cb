import HindleyMilner.Proofs.Elsewhere
import HindleyMilner.Proofs.ReadingSteps

/-
Reading a signature in a new scope.  It only depends on the classes whether a
text can be read, the result is made of variables of the store, and types that
were there before are left alone.
-/

namespace HindleyMilner

/-! ### What a result is made of -/

/-- The variables in a type are handed out for names. -/
theorem Scope.exists_name_of_mapVarsM (t : Ty String) (now : Scope × Store) :
    ∀ v ∈ ((t.mapVarsM var).run now).1.vars,
      ∃ x, ((t.mapVarsM var).run now).2.1.named.lookup x = some v := by
  induction t generalizing now with
  | var x =>
      intro v hv
      have hrun : ((Ty.var x).mapVarsM var).run now =
          (.var ((var x).run now).1, ((var x).run now).2) := rfl
      rw [hrun] at hv ⊢
      rw [Ty.mem_vars_var.1 hv]
      exact ⟨x, lookup_var x now⟩
  | con name => exact fun v hv => absurd hv List.not_mem_nil
  | app func arg ihFunc ihArg =>
      intro v hv
      have hrun : ((Ty.app func arg).mapVarsM var).run now =
          (.app ((func.mapVarsM var).run now).1
            ((arg.mapVarsM var).run ((func.mapVarsM var).run now).2).1,
            ((arg.mapVarsM var).run ((func.mapVarsM var).run now).2).2) := rfl
      rw [hrun] at hv ⊢
      rcases Ty.mem_vars_app.1 hv with hv | hv
      · obtain ⟨x, hx⟩ := ihFunc now v hv
        exact ⟨x, Widening.mapVarsM arg widening_var _ hx⟩
      · exact ihArg _ v hv

namespace Signature

variable {table : ClassTable} {now next : Scope × Store} {ty : Ty TyVar}
  {text : String} {toks : List Token} {first : NamedTy} {s s' : Store}

theorem outcome_true {A : Type}
    (result : EStateM.Result SignatureError (Scope × Store) A) :
    Outcome (fun _ _ => True) True result := by
  cases result <;> trivial

/-- Whether the variables of a type are those of names in a scope. -/
def MadeOfNames (ty : Ty TyVar) (now : Scope × Store) : Prop :=
  ∀ v ∈ ty.vars, ∃ x, now.1.named.lookup x = some v

theorem outcome_finish_names (textEnd : Nat) (t : NamedTy)
    (rest : List Lexeme) (now : Scope × Store) :
    Outcome MadeOfNames True ((finish textEnd t rest).run now) := by
  cases rest with
  | nil => exact Scope.exists_name_of_mapVarsM t now
  | cons lexeme rest => trivial

theorem outcome_elaborate_names (table : ClassTable) (textEnd : Nat)
    (lexemes : List Lexeme) (now : Scope × Store) :
    Outcome MadeOfNames True ((elaborate table textEnd lexemes).run now) := by
  rw [elaborate]
  apply (outcome_true _).bind fun _ => trivial
  rintro ⟨first, rest⟩ mid -
  dsimp only
  split
  · apply (outcome_true _).bind fun _ => trivial
    rintro - imposed -
    apply (outcome_true _).bind fun _ => trivial
    rintro ⟨t, rest⟩ last -
    exact outcome_finish_names textEnd t rest last
  · exact outcome_finish_names textEnd first rest mid

theorem madeOfNames_of_parse
    (hrun : (parse table text).run now = .ok ty next) :
    MadeOfNames ty next := by
  have houtcome : Outcome MadeOfNames True ((parse table text).run now) := by
    rw [parse]
    split
    · exact outcome_elaborate_names _ _ _ _
    · trivial
  rwa [hrun] at houtcome

/-! ### What can be read -/

/-- In a new scope constraints can be imposed whose classes never conflict. -/
theorem imposable_iff (ordered : table.Ordered) :
    Imposable table (.empty, s) toks first ↔
      ∃ cs, List.Forall₂ (IsConstraint table) (contextParts first) cs ∧
        Satisfiable table [] cs := by
  obtain ⟨next, hrun, hnamed, -⟩ :=
    exists_nameAll (.start table s) (namesOf toks)
  have hnext : handedOut (.empty, s) toks = next := by
    rw [handedOut, hrun]
  have houtcome := outcome_imposeAll ordered hnamed 0 (contextParts first)
  rw [Imposable, hnext]
  cases himpose : ((contextParts first).forM (impose table 0)).run next with
  | ok u last =>
      rw [himpose] at houtcome
      obtain ⟨cs, hcs, hsat, -⟩ := houtcome
      exact iff_of_true ⟨last, rfl⟩ ⟨cs, hcs, hsat⟩
  | error e last =>
      rw [himpose] at houtcome
      refine iff_of_false ?_ ?_
      · rintro ⟨last, hlast⟩
        cases hlast
      · rintro ⟨cs, hcs, hsat⟩
        exact houtcome cs hcs hsat

/-- In a new scope the store does not matter. -/
theorem Accepted.of_new (ordered : table.Ordered)
    (h : Accepted table (.empty, s) toks) :
    Accepted table (.empty, s') toks := by
  cases h with
  | type ht => exact .type ht
  | context hfirst himposable ht =>
      rw [imposable_iff ordered, ← imposable_iff ordered] at himposable
      exact .context hfirst himposable ht

end Signature

/-- Whether a text is a signature with the classes of a table. -/
def ClassTable.Reads (table : ClassTable) (text : String) : Prop :=
  ∃ ty, ((⟨table, .empty⟩ : TypeState).parse .empty text).1 = .ok ty

/-- Whether a type stands for the same in another store, and its variables
have the same classes there. -/
structure Ty.Stays (t : Ty TyVar) (s s' : Store) : Prop where
  zonk_eq : s'.zonk t = s.zonk t
  classes_eq : ∀ v ∈ (s.zonk t).vars,
    s'.unsolvedClasses? v = s.unsolvedClasses? v

theorem Ty.Stays.refl (t : Ty TyVar) (s : Store) : t.Stays s s :=
  ⟨rfl, fun _ _ => rfl⟩

theorem Ty.Stays.trans {t : Ty TyVar} {s s' s'' : Store} (h : t.Stays s s')
    (h' : t.Stays s' s'') : t.Stays s s'' where
  zonk_eq := h'.zonk_eq.trans h.zonk_eq
  classes_eq v hv :=
    (h'.classes_eq v (by rwa [h.zonk_eq])).trans (h.classes_eq v hv)

namespace TypeState

open Signature

variable {st : TypeState} {scope : Scope} {text : String} {ty t : Ty TyVar}

/-- The result of reading is made of variables of the store. -/
theorem WellFormed.inRange_parse (h : st.WellFormed)
    (hscope : scope.InRange st.store)
    (hok : (st.parse scope text).1 = .ok ty) :
    ty.InRange (st.parse scope text).2.2.store := by
  have hkeeps := Signature.keeps_parse text (h.handing (fun _ => True) hscope)
    trivial
  rw [parse_eq] at hok ⊢
  cases hrun : (Signature.parse st.classes text).run (scope, st.store) with
  | ok ty' next =>
      rw [hrun] at hkeeps hok
      cases hok
      intro v hv
      obtain ⟨x, hx⟩ := madeOfNames_of_parse hrun v hv
      exact hkeeps.1.inRange _ (mem_of_lookup hx)
  | error e next =>
      rw [hrun] at hok
      cases hok

theorem reads_iff (h : st.classes.Ordered) :
    (∃ ty, (st.parse .empty text).1 = .ok ty) ↔ st.classes.Reads text := by
  rw [ClassTable.Reads, parse_ok_iff, parse_ok_iff]
  refine exists_congr fun toks => and_congr_right fun _ => ?_
  exact ⟨Accepted.of_new h, Accepted.of_new h⟩

/-- Types are left alone where signatures are read in scopes of their own. -/
theorem WellFormed.stays_parse (h : st.WellFormed) (ht : t.InRange st.store)
    (text : String) : t.Stays st.store (st.parse .empty text).2.2.store := by
  let S : Setting := ⟨st.classes, st.store, [t], h.ordered, h.wellFormed,
    List.forall_mem_singleton.2 ht⟩
  have hread : Elsewhere [t] st (st.parse .empty text).2.2 [] :=
    .parse .start text nofun nofun
  have hstate := (S.meanwhile (fun _ => id) hread).state
  exact ⟨hstate.zonk_scheme (List.mem_singleton.2 rfl), fun v hv =>
    hstate.unsolvedClasses?_generic ⟨t, List.mem_singleton.2 rfl, hv⟩⟩

end TypeState

end HindleyMilner

import HindleyMilner.Proofs.ContextShape

/-
Reading a signature, one step at a time.  There are two kinds of steps: the
variable of a name is handed out, and a class is imposed on a variable that
was handed out.  What both keep holds after every reading, whether it succeeds
or not, and every error is one of the grammar or one of the second step.
-/

namespace HindleyMilner.Signature

variable {table : ClassTable} {now next : Scope × Store}
  {I : Scope × Store → Prop} {N : String → Prop}
  {E : SignatureError.Cause → Prop} {lexemes consumed rest : List Lexeme}
  {toks : List Token} {t first : NamedTy} {ts : List NamedTy}
  {what : Expected} {pos : Nat}

/-! ### Handing out names -/

def namesOf (toks : List Token) : List String :=
  toks.filterMap fun
    | .var name => some name
    | _ => none

theorem varNames_eq_namesOf (lexemes : List Lexeme) :
    varNames lexemes = namesOf (lexemes.map (·.token)) := by
  rw [varNames, namesOf, List.filterMap_map]
  rfl

theorem mem_namesOf {x : String} : x ∈ namesOf toks ↔ .var x ∈ toks := by
  obtain ⟨lexemes, rfl⟩ := exists_lexemes toks
  rw [← varNames_eq_namesOf, mem_varNames]

/-- The scope and the store after the variables of all names among tokens were
handed out. -/
def handedOut (now : Scope × Store) (toks : List Token) : Scope × Store :=
  (((namesOf toks).forM fun name => do let _ ← Scope.var name :
    ScopeM PUnit).run now).2

/-- Whether a property is kept where the variable of a name is handed out. -/
def KeptByNames (N : String → Prop) (I : Scope × Store → Prop) : Prop :=
  ∀ ⦃x now⦄, N x → I now → I ((Scope.var x).run now).2

theorem KeptByNames.handedOut (h : KeptByNames N I)
    (htoks : ∀ x, .var x ∈ toks → N x) (hnow : I now) :
    I (handedOut now toks) := by
  have hnames : ∀ x ∈ namesOf toks, N x :=
    fun x hx => htoks x (mem_namesOf.1 hx)
  rw [Signature.handedOut]
  generalize namesOf toks = names at hnames
  induction names generalizing now with
  | nil => exact hnow
  | cons name names ih =>
      rw [List.forall_mem_cons] at hnames
      exact ih (h hnames.1 hnow) hnames.2

theorem KeptByNames.mapVarsM (h : KeptByNames N I)
    (ht : ∀ x ∈ t.vars, N x) (hnow : I now) :
    I ((t.mapVarsM Scope.var).run now).2 := by
  induction t generalizing now with
  | var x => exact h (ht x (Ty.mem_vars_var.2 rfl)) hnow
  | con name => exact hnow
  | app func arg ihFunc ihArg =>
      have hfunc := ihFunc (fun x hx => ht x (Ty.mem_vars_app.2 (.inl hx)))
        hnow
      exact ihArg (fun x hx => ht x (Ty.mem_vars_app.2 (.inr hx))) hfunc

/-- All names among the tokens have variables from then on. -/
theorem knows_handedOut (now : Scope × Store) (toks : List Token) :
    Knows (handedOut now toks).1 toks := by
  have hnames (names : List String) (now : Scope × Store) :
      ∀ x ∈ names, ((((names.forM fun name => do let _ ← Scope.var name) :
        ScopeM PUnit).run now).2.1.named.lookup x).isSome = true := by
    induction names generalizing now with
    | nil => simp
    | cons name names ih =>
        rw [List.forall_mem_cons]
        have hwidens := (continues_names default names
          ((Scope.var name).run now).2).widens
        exact ⟨Option.isSome_iff_exists.2
          ⟨_, hwidens (Scope.lookup_var name now)⟩, ih _⟩
  exact fun x hx => hnames _ now x (mem_namesOf.2 hx)

/-! ### Reading types -/

/-- What was read of a type, and the names in it. -/
theorem elaborateType_run_of_ok (textEnd : Nat) (now : Scope × Store)
    (hread : readType (consumed ++ rest) = ⟨.ok t, rest⟩) :
    (elaborateType textEnd (consumed ++ rest)).run now =
      .ok (t, rest) (handedOut now (consumed.map (·.token))) := by
  rw [elaborateType_run, hread, bind_run_of_ok (handOut_run_eq _ now),
    List.length_append, Nat.add_sub_cancel, List.take_left,
    varNames_eq_namesOf]
  rfl

theorem elaborateType_run_of_error (textEnd : Nat) (now : Scope × Store)
    (hread : readType lexemes = ⟨.error what, rest⟩) :
    (elaborateType textEnd lexemes).run now =
      .error ⟨startOf textEnd rest, .expected what⟩ (handedOut now
        ((lexemes.take (lexemes.length - rest.length)).map (·.token))) := by
  rw [elaborateType_run, hread, bind_run_of_ok (handOut_run_eq _ now),
    varNames_eq_namesOf]
  rfl

/-- Whether an error says what was expected where tokens that should be a type
stop being one. -/
inductive BreaksOff (textEnd : Nat) (lexemes : List Lexeme) :
    SignatureError → Prop
  | inside {what : Expected} {rest : List Lexeme}
      (hread : readType lexemes = ⟨.error what, rest⟩) :
      BreaksOff textEnd lexemes ⟨startOf textEnd rest, .expected what⟩
  | behind {t : NamedTy} {rest : List Lexeme}
      (hread : readType lexemes = ⟨.ok t, rest⟩) (hrest : rest ≠ []) :
      BreaksOff textEnd lexemes
        ⟨startOf textEnd rest, .expected .endOfSignature⟩

theorem not_breaksOff {textEnd : Nat} {e : SignatureError}
    (hread : readType lexemes = ⟨.ok t, []⟩) :
    ¬ BreaksOff textEnd lexemes e := by
  rintro (hread' | ⟨hread', hrest⟩) <;> rw [hread] at hread' <;> cases hread'
  exact hrest rfl

theorem yields_finish (h : KeptByNames N I) (ht : ∀ x ∈ t.vars, N x)
    (textEnd : Nat) (rest : List Lexeme) (hnow : I now) :
    Yields (fun _ next => I next ∧ rest = [])
      (fun e next => I next ∧ rest ≠ [] ∧
        e = ⟨startOf textEnd rest, .expected .endOfSignature⟩)
      ((finish textEnd t rest).run now) := by
  cases rest with
  | nil => exact ⟨h.mapVarsM ht hnow, rfl⟩
  | cons lexeme rest => exact ⟨hnow, List.cons_ne_nil _ _, rfl⟩

/-- Reading the type that a signature ends with. -/
theorem yields_lastType (h : KeptByNames N I)
    (hnames : ∀ x, .var x ∈ lexemes.map (·.token) → N x) (textEnd : Nat)
    (hnow : I now) :
    Yields (fun _ next => I next ∧ ∃ t, readType lexemes = ⟨.ok t, []⟩)
      (fun e next => I next ∧ BreaksOff textEnd lexemes e)
      ((elaborateType textEnd lexemes >>= fun (t, rest) =>
        finish textEnd t rest).run now) := by
  rcases hread : readType lexemes with ⟨result, rest⟩
  cases result with
  | error what =>
      rw [EStateM.run_bind, elaborateType_run_of_error textEnd now hread]
      refine ⟨h.handedOut (fun x hx => hnames x ?_) hnow, .inside hread⟩
      rw [List.map_take] at hx
      exact List.mem_of_mem_take hx
  | ok t =>
      obtain ⟨consumed, rfl, htype⟩ := isType_of_readType hread
      have hconsumed : ∀ x, .var x ∈ consumed.map (·.token) → N x := by
        intro x hx
        apply hnames
        rw [List.map_append]
        exact List.mem_append_left _ hx
      rw [bind_run_of_ok (elaborateType_run_of_ok textEnd now hread)]
      apply (yields_finish h (fun x hx => hconsumed x (htype.mem_toks x hx))
        textEnd rest (h.handedOut hconsumed hnow)).imp
      · rintro e next ⟨hnext, hrest, rfl⟩
        exact ⟨hnext, .behind hread hrest⟩
      · rintro ty next ⟨hnext, rfl⟩
        exact ⟨hnext, t, rfl⟩

/-! ### Imposing constraints -/

/-- Whether a property is kept where a class is imposed on a variable that was
handed out, and the causes of failure there are of a kind. -/
def KeptByConstraints (table : ClassTable) (N : String → Prop)
    (I : Scope × Store → Prop) (E : SignatureError.Cause → Prop) : Prop :=
  ∀ ⦃x v c now⦄ (pos : Nat), N x → I now →
    now.1.named.lookup x = some v → c.index < table.size →
      Yields (fun _ next => I next)
        (fun e next => I next ∧ e.pos = pos ∧ E e.cause)
        ((constrainVar table pos v c).run now)

/-- What reading keeps: both kinds of steps keep a property, and the causes of
a failure in the context are of a kind. -/
structure KeptByReading (table : ClassTable) (N : String → Prop)
    (I : Scope × Store → Prop) (E : SignatureError.Cause → Prop) : Prop where
  names : KeptByNames N I
  constraints : KeptByConstraints table N I E
  malformed : E .malformedContext
  unknown : ∀ name, E (.unknownClass name)

theorem mem_vars_of_constraint? {k : Constraint} (h : constraint? t = some k) :
    k.var ∈ t.vars := by
  unfold constraint? at h
  split at h
  · rename_i cls x hspine
    cases h
    have ht := t.applyTo_spine
    rw [hspine] at ht
    simp [← ht, Ty.applyTo]
  · contradiction

theorem mem_vars_of_contextParts (ht : t ∈ contextParts first) {x : String}
    (hx : x ∈ t.vars) : x ∈ first.vars := by
  have hself (ht : t ∈ [first]) : x ∈ first.vars := by
    rwa [← List.mem_singleton.1 ht]
  unfold contextParts at ht
  split at ht
  · rename_i head args hspine
    split at ht
    · simp at ht
    · split at ht
      · have happly := first.applyTo_spine
        rw [← happly, hspine, Ty.mem_vars_applyTo]
        exact .inr ⟨t, ht, hx⟩
      · exact hself ht
  · exact hself ht

theorem KeptByReading.yields_impose (h : KeptByReading table N I E)
    (pos : Nat) (ht : ∀ x ∈ t.vars, N x) (hnow : I now) :
    Yields (fun _ next => I next)
      (fun e next => I next ∧ e.pos = pos ∧ E e.cause)
      ((impose table pos t).run now) := by
  rw [impose]
  split
  · exact ⟨hnow, rfl, h.malformed⟩
  · rename_i k hk
    split
    · exact ⟨hnow, rfl, h.unknown _⟩
    · rename_i c hclass
      have hvar := ht k.var (mem_vars_of_constraint? hk)
      rw [bind_run_of_ok (handOut_run_eq (Scope.var k.var) now)]
      exact h.constraints pos hvar (h.names hvar hnow)
        (Scope.lookup_var k.var now)
        (ClassTable.find?_eq_some_iff.1 hclass).1

theorem KeptByReading.yields_imposeAll (h : KeptByReading table N I E)
    (pos : Nat) (ts : List NamedTy) (hts : ∀ t ∈ ts, ∀ x ∈ t.vars, N x)
    (hnow : I now) :
    Yields (fun _ next => I next)
      (fun e next => I next ∧ e.pos = pos ∧ E e.cause)
      ((ts.forM (impose table pos)).run now) := by
  induction ts generalizing now with
  | nil => exact hnow
  | cons t ts ih =>
      rw [List.forall_mem_cons] at hts
      change Yields _ _ ((impose table pos t >>= fun _ =>
        ts.forM (impose table pos)).run now)
      exact (h.yields_impose pos hts.1 hnow).bind (fun _ _ => id)
        fun _ _ hnext => ih hts.2 hnext

/-- Where a context starts only shows in errors. -/
theorem impose_run_of_ok {pos' : Nat} {u : PUnit}
    (h : (impose table pos t).run now = .ok u next) :
    (impose table pos' t).run now = .ok u next := by
  rw [impose] at h ⊢
  split at h
  · cases h
  · rename_i k hk
    split at h
    · cases h
    · rw [bind_run_of_ok (handOut_run_eq (Scope.var k.var) now),
        constrainVar_run] at h ⊢
      split at h
      · exact h
      · cases h

theorem imposeAll_run_of_ok {pos' : Nat} {u : PUnit}
    (h : (ts.forM (impose table pos)).run now = .ok u next) :
    (ts.forM (impose table pos')).run now = .ok u next := by
  induction ts generalizing now with
  | nil => exact h
  | cons t ts ih =>
      change (impose table pos t >>= fun _ =>
        ts.forM (impose table pos)).run now = _ at h
      change (impose table pos' t >>= fun _ =>
        ts.forM (impose table pos')).run now = _
      rw [EStateM.run_bind] at h
      split at h
      · rename_i mid hfirst
        rw [bind_run_of_ok (impose_run_of_ok hfirst)]
        exact ih h
      · cases h

/-! ### Signatures -/

/-- Whether the constraints in a context, a type with its tokens, can all be
imposed. -/
def Imposable (table : ClassTable) (now : Scope × Store) (toks : List Token)
    (first : NamedTy) : Prop :=
  ∃ next, ((contextParts first).forM (impose table 0)).run
    (handedOut now toks) = .ok () next

/-- A signature with a context is read in three stages: the names in the
context, its constraints, and the type behind it. -/
theorem elaborate_run_of_fatArrow (textEnd : Nat) (now : Scope × Store)
    (hread : readType (consumed ++ ⟨.fatArrow, pos⟩ :: rest) =
      ⟨.ok first, ⟨.fatArrow, pos⟩ :: rest⟩) :
    (elaborate table textEnd (consumed ++ ⟨.fatArrow, pos⟩ :: rest)).run
        now =
      ((contextParts first).forM (impose table
          (startOf textEnd (consumed ++ ⟨.fatArrow, pos⟩ :: rest))) >>=
        fun _ => elaborateType textEnd rest >>= fun (t, rest) =>
          finish textEnd t rest).run
        (handedOut now (consumed.map (·.token))) := by
  rw [elaborate, bind_run_of_ok (elaborateType_run_of_ok textEnd now hread)]

/-- A signature without a context is a type. -/
theorem elaborate_run_of_not_fatArrow (textEnd : Nat) (now : Scope × Store)
    (hread : ∀ t pos rest, readType lexemes ≠
      ⟨.ok t, ⟨.fatArrow, pos⟩ :: rest⟩) :
    (elaborate table textEnd lexemes).run now =
      (elaborateType textEnd lexemes >>= fun (t, rest) =>
        finish textEnd t rest).run now := by
  rcases h : readType lexemes with ⟨result, rest⟩
  cases result with
  | error what =>
      rw [elaborate, EStateM.run_bind, EStateM.run_bind,
        elaborateType_run_of_error textEnd now h]
  | ok t =>
      obtain ⟨consumed, rfl, -⟩ := isType_of_readType h
      rw [elaborate, bind_run_of_ok (elaborateType_run_of_ok textEnd now h),
        bind_run_of_ok (elaborateType_run_of_ok textEnd now h)]
      dsimp only
      split
      · rename_i pos rest
        exact absurd h (hread _ _ _)
      · rfl

/-- Whether tokens are read as a signature: they are a type, or constraints
that can be imposed and a type behind them. -/
inductive Accepted (table : ClassTable) (now : Scope × Store) :
    List Token → Prop
  | type {toks : List Token} {t : NamedTy} (ht : IsType toks t) :
      Accepted table now toks
  | context {left right : List Token} {first t : NamedTy}
      (hfirst : IsType left first)
      (himposable : Imposable table now left first) (ht : IsType right t) :
      Accepted table now (left ++ .fatArrow :: right)

/-- What comes of reading tokens, with the place of every error. -/
inductive Faults (table : ClassTable) (E : SignatureError.Cause → Prop)
    (textEnd : Nat) (lexemes : List Lexeme) (now : Scope × Store) :
    SignatureError → Prop
  /-- The tokens are no type, and no context either. -/
  | first {e : SignatureError}
      (hfat : ∀ t pos rest, readType lexemes ≠
        ⟨.ok t, ⟨.fatArrow, pos⟩ :: rest⟩)
      (he : BreaksOff textEnd lexemes e) :
      Faults table E textEnd lexemes now e
  /-- A constraint is none, or cannot be imposed. -/
  | context {e : SignatureError} (hpos : e.pos = startOf textEnd lexemes)
      (hcause : E e.cause) : Faults table E textEnd lexemes now e
  /-- What stands behind the context is no type. -/
  | last {consumed rest : List Lexeme} {pos : Nat} {first : NamedTy}
      {e : SignatureError}
      (hlexemes : lexemes = consumed ++ ⟨.fatArrow, pos⟩ :: rest)
      (hfirst : IsType (consumed.map (·.token)) first)
      (himposable : Imposable table now (consumed.map (·.token)) first)
      (he : BreaksOff textEnd rest e) :
      Faults table E textEnd lexemes now e

theorem KeptByReading.yields_elaborate (h : KeptByReading table N I E)
    (hnames : ∀ x, .var x ∈ lexemes.map (·.token) → N x) (textEnd : Nat)
    (hnow : I now) :
    Yields
      (fun _ next => I next ∧ Accepted table now (lexemes.map (·.token)))
      (fun e next => I next ∧ Faults table E textEnd lexemes now e)
      ((elaborate table textEnd lexemes).run now) := by
  by_cases hfat : ∃ t pos rest, readType lexemes =
      ⟨.ok t, ⟨.fatArrow, pos⟩ :: rest⟩
  · obtain ⟨first, pos, rest, hread⟩ := hfat
    obtain ⟨consumed, rfl, hfirst⟩ := isType_of_readType hread
    have hconsumed : ∀ x, .var x ∈ consumed.map (·.token) → N x :=
      fun x hx => hnames x (by simp [hx])
    rw [elaborate_run_of_fatArrow textEnd now hread, EStateM.run_bind]
    have himpose := h.yields_imposeAll
      (startOf textEnd (consumed ++ ⟨.fatArrow, pos⟩ :: rest))
      (contextParts first) (fun t ht x hx => hconsumed x
        (hfirst.mem_toks x (mem_vars_of_contextParts ht hx)))
      (h.names.handedOut hconsumed hnow)
    split
    · rename_i u mid hrun
      rw [hrun] at himpose
      have himposable : Imposable table now (consumed.map (·.token)) first :=
        ⟨mid, imposeAll_run_of_ok hrun⟩
      apply (yields_lastType h.names (fun x hx => hnames x ?_) textEnd
        himpose).imp
      · exact fun e next ⟨hnext, he⟩ =>
          ⟨hnext, .last rfl hfirst himposable he⟩
      · rintro ty next ⟨hnext, ht⟩
        obtain ⟨t, ht⟩ := exists_readType_iff.1 ht
        refine ⟨hnext, ?_⟩
        rw [List.map_append, List.map_cons]
        exact .context hfirst himposable ht
      · simp only [List.map_append, List.map_cons, List.mem_append]
        exact .inr (List.mem_cons_of_mem _ hx)
    · rename_i e mid hrun
      rw [hrun] at himpose
      exact ⟨himpose.1, .context himpose.2.1 himpose.2.2⟩
  · simp only [not_exists] at hfat
    rw [elaborate_run_of_not_fatArrow textEnd now hfat]
    apply (yields_lastType h.names hnames textEnd hnow).imp
    · exact fun e next ⟨hnext, he⟩ => ⟨hnext, .first hfat he⟩
    · rintro ty next ⟨hnext, ht⟩
      obtain ⟨t, ht⟩ := exists_readType_iff.1 ht
      exact ⟨hnext, .type ht⟩

/-- Reading a text keeps what its steps keep, and every error is found in its
characters or in its tokens. -/
theorem KeptByReading.yields_parse {text : String}
    (h : KeptByReading table N I E)
    (hnames : ∀ toks, Lexes text.toList toks → ∀ x, .var x ∈ toks → N x)
    (hnow : I now) :
    Yields
      (fun _ next => I next ∧
        ∃ toks, Lexes text.toList toks ∧ Accepted table now toks)
      (fun e next => I next ∧
        ((∃ stray, tokenize text = .error stray ∧
            e = ⟨stray.pos, .unexpectedChar stray.char⟩) ∨
          ∃ lexemes, tokenize text = .ok lexemes ∧
            Faults table E text.utf8ByteSize lexemes now e))
      ((parse table text).run now) := by
  rw [parse]
  cases hlex : tokenize text with
  | error stray => exact ⟨hnow, .inl ⟨stray, rfl, rfl⟩⟩
  | ok lexemes =>
      have hlexes := tokenize_iff.1 ⟨lexemes, hlex, rfl⟩
      apply (h.yields_elaborate (hnames _ hlexes) _ hnow).imp
      · rintro e next ⟨hnext, he⟩
        exact ⟨hnext, .inr ⟨lexemes, rfl, he⟩⟩
      · rintro ty next ⟨hnext, hok⟩
        exact ⟨hnext, _, hlexes, hok⟩

/-! ### What is read -/

/-- Every run is one of these steps. -/
theorem keptByReading_true (table : ClassTable) :
    KeptByReading table (fun _ => True) (fun _ => True) fun _ => True where
  names _ _ _ _ := trivial
  constraints x v c now pos _ _ _ _ := by
    rw [constrainVar_run]
    split
    · trivial
    · exact ⟨trivial, rfl, trivial⟩
  malformed := trivial
  unknown _ := trivial

theorem exists_lastType (textEnd : Nat) (now : Scope × Store)
    (hread : readType lexemes = ⟨.ok t, []⟩) :
    ∃ ty next, (elaborateType textEnd lexemes >>= fun (t, rest) =>
      finish textEnd t rest).run now = .ok ty next := by
  have hyields : Yields (fun _ _ => True)
      (fun e _ => BreaksOff textEnd lexemes e)
      ((elaborateType textEnd lexemes >>= fun (t, rest) =>
        finish textEnd t rest).run now) :=
    (yields_lastType (keptByReading_true .empty).names (fun _ _ => trivial)
      textEnd trivial).imp (fun _ _ h => h.2) fun _ _ _ => trivial
  cases hrun : (elaborateType textEnd lexemes >>= fun (t, rest) =>
      finish textEnd t rest).run now with
  | ok ty next => exact ⟨ty, next, rfl⟩
  | error e next =>
      rw [hrun] at hyields
      exact absurd hyields (not_breaksOff hread)

/-- What is accepted is read. -/
theorem Accepted.exists_elaborate
    (h : Accepted table now (lexemes.map (·.token))) (textEnd : Nat) :
    ∃ ty next, (elaborate table textEnd lexemes).run now = .ok ty next := by
  generalize htoks : lexemes.map (·.token) = toks at h
  cases h with
  | type ht =>
      subst htoks
      have hread := ht.readType_eq_nil
      rw [elaborate_run_of_not_fatArrow textEnd now fun _ _ _ hread' => by
        rw [hread] at hread'
        cases hread']
      exact exists_lastType textEnd now hread
  | context hfirst himposable ht =>
      obtain ⟨pos, rest, hread, rfl⟩ := hfirst.readType_eq_fatArrow htoks
      obtain ⟨consumed, rfl, hconsumed⟩ := isType_of_readType hread
      obtain ⟨mid, hmid⟩ := himposable
      rw [List.map_append, List.map_cons] at htoks
      rw [← List.append_cancel_right htoks] at hmid
      rw [elaborate_run_of_fatArrow textEnd now hread,
        bind_run_of_ok (imposeAll_run_of_ok hmid)]
      exact exists_lastType textEnd mid ht.readType_eq_nil

/-- A text is read exactly if its tokens are accepted. -/
theorem exists_parse_iff {text : String} :
    (∃ ty next, (parse table text).run now = .ok ty next) ↔
      ∃ toks, Lexes text.toList toks ∧ Accepted table now toks := by
  constructor
  · rintro ⟨ty, next, hrun⟩
    have hyields : Yields
        (fun _ _ => ∃ toks, Lexes text.toList toks ∧ Accepted table now toks)
        (fun _ _ => True) ((parse table text).run now) :=
      ((keptByReading_true table).yields_parse (fun _ _ _ _ => trivial)
        trivial).imp (fun _ _ _ => trivial) fun _ _ h => h.2
    rwa [hrun] at hyields
  · rintro ⟨toks, hlexes, hok⟩
    obtain ⟨lexemes, hlex, rfl⟩ := tokenize_iff.2 hlexes
    rw [parse, hlex]
    exact hok.exists_elaborate _

end HindleyMilner.Signature

namespace HindleyMilner.TypeState

open Signature

theorem parse_ok_iff {st : TypeState} {scope : Scope} {text : String} :
    (∃ ty, (st.parse scope text).1 = .ok ty) ↔
      ∃ toks, Lexes text.toList toks ∧
        Accepted st.classes (scope, st.store) toks := by
  rw [← exists_parse_iff, parse_eq]
  cases hrun : (Signature.parse st.classes text).run (scope, st.store) with
  | ok ty next => simp
  | error e next => simp

end HindleyMilner.TypeState

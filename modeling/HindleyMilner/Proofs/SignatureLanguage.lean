import HindleyMilner.Proofs.Grammar
import HindleyMilner.Proofs.Lexing
import HindleyMilner.Proofs.MostGeneral
import HindleyMilner.Proofs.NamedVariables

/-
The language of signatures and what they denote.  A text is read as a
signature exactly if its tokens are a type, or a context and a type, and the
constraints of the context can be imposed one after another.  The result is
the tree of the derivation with a variable for each name.
-/

namespace HindleyMilner.Signature

/-! ### The language -/

/-- `constraint := Class var`, as a class and the name of a variable. -/
inductive IsConstraint (table : ClassTable) :
    NamedTy → ClassId × String → Prop
  | mk {name : Name} {c : ClassId} (x : String)
      (hclass : table.find? name.text = some c) :
      IsConstraint table (.app (.con name) (.var x)) (c, x)

/-- The constraints that a type stands for in front of `=>`: none for unit,
one for each component of a tuple, or the type itself as one. -/
inductive IsContext (table : ClassTable) :
    NamedTy → List (ClassId × String) → Prop
  | unit : IsContext table (.con .unit) []
  | tuple {ts : List NamedTy} {cs : List (ClassId × String)}
      (hlength : 2 ≤ ts.length)
      (hts : List.Forall₂ (IsConstraint table) ts cs) :
      IsContext table (.applyTo (.con (.tuple ts.length)) ts) cs
  | constraint {t : NamedTy} {p : ClassId × String}
      (ht : IsConstraint table t p) : IsContext table t [p]

/-- `signature := [context "=>"] type`, with its constraints and its type. -/
inductive IsSignature (table : ClassTable) :
    List Token → List (ClassId × String) → NamedTy → Prop
  | type {toks : List Token} {t : NamedTy} (ht : IsType toks t) :
      IsSignature table toks [] t
  | context {left right : List Token} {first t : NamedTy}
      {cs : List (ClassId × String)} (hfirst : IsType left first)
      (hcontext : IsContext table first cs) (ht : IsType right t) :
      IsSignature table (left ++ .fatArrow :: right) cs t

/-- Whether constraints can be added in order to others: the classes asked of
a name never conflict. -/
def Satisfiable (table : ClassTable) :
    List (ClassId × String) → List (ClassId × String) → Prop
  | _, [] => True
  | before, p :: rest =>
      table.conflict? (.ofList table (classesOf (before ++ [p]) p.2)) = none ∧
        Satisfiable table (before ++ [p]) rest

/-- Whether what stands in front of `=>` is not unit with arguments. -/
def BareUnits (toks : List Token) : Prop :=
  ∀ left right first, toks = left ++ .fatArrow :: right →
    IsType left first → first.spine.1 = .con .unit → first.spine.2 = []

/-- Whether a type is what a derivation denotes in a store: its tree, with
variables of their own for the names, unsolved and with the reduced sets of
their constraints. -/
def Denotes (table : ClassTable) (toks : List Token)
    (cs : List (ClassId × String)) (t : NamedTy) (ty : Ty TyVar)
    (s : Store) : Prop :=
  ∃ var : String → TyVar, ty = t.map var ∧
    (∀ x y, .var x ∈ toks → .var y ∈ toks → var x = var y → x = y) ∧
    ∀ x, .var x ∈ toks →
      s.unsolvedClasses? (var x) = some (.ofList table (classesOf cs x))

variable {table : ClassTable} {cs ds : List (ClassId × String)}
  {p q : ClassId × String} {first t : NamedTy} {toks : List Token}
  {lexemes rest : List Lexeme} {s : Store} {now next : Scope × Store}

/-! ### Contexts as types -/

theorem isConstraint_iff :
    IsConstraint table t p ↔
      ∃ k, constraint? t = some k ∧ table.find? k.cls.text = some p.1 ∧
        k.var = p.2 := by
  constructor
  · rintro ⟨x, hclass⟩
    exact ⟨_, rfl, hclass, rfl⟩
  · rintro ⟨k, hk, hclass, hvar⟩
    rcases p with ⟨c, x⟩
    unfold constraint? at hk
    split at hk
    · rename_i cls var hspine
      have ht := t.applyTo_spine
      rw [hspine] at ht
      cases hk
      cases hvar
      rw [← ht]
      exact .mk _ hclass
    · contradiction

/-- A type is read as one constraint only. -/
theorem IsConstraint.unique (hp : IsConstraint table t p)
    (hq : IsConstraint table t q) : p = q := by
  cases hp with
  | mk x hclass =>
      cases hq with
      | mk _ hclass' =>
          rw [hclass] at hclass'
          cases hclass'
          rfl

theorem forall₂_isConstraint_unique {ts : List NamedTy}
    (hcs : List.Forall₂ (IsConstraint table) ts cs)
    (hds : List.Forall₂ (IsConstraint table) ts ds) : cs = ds := by
  induction hcs generalizing ds with
  | nil =>
      cases hds
      rfl
  | cons hp _ ih =>
      cases hds with
      | cons hq hds => rw [hp.unique hq, ih hds]

theorem contextParts_tuple {ts : List NamedTy} (hlength : 2 ≤ ts.length) :
    contextParts (.applyTo (.con (.tuple ts.length)) ts) = ts := by
  obtain ⟨more, hmore⟩ : ∃ more, ts.length = more + 2 :=
    ⟨_, (Nat.sub_add_cancel hlength).symm⟩
  have hne : Name.tuple (more + 2) ≠ .unit := Name.tuple_ne rfl more
  rw [contextParts, Ty.spine_applyTo (Ty.isAtom_con _), hmore]
  simp only [if_neg hne, Name.tupleArity?_tuple, hmore, if_true]

theorem IsConstraint.contextParts_eq (h : IsConstraint table t p)
    (hunit : t.spine.1 = .con .unit → t.spine.2 = []) :
    contextParts t = [t] := by
  obtain ⟨x, -⟩ := h
  rename_i name c
  have hne : name ≠ .unit := by
    rintro rfl
    exact absurd (hunit rfl) (List.cons_ne_nil _ _)
  have harity : name.tupleArity? ≠ some 1 := by
    intro h
    obtain ⟨more, hmore, -⟩ := Name.eq_tuple_of_tupleArity? h
    omega
  rw [contextParts, Ty.spine_app]
  simp [Ty.spine, Ty.spineOnto, hne, harity]

theorem isContext_of_parts
    (hunit : first.spine.1 = .con .unit → first.spine.2 = [])
    (h : List.Forall₂ (IsConstraint table) (contextParts first) cs) :
    IsContext table first cs := by
  have hsingle (h : List.Forall₂ (IsConstraint table) [first] cs) :
      IsContext table first cs := by
    cases h with
    | cons hp hnil =>
        cases hnil
        exact .constraint hp
  have happly := first.applyTo_spine
  unfold contextParts at h
  split at h
  · rename_i head args hspine
    rw [hspine] at happly hunit
    dsimp only at happly hunit
    split at h
    · rename_i hhead
      cases h
      rw [← happly, hhead, hunit (congrArg _ hhead)]
      exact .unit
    · split at h
      · rename_i harity
        obtain ⟨more, hmore, rfl⟩ := Name.eq_tuple_of_tupleArity? harity
        rw [← happly, ← hmore]
        exact .tuple (hmore ▸ Nat.le_add_left 2 more) h
      · exact hsingle h
  · exact hsingle h

/-- The parts of a context are its constraints. -/
theorem isContext_iff
    (hunit : first.spine.1 = .con .unit → first.spine.2 = []) :
    IsContext table first cs ↔
      List.Forall₂ (IsConstraint table) (contextParts first) cs := by
  refine ⟨fun h => ?_, isContext_of_parts hunit⟩
  cases h with
  | unit => exact .nil
  | tuple hlength hts => rwa [contextParts_tuple hlength]
  | constraint ht =>
      rw [ht.contextParts_eq hunit]
      exact .cons ht .nil

/-! ### Runs -/

/-- What comes of reading: a result or an error, and the scope and the store
that were left. -/
def Yields {A : Type} (ok : A → Scope × Store → Prop)
    (failed : SignatureError → Scope × Store → Prop) :
    EStateM.Result SignatureError (Scope × Store) A → Prop
  | .ok a now => ok a now
  | .error e now => failed e now

theorem Yields.bind {A B : Type} {ok : A → Scope × Store → Prop}
    {ok' : B → Scope × Store → Prop}
    {failed failed' : SignatureError → Scope × Store → Prop}
    {action : ReadM A} {f : A → ReadM B}
    (h : Yields ok failed (action.run now))
    (hle : ∀ e next, failed e next → failed' e next)
    (hf : ∀ a next, ok a next → Yields ok' failed' ((f a).run next)) :
    Yields ok' failed' ((action >>= f).run now) := by
  rw [EStateM.run_bind]
  cases hrun : action.run now with
  | ok a next =>
      rw [hrun] at h
      exact hf a next h
  | error e next =>
      rw [hrun] at h
      exact hle e next h

theorem Yields.imp {A : Type} {ok ok' : A → Scope × Store → Prop}
    {failed failed' : SignatureError → Scope × Store → Prop}
    {result : EStateM.Result SignatureError (Scope × Store) A}
    (h : Yields ok failed result)
    (hle : ∀ e next, failed e next → failed' e next)
    (hok : ∀ a next, ok a next → ok' a next) : Yields ok' failed' result := by
  cases result with
  | ok a next => exact hok a next h
  | error e next => exact hle e next h

/-- What comes of reading, where it does not matter which error is found. -/
def Outcome {A : Type} (ok : A → Scope × Store → Prop) (refused : Prop) :
    EStateM.Result SignatureError (Scope × Store) A → Prop :=
  Yields ok fun _ _ => refused

theorem Outcome.bind {A B : Type} {ok : A → Scope × Store → Prop}
    {ok' : B → Scope × Store → Prop} {refused refused' : Prop}
    {action : ReadM A} {f : A → ReadM B}
    (h : Outcome ok refused (action.run now)) (hle : refused → refused')
    (hf : ∀ a next, ok a next → Outcome ok' refused' ((f a).run next)) :
    Outcome ok' refused' ((action >>= f).run now) :=
  Yields.bind h (fun _ _ => hle) hf

theorem Outcome.imp {A : Type} {ok ok' : A → Scope × Store → Prop}
    {refused refused' : Prop}
    {result : EStateM.Result SignatureError (Scope × Store) A}
    (h : Outcome ok refused result) (hle : refused → refused')
    (hok : ∀ a next, ok a next → ok' a next) :
    Outcome ok' refused' result :=
  Yields.imp h (fun _ _ => hle) hok

theorem handOut_run {A : Type} {action : ScopeM A} {a : A}
    (h : action.run now = (a, next)) :
    (handOut action).run now = .ok a next := by
  have hopen : (handOut action).run now =
      .ok (action.run now).1 (action.run now).2 := rfl
  rw [hopen, h]

/-- A constraint is imposed unless its classes conflict with those before. -/
theorem outcome_impose (ordered : table.Ordered) (h : Named table cs now)
    (pos : Nat) (t : NamedTy) :
    Outcome
      (fun _ next => ∃ p, IsConstraint table t p ∧
        table.conflict? (.ofList table (classesOf (cs ++ [p]) p.2)) = none ∧
        Named table (cs ++ [p]) next ∧ now.1.Widens next.1)
      (∀ p, IsConstraint table t p →
        table.conflict? (.ofList table (classesOf (cs ++ [p]) p.2)) ≠ none)
      ((impose table pos t).run now) := by
  rw [impose]
  split
  · rename_i hnone
    intro p hp
    obtain ⟨k, hk, -⟩ := isConstraint_iff.1 hp
    rw [hnone] at hk
    contradiction
  · rename_i k hk
    split
    · rename_i hnone
      intro p hp
      obtain ⟨k', hk', hclass, -⟩ := isConstraint_iff.1 hp
      rw [hk] at hk'
      cases hk'
      rw [hnone] at hclass
      contradiction
    · rename_i c hclass
      have hp : IsConstraint table t (c, k.var) :=
        isConstraint_iff.2 ⟨k, hk, hclass, rfl⟩
      obtain ⟨v, mid, hvar, hmid, hwidens, hx⟩ := h.var k.var
      rw [bind_run_of_ok (handOut_run hvar)]
      have hconstrain := hmid.constrainVar ordered hx pos c
      split at hconstrain
      · rename_i pair hconflict
        obtain ⟨e, last, hrun⟩ := hconstrain
        rw [hrun]
        intro q hq
        rw [← hp.unique hq, hconflict]
        exact Option.some_ne_none pair
      · rename_i hconflict
        obtain ⟨s', hrun, hnamed⟩ := hconstrain
        rw [hrun]
        exact ⟨_, hp, hconflict, hnamed, hwidens⟩

/-- Constraints are imposed in order, up to the first that conflicts with those
before. -/
theorem outcome_imposeAll (ordered : table.Ordered) (h : Named table cs now)
    (pos : Nat) (ts : List NamedTy) :
    Outcome
      (fun _ next => ∃ ds, List.Forall₂ (IsConstraint table) ts ds ∧
        Satisfiable table cs ds ∧ Named table (cs ++ ds) next ∧
          now.1.Widens next.1)
      (∀ ds, List.Forall₂ (IsConstraint table) ts ds →
        ¬ Satisfiable table cs ds)
      ((ts.forM (impose table pos)).run now) := by
  induction ts generalizing cs now with
  | nil => exact ⟨[], .nil, trivial, by rwa [List.append_nil], .refl now.1⟩
  | cons t ts ih =>
      change Outcome _ _ ((impose table pos t >>= fun _ =>
        ts.forM (impose table pos)).run now)
      apply (outcome_impose ordered h pos t).bind
      · intro hrefused ds hds hsat
        cases hds with
        | cons hp _ => exact hrefused _ hp hsat.1
      · rintro - mid ⟨p, hp, hconflict, hmid, hwidens⟩
        have hrest := ih hmid
        cases hrun : (ts.forM (impose table pos)).run mid with
        | ok u last =>
            rw [hrun] at hrest
            obtain ⟨ds, hds, hsat, hnamed, hwidens'⟩ := hrest
            refine ⟨p :: ds, .cons hp hds, ⟨hconflict, hsat⟩, ?_,
              hwidens.trans hwidens'⟩
            simpa using hnamed
        | error e last =>
            rw [hrun] at hrest
            intro ds hds hsat
            cases hds with
            | cons hq hds =>
                rw [← hp.unique hq] at hsat
                exact hrest _ hds hsat.2

/-- The names of the variables among tokens have variables. -/
def Knows (scope : Scope) (toks : List Token) : Prop :=
  ∀ x, .var x ∈ toks → (scope.named.lookup x).isSome = true

theorem mem_varNames {x : String} :
    x ∈ varNames lexemes ↔ .var x ∈ lexemes.map (·.token) := by
  simp only [varNames, List.mem_filterMap, List.mem_map]
  refine exists_congr fun lexeme => and_congr_right fun _ => ?_
  cases lexeme.token <;> simp

theorem exists_nameAll (h : Named table cs now) (names : List String) :
    ∃ next, ((names.forM fun name => do let _ ← Scope.var name) :
        ScopeM PUnit).run now = (⟨⟩, next) ∧ Named table cs next ∧
      now.1.Widens next.1 ∧
        ∀ x ∈ names, (next.1.named.lookup x).isSome = true := by
  induction names generalizing now with
  | nil => exact ⟨now, rfl, h, .refl now.1, by simp⟩
  | cons name names ih =>
      obtain ⟨v, mid, hvar, hmid, hwidens, hx⟩ := h.var name
      obtain ⟨last, hrun, hlast, hwidens', hknown⟩ := ih hmid
      have hmid' : mid = ((Scope.var name).run now).2 := by rw [hvar]
      subst hmid'
      refine ⟨last, hrun, hlast, hwidens.trans hwidens', ?_⟩
      rw [List.forall_mem_cons]
      exact ⟨by rw [hwidens' hx, Option.isSome_some], hknown⟩

theorem elaborateType_run (textEnd : Nat) (lexemes : List Lexeme)
    (now : Scope × Store) :
    (elaborateType textEnd lexemes).run now =
      (handOut ((varNames (lexemes.take
          (lexemes.length - (readType lexemes).rest.length))).forM
            fun name => do let _ ← Scope.var name) >>= fun _ =>
        (match (readType lexemes).result with
          | .ok ty => pure (ty, (readType lexemes).rest)
          | .error what =>
              throw ⟨startOf textEnd (readType lexemes).rest,
                .expected what⟩ :
          ReadM (NamedTy × List Lexeme))).run now :=
  rfl

/-- Reading a type, and giving variables to the names that were read. -/
theorem outcome_elaborateType (h : Named table cs now) (textEnd : Nat)
    (lexemes : List Lexeme) :
    Outcome
      (fun read next => readType lexemes = ⟨.ok read.1, read.2⟩ ∧
        Named table cs next ∧ now.1.Widens next.1 ∧
          ∀ consumed, lexemes = consumed ++ read.2 →
            Knows next.1 (consumed.map (·.token)))
      (∀ t rest, readType lexemes ≠ ⟨.ok t, rest⟩)
      ((elaborateType textEnd lexemes).run now) := by
  obtain ⟨next, hrun, hnext, hwidens, hknown⟩ := exists_nameAll h
    (varNames (lexemes.take
      (lexemes.length - (readType lexemes).rest.length)))
  rw [elaborateType_run, bind_run_of_ok (handOut_run hrun)]
  rcases hread : readType lexemes with ⟨result, rest⟩
  rw [hread] at hknown
  cases result with
  | error what => exact fun t rest' h => nomatch h
  | ok t =>
      refine ⟨rfl, hnext, hwidens, ?_⟩
      rintro consumed rfl x hx
      apply hknown
      rw [List.length_append, Nat.add_sub_cancel, List.take_left]
      exact mem_varNames.2 hx

def variableOf (scope : Scope) (x : String) : TyVar :=
  (scope.named.lookup x).getD ⟨0⟩

theorem map_variableOf_congr {scope wider : Scope}
    (hwidens : scope.Widens wider)
    (hknown : ∀ x ∈ t.vars, (scope.named.lookup x).isSome = true) :
    t.map (variableOf scope) = t.map (variableOf wider) := by
  rw [Ty.map_eq_bind, Ty.map_eq_bind]
  refine Ty.bind_congr fun x hx => ?_
  obtain ⟨v, hv⟩ := Option.isSome_iff_exists.1 (hknown x hx)
  rw [variableOf, variableOf, hv, hwidens hv]

/-- Replacing the names in a type by their variables. -/
theorem exists_mapVarsM_var (h : Named table cs now) (t : NamedTy) :
    ∃ next, (t.mapVarsM Scope.var).run now =
        (t.map (variableOf next.1), next) ∧ Named table cs next ∧
      now.1.Widens next.1 ∧
        ∀ x ∈ t.vars, (next.1.named.lookup x).isSome = true := by
  induction t generalizing now with
  | var x =>
      obtain ⟨v, next, hvar, hnext, hwidens, hx⟩ := h.var x
      have hrun : ((Ty.var x).mapVarsM Scope.var).run now =
          (.var ((Scope.var x).run now).1, ((Scope.var x).run now).2) := rfl
      refine ⟨next, ?_, hnext, hwidens, ?_⟩
      · rw [hrun, hvar, Ty.map, variableOf, hx, Option.getD_some]
      · intro y hy
        rw [Ty.mem_vars_var.1 hy, hx, Option.isSome_some]
  | con name => exact ⟨now, rfl, h, .refl now.1, by simp⟩
  | app func arg ihFunc ihArg =>
      obtain ⟨mid, hfunc, hmid, hwidens, hknown⟩ := ihFunc h
      obtain ⟨last, harg, hlast, hwidens', hknown'⟩ := ihArg hmid
      have hrun : ((Ty.app func arg).mapVarsM Scope.var).run now =
          (.app ((func.mapVarsM Scope.var).run now).1
            ((arg.mapVarsM Scope.var).run
              ((func.mapVarsM Scope.var).run now).2).1,
            ((arg.mapVarsM Scope.var).run
              ((func.mapVarsM Scope.var).run now).2).2) := rfl
      refine ⟨last, ?_, hlast, hwidens.trans hwidens', ?_⟩
      · rw [hrun, hfunc, harg, map_variableOf_congr hwidens' hknown, Ty.map]
      · intro x hx
        rcases Ty.mem_vars_app.1 hx with hx | hx
        · obtain ⟨v, hv⟩ := Option.isSome_iff_exists.1 (hknown x hx)
          rw [hwidens' hv, Option.isSome_some]
        · exact hknown' x hx

theorem outcome_finish (h : Named table cs now) (textEnd : Nat) (t : NamedTy)
    (rest : List Lexeme) :
    Outcome
      (fun ty next => rest = [] ∧ ty = t.map (variableOf next.1) ∧
        Named table cs next ∧ now.1.Widens next.1)
      (rest ≠ []) ((finish textEnd t rest).run now) := by
  cases rest with
  | nil =>
      obtain ⟨next, hrun, hnext, hwidens, -⟩ := exists_mapVarsM_var h t
      have hopen : (finish textEnd t []).run now =
          (handOut (t.mapVarsM Scope.var)).run now := rfl
      rw [hopen, handOut_run hrun]
      exact ⟨rfl, rfl, hnext, hwidens⟩
  | cons lexeme rest => exact List.cons_ne_nil _ _

/-! ### Signatures -/

theorem Knows.widen {scope wider : Scope} (h : Knows scope toks)
    (hwidens : scope.Widens wider) : Knows wider toks := by
  intro x hx
  obtain ⟨v, hv⟩ := Option.isSome_iff_exists.1 (h x hx)
  rw [hwidens hv, Option.isSome_some]

theorem denotes_of_named (h : Named table cs now) (hknows : Knows now.1 toks)
    (t : NamedTy) :
    Denotes table toks cs t (t.map (variableOf now.1)) now.2 := by
  have hlookup (x : String) (hx : .var x ∈ toks) :
      now.1.named.lookup x = some (variableOf now.1 x) := by
    obtain ⟨v, hv⟩ := Option.isSome_iff_exists.1 (hknows x hx)
    rw [variableOf, hv, Option.getD_some]
  refine ⟨variableOf now.1, rfl, fun x y hx hy heq => ?_, fun x hx => ?_⟩
  · exact h.distinct (heq ▸ hlookup x hx) (hlookup y hy)
  · exact h.classes (hlookup x hx)

/-- Reading stops at the double arrow when a type is complete in front of it. -/
theorem IsType.readType_eq_fatArrow {left right : List Token}
    (h : IsType left t)
    (htoks : lexemes.map (·.token) = left ++ .fatArrow :: right) :
    ∃ pos rest, readType lexemes = ⟨.ok t, ⟨.fatArrow, pos⟩ :: rest⟩ ∧
      rest.map (·.token) = right := by
  obtain ⟨before, after, rfl, rfl, hafter⟩ := List.map_eq_append_iff.1 htoks
  obtain ⟨⟨tok, pos⟩, rest, rfl, rfl, hright⟩ := List.map_eq_cons_iff.1 hafter
  exact ⟨pos, rest, h.readType_eq trivial, hright⟩

/-- How the tokens of a signature are read. -/
theorem IsSignature.readType_eq
    (h : IsSignature table (lexemes.map (·.token)) cs t) :
    (cs = [] ∧ readType lexemes = ⟨.ok t, []⟩) ∨
      ∃ first pos rest,
        readType lexemes = ⟨.ok first, ⟨.fatArrow, pos⟩ :: rest⟩ ∧
          IsContext table first cs ∧ readType rest = ⟨.ok t, []⟩ := by
  generalize htoks : lexemes.map (·.token) = toks at h
  cases h with
  | type ht =>
      subst htoks
      exact Or.inl ⟨rfl, ht.readType_eq_nil⟩
  | context hfirst hcontext ht =>
      obtain ⟨pos, rest, hread, rfl⟩ := hfirst.readType_eq_fatArrow htoks
      exact Or.inr ⟨_, pos, rest, hread, hcontext, ht.readType_eq_nil⟩

theorem isSignature_of_readType {pos : Nat}
    (hfirst : readType lexemes = ⟨.ok first, ⟨.fatArrow, pos⟩ :: rest⟩)
    (hcontext : IsContext table first cs)
    (ht : readType rest = ⟨.ok t, []⟩) :
    IsSignature table (lexemes.map (·.token)) cs t := by
  obtain ⟨before, rfl, hbefore⟩ := isType_of_readType hfirst
  obtain ⟨after, rfl, hafter⟩ := isType_of_readType ht
  rw [List.append_nil, List.map_append, List.map_cons]
  exact .context hbefore hcontext hafter

theorem BareUnits.bare {pos : Nat}
    (hunits : BareUnits (lexemes.map (·.token)))
    (hread : readType lexemes = ⟨.ok first, ⟨.fatArrow, pos⟩ :: rest⟩) :
    first.spine.1 = .con .unit → first.spine.2 = [] := by
  obtain ⟨consumed, rfl, hfirst⟩ := isType_of_readType hread
  exact hunits _ (rest.map (·.token)) first (by simp) hfirst

theorem IsSignature.of_fatArrow {pos : Nat}
    (h : IsSignature table (lexemes.map (·.token)) cs t)
    (hread : readType lexemes = ⟨.ok first, ⟨.fatArrow, pos⟩ :: rest⟩) :
    IsContext table first cs ∧ readType rest = ⟨.ok t, []⟩ := by
  rcases h.readType_eq with ⟨-, hread'⟩ | ⟨_, _, _, hread', hcontext, ht⟩
  · rw [hread] at hread'
    cases hread'
  · rw [hread] at hread'
    cases hread'
    exact ⟨hcontext, ht⟩

/-- A signature without a double arrow has no context. -/
theorem IsSignature.of_no_fatArrow
    (h : IsSignature table (lexemes.map (·.token)) cs t)
    (hread : readType lexemes = ⟨.ok first, rest⟩)
    (hrest : ∀ pos after, rest ≠ ⟨.fatArrow, pos⟩ :: after) :
    cs = [] ∧ t = first ∧ rest = [] := by
  rcases h.readType_eq with ⟨hcs, hread'⟩ | ⟨_, _, _, hread', -⟩
  · rw [hread] at hread'
    cases hread'
    exact ⟨hcs, rfl, rfl⟩
  · rw [hread] at hread'
    cases hread'
    exact absurd rfl (hrest _ _)

/-- A token list is a signature in at most one way. -/
theorem IsSignature.unique {u : NamedTy} (hunits : BareUnits toks)
    (h : IsSignature table toks cs t) (h' : IsSignature table toks ds u) :
    cs = ds ∧ t = u := by
  obtain ⟨lexemes, rfl⟩ := exists_lexemes toks
  rcases h.readType_eq with
    ⟨rfl, hread⟩ | ⟨first, pos, rest, hread, hcontext, ht⟩
  · obtain ⟨rfl, rfl, -⟩ :=
      h'.of_no_fatArrow hread fun _ _ => (List.cons_ne_nil _ _).symm
    exact ⟨rfl, rfl⟩
  · obtain ⟨hcontext', ht'⟩ := h'.of_fatArrow hread
    rw [ht] at ht'
    cases ht'
    rw [isContext_iff (hunits.bare hread)] at hcontext hcontext'
    exact ⟨forall₂_isConstraint_unique hcontext hcontext', rfl⟩

/-- Reading the type that a signature ends with. -/
theorem outcome_lastType (h : Named table cs now) (textEnd : Nat)
    (lexemes : List Lexeme) :
    Outcome
      (fun ty next => ∃ t, readType lexemes = ⟨.ok t, []⟩ ∧
        ty = t.map (variableOf next.1) ∧ Named table cs next ∧
          now.1.Widens next.1 ∧ Knows next.1 (lexemes.map (·.token)))
      (∀ t, readType lexemes ≠ ⟨.ok t, []⟩)
      ((elaborateType textEnd lexemes >>= fun (t, rest) =>
        finish textEnd t rest).run now) := by
  apply (outcome_elaborateType h textEnd lexemes).bind
  · exact fun hnone t => hnone t []
  · rintro ⟨t, rest⟩ mid ⟨hread, hmid, hwidens, hknows⟩
    dsimp only at hread hknows ⊢
    apply (outcome_finish hmid textEnd t rest).imp
    · intro hrest u hread'
      rw [hread] at hread'
      cases hread'
      contradiction
    · rintro ty last ⟨rfl, rfl, hlast, hwidens'⟩
      have hall := hknows lexemes (List.append_nil _).symm
      exact ⟨t, hread, rfl, hlast, hwidens.trans hwidens',
        hall.widen hwidens'⟩

/-- The outcome of reading the tokens of a signature in a new scope. -/
theorem outcome_elaborate (ordered : table.Ordered)
    (hunits : BareUnits (lexemes.map (·.token))) (textEnd : Nat)
    (s : Store) :
    Outcome
      (fun ty next => ∃ cs t,
        IsSignature table (lexemes.map (·.token)) cs t ∧
          Satisfiable table [] cs ∧
            Denotes table (lexemes.map (·.token)) cs t ty next.2)
      (∀ cs t, IsSignature table (lexemes.map (·.token)) cs t →
        ¬ Satisfiable table [] cs)
      ((elaborate table textEnd lexemes).run (.empty, s)) := by
  rw [elaborate]
  apply (outcome_elaborateType (.start table s) textEnd lexemes).bind
  · intro hnone cs t h
    rcases h.readType_eq with ⟨-, hread⟩ | ⟨_, _, _, hread, -⟩ <;>
      exact absurd hread (hnone _ _)
  rintro ⟨first, rest⟩ mid ⟨hread, hmid, -, hknows⟩
  dsimp only at hread hknows ⊢
  obtain ⟨consumed, rfl, hfirst⟩ := isType_of_readType hread
  have hknown := hknows consumed rfl
  split
  · -- a context, its constraints, and the type after it
    rename_i pos rest
    have hcontext (cs : List (ClassId × String)) :=
      @isContext_iff table cs first (hunits.bare hread)
    apply (outcome_imposeAll ordered hmid _ _).bind
    · exact fun hrefused cs t h =>
        hrefused cs ((hcontext cs).1 (h.of_fatArrow hread).1)
    rintro - imposed ⟨cs, hcs, hsat, himposed, hwidens⟩
    rw [List.nil_append] at himposed
    apply (outcome_lastType himposed textEnd rest).imp
    · exact fun hnone cs t h => absurd (h.of_fatArrow hread).2 (hnone t)
    · rintro ty last ⟨t, ht, rfl, hlast, hwidens', hknown'⟩
      refine ⟨cs, t, isSignature_of_readType hread ((hcontext cs).2 hcs) ht,
        hsat, denotes_of_named hlast (fun x hx => ?_) t⟩
      rw [List.map_append, List.map_cons, List.mem_append,
        List.mem_cons] at hx
      rcases hx with hx | hx | hx
      · exact hknown.widen (hwidens.trans hwidens') x hx
      · contradiction
      · exact hknown' x hx
  · -- a type alone
    rename_i hfat
    apply (outcome_finish hmid textEnd first rest).imp
    · exact fun hrest cs t h => absurd (h.of_no_fatArrow hread hfat).2.2 hrest
    · rintro ty last ⟨rfl, rfl, hlast, hwidens⟩
      rw [List.append_nil]
      exact ⟨[], first, .type hfirst, trivial,
        denotes_of_named hlast (hknown.widen hwidens) first⟩

theorem outcome_parse {text : String} (ordered : table.Ordered)
    (hunits : ∀ toks, Lexes text.toList toks → BareUnits toks) (s : Store) :
    Outcome
      (fun ty next => ∃ toks cs t, Lexes text.toList toks ∧
        IsSignature table toks cs t ∧ Satisfiable table [] cs ∧
          Denotes table toks cs t ty next.2)
      (∀ toks cs t, Lexes text.toList toks → IsSignature table toks cs t →
        ¬ Satisfiable table [] cs)
      ((parse table text).run (.empty, s)) := by
  rw [parse]
  split
  · rename_i lexemes hlex
    have hlexes := tokenize_iff.1 ⟨lexemes, hlex, rfl⟩
    apply (outcome_elaborate ordered (hunits _ hlexes) _ s).imp
    · intro hrefused toks cs t htoks
      rw [htoks.unique hlexes]
      exact hrefused cs t
    · rintro ty next ⟨cs, t, hsignature, hsat, hdenotes⟩
      exact ⟨_, cs, t, hlexes, hsignature, hsat, hdenotes⟩
  · rename_i stray hlex
    intro toks cs t htoks
    obtain ⟨lexemes, hlex', -⟩ := tokenize_iff.2 htoks
    rw [hlex] at hlex'
    contradiction

/-- A signature with constraints that can be imposed is read, as what its
derivation denotes. -/
theorem exists_parse {text : String} (ordered : table.Ordered)
    (hlexes : Lexes text.toList toks) (hunits : BareUnits toks)
    (hsignature : IsSignature table toks cs t)
    (hsat : Satisfiable table [] cs) (s : Store) :
    ∃ ty next, (parse table text).run (.empty, s) = .ok ty next ∧
      Denotes table toks cs t ty next.2 := by
  have hunits' : ∀ toks', Lexes text.toList toks' → BareUnits toks' := by
    intro toks' htoks'
    rwa [htoks'.unique hlexes]
  have houtcome := outcome_parse ordered hunits' s
  cases hrun : (parse table text).run (.empty, s) with
  | ok ty next =>
      rw [hrun] at houtcome
      obtain ⟨toks', cs', t', htoks', hsignature', -, hdenotes⟩ := houtcome
      obtain rfl := htoks'.unique hlexes
      obtain ⟨rfl, rfl⟩ := hsignature'.unique hunits hsignature
      exact ⟨ty, next, rfl, hdenotes⟩
  | error e next =>
      rw [hrun] at houtcome
      exact absurd hsat (houtcome toks cs t hlexes hsignature)

/-- Without a context there is no unit in front of `=>`. -/
theorem bareUnits_of_isType (h : IsType toks t) : BareUnits toks := by
  obtain ⟨lexemes, rfl⟩ := exists_lexemes toks
  intro left right first htoks hfirst
  obtain ⟨pos, rest, hread, -⟩ := hfirst.readType_eq_fatArrow htoks
  rw [h.readType_eq_nil] at hread
  cases hread

theorem bareUnits_of_readType
    (hread : readType lexemes = ⟨.ok first, rest⟩)
    (h : first.spine.1 = .con .unit → first.spine.2 = []) :
    BareUnits (lexemes.map (·.token)) := by
  intro left right other htoks hother
  obtain ⟨pos, after, hread', -⟩ := hother.readType_eq_fatArrow htoks
  rw [hread] at hread'
  cases hread'
  exact h

theorem bareUnits_of_context {left right : List Token}
    (h : IsType left first)
    (hfirst : first.spine.1 = .con .unit → first.spine.2 = []) :
    BareUnits (left ++ .fatArrow :: right) := by
  obtain ⟨lexemes, htoks⟩ := exists_lexemes (left ++ .fatArrow :: right)
  obtain ⟨pos, rest, hread, -⟩ := h.readType_eq_fatArrow htoks
  rw [← htoks]
  exact bareUnits_of_readType hread hfirst

end HindleyMilner.Signature

namespace HindleyMilner.TypeState

open Signature

variable {st : TypeState} {text : String}

/-- In a new scope exactly the signatures with constraints that can be imposed
are read, and the result is what the derivation denotes.  Classes are added
after their superclasses, so the class tables that arise are all ordered.  Unit
with arguments in front of `=>` is left open. -/
theorem parse_language (ordered : st.classes.Ordered)
    (hunits : ∀ toks, Lexes text.toList toks → BareUnits toks) :
    ((∃ ty, (st.parse .empty text).1 = .ok ty) ↔
      ∃ toks cs t, Lexes text.toList toks ∧
        IsSignature st.classes toks cs t ∧ Satisfiable st.classes [] cs) ∧
      ∀ ty toks cs t, (st.parse .empty text).1 = .ok ty →
        Lexes text.toList toks → IsSignature st.classes toks cs t →
          Denotes st.classes toks cs t ty
            (st.parse .empty text).2.2.store := by
  have houtcome := outcome_parse ordered hunits st.store
  rw [parse_eq]
  cases hrun : (Signature.parse st.classes text).run (.empty, st.store) with
  | ok ty next =>
      rw [hrun] at houtcome
      obtain ⟨toks, cs, t, hlexes, hsignature, hsat, hdenotes⟩ := houtcome
      refine ⟨iff_of_true ⟨ty, rfl⟩
        ⟨toks, cs, t, hlexes, hsignature, hsat⟩, ?_⟩
      rintro ty' toks' cs' t' hty hlexes' hsignature'
      cases hty
      obtain rfl := hlexes'.unique hlexes
      obtain ⟨rfl, rfl⟩ := hsignature'.unique (hunits _ hlexes) hsignature
      exact hdenotes
  | error e next =>
      rw [hrun] at houtcome
      refine ⟨iff_of_false ?_ ?_, ?_⟩
      · rintro ⟨ty, hty⟩
        cases hty
      · rintro ⟨toks, cs, t, hlexes, hsignature, hsat⟩
        exact houtcome toks cs t hlexes hsignature hsat
      · intro ty toks cs t hty
        cases hty

/-- The session of `listSession` with another class, a subclass of the
first. -/
def comparisons : TypeState :=
  ⟨⟨listSession.classes.decls.push ⟨.ofChars 'O' ['r', 'd'], [⟨0⟩], [], []⟩⟩,
    listSession.store⟩

theorem comparisons_reachable : comparisons.Reachable := by
  have hadd : listSession.classes.add? (.ofChars 'O' ['r', 'd']) [⟨0⟩] =
      some comparisons.classes := by
    simp [listSession, comparisons, ClassTable.add?, ClassTable.find?,
      Name.ofChars]
  exact .tail listSession_reachable (.addClass (by decide) hadd)

def comparisonLexemes : List Lexeme :=
  [⟨.openRound, 0⟩, ⟨.con (.ofChars 'E' ['q']), 1⟩, ⟨.var "a", 4⟩,
    ⟨.comma, 5⟩, ⟨.con (.ofChars 'O' ['r', 'd']), 7⟩, ⟨.var "a", 11⟩,
    ⟨.closeRound, 12⟩, ⟨.fatArrow, 14⟩, ⟨.var "a", 17⟩, ⟨.arrow, 19⟩,
    ⟨.openSquare, 22⟩, ⟨.var "b", 23⟩, ⟨.closeSquare, 24⟩]

theorem parse_language_comparison :
    (∃ ty, (comparisons.parse .empty "(Eq a, Ord a) => a -> [b]").1 =
        .ok ty) ∧
      ∀ ty, (comparisons.parse .empty "(Eq a, Ord a) => a -> [b]").1 =
          .ok ty →
        Denotes comparisons.classes (comparisonLexemes.map (·.token))
          [(⟨0⟩, "a"), (⟨1⟩, "a")] (.arrow (.var "a") (.list (.var "b"))) ty
          (comparisons.parse .empty
            "(Eq a, Ord a) => a -> [b]").2.2.store := by
  have hlexes : Lexes "(Eq a, Ord a) => a -> [b]".toList
      (comparisonLexemes.map (·.token)) :=
    tokenize_iff.1 ⟨comparisonLexemes, rfl, rfl⟩
  have hparts : List.Forall₂ (IsConstraint comparisons.classes)
      [.app (.con ⟨"Eq", by decide⟩) (.var "a"),
        .app (.con ⟨"Ord", by decide⟩) (.var "a")]
      [(⟨0⟩, "a"), (⟨1⟩, "a")] :=
    .cons (.mk _ (by decide +kernel)) (.cons (.mk _ (by decide +kernel)) .nil)
  have hunits : ∀ toks, Lexes "(Eq a, Ord a) => a -> [b]".toList toks →
      BareUnits toks := by
    intro toks htoks
    rw [htoks.unique hlexes]
    exact bareUnits_of_readType rfl (by decide)
  have hsignature : IsSignature comparisons.classes
      (comparisonLexemes.map (·.token)) [(⟨0⟩, "a"), (⟨1⟩, "a")]
      (.arrow (.var "a") (.list (.var "b"))) :=
    isSignature_of_readType rfl (.tuple (by decide) hparts) rfl
  have hsat : Satisfiable comparisons.classes []
      [(⟨0⟩, "a"), (⟨1⟩, "a")] :=
    ⟨by decide +kernel, by decide +kernel, trivial⟩
  have hlanguage :=
    parse_language comparisons_reachable.wellFormed.ordered hunits
  exact ⟨hlanguage.1.2 ⟨_, _, _, hlexes, hsignature, hsat⟩,
    fun ty hty => hlanguage.2 ty _ _ _ hty hlexes hsignature⟩

end HindleyMilner.TypeState

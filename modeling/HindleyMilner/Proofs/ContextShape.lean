import HindleyMilner.Proofs.History
import HindleyMilner.Proofs.SignatureLanguage

/-
What may stand in front of `=>`.  Whatever scope and store a text is read in,
it is only accepted if the type in front of `=>` is a list of constraints, or
unit with something behind it.  The constraints of a list are all in force
afterwards.  Unit asks for nothing however many arguments it is given, and
these are lost.
-/

namespace HindleyMilner

/-! ### Names keep their variables -/

namespace Scope

variable {A B V : Type}

/-- Whether an action hands out the variables that were handed out before. -/
def Widening (action : ScopeM A) : Prop :=
  ∀ now : Scope × Store, now.1.Widens (action.run now).2.1

theorem Widening.bind {action : ScopeM A} {f : A → ScopeM B}
    (h : Widening action) (hf : ∀ a, Widening (f a)) :
    Widening (action >>= f) :=
  fun now => (h now).trans (hf _ _)

theorem widening_pure (a : A) : Widening (pure a) :=
  fun now => .refl now.1

theorem widening_var (name : String) : Widening (var name) := by
  rintro ⟨scope, s⟩
  cases hname : scope.named.lookup name with
  | some v =>
      rw [var_run_of_some hname]
      exact .refl scope
  | none =>
      rw [var_run_of_none hname]
      exact Named.widens_cons hname _

/-- The variable that is handed out for a name is the one of the name from
then on. -/
theorem lookup_var (name : String) (now : Scope × Store) :
    ((var name).run now).2.1.named.lookup name =
      some ((var name).run now).1 := by
  rcases now with ⟨scope, s⟩
  cases hname : scope.named.lookup name with
  | some v => rwa [var_run_of_some hname]
  | none => rw [var_run_of_none hname, lookup_cons_if, if_pos rfl]

theorem Widening.forM {f : B → ScopeM PUnit} (xs : List B)
    (h : ∀ x, Widening (f x)) : Widening (xs.forM f) := by
  induction xs with
  | nil => exact widening_pure _
  | cons head tail ih => exact (h head).bind fun _ => ih

theorem Widening.mapVarsM {f : V → ScopeM B} (t : Ty V)
    (h : ∀ v, Widening (f v)) : Widening (t.mapVarsM f) := by
  induction t with
  | var v => exact (h v).bind fun _ => widening_pure _
  | con name => exact widening_pure _
  | app func arg ihFunc ihArg =>
      exact ihFunc.bind fun _ => ihArg.bind fun _ => widening_pure _

end Scope

namespace Signature

variable {table : ClassTable} {now next last : Scope × Store}
  {first t : NamedTy} {lexemes rest : List Lexeme} {p : ClassId × String}
  {cs : List (ClassId × String)} {A : Type}

/-! ### Constraints in force -/

/-- Whether what the name of a constraint stands for is an instance of its
class. -/
def InForce (table : ClassTable) (now : Scope × Store)
    (p : ClassId × String) : Prop :=
  ∃ v, now.1.named.lookup p.2 = some v ∧
    (now.2.zonk (.var v)).Meets table (now.2.Requires table) p.1

/-- Whether a scope and a store may be read in. -/
structure Usable (table : ClassTable) (now : Scope × Store) : Prop where
  ordered : table.Ordered
  wellFormed : now.2.WellFormed
  inRange : now.1.InRange now.2

/-- Whether reading may have come from one scope and store to others: names
keep their variables, and types the classes that they are instances of. -/
structure Continues (table : ClassTable) (now next : Scope × Store) :
    Prop where
  widens : now.1.Widens next.1
  usable : Usable table now → Usable table next
  meets : Usable table now → ∀ ⦃t c⦄,
    (now.2.zonk t).Meets table (now.2.Requires table) c →
      (next.2.zonk t).Meets table (next.2.Requires table) c

theorem Continues.trans (h : Continues table now next)
    (h' : Continues table next last) : Continues table now last where
  widens := h.widens.trans h'.widens
  usable hnow := h'.usable (h.usable hnow)
  meets hnow _ _ ht := h'.meets (h.usable hnow) (h.meets hnow ht)

theorem Continues.refl (now : Scope × Store) : Continues table now now :=
  ⟨.refl now.1, id, fun _ _ _ => id⟩

theorem InForce.later (hp : InForce table now p) (hnow : Usable table now)
    (h : Continues table now next) : InForce table next p := by
  obtain ⟨v, hv, hmeets⟩ := hp
  exact ⟨v, h.widens hv, h.meets hnow hmeets⟩

theorem Continues.of_keeps {action : ReadM A} {a : A}
    (hkeeps : Keeps table (.giving fun _ => True) (fun _ => True) action
      fun _ _ => True)
    (hwidens : now.1.Widens next.1) (hrun : action.run now = .ok a next) :
    Continues table now next := by
  have hhanding (hnow : Usable table now) :
      Handing table (.giving fun _ => True) now.2 next := by
    have hstart : Handing table (.giving fun _ => True) now.2 now :=
      .start_giving _ hnow.ordered hnow.wellFormed hnow.inRange
    have hrest := hkeeps hstart trivial
    rw [hrun] at hrest
    exact hrest.1
  exact
    { widens := hwidens
      usable := fun hnow => ⟨hnow.ordered, (hhanding hnow).now_wellFormed,
        (hhanding hnow).inRange⟩
      meets := fun hnow _ _ ht => (hhanding hnow).moves.meets hnow.ordered
        hnow.wellFormed ht }

theorem constrainVar_scope {pos : Nat} {v : TyVar} {c : ClassId} {u : Unit}
    (hrun : (constrainVar table pos v c).run now = .ok u next) :
    next.1 = now.1 := by
  rcases now with ⟨scope, s⟩
  rw [constrainVar_run] at hrun
  split at hrun
  · cases hrun
    rfl
  · cases hrun

/-- Making a new variable equal to an earlier one. -/
theorem imposes_unify_new {s : Store} {v : TyVar} (ordered : table.Ordered)
    (wf : s.WellFormed) (hv : v.index < s.size) (base : String)
    (classes : ClassSet) :
    Imposes table
      (.reach (s.fresh base classes).2 [.var ⟨s.size⟩, .var v])
      (s.fresh base classes).2
      (fun a => a.eval (.var ⟨s.size⟩) = a.eval (.var v))
      ((unify table (.var ⟨s.size⟩) (.var v)).run
        (s.fresh base classes).2) := by
  have hrange {u : TyVar} (hu : u.index < s.size + 1) :
      (Ty.var u).InRange (s.fresh base classes).2 := by
    intro w hw
    rwa [Ty.mem_vars_var.1 hw, Store.size_fresh]
  exact imposes_unify ordered (wf.fresh base classes)
    (hrange (u := ⟨s.size⟩) (Nat.lt_succ_self _))
    (hrange (Nat.lt_succ_of_lt hv))

/-- The class of a constraint that could be imposed is in force. -/
theorem inForce_of_constrainVar {pos : Nat} {v : TyVar} {c : ClassId}
    {x : String} (hnow : Usable table now) (hv : v.index < now.2.size)
    (hx : next.1.named.lookup x = some v)
    (hrun : (constrainVar table pos v c).run now = .ok () next) :
    InForce table next (c, x) := by
  rcases now with ⟨scope, s⟩
  let fresh := (s.fresh "" (.ofList table [c])).2
  have wf : fresh.WellFormed := hnow.wellFormed.fresh _ _
  have hw : fresh.unsolvedClasses? ⟨s.size⟩ = some (.ofList table [c]) := by
    rw [Store.unsolvedClasses?_fresh, if_pos rfl]
  have himposes := imposes_unify_new (s := s) hnow.ordered hnow.wellFormed hv
    "" (.ofList table [c])
  rw [constrainVar_run] at hrun
  split at hrun
  · rename_i s' hunify
    rw [hunify] at himposes
    cases hrun
    have wf' := himposes.evolves.wellFormed
    let a := s'.zonkAssignment hnow.ordered
    obtain ⟨ha, hequal⟩ := (himposes.satisfied_iff a).1
      (wf'.satisfiedBy_zonkAssignment hnow.ordered)
    have hmeets : a.Meets (.var ⟨s.size⟩) c :=
      (ClassSet.forall_mem_ofList_iff (a.meets_upward hnow.ordered _) [c]).1
        (ha.unsolved hw) c List.mem_cons_self
    rw [Assignment.meets_congr hequal, Assignment.Meets,
      wf'.eval_zonkAssignment] at hmeets
    exact ⟨v, hx, hmeets⟩
  · cases hrun

theorem handOut_run_eq (action : ScopeM A) (now : Scope × Store) :
    (handOut action).run now = .ok (action.run now).1 (action.run now).2 :=
  rfl

/-- Handing out variables continues what was there. -/
theorem continues_handOut {action : ScopeM A}
    (hkeeps : Scope.Keeps table (.giving fun _ => True) (fun _ => True) action
      fun _ _ => True) (hwidens : Scope.Widening action)
    (now : Scope × Store) : Continues table now (action.run now).2 :=
  .of_keeps (Keeps.handOut hkeeps) (hwidens now) (handOut_run_eq action now)

/-! ### Contexts -/

/-- Whatever can be imposed is a constraint, and in force from then on. -/
theorem outcome_impose_shape (pos : Nat) (t : NamedTy)
    (now : Scope × Store) :
    Outcome
      (fun _ next => Continues table now next ∧ ∃ p, IsConstraint table t p ∧
        (Usable table now → InForce table next p))
      True ((impose table pos t).run now) := by
  cases himpose : (impose table pos t).run now with
  | error e next => trivial
  | ok u next =>
      have hrun := himpose
      rw [impose] at hrun
      split at hrun
      · cases hrun
      rename_i k hk
      split at hrun
      · cases hrun
      rename_i c hclass
      rw [bind_run_of_ok (handOut_run_eq (Scope.var k.var) now)] at hrun
      have hvar : Continues table now ((Scope.var k.var).run now).2 :=
        continues_handOut (Scope.keeps_name _) (Scope.widening_var _) now
      have hlookup := Scope.lookup_var k.var now
      have hscope := constrainVar_scope hrun
      rw [← hscope] at hlookup
      refine ⟨.of_keeps (keeps_impose pos t) ?_ himpose, (c, k.var),
        isConstraint_iff.2 ⟨k, hk, hclass, rfl⟩, fun hnow => ?_⟩
      · rw [hscope]
        exact hvar.widens
      · have hstart := Handing.start_giving (fun _ => True) hnow.ordered
          hnow.wellFormed hnow.inRange
        have hrange := (Scope.keeps_var k.var hstart trivial).2.1
        exact inForce_of_constrainVar (hvar.usable hnow) hrange hlookup hrun

theorem outcome_imposeAll_shape (pos : Nat) (ts : List NamedTy)
    (now : Scope × Store) :
    Outcome
      (fun _ next => Continues table now next ∧
        ∃ cs, List.Forall₂ (IsConstraint table) ts cs ∧
          (Usable table now → ∀ p ∈ cs, InForce table next p))
      True ((ts.forM (impose table pos)).run now) := by
  induction ts generalizing now with
  | nil =>
      exact ⟨.refl now, [], .nil, fun _ p hp => absurd hp List.not_mem_nil⟩
  | cons t ts ih =>
      change Outcome _ _ ((impose table pos t >>= fun _ =>
        ts.forM (impose table pos)).run now)
      apply (outcome_impose_shape pos t now).bind (fun _ => trivial)
      rintro - mid ⟨hmid, p, hp, hforce⟩
      apply (ih mid).imp (fun _ => trivial)
      rintro - next ⟨hnext, cs, hcs, hforces⟩
      refine ⟨hmid.trans hnext, p :: cs, .cons hp hcs, fun hnow => ?_⟩
      rw [List.forall_mem_cons]
      exact ⟨(hforce hnow).later (hmid.usable hnow) hnext,
        hforces (hmid.usable hnow)⟩

theorem continues_names (table : ClassTable) (names : List String)
    (now : Scope × Store) :
    Continues table now (((names.forM fun name => do
      let _ ← Scope.var name) : ScopeM PUnit).run now).2 := by
  apply continues_handOut
  · refine Scope.Keeps.forM names fun x => (Scope.keeps_name x).bind ?_
    exact fun _ _ _ hnow _ => ⟨hnow, trivial⟩
  · exact Scope.Widening.forM names fun x => (Scope.widening_var x).bind
      fun _ => Scope.widening_pure _

theorem outcome_elaborateType_shape (table : ClassTable) (textEnd : Nat)
    (lexemes : List Lexeme) (now : Scope × Store) :
    Outcome
      (fun read next => Continues table now next ∧
        readType lexemes = ⟨.ok read.1, read.2⟩)
      (∀ t rest, readType lexemes ≠ ⟨.ok t, rest⟩)
      ((elaborateType textEnd lexemes).run now) := by
  rw [elaborateType_run, bind_run_of_ok (handOut_run_eq _ now)]
  rcases hread : readType lexemes with ⟨result, rest⟩
  cases result with
  | error what => exact fun t rest' h => nomatch h
  | ok t => exact ⟨continues_names table _ now, rfl⟩

theorem outcome_finish_shape (table : ClassTable) (textEnd : Nat)
    (t : NamedTy) (rest : List Lexeme) (now : Scope × Store) :
    Outcome (fun _ next => Continues table now next ∧ rest = []) (rest ≠ [])
      ((finish textEnd t rest).run now) := by
  cases rest with
  | nil =>
      exact ⟨continues_handOut (Scope.Keeps.mapVarsM t Scope.keeps_name)
        (Scope.Widening.mapVarsM t Scope.widening_var) now, rfl⟩
  | cons lexeme rest => exact List.cons_ne_nil _ _

/-- Reading the type that a signature ends with. -/
theorem outcome_lastType_shape (table : ClassTable) (textEnd : Nat)
    (lexemes : List Lexeme) (now : Scope × Store) :
    Outcome
      (fun _ next => Continues table now next ∧
        ∃ t, readType lexemes = ⟨.ok t, []⟩)
      (∀ t, readType lexemes ≠ ⟨.ok t, []⟩)
      ((elaborateType textEnd lexemes >>= fun (t, rest) =>
        finish textEnd t rest).run now) := by
  apply (outcome_elaborateType_shape table textEnd lexemes now).bind
  · exact fun hnone t => hnone t []
  · rintro ⟨t, rest⟩ mid ⟨hmid, hread⟩
    dsimp only at hread ⊢
    apply (outcome_finish_shape table textEnd t rest mid).imp
    · intro hrest u hread'
      rw [hread] at hread'
      cases hread'
      contradiction
    · rintro - next ⟨hnext, rfl⟩
      exact ⟨hmid.trans hnext, t, hread⟩

/-- Unit has no constraints, whatever it is applied to. -/
theorem contextParts_of_unit (h : first.spine.1 = .con .unit) :
    contextParts first = [] := by
  have hspine : first.spine = (.con .unit, first.spine.2) := Prod.ext h rfl
  rw [contextParts, hspine]
  exact if_pos rfl

/-- A type in front of `=>` is a list of constraints that can be imposed, and
the type behind it is read.  What is applied to unit is not looked at. -/
theorem outcome_elaborate_shape (table : ClassTable) {pos : Nat}
    (textEnd : Nat)
    (hread : readType lexemes = ⟨.ok first, ⟨.fatArrow, pos⟩ :: rest⟩)
    (now : Scope × Store) :
    Outcome
      (fun _ next => (∃ t, readType rest = ⟨.ok t, []⟩) ∧
        ∃ cs, List.Forall₂ (IsConstraint table) (contextParts first) cs ∧
          (Usable table now → ∀ p ∈ cs, InForce table next p))
      (first.spine.1 = .con .unit → ∀ t, readType rest ≠ ⟨.ok t, []⟩)
      ((elaborate table textEnd lexemes).run now) := by
  rw [elaborate]
  apply (outcome_elaborateType_shape table textEnd lexemes now).bind
  · exact fun hnone => absurd hread (hnone _ _)
  rintro ⟨t, after⟩ mid ⟨hmid, hread'⟩
  obtain ⟨ht, hafter⟩ : t = first ∧ after = ⟨.fatArrow, pos⟩ :: rest := by
    rw [hread] at hread'
    cases hread'
    exact ⟨rfl, rfl⟩
  subst ht hafter
  dsimp only
  by_cases hunit : t.spine.1 = .con .unit
  · rw [contextParts_of_unit hunit]
    apply (outcome_lastType_shape table textEnd rest mid).imp
    · exact fun hnone _ => hnone
    · rintro - next ⟨-, ht⟩
      exact ⟨ht, [], .nil, fun _ p hp => absurd hp List.not_mem_nil⟩
  · apply (outcome_imposeAll_shape _ (contextParts t) mid).bind
    · exact fun _ h => absurd h hunit
    rintro - imposed ⟨himposed, cs, hcs, hforce⟩
    apply (outcome_lastType_shape table textEnd rest imposed).imp
    · exact fun _ h => absurd h hunit
    · rintro - next ⟨hnext, ht⟩
      refine ⟨ht, cs, hcs, fun hnow p hp => ?_⟩
      have hready := hmid.usable hnow
      exact (hforce hready p hp).later (himposed.usable hready) hnext

theorem exists_parse_eq_elaborate (table : ClassTable) {text : String}
    {left right : List Token}
    (hlexes : Lexes text.toList (left ++ .fatArrow :: right))
    (hfirst : IsType left first) :
    ∃ lexemes pos rest,
      readType lexemes = ⟨.ok first, ⟨.fatArrow, pos⟩ :: rest⟩ ∧
        rest.map (·.token) = right ∧
        parse table text = elaborate table text.utf8ByteSize lexemes := by
  obtain ⟨lexemes, hlex, htoks⟩ := tokenize_iff.2 hlexes
  obtain ⟨pos, rest, hread, hright⟩ := hfirst.readType_eq_fatArrow htoks
  refine ⟨lexemes, pos, rest, hread, hright, ?_⟩
  rw [parse, hlex]

/-- Tokens are a type exactly if one is read to their end. -/
theorem exists_readType_iff :
    (∃ t, readType rest = ⟨.ok t, []⟩) ↔
      ∃ t, IsType (rest.map (·.token)) t := by
  refine exists_congr fun t => ⟨fun h => ?_, IsType.readType_eq_nil⟩
  obtain ⟨consumed, rfl, hconsumed⟩ := isType_of_readType h
  rwa [List.append_nil]

end Signature

namespace TypeState

open Signature

variable {st : TypeState} {scope : Scope} {text : String}
  {left right : List Token} {first : NamedTy}

/-- In whatever scope and state a text is read, what stands in front of `=>`
is a list of constraints, or unit with arguments.  The constraints are all in
force afterwards.  What unit is applied to is lost: the text is read exactly
if a type stands behind `=>`. -/
theorem parse_context
    (hlexes : Lexes text.toList (left ++ .fatArrow :: right))
    (hfirst : IsType left first) :
    (∀ ty, (st.parse scope text).1 = .ok ty →
      (∃ cs, IsContext st.classes first cs ∧
        (st.WellFormed → scope.InRange st.store →
          ∀ p ∈ cs, InForce st.classes ((st.parse scope text).2.1,
            (st.parse scope text).2.2.store) p)) ∨
      first.spine.1 = .con .unit ∧ first.spine.2 ≠ []) ∧
    (first.spine.1 = .con .unit →
      ((∃ ty, (st.parse scope text).1 = .ok ty) ↔ ∃ t, IsType right t)) := by
  obtain ⟨lexemes, pos, rest, hread, rfl, hparse⟩ :=
    exists_parse_eq_elaborate st.classes hlexes hfirst
  have houtcome := outcome_elaborate_shape st.classes text.utf8ByteSize
    hread (scope, st.store)
  rw [← hparse] at houtcome
  rw [parse_eq, ← exists_readType_iff]
  cases hrun : (Signature.parse st.classes text).run (scope, st.store) with
  | error e next =>
      rw [hrun] at houtcome
      refine ⟨fun ty hty => ?_, fun hunit => iff_of_false ?_ ?_⟩
      · cases hty
      · rintro ⟨ty, hty⟩
        cases hty
      · rintro ⟨t, ht⟩
        exact houtcome hunit t ht
  | ok ty next =>
      rw [hrun] at houtcome
      obtain ⟨ht, cs, hcs, hforce⟩ := houtcome
      refine ⟨fun ty' _ => ?_, fun _ => iff_of_true ⟨ty, rfl⟩ ht⟩
      by_cases hunit : first.spine.1 = .con .unit ∧ first.spine.2 ≠ []
      · exact Or.inr hunit
      · rw [not_and, not_not] at hunit
        exact Or.inl ⟨cs, isContext_of_parts hunit hcs, fun hst hscope =>
          hforce ⟨hst.ordered, hst.wellFormed, hscope⟩⟩

def appliedUnit : List Token :=
  [.openRound, .closeRound, .var "a"]

theorem isType_appliedUnit :
    IsType appliedUnit (.app (.con .unit) (.var "a")) :=
  .btype (.app (.atype .unit) (.var "a"))

theorem lexes_appliedUnit :
    Lexes "() a => b".toList (appliedUnit ++ .fatArrow :: [.var "b"]) :=
  tokenize_iff.1 ⟨[⟨.openRound, 0⟩, ⟨.closeRound, 1⟩, ⟨.var "a", 3⟩,
    ⟨.fatArrow, 5⟩, ⟨.var "b", 8⟩], rfl, rfl⟩

theorem not_isContext_appliedUnit {cs : List (ClassId × String)} :
    ¬ IsContext listSession.classes (.app (.con .unit) (.var "a")) cs := by
  intro h
  generalize ht : Ty.app (.con .unit) (.var "a") = t at h
  cases h with
  | unit => cases ht
  | @tuple ts cs hlength hts =>
      have hspine := congrArg Ty.spine ht
      rw [Ty.spine_applyTo (Ty.isAtom_con _)] at hspine
      have hargs : ts.length = 1 := congrArg (·.2.length) hspine.symm
      omega
  | constraint hp =>
      rw [← ht] at hp
      obtain ⟨k, hk, hclass, -⟩ := isConstraint_iff.1 hp
      cases hk
      have hnone : listSession.classes.find? Name.unit.text = none := by
        decide +kernel
      exact nomatch hnone.symm.trans hclass

theorem parse_context_unit :
    Lexes "() a => b".toList (appliedUnit ++ .fatArrow :: [.var "b"]) ∧
      IsType appliedUnit (.app (.con .unit) (.var "a")) ∧
      ∃ ty, (listSession.parse .empty "() a => b").1 = .ok ty := by
  have hright : IsType [.var "b"] (.var "b") := .btype (.atype (.var "b"))
  have hcontext := @parse_context listSession .empty _ _ _ _
    lexes_appliedUnit isType_appliedUnit
  exact ⟨lexes_appliedUnit, isType_appliedUnit,
    (hcontext.2 rfl).2 ⟨_, hright⟩⟩

/-- Unit with an argument is no list of constraints, but it is accepted in the
place of one. -/
theorem appliedUnit_accepted :
    ∃ left right first,
      Lexes "() a => b".toList (left ++ .fatArrow :: right) ∧
        IsType left first ∧ (∀ cs, ¬ IsContext listSession.classes first cs) ∧
        (listSession.parse .empty "() a => b").1 = .ok (.var ⟨3⟩) :=
  ⟨appliedUnit, _, _, lexes_appliedUnit, isType_appliedUnit,
    fun _ => not_isContext_appliedUnit, by decide +kernel⟩

end TypeState

end HindleyMilner

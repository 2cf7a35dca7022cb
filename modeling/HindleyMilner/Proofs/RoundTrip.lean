import HindleyMilner.Proofs.History
import HindleyMilner.Proofs.Rendering
import HindleyMilner.Proofs.SignatureLanguage

/-
Types that are written and read again.  What is written in front of a type
and of the type itself is a signature, whose constraints are those of the
unsolved variables, so reading it in a new scope gives the type back with new
variables for the old ones, and with the same classes.
-/

namespace HindleyMilner

open Signature Display Writer

/-- Whether a set of classes can be written as constraints and imposed again:
it is reduced, has no conflict, and its classes have names that are read as
constructors. -/
structure ClassSet.Presentable (table : ClassTable) (set : ClassSet) :
    Prop where
  reduced : set.Reduced table
  conflict : table.conflict? set = none
  names : ∀ c ∈ set.members, IsConstructor (table.nameOf c)

namespace Signature

variable {table : ClassTable} {w : Writer} {rs : List (String × Nat)}
  {cs before : List (ClassId × String)} {c : ClassId} {v : TyVar}
  {text x : String} {t : NamedTy} {set : ClassSet}

/-! ### Contexts as they are written -/

/-- The classes that a writer puts in front of a type, by name, each with the
position of its variable. -/
def requirements (w : Writer) : List (String × Nat) :=
  w.vars.zipIdx.flatMap fun (v, position) =>
    (w.classNames v).map fun cls => (cls, position)

def requirementText (p : String × Nat) : String :=
  p.1 ++ " " ++ letters p.2

def constraintOf (table : ClassTable) (p : String × Nat) : ClassId × String :=
  ((table.find? p.1).getD ⟨0⟩, letters p.2)

/-- Requirements as a context, with `=>` after it. -/
def contextText : List String → String
  | [] => ""
  | [text] => text ++ " => "
  | texts => "(" ++ commas texts ++ ") => "

theorem context_eq (w : Writer) :
    w.context = contextText ((requirements w).map requirementText) := by
  have htexts : (requirements w).map requirementText =
      w.vars.zipIdx.flatMap fun (v, position) =>
        (w.classNames v).map fun cls => cls ++ " " ++ letters position := by
    rw [requirements, List.map_flatMap]
    simp only [List.map_map]
    rfl
  rw [htexts, Writer.context]
  generalize w.vars.zipIdx.flatMap _ = texts
  match texts with
  | [] => rfl
  | [_] => rfl
  | _ :: _ :: _ => rfl

theorem mem_requirements {p : String × Nat} :
    p ∈ requirements w ↔
      ∃ v, w.vars[p.2]? = some v ∧ p.1 ∈ w.classNames v := by
  rcases p with ⟨cls, position⟩
  simp only [requirements, List.mem_flatMap, List.mem_map, Prod.exists,
    Prod.mk.injEq]
  constructor
  · rintro ⟨v, i, hv, cls, hcls, rfl, rfl⟩
    exact ⟨v, List.mem_zipIdx_iff_getElem?.1 hv, hcls⟩
  · rintro ⟨v, hv, hcls⟩
    exact ⟨v, position, List.mem_zipIdx_iff_getElem?.2 hv, cls, hcls, rfl, rfl⟩

theorem exists_constraint {p : String × Nat} (hname : IsConstructor p.1)
    (hfound : table.find? p.1 = some c) :
    ∃ t, ReadsAs (requirementText p) t ∧
      IsConstraint table t (constraintOf table p) ∧
        t.spine.1 ≠ .con .unit := by
  rcases p with ⟨cls, position⟩
  dsimp only at hname hfound
  have hne : cls ≠ "" := by
    obtain ⟨-, first, rest, rfl, -⟩ := hname
    intro heq
    have hchars := congrArg String.toList heq
    simp at hchars
  have hunit : (⟨cls, hne⟩ : Name) ≠ .unit := by
    intro heq
    have htext : cls = Name.unit.text := congrArg Name.text heq
    rw [htext] at hname
    exact absurd (hname.isUpper rfl) (by decide)
  refine ⟨.app (.con ⟨cls, hne⟩) (.var (letters position)), ?_, ?_, ?_⟩
  · have hrenders := (@renders_constructor ⟨cls, hne⟩ hname).join
      separates_space (renders_letters position)
    have hstring : (⟨cls, hne⟩ : Name) ≠ .string :=
      fun heq => hname.1 (congrArg Name.text heq)
    exact ⟨_, hrenders, .btype (.app (.atype (.con hstring)) (.var _))⟩
  · rw [constraintOf, hfound, Option.getD_some]
    exact .mk _ hfound
  · rw [Ty.spine_app]
    intro heq
    exact hunit (Ty.con.inj heq)

theorem exists_constraints
    (h : ∀ p ∈ rs, IsConstructor p.1 ∧ ∃ c, table.find? p.1 = some c) :
    ∃ ts, List.Forall₂ ReadsAs (rs.map requirementText) ts ∧
      List.Forall₂ (IsConstraint table) ts (rs.map (constraintOf table)) ∧
        ∀ t ∈ ts, t.spine.1 ≠ .con .unit := by
  induction rs with
  | nil => exact ⟨[], .nil, .nil, by simp⟩
  | cons p rs ih =>
      rw [List.forall_mem_cons] at h
      obtain ⟨⟨hname, c, hfound⟩, hrest⟩ := h
      obtain ⟨t, hreads, hconstraint, hunit⟩ := exists_constraint hname hfound
      obtain ⟨ts, htexts, hconstraints, hunits⟩ := ih hrest
      exact ⟨t :: ts, .cons hreads htexts, .cons hconstraint hconstraints,
        List.forall_mem_cons.2 ⟨hunit, hunits⟩⟩

/-- A context that is written is read as its constraints. -/
theorem exists_context (hne : rs ≠ [])
    (h : ∀ p ∈ rs, IsConstructor p.1 ∧ ∃ c, table.find? p.1 = some c) :
    ∃ text first, contextText (rs.map requirementText) = text ++ " => " ∧
      ReadsAs text first ∧
        IsContext table first (rs.map (constraintOf table)) ∧
          first.spine.1 ≠ .con .unit := by
  obtain ⟨ts, htexts, hconstraints, hunits⟩ := exists_constraints h
  match rs, htexts, hconstraints with
  | [p], .cons ht .nil, .cons hp .nil =>
      exact ⟨_, _, rfl, ht, .constraint hp,
        hunits _ (List.mem_singleton.2 rfl)⟩
  | p :: q :: rs, .cons ht (.cons hu hts), hconstraints =>
      obtain ⟨first, more, hrenders, hfirst, hmore⟩ :=
        renders_components ht (.cons hu hts)
      refine ⟨"(" ++ commas ((p :: q :: rs).map requirementText) ++ ")", _, ?_,
        ⟨_, renders_parens hrenders,
          .btype (.atype (.tupleOf hfirst hmore (List.cons_ne_nil _ _)))⟩,
        .tuple (Nat.le_add_left 2 _) hconstraints, ?_⟩
      · rw [String.append_assoc]
        rfl
      · rw [Ty.spine_applyTo (Ty.isAtom_con _)]
        exact fun heq => Name.tuple_ne rfl _ (Ty.con.inj heq)

/-- A context that is written and a type after it are a signature. -/
theorem exists_signature
    (h : ∀ p ∈ rs, IsConstructor p.1 ∧ ∃ c, table.find? p.1 = some c)
    (ht : ReadsAs text t) :
    ∃ toks, Lexes (contextText (rs.map requirementText) ++ text).toList toks ∧
      BareUnits toks ∧
        IsSignature table toks (rs.map (constraintOf table)) t ∧
          ∀ x ∈ t.vars, .var x ∈ toks := by
  obtain ⟨toks, hrenders, htype⟩ := ht
  by_cases hne : rs = []
  · subst hne
    refine ⟨toks, ?_, bareUnits_of_isType htype, .type htype, htype.mem_toks⟩
    rw [List.map_nil, contextText, String.empty_append]
    exact hrenders.lexes
  · obtain ⟨context, first, heq, ⟨left, hleft, hfirst⟩, hcontext, hunit⟩ :=
      exists_context hne h
    refine ⟨left ++ [.fatArrow] ++ toks, ?_, ?_, ?_, ?_⟩
    · rw [heq]
      exact (hleft.join separates_fatArrow hrenders).lexes
    · rw [List.append_assoc]
      exact bareUnits_of_context hfirst fun hhead => absurd hhead hunit
    · rw [List.append_assoc]
      exact .context hfirst hcontext htype
    · exact fun x hx => List.mem_append_right _ (htype.mem_toks x hx)

/-! ### Constraints that can be imposed -/

/-- Constraints within sets without conflict can be imposed in any order. -/
theorem satisfiable_of_subset (ordered : table.Ordered)
    (h : ∀ x, ∃ set, table.conflict? set = none ∧
      ∀ c, (c, x) ∈ before ++ cs → c ∈ set.members) :
    Satisfiable table before cs := by
  induction cs generalizing before with
  | nil => trivial
  | cons p cs ih =>
      constructor
      · obtain ⟨set, hconflict, hset⟩ := h p.2
        refine ClassTable.conflict?_ofList_of_subset ordered hconflict ?_
        intro c hc
        apply hset c
        rw [List.append_cons]
        exact List.mem_append_left _ (mem_classesOf.1 hc)
      · apply ih
        simpa using h

/-! ### What a writer puts in front of a type -/

theorem mem_names : text ∈ set.names table ↔
    ∃ c ∈ set.members, table.nameOf c = text := by
  rw [ClassSet.names, (sortTexts_perm _).mem_iff, List.mem_map]

theorem lt_size_of_isConstructor (h : IsConstructor (table.nameOf c)) :
    c.index < table.size := by
  by_contra hout
  obtain ⟨-, first, rest, htext, -⟩ := h
  have hchars := congrArg String.toList htext
  simp [ClassTable.nameOf, ClassTable.decl?_eq_none hout] at hchars

/-- Whether the variables of a writer are unsolved, with classes that can be
written. -/
def Presents (w : Writer) : Prop :=
  ∀ v ∈ w.vars, ∃ set, w.st.store.unsolvedClasses? v = some set ∧
    set.Presentable w.st.classes

theorem classNames_eq (hset : w.st.store.unsolvedClasses? v = some set) :
    w.classNames v = set.names w.st.classes := by
  rw [classNames, Store.classes?, Store.root_of_unsolved hset, hset]
  rfl

/-- The constraints in front of a type are the classes of its variables. -/
theorem mem_constraints (found : w.st.classes.Found) (hw : Presents w) :
    (c, x) ∈ (requirements w).map (constraintOf w.st.classes) ↔
      ∃ v i set, w.vars[i]? = some v ∧
        w.st.store.unsolvedClasses? v = some set ∧ c ∈ set.members ∧
          x = letters i := by
  simp only [List.mem_map, mem_requirements]
  constructor
  · rintro ⟨p, ⟨v, hv, hcls⟩, heq⟩
    obtain ⟨set, hset, hpresentable⟩ := hw v (List.mem_of_getElem? hv)
    rw [classNames_eq hset, mem_names] at hcls
    obtain ⟨d, hd, hname⟩ := hcls
    have hfound := found (lt_size_of_isConstructor (hpresentable.names d hd))
    rw [constraintOf, ← hname, hfound] at heq
    cases heq
    exact ⟨v, p.2, set, hv, hset, hd, rfl⟩
  · rintro ⟨v, i, set, hv, hset, hc, rfl⟩
    obtain ⟨set', hset', hpresentable⟩ := hw v (List.mem_of_getElem? hv)
    rw [hset] at hset'
    cases hset'
    have hfound := found (lt_size_of_isConstructor (hpresentable.names c hc))
    refine ⟨(w.st.classes.nameOf c, i), ⟨v, hv, ?_⟩, ?_⟩
    · rw [classNames_eq hset, mem_names]
      exact ⟨c, hc, rfl⟩
    · rw [constraintOf, hfound, Option.getD_some]

theorem requirement_found (found : w.st.classes.Found) (hw : Presents w)
    {p : String × Nat} (hp : p ∈ requirements w) :
    IsConstructor p.1 ∧ ∃ c, w.st.classes.find? p.1 = some c := by
  obtain ⟨v, hv, hcls⟩ := mem_requirements.1 hp
  obtain ⟨set, hset, hpresentable⟩ := hw v (List.mem_of_getElem? hv)
  rw [classNames_eq hset, mem_names] at hcls
  obtain ⟨c, hc, hname⟩ := hcls
  have hconstructor := hpresentable.names c hc
  rw [← hname]
  exact ⟨hconstructor, c, found (lt_size_of_isConstructor hconstructor)⟩

theorem satisfiable_constraints (ordered : w.st.classes.Ordered)
    (found : w.st.classes.Found) (hw : Presents w) :
    Satisfiable w.st.classes []
      ((requirements w).map (constraintOf w.st.classes)) := by
  apply satisfiable_of_subset ordered
  intro x
  rw [List.nil_append]
  by_cases hx : ∃ v i, w.vars[i]? = some v ∧ x = letters i
  · obtain ⟨v, i, hv, hxi⟩ := hx
    obtain ⟨set, hset, hpresentable⟩ := hw v (List.mem_of_getElem? hv)
    refine ⟨set, hpresentable.conflict, fun c hc => ?_⟩
    obtain ⟨v', j, set', hv', hset', hc, hxj⟩ :=
      (mem_constraints found hw).1 hc
    rw [hxi] at hxj
    rw [letters_injective hxj, hv'] at hv
    cases hv
    rw [hset'] at hset
    cases hset
    exact hc
  · refine ⟨∅, rfl, fun c hc => absurd ?_ hx⟩
    obtain ⟨v, i, set, hv, -, -, hxi⟩ := (mem_constraints found hw).1 hc
    exact ⟨v, i, hv, hxi⟩

/-- The constraints on the name of a variable make up its set again. -/
theorem ofList_classesOf (ordered : w.st.classes.Ordered)
    (found : w.st.classes.Found) (hw : Presents w) {i : Nat}
    (hv : w.vars[i]? = some v)
    (hset : w.st.store.unsolvedClasses? v = some set) :
    ClassSet.ofList w.st.classes
      (classesOf ((requirements w).map (constraintOf w.st.classes))
        (letters i)) = set := by
  obtain ⟨set', hset', hpresentable⟩ := hw v (List.mem_of_getElem? hv)
  rw [hset] at hset'
  cases hset'
  rw [← hpresentable.reduced.ofList_members ordered]
  apply ClassSet.ofList_congr ordered
  intro c
  rw [mem_classesOf, mem_constraints found hw]
  constructor
  · rintro ⟨v', j, set', hv', hset', hc, hij⟩
    rw [letters_injective hij, hv'] at hv
    cases hv
    rw [hset'] at hset
    cases hset
    exact hc
  · intro hc
    exact ⟨v, i, set, hv, hset, hc, rfl⟩

end Signature

namespace TypeState

variable {st : TypeState} {ty : Ty TyVar}

theorem display_context_eq (st : TypeState) (ty : Ty TyVar) :
    st.display .context ty =
      (Writer.ofTypes st [ty]).context ++
        ({ Writer.ofTypes st [ty] with inline := false }).tyApplied
          (st.store.zonk ty) [] .whole :=
  rfl

theorem mem_vars_ofTypes {v : TyVar} :
    v ∈ (Writer.ofTypes st [ty]).vars ↔ v ∈ (st.store.zonk ty).vars :=
  Store.mem_freeVars

theorem WellFormed.presents (h : st.WellFormed) (hty : ty.InRange st.store)
    (hclasses : ∀ v ∈ (st.store.zonk ty).vars, ∀ set,
      st.store.unsolvedClasses? v = some set →
        set.Presentable st.classes) :
    Presents (Writer.ofTypes st [ty]) := by
  intro v hv
  rw [mem_vars_ofTypes] at hv
  obtain ⟨set, hset⟩ := Store.exists_unsolvedClasses?
    (h.wellFormed.inRange_zonk hty v hv)
    (h.wellFormed.solution?_of_mem_zonk hv)
  exact ⟨set, hset, hclasses v hv set hset⟩

/-- Types that can be written are read back: a type that is written with its
classes in front is a signature of the type, up to the choice of variables,
with the same classes. -/
theorem parse_display (h : st.Arises) (hty : ty.InRange st.store)
    (hcons : ∀ name ∈ (st.store.zonk ty).cons, Writable name)
    (hclasses : ∀ v ∈ (st.store.zonk ty).vars, ∀ set,
      st.store.unsolvedClasses? v = some set →
        set.Presentable st.classes) :
    ∃ rename : TyVar → TyVar,
      (st.parse .empty (st.display .context ty)).1 =
          .ok ((st.store.zonk ty).map rename) ∧
        (∀ v ∈ (st.store.zonk ty).vars, ∀ w ∈ (st.store.zonk ty).vars,
          rename v = rename w → v = w) ∧
        ∀ v ∈ (st.store.zonk ty).vars, ∃ set,
          st.store.unsolvedClasses? v = some set ∧
            (st.parse .empty
              (st.display .context ty)).2.2.store.unsolvedClasses?
                (rename v) = some set := by
  have ordered := h.wellFormed.ordered
  have found := h.found
  have hpresents := h.wellFormed.presents hty hclasses
  have hreads := writes_tyApplied
    (w := { Writer.ofTypes st [ty] with inline := false }) rfl
    (st.store.zonk ty) (fun v hv => mem_vars_ofTypes.2 hv) hcons .nil .whole
  obtain ⟨toks, hlexes, hunits, hsignature, hknown⟩ := exists_signature
    (fun p hp => requirement_found found hpresents hp) hreads
  rw [← context_eq, ← display_context_eq] at hlexes
  obtain ⟨result, next, hrun, var, hresult, hdistinct, hsets⟩ :=
    exists_parse ordered hlexes hunits hsignature
      (satisfiable_constraints ordered found hpresents) st.store
  have hmem (v : TyVar) (hv : v ∈ (st.store.zonk ty).vars) :
      .var (letters ((Writer.ofTypes st [ty]).vars.idxOf v)) ∈ toks :=
    hknown _ (Ty.mem_vars_map.2 ⟨v, hv, rfl⟩)
  rw [parse_eq, hrun]
  refine ⟨fun v => var (letters ((Writer.ofTypes st [ty]).vars.idxOf v)), ?_,
    fun v hv w hw heq => ?_, fun v hv => ?_⟩
  · rw [hresult]
    exact congrArg Except.ok (Ty.map_map _ _ var)
  · have hletters := hdistinct _ _ (hmem v hv) (hmem w hw) heq
    exact (List.idxOf_inj (mem_vars_ofTypes.2 hv)).1
      (letters_injective hletters)
  · obtain ⟨set, hset, -⟩ := hpresents v (mem_vars_ofTypes.2 hv)
    refine ⟨set, hset, ?_⟩
    dsimp only
    rw [← ofList_classesOf ordered found hpresents
      (List.getElem?_idxOf (mem_vars_ofTypes.2 hv)) hset]
    exact hsets _ (hmem v hv)

/-- The session of `comparisons` with another variable, an ordered one. -/
def orderedSession : TypeState :=
  comparisons.withStore (comparisons.store.fresh "c"
    (.ofList comparisons.classes [⟨0⟩, ⟨1⟩])).2

theorem orderedSession_reachable : orderedSession.Reachable :=
  .tail comparisons_reachable (.fresh _ "c" _)

/-- The type `b c -> [Maybe]`, of a variable that is applied and a constructor
without its argument. -/
def partialTy : Ty TyVar :=
  .arrow (.app (.var ⟨1⟩) (.var ⟨2⟩)) (.list (.con ⟨"Maybe", by decide⟩))

theorem parse_display_partial :
    orderedSession.display .context partialTy = "Ord b => a b -> [Maybe]" ∧
      ∃ rename : TyVar → TyVar,
        (orderedSession.parse .empty
          (orderedSession.display .context partialTy)).1 =
            .ok ((orderedSession.store.zonk partialTy).map rename) := by
  have ordered : orderedSession.classes.Ordered :=
    comparisons_reachable.wellFormed.ordered
  have hmaybe : IsConstructor "Maybe" :=
    ⟨by decide, 'M', ['a', 'y', 'b', 'e'], rfl, rfl, List.all_eq_true.1 rfl⟩
  have hord : IsConstructor "Ord" :=
    ⟨by decide, 'O', ['r', 'd'], rfl, rfl, List.all_eq_true.1 rfl⟩
  have hcons : ∀ name ∈ (orderedSession.store.zonk partialTy).cons,
      Writable name := by
    have heq : (orderedSession.store.zonk partialTy).cons =
        [.arrow, .list, ⟨"Maybe", by decide⟩] := rfl
    simp only [heq, List.forall_mem_cons]
    exact ⟨.inr (.inl rfl), .inr (.inr (.inl rfl)), .inl hmaybe, by simp⟩
  have hclasses : ∀ v ∈ (orderedSession.store.zonk partialTy).vars, ∀ set,
      orderedSession.store.unsolvedClasses? v = some set →
        set.Presentable orderedSession.classes := by
    have heq : (orderedSession.store.zonk partialTy).vars = [⟨1⟩, ⟨2⟩] := rfl
    simp only [heq, List.forall_mem_cons]
    refine ⟨fun set hset => ?_, fun set hset => ?_, by simp⟩
    · cases hset
      exact ⟨ClassSet.reduced_ofList ordered [], rfl,
        fun c hc => absurd hc List.not_mem_nil⟩
    · cases hset
      refine ⟨ClassSet.reduced_ofList ordered _, by decide +kernel,
        fun c hc => ?_⟩
      have hmembers : (ClassSet.ofList comparisons.classes
          [⟨0⟩, ⟨1⟩]).members = [⟨1⟩] := by decide +kernel
      rw [hmembers, List.mem_singleton] at hc
      rw [hc]
      exact hord
  obtain ⟨rename, hparse, -⟩ := parse_display
    orderedSession_reachable.arises (by decide) hcons hclasses
  exact ⟨rfl, rename, hparse⟩

end TypeState

end HindleyMilner

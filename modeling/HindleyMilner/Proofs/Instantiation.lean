import HindleyMilner.Proofs.Setting

/-
Instantiation copies the generic variables of a type.  The copies are fresh and
require the same classes, so a type that is copied has exactly the instances
that the rules give to the original: every instance is a value of the copy, and
every value of the copy is an instance.
-/

namespace HindleyMilner

/-- Whether copies have the values that a substitution gives to the
originals. -/
def Scope.CopiesAs {V : Type} (scope : Scope) (inst value : TyVar → Ty V) :
    Prop :=
  ∀ ⦃v w⦄, scope.copies.lookup v = some w → value w = inst v

/-- The copy of a variable, or the variable itself if there is none. -/
def Scope.rename (scope : Scope) (v : TyVar) : Ty TyVar :=
  .var ((scope.copies.lookup v).getD v)

namespace Setting

variable {S : Setting} {view : View} {s s' s'' : Store}
  {scope scope' scope'' : Scope} {v w : TyVar} {t u : Ty TyVar}
  {r r' r'' : TyVar → GroundTy}

/-- The rules for the values that an assignment gives to variables. -/
def typing (S : Setting) (a : Assignment S.table) (label : Labelling a.Var) :
    Typing a.Var :=
  ⟨S.table, S.start, a.holds, a.value, label⟩

/-- Whether a ground assignment satisfies a later store and gives the earlier
variables the values that they had. -/
structure Extends (S : Setting) (s : Store) (r : TyVar → GroundTy)
    (s' : Store) (r' : TyVar → GroundTy) : Prop where
  size_le : s.size ≤ s'.size
  satisfied : s'.SatisfiedBy (.ground S.table r')
  agrees : ∀ v : TyVar, v.index < s.size → r' v = r v

theorem Extends.refl (h : s.SatisfiedBy (.ground S.table r)) :
    S.Extends s r s r :=
  ⟨Nat.le_refl _, h, fun _ _ => rfl⟩

theorem Extends.trans (h : S.Extends s r s' r')
    (h' : S.Extends s' r' s'' r'') : S.Extends s r s'' r'' where
  size_le := Nat.le_trans h.size_le h'.size_le
  satisfied := h'.satisfied
  agrees v hv :=
    (h'.agrees v (Nat.lt_of_lt_of_le hv h.size_le)).trans (h.agrees v hv)

theorem Extends.bind_eq (h : S.Extends s r s' r') (ht : t.InRange s) :
    t.bind r' = t.bind r :=
  Store.bind_eq_of_inRange ht h.agrees

/-- A new variable may have any value that meets its classes, with all other
values kept. -/
theorem State.exists_fresh (h : S.State view s) {classes : ClassSet}
    (hr : s.SatisfiedBy (.ground S.table r)) (base : String) {T : GroundTy}
    (hT : ∀ c ∈ classes.members, T.Meets S.table Empty.elim c) :
    ∃ r', S.Extends s r (s.fresh base classes).2 r' ∧ r' ⟨s.size⟩ = T := by
  obtain ⟨r', hsat, hagrees, hnew⟩ := hr.exists_fresh h.wellFormed base hT
  exact ⟨r', ⟨by simp, hsat, hagrees⟩, hnew⟩

/-! ### Copying variables -/

/-- Whether the copies of a scope are variables of the inference and meet the
classes of their originals. -/
structure Copies (S : Setting) (scope : Scope) (s : Store) : Prop where
  inRange : ∀ ⦃v w⦄, scope.copies.lookup v = some w →
    S.start.size ≤ w.index ∧ w.index < s.size
  meets : ∀ ⦃v w classes⦄, scope.copies.lookup v = some w →
    S.start.unsolvedClasses? v = some classes →
      ∀ a : Assignment S.table, s.SatisfiedBy a →
        ∀ c ∈ classes.members, a.Meets (.var w) c

theorem copies_empty : S.Copies .empty s := by
  constructor <;> simp [Scope.empty]

/-- Copies stay copies while the inference goes on. -/
theorem Copies.later (h : S.Copies scope s) (hlater : S.Later s s') :
    S.Copies scope s' where
  inRange _ _ hw :=
    ⟨(h.inRange hw).1, Nat.lt_of_lt_of_le (h.inRange hw).2 hlater.size_le⟩
  meets _ _ _ hw hclasses a ha :=
    h.meets hw hclasses a (hlater.satisfied a ha)

theorem Copies.copiesAs (h : S.Copies scope s) (hr : S.Extends s r s' r')
    {inst : TyVar → GroundTy} (hinst : scope.CopiesAs inst r) :
    scope.CopiesAs inst r' := by
  intro v w hw
  rw [hr.agrees w (h.inRange hw).2]
  exact hinst hw

/-- What has been done when variables have been copied: each has a copy, and
the copies may have all values that the classes of the originals allow. -/
structure Copied (S : Setting) (view : View) (vs : List TyVar)
    (scope : Scope) (s : Store) (scope' : Scope) (s' : Store) : Prop where
  state : S.State view s'
  later : S.Later s s'
  copies : S.Copies scope' s'
  kept : ∀ ⦃v w⦄, scope.copies.lookup v = some w →
    scope'.copies.lookup v = some w
  done : ∀ v ∈ vs, ∃ w, scope'.copies.lookup v = some w
  complete : ∀ ⦃r : TyVar → GroundTy⦄ ⦃inst : TyVar → GroundTy⦄,
    s.SatisfiedBy (.ground S.table r) → scope.CopiesAs inst r →
      (∀ v ∈ vs, ∀ classes, S.start.unsolvedClasses? v = some classes →
        ∀ c ∈ classes.members, (inst v).Meets S.table Empty.elim c) →
      ∃ r', S.Extends s r s' r' ∧ scope'.CopiesAs inst r'

theorem Copied.refl (h : S.State view s) (hcopies : S.Copies scope s) :
    S.Copied view [] scope s scope s where
  state := h
  later := .refl s
  copies := hcopies
  kept _ _ hw := hw
  done _ hv := absurd hv List.not_mem_nil
  complete r _ hr hinst _ := ⟨r, .refl hr, hinst⟩

theorem Copied.trans {vs vs' : List TyVar}
    (h : S.Copied view vs scope s scope' s')
    (h' : S.Copied view vs' scope' s' scope'' s'') :
    S.Copied view (vs ++ vs') scope s scope'' s'' where
  state := h'.state
  later := h.later.trans h'.later
  copies := h'.copies
  kept v w hw := h'.kept (h.kept hw)
  done v hv := by
    rcases List.mem_append.1 hv with hold | hnew
    · obtain ⟨w, hw⟩ := h.done v hold
      exact ⟨w, h'.kept hw⟩
    · exact h'.done v hnew
  complete r inst hr hinst hmeets := by
    rw [List.forall_mem_append] at hmeets
    obtain ⟨r₁, hr₁, hinst₁⟩ := h.complete hr hinst hmeets.1
    obtain ⟨r₂, hr₂, hinst₂⟩ := h'.complete hr₁.satisfied hinst₁ hmeets.2
    exact ⟨r₂, hr₁.trans hr₂, hinst₂⟩

theorem copiesAs_cons {V : Type} {inst value : TyVar → Ty V}
    (h : scope.CopiesAs inst value) (hw : value w = inst v) :
    { scope with copies := (v, w) :: scope.copies }.CopiesAs inst value := by
  intro u x hx
  rw [lookup_cons_if] at hx
  by_cases heq : u = v
  · rw [if_pos heq] at hx
    obtain rfl := Option.some.inj hx
    rw [hw, heq]
  · rw [if_neg heq] at hx
    exact h hx

theorem Copies.cons (h : S.Copies scope s) (hw : S.start.size ≤ w.index)
    (hrange : w.index < s.size) {classes : ClassSet}
    (hclasses : S.start.unsolvedClasses? v = some classes)
    (hmeets : ∀ a : Assignment S.table, s.SatisfiedBy a →
      ∀ c ∈ classes.members, a.Meets (.var w) c) :
    S.Copies { scope with copies := (v, w) :: scope.copies } s := by
  constructor
  · intro u x hx
    rw [lookup_cons_if] at hx
    by_cases heq : u = v
    · rw [if_pos heq] at hx
      obtain rfl := Option.some.inj hx
      exact ⟨hw, hrange⟩
    · rw [if_neg heq] at hx
      exact h.inRange hx
  · intro u x set hx hset a ha
    rw [lookup_cons_if] at hx
    by_cases heq : u = v
    · rw [if_pos heq] at hx
      obtain rfl := Option.some.inj hx
      rw [heq, hclasses] at hset
      obtain rfl := Option.some.inj hset
      exact hmeets a ha
    · rw [if_neg heq] at hx
      exact h.meets hx hset a ha

theorem copied_fresh (h : S.State view s) (hcopies : S.Copies scope s)
    (hv : S.Generic v) (hnone : scope.copies.lookup v = none)
    (base : String) :
    S.Copied view [v] scope s
      { scope with copies := (v, ⟨s.size⟩) :: scope.copies }
      (s.fresh base ((s.unsolvedClasses? v).getD ∅)).2 := by
  obtain ⟨classes, hclasses⟩ :=
    Store.exists_unsolvedClasses? hv.lt_size hv.solution?
  rw [h.unsolvedClasses?_generic hv, hclasses, Option.getD_some]
  have hlater : S.Later s (s.fresh base classes).2 :=
    later_fresh base classes
  refine
    { state := h.fresh base classes
      later := hlater
      copies := (hcopies.later hlater).cons h.size_le (by simp) hclasses
        fun a ha => (Store.satisfiedBy_fresh_iff.1 ha).2
      kept := fun u w hw => ?_
      done := fun u hu => ⟨⟨s.size⟩, ?_⟩
      complete := fun r inst hr hinst hmeets => ?_ }
  · have hne : u ≠ v := by
      rintro rfl
      rw [hnone] at hw
      contradiction
    rwa [lookup_cons_if, if_neg hne]
  · rw [lookup_cons_if, if_pos (List.mem_singleton.1 hu)]
  · obtain ⟨r', hr', hnew⟩ := h.exists_fresh hr base
      (hmeets v (List.mem_singleton.2 rfl) classes hclasses)
    exact ⟨r', hr', copiesAs_cons (hcopies.copiesAs hr' hinst) hnew⟩

/-- Copying never fails. -/
theorem exists_copy (h : S.State view s) (hcopies : S.Copies scope s)
    (hv : S.Generic v) :
    ∃ w scope' s', (Scope.copy v).run (scope, s) = (w, (scope', s')) ∧
      scope'.copies.lookup v = some w ∧
        S.Copied view [v] scope s scope' s' := by
  cases hlookup : scope.copies.lookup v with
  | some w =>
      have hrefl := Copied.refl h hcopies
      refine ⟨w, scope, s, Scope.copy_run_of_some hlookup, hlookup,
        { hrefl with
          done := fun u hu => ⟨w, by rwa [List.mem_singleton.1 hu]⟩
          complete := fun r inst hr hinst _ => ⟨r, .refl hr, hinst⟩ }⟩
  | none =>
      exact ⟨_, _, _, Scope.copy_run_of_none hlookup,
        by rw [lookup_cons_if, if_pos rfl],
        copied_fresh h hcopies hv hlookup _⟩

/-- Copying all variables of a type renames them to their copies. -/
theorem exists_mapVarsM_copy (h : S.State view s) (hcopies : S.Copies scope s)
    (ht : ∀ v ∈ t.vars, S.Generic v) :
    ∃ scope' s', (t.mapVarsM Scope.copy).run (scope, s) =
        (t.bind scope'.rename, (scope', s')) ∧
      S.Copied view t.vars scope s scope' s' := by
  induction t generalizing scope s with
  | var v =>
      obtain ⟨w, scope', s', hrun, hw, hcopied⟩ :=
        exists_copy h hcopies (ht v (Ty.mem_vars_var.2 rfl))
      refine ⟨scope', s', ?_, hcopied⟩
      rw [Scope.mapVarsM_var_run, hrun, Ty.bind, Scope.rename, hw,
        Option.getD_some]
  | con name => exact ⟨scope, s, rfl, .refl h hcopies⟩
  | app func arg ihFunc ihArg =>
      obtain ⟨scope₁, s₁, hrun₁, hfunc⟩ := ihFunc h hcopies
        fun v hv => ht v (Ty.mem_vars_app.2 (Or.inl hv))
      obtain ⟨scope₂, s₂, hrun₂, harg⟩ := ihArg hfunc.state hfunc.copies
        fun v hv => ht v (Ty.mem_vars_app.2 (Or.inr hv))
      refine ⟨scope₂, s₂, ?_, hfunc.trans harg⟩
      have hrename : func.bind scope₁.rename = func.bind scope₂.rename := by
        apply Ty.bind_congr
        intro v hv
        obtain ⟨w, hw⟩ := hfunc.done v hv
        rw [Scope.rename, Scope.rename, hw, harg.kept hw]
      rw [Scope.mapVarsM_app_run, hrun₁]
      simp only [hrun₂, Ty.bind, hrename]

/-! ### Instantiating signatures -/

/-- What has been done when a signature or an annotation has been
instantiated: the values of the result are instances, for all substitutions
that give the copied variables the values of their copies, and all instances
are values of it. -/
structure Instantiated (S : Setting) (view : View) (scheme : Ty TyVar)
    (scope : Scope) (s : Store) (t : Ty TyVar) (scope' : Scope) (s' : Store) :
    Prop where
  state : S.State view s'
  later : S.Later s s'
  copies : S.Copies scope' s'
  kept : ∀ ⦃v w⦄, scope.copies.lookup v = some w →
    scope'.copies.lookup v = some w
  admits : S.Admits s' t
  sound : ∀ (a : Assignment S.table) (label : Labelling a.Var)
    (inst : TyVar → Ty a.Var), s'.SatisfiedBy a →
      scope'.CopiesAs inst a.value →
        (S.typing a label).Instance inst scheme (a.eval t)
  complete : ∀ ⦃r r₀ : TyVar → GroundTy⦄ ⦃inst : TyVar → GroundTy⦄
    (label : Labelling Empty), s.SatisfiedBy (.ground S.table r) →
      scope.CopiesAs inst r →
        (S.typing (.ground S.table r₀) label).Respects inst scheme →
          ∃ r', S.Extends s r s' r' ∧ scope'.CopiesAs inst r'

/-- A signature without open variables is its own instance. -/
theorem instantiated_closed (h : S.State view s) (hcopies : S.Copies scope s)
    {scheme : Ty TyVar} (hscheme : scheme ∈ S.schemes)
    (hclosed : ∀ v, v ∉ (S.start.zonk scheme).vars) :
    S.Instantiated view scheme scope s scheme scope s where
  state := h
  later := .refl s
  copies := hcopies
  kept _ _ hw := hw
  admits v hv :=
    ⟨Nat.lt_of_lt_of_le (S.inRange scheme hscheme v hv) h.size_le,
      apart_of_mem_zonk_apart (fun w hw => absurd hw (hclosed w)) hv⟩
  sound a label inst ha _ := by
    refine ⟨fun v hv => absurd hv (hclosed v), ?_⟩
    rw [← (h.satisfied a ha).solved.eval_zonk scheme]
    exact Ty.bind_congr fun v hv => absurd hv (hclosed v)
  complete r _ _ _ hr hinst _ := ⟨r, .refl hr, hinst⟩

/-- A signature whose open variables have been copied has been
instantiated. -/
theorem instantiated_open {scheme : Ty TyVar}
    (hcopied : S.Copied view (S.start.zonk scheme).vars scope s scope' s') :
    S.Instantiated view scheme scope s
      ((S.start.zonk scheme).bind scope'.rename) scope' s' where
  state := hcopied.state
  later := hcopied.later
  copies := hcopied.copies
  kept := hcopied.kept
  admits v hv := by
    obtain ⟨u, hu, hv⟩ := Ty.mem_vars_bind.1 hv
    obtain ⟨w, hw⟩ := hcopied.done u hu
    rw [Scope.rename, hw, Option.getD_some, Ty.mem_vars_var] at hv
    obtain ⟨hnew, hrange⟩ := hcopied.copies.inRange hw
    rw [hv]
    exact ⟨hrange, apart_of_new hnew⟩
  sound a label inst ha hinst := by
    constructor
    · intro v hv classes hclasses c hc
      obtain ⟨w, hw⟩ := hcopied.done v hv
      have hmeets := hcopied.copies.meets hw hclasses a ha c hc
      rw [Assignment.Meets, Assignment.eval_var, hinst hw] at hmeets
      exact hmeets
    · rw [Assignment.eval, Ty.bind_bind]
      apply Ty.bind_congr
      intro v hv
      obtain ⟨w, hw⟩ := hcopied.done v hv
      rw [Scope.rename, hw, Option.getD_some]
      exact hinst hw
  complete _ _ _ _ hr hinst hrespects := hcopied.complete hr hinst hrespects

/-- Instantiation never fails, and all instances of a signature are values of
its copy. -/
theorem exists_instantiate (h : S.State view s) (hcopies : S.Copies scope s)
    {scheme : Ty TyVar} (hscheme : scheme ∈ S.schemes) :
    ∃ t scope' s', (Scope.instantiate scheme).run (scope, s) =
        (t, (scope', s')) ∧
      S.Instantiated view scheme scope s t scope' s' := by
  rw [Scope.instantiate_run]
  split
  · rename_i hfree
    refine ⟨scheme, scope, s, rfl, instantiated_closed h hcopies hscheme ?_⟩
    intro v hv
    rw [← h.zonk_scheme hscheme, ← Store.mem_freeVars, hfree] at hv
    exact List.not_mem_nil hv
  · rw [h.zonk_scheme hscheme]
    obtain ⟨scope', s', hrun, hcopied⟩ := exists_mapVarsM_copy h hcopies
      (t := S.start.zonk scheme) fun v hv => ⟨scheme, hscheme, hv⟩
    exact ⟨_, scope', s', hrun, instantiated_open hcopied⟩

end Setting

end HindleyMilner

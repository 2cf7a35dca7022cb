import HindleyMilner.Proofs.FreshCopy
import HindleyMilner.Proofs.Repetition

/-
Two copies of one type.  They are made over different variables, and when they
are unified, the variables of the first are joined one by one with those of the
second.  Both variables of such a pair have the classes of the original, so
nothing is asked for that was not asked for before, and what comes out is a copy
again.
-/

namespace HindleyMilner

/-- Types with the same shape have the same heads, where these are
constructors. -/
theorem headsDiffer_of_zonk_map {s : Store} (wf : s.WellFormed)
    {want got t : Ty TyVar} {f g : TyVar → TyVar}
    (hwant : s.zonk want = t.map f) (hgot : s.zonk got = t.map g) :
    headsDiffer s want got = false := by
  rw [← Bool.not_eq_true, headsDiffer_eq_true_iff wf, hwant, hgot,
    Ty.spine_map, Ty.spine_map]
  rintro ⟨c, d, hc, hd, hdiffer⟩
  dsimp only at hc hd hdiffer
  rw [List.length_map, List.length_map] at hdiffer
  cases hhead : t.spine.1 with
  | var v =>
      rw [hhead] at hc
      contradiction
  | app func arg =>
      rw [hhead] at hc
      contradiction
  | con name =>
      rw [hhead] at hc hd
      cases hc
      cases hd
      exact hdiffer.elim (· rfl) (· rfl)

/-- Two sets of copies of some variables, with the classes of the originals,
in which there is no conflict. -/
structure TwoCopies (table : ClassTable) (vs : List TyVar) where
  first : TyVar → TyVar
  second : TyVar → TyVar
  classes : TyVar → ClassSet
  first_injective : ∀ ⦃v w⦄, v ∈ vs → w ∈ vs → first v = first w → v = w
  second_injective : ∀ ⦃v w⦄, v ∈ vs → w ∈ vs → second v = second w → v = w
  apart : ∀ ⦃v w⦄, v ∈ vs → w ∈ vs → first v ≠ second w
  conflict?_eq : ∀ ⦃v⦄, v ∈ vs → table.conflict? (classes v) = none

namespace TwoCopies

variable {table : ClassTable} {vs : List TyVar} {C : TwoCopies table vs}
  {s s' : Store} {v : TyVar} {t want got : Ty TyVar}

/-- Whether some of the first copies have been joined with the second, and all
others are as they were made. -/
structure Between (C : TwoCopies table vs) (s : Store) : Prop where
  wellFormed : s.WellFormed
  second : ∀ ⦃v⦄, v ∈ vs →
    s.unsolvedClasses? (C.second v) = some (C.classes v)
  first : ∀ ⦃v⦄, v ∈ vs →
    s.unsolvedClasses? (C.first v) = some (C.classes v) ∨
      s.zonk (.var (C.first v)) = .var (C.second v)

namespace Between

theorem shortened (h : C.Between s) (hs : s.Shortened s') : C.Between s' where
  wellFormed := hs.steady.wellFormed
  second v hv := by rw [hs.unsolvedClasses?_eq, h.second hv]
  first v hv := by
    rw [hs.unsolvedClasses?_eq, hs.steady.zonk_eq]
    exact h.first hv

theorem zonk_second (h : C.Between s) (hv : v ∈ vs) :
    s.zonk (.var (C.second v)) = .var (C.second v) :=
  h.wellFormed.zonk_var_unsolved
    (Store.solution?_eq_none_of_unsolved (h.second hv))

/-- What has been joined stays joined. -/
theorem zonk_first (h : C.Between s) (h' : C.Between s')
    (hs : s.Extends s') (hv : v ∈ vs)
    (hjoined : s.zonk (.var (C.first v)) = .var (C.second v)) :
    s'.zonk (.var (C.first v)) = .var (C.second v) := by
  rw [← h.zonk_second hv] at hjoined
  rw [hs.zonk_congr hjoined, h'.zonk_second hv]

theorem join (h : C.Between s) (hv : v ∈ vs)
    (hfirst : s.unsolvedClasses? (C.first v) = some (C.classes v)) :
    C.Between (s.join (C.first v) (C.second v) (C.classes v)) := by
  have hsecond := h.second hv
  have hne := C.apart hv hv
  have hextends := h.wellFormed.extends_join hfirst hsecond hne (C.classes v)
  have hclasses (u : TyVar) :
      (s.join (C.first v) (C.second v) (C.classes v)).unsolvedClasses? u =
        if u = C.first v then none
        else if u = C.second v then some (C.classes v)
        else s.unsolvedClasses? u :=
    Store.unsolvedClasses?_join hfirst hsecond hne u
  have hkept {w : TyVar} (hw : w ∈ vs) :
      (s.join (C.first v) (C.second v) (C.classes v)).unsolvedClasses?
        (C.second w) = some (C.classes w) := by
    rw [hclasses, if_neg (C.apart hv hw).symm]
    split
    · rename_i heq
      rw [C.second_injective hw hv heq]
    · exact h.second hw
  refine ⟨hextends.wellFormed, fun w => hkept, fun w hw => ?_⟩
  rcases h.first hw with hunsolved | hjoined
  · by_cases heq : w = v
    · subst heq
      exact Or.inr (h.wellFormed.zonk_join hfirst hsecond hne)
    · left
      rw [hclasses, if_neg (mt (C.first_injective hw hv) heq),
        if_neg (C.apart hw hv)]
      exact hunsolved
  · right
    rw [← h.zonk_second hw] at hjoined
    rw [hextends.zonk_congr hjoined]
    exact hextends.wellFormed.zonk_var_unsolved
      (Store.solution?_eq_none_of_unsolved (hkept hw))

/-- The first copy of a type, looked through. -/
theorem exists_zonk_first (h : C.Between s) (ht : ∀ v ∈ t.vars, v ∈ vs) :
    ∃ f, s.zonk (t.map C.first) = t.map f := by
  have hvar (v : TyVar) :
      ∃ w, v ∈ vs → s.zonk (.var (C.first v)) = .var w := by
    by_cases hv : v ∈ vs
    · rcases h.first hv with hunsolved | hjoined
      · exact ⟨_, fun _ => h.wellFormed.zonk_var_unsolved
          (Store.solution?_eq_none_of_unsolved hunsolved)⟩
      · exact ⟨_, fun _ => hjoined⟩
    · exact ⟨v, fun hmem => absurd hmem hv⟩
  choose f hf using hvar
  refine ⟨f, ?_⟩
  rw [h.wellFormed.zonk_eq_bind, Ty.map_eq_bind, Ty.map_eq_bind, Ty.bind_bind]
  exact Ty.bind_congr fun v hv => hf v (ht v hv)

theorem zonk_map_second (h : C.Between s) (ht : ∀ v ∈ t.vars, v ∈ vs) :
    s.zonk (t.map C.second) = t.map C.second :=
  h.wellFormed.zonk_map fun v hv =>
    Store.solution?_eq_none_of_unsolved (h.second (ht v hv))

end Between

/-- How a unification of two copies of a type goes: it succeeds, and the copies
of all variables of the type have been joined. -/
def Joins (C : TwoCopies table vs) (t : Ty TyVar) (s : Store)
    (action : UnifyM Unit) : Prop :=
  ∃ s', action.run s = .ok () s' ∧ C.Between s' ∧ s.Extends s' ∧
    ∀ v ∈ t.vars, s'.zonk (.var (C.first v)) = .var (C.second v)

theorem joins_var (h : C.Between s) {depth : Nat} (hv : v ∈ vs)
    (hwant : s.zonk want = s.zonk (.var (C.first v)))
    (hgot : s.zonk got = .var (C.second v)) :
    C.Joins (.var v) s (unifyWithin table (depth + 1) want got) := by
  have wf := h.wellFormed
  have hs₂ := wf.shortened_prunedBoth want got
  have h₂ := h.shortened hs₂
  have hextends := hs₂.steady.extends wf
  rw [Joins, unifyWithin_run wf, wf.resolve_of_zonk_var hgot]
  rcases h.first hv with hunsolved | hjoined
  · have hfirst := h.wellFormed.zonk_var_unsolved
      (Store.solution?_eq_none_of_unsolved hunsolved)
    rw [wf.resolve_of_zonk_var (hwant.trans hfirst)]
    have hne := C.apart hv hv
    rw [← hs₂.unsolvedClasses?_eq] at hunsolved
    have hjoin := h₂.wellFormed.extends_join hunsolved (h₂.second hv) hne
      (C.classes v)
    refine ⟨_, ?_, h₂.join hv hunsolved, hextends.trans hjoin,
      fun w hw => ?_⟩
    · rw [unifyTops, if_neg hne, joinVars_run table hunsolved (h₂.second hv)
        hne, ClassSet.union_self, Store.joined, C.conflict?_eq hv]
    · rw [Ty.mem_vars_var.1 hw]
      exact h₂.wellFormed.zonk_join hunsolved (h₂.second hv) hne
  · rw [wf.resolve_of_zonk_var (hwant.trans hjoined)]
    refine ⟨_, by rw [unifyTops, if_pos rfl]; rfl, h₂, hextends,
      fun w hw => ?_⟩
    rw [Ty.mem_vars_var.1 hw]
    exact h.zonk_first h₂ hextends hv hjoined

/-- Two copies of a type are unified by joining the copies of its variables, by
induction on the type. -/
theorem joins (h : C.Between s) (ht : ∀ v ∈ t.vars, v ∈ vs) {depth : Nat}
    (hdepth : t.height < depth) (hwant : s.zonk want = s.zonk (t.map C.first))
    (hgot : s.zonk got = s.zonk (t.map C.second)) :
    C.Joins t s (unifyWithin table depth want got) := by
  induction t generalizing s want got depth with
  | var v =>
      obtain ⟨depth, rfl⟩ := Nat.exists_eq_succ_of_ne_zero
        (Nat.ne_zero_of_lt hdepth)
      have hv := ht v (Ty.mem_vars_var.2 rfl)
      exact joins_var h hv hwant (hgot.trans (h.zonk_second hv))
  | con name =>
      have hlow : (s.zonk want).height < depth := by
        rw [hwant, Ty.map, h.wellFormed.zonk_con]
        exact hdepth
      obtain ⟨s', hrun, hs'⟩ := unifyWithin_of_zonk_eq table h.wellFormed
        (hwant.trans hgot.symm) hlow
      exact ⟨s', hrun, h.shortened hs', hs'.steady.extends h.wellFormed,
        fun v hv => by simp at hv⟩
  | app func arg ihFunc ihArg =>
      obtain ⟨depth, rfl⟩ := Nat.exists_eq_succ_of_ne_zero
        (Nat.ne_zero_of_lt hdepth)
      have wf := h.wellFormed
      rw [Ty.height] at hdepth
      have hfuncVars : ∀ v ∈ func.vars, v ∈ vs :=
        fun v hv => ht v (Ty.mem_vars_app.2 (Or.inl hv))
      have hargVars : ∀ v ∈ arg.vars, v ∈ vs :=
        fun v hv => ht v (Ty.mem_vars_app.2 (Or.inr hv))
      obtain ⟨wantFunc, wantArg, hwantTop, hwantFunc, hwantArg⟩ :=
        wf.resolve_of_zonk_app (hwant.trans (wf.zonk_app _ _))
      obtain ⟨gotFunc, gotArg, hgotTop, hgotFunc, hgotArg⟩ :=
        wf.resolve_of_zonk_app (hgot.trans (wf.zonk_app _ _))
      have hs₂ := wf.shortened_prunedBoth want got
      have h₂ := h.shortened hs₂
      have hextends₂ := hs₂.steady.extends wf
      have hwantFunc₂ := hextends₂.zonk_congr hwantFunc
      have hgotFunc₂ := hextends₂.zonk_congr hgotFunc
      -- Variables that have been joined do not change the shape of a copy.
      have hheads : headsDiffer (s.prunedBoth want got) wantFunc gotFunc =
          false := by
        obtain ⟨f, hf⟩ := h₂.exists_zonk_first hfuncVars
        exact headsDiffer_of_zonk_map h₂.wellFormed (hwantFunc₂.trans hf)
          (hgotFunc₂.trans (h₂.zonk_map_second hfuncVars))
      obtain ⟨s₃, hrun₃, h₃, hextends₃, hjoined₃⟩ := ihFunc h₂ hfuncVars
        (by omega : func.height < depth) hwantFunc₂ hgotFunc₂
      have hlater := hextends₂.trans hextends₃
      obtain ⟨s₄, hrun₄, h₄, hextends₄, hjoined₄⟩ := ihArg h₃ hargVars
        (by omega : arg.height < depth) (hlater.zonk_congr hwantArg)
        (hlater.zonk_congr hgotArg)
      refine ⟨s₄, ?_, h₄, hlater.trans hextends₄, fun v hv => ?_⟩
      · rw [unifyWithin_run wf, hwantTop, hgotTop,
          unifyTops_app_run _ _ _ _ _ hheads, bind_run_of_ok hrun₃,
          get_bind_run, UnifyM.within, EStateM.run_adaptExcept, hrun₄]
      · rcases Ty.mem_vars_app.1 hv with hfunc | harg
        · exact h₃.zonk_first h₄ hextends₄ (hfuncVars v hfunc)
            (hjoined₃ v hfunc)
        · exact hjoined₄ v harg

end TwoCopies

theorem Ty.height_map {V W : Type} (t : Ty V) (f : V → W) :
    (t.map f).height = t.height := by
  induction t with
  | var v => rfl
  | con name => rfl
  | app func arg ihFunc ihArg => rw [map, height, height, ihFunc, ihArg]

namespace Store

variable {table : ClassTable} {s s₁ s₂ : Store} {t t₁ t₂ : Ty TyVar}
  {rename rename₁ rename₂ : TyVar → TyVar}

/-- A fresh copy is one of the later stores as well in which its variables are
as they were made. -/
theorem IsCopy.later (h : s.IsCopy t s₁ t₁ rename)
    (hzonk : s₂.zonk t₁ = s₁.zonk t₁)
    (hclasses : ∀ v ∈ (s.zonk t).vars,
      s₂.unsolvedClasses? (rename v) = s₁.unsolvedClasses? (rename v)) :
    s.IsCopy t s₂ t₁ rename where
  zonk_eq := by rw [hzonk, h.zonk_eq]
  injective := h.injective
  classes_eq v hv := by rw [hclasses v hv, h.classes_eq hv]

/-- A copy made after others that left the original as it was is a copy of the
original as it was. -/
theorem IsCopy.earlier (h : s₁.IsCopy t s₂ t₂ rename)
    (hzonk : s₁.zonk t = s.zonk t)
    (hclasses : ∀ v ∈ (s.zonk t).vars,
      s₁.unsolvedClasses? v = s.unsolvedClasses? v) :
    s.IsCopy t s₂ t₂ rename := by
  rcases h with ⟨heq, hinjective, hsame⟩
  rw [hzonk] at heq hinjective hsame
  exact ⟨heq, hinjective, fun v hv => by rw [hsame hv, hclasses v hv]⟩

/-- Of two fresh copies, both are copies in the end. -/
theorem IsFreshCopy.both (wf : s.WellFormed) (ht : t.InRange s)
    (hfirst : s.IsFreshCopy t s₁ t₁ rename₁)
    (hsecond : s₁.IsFreshCopy t s₂ t₂ rename₂) :
    s.IsCopy t s₂ t₁ rename₁ ∧ s.IsCopy t s₂ t₂ rename₂ := by
  refine ⟨hfirst.toIsCopy.later (hsecond.old_zonk t₁) fun v hv =>
    hsecond.old_classes (hfirst.new hv).2,
    hsecond.toIsCopy.earlier (hfirst.old_zonk t) fun v hv => ?_⟩
  exact hfirst.old_classes (wf.inRange_zonk ht v hv)

/-- Two fresh copies have no variable in common. -/
theorem IsFreshCopy.apart (hfirst : s.IsFreshCopy t s₁ t₁ rename₁)
    (hsecond : s₁.IsFreshCopy t s₂ t₂ rename₂) {v w : TyVar}
    (hv : v ∈ (s.zonk t).vars) (hw : w ∈ (s.zonk t).vars) :
    rename₁ v ≠ rename₂ w := by
  intro heq
  have hlt := (hfirst.new hv).2
  rw [← hfirst.old_zonk] at hw
  have hle := (hsecond.new hw).1
  rw [heq] at hlt
  exact absurd (Nat.lt_of_lt_of_le hlt hle) (Nat.lt_irrefl _)

theorem IsCopy.inRange (wf : s.WellFormed) (ht : t.InRange s)
    (wf₁ : s₁.WellFormed) (h : s.IsCopy t s₁ t₁ rename) : t₁.InRange s₁ := by
  apply wf₁.inRange_of_zonk
  intro w hw
  rw [h.zonk_eq] at hw
  obtain ⟨v, hv, rfl⟩ := Ty.mem_vars_map.1 hw
  obtain ⟨classes, hclasses⟩ := wf.exists_unsolvedClasses?_of_mem_zonk ht hv
  exact lt_size_of_unsolvedClasses? ((h.classes_eq hv).trans hclasses)

/-- Two copies of a type that have no variable in common are unified to a copy,
where none of the classes of the original are in conflict. -/
theorem IsCopy.exists_unified (wf : s.WellFormed) (ht : t.InRange s)
    (wf₂ : s₂.WellFormed) (hfirst : s.IsCopy t s₂ t₁ rename₁)
    (hsecond : s.IsCopy t s₂ t₂ rename₂)
    (hapart : ∀ ⦃v w⦄, v ∈ (s.zonk t).vars → w ∈ (s.zonk t).vars →
      rename₁ v ≠ rename₂ w)
    (hconflict : ∀ v ∈ (s.zonk t).vars, ∀ classes,
      s.unsolvedClasses? v = some classes →
        table.conflict? classes = none) :
    ∃ s₃, (unify table t₁ t₂).run s₂ = .ok () s₃ ∧
      s.IsCopy t s₃ t₁ rename₂ ∧ s.IsCopy t s₃ t₂ rename₂ := by
  have hclasses {v : TyVar} (hv : v ∈ (s.zonk t).vars) :
      s.unsolvedClasses? v = some ((s.unsolvedClasses? v).getD ∅) := by
    obtain ⟨classes, h⟩ := wf.exists_unsolvedClasses?_of_mem_zonk ht hv
    rw [h, Option.getD_some]
  let C : TwoCopies table (s.zonk t).vars :=
    { first := rename₁
      second := rename₂
      classes := fun v => (s.unsolvedClasses? v).getD ∅
      first_injective := hfirst.injective
      second_injective := hsecond.injective
      apart := hapart
      conflict?_eq := fun v hv => hconflict v hv _ (hclasses hv) }
  have hbetween : C.Between s₂ :=
    ⟨wf₂, fun v hv => (hsecond.classes_eq hv).trans (hclasses hv),
      fun v hv => Or.inl ((hfirst.classes_eq hv).trans (hclasses hv))⟩
  have hopened {v : TyVar} (hv : v ∈ (s.zonk t).vars) :
      s₂.solution? (rename₁ v) = none :=
    solution?_eq_none_of_unsolved
      ((hfirst.classes_eq hv).trans (hclasses hv))
  have hfirstZonk : s₂.zonk t₁ = s₂.zonk ((s.zonk t).map rename₁) := by
    rw [hfirst.zonk_eq, wf₂.zonk_map fun v hv => hopened hv]
  have hsecondZonk : s₂.zonk t₂ = s₂.zonk ((s.zonk t).map rename₂) := by
    rw [hsecond.zonk_eq]
    exact (hbetween.zonk_map_second fun v hv => hv).symm
  have hlow := wf₂.height_zonk_lt_depthBound (hfirst.inRange wf ht wf₂)
  rw [hfirst.zonk_eq, Ty.height_map] at hlow
  obtain ⟨s₃, hrun, h₃, hextends, hjoined⟩ := TwoCopies.joins hbetween
    (fun v hv => hv) (Nat.lt_of_lt_of_le hlow (Nat.le_max_left _ _))
    hfirstZonk hsecondZonk
  have hcopy {u : Ty TyVar} (hu : s₃.zonk u = (s.zonk t).map rename₂) :
      s.IsCopy t s₃ u rename₂ :=
    ⟨hu, hsecond.injective, fun v hv =>
      (h₃.second hv).trans (hclasses hv).symm⟩
  refine ⟨s₃, hrun, hcopy ?_, hcopy ?_⟩
  · rw [hextends.zonk_congr hfirstZonk, h₃.wellFormed.zonk_eq_bind,
      Ty.map_eq_bind, Ty.map_eq_bind, Ty.bind_bind]
    exact Ty.bind_congr fun v hv => hjoined v hv
  · rw [hextends.zonk_congr hsecondZonk]
    exact h₃.zonk_map_second fun v hv => hv

end Store

namespace TypeState

variable {st : TypeState} {t t₁ t₂ : Ty TyVar} {s₁ s₂ : Store}

/-- Instantiation makes a fresh copy.  Two copies have no variable in common,
and unless the classes of a variable are in conflict, they can be unified, which
leaves a copy again. -/
theorem instantiate_copies (h : st.Arises) (ht : t.InRange st.store)
    (hfirst : st.store.inNewScope (Scope.instantiate t) = (t₁, s₁))
    (hsecond : s₁.inNewScope (Scope.instantiate t) = (t₂, s₂)) :
    (∃ rename, st.store.IsFreshCopy t s₁ t₁ rename) ∧
      (∀ v ∈ (s₂.zonk t₁).vars, v ∉ (s₂.zonk t₂).vars) ∧
        ((∀ v ∈ (st.store.zonk t).vars, ∀ classes,
            st.store.unsolvedClasses? v = some classes →
              st.classes.conflict? classes = none) →
          ∃ s₃ rename,
            (st.withStore s₂).unify t₁ t₂ = (.ok (), st.withStore s₃) ∧
              st.store.IsCopy t s₃ t₁ rename ∧
                st.store.IsCopy t s₃ t₂ rename) := by
  have wf := h.wellFormed.wellFormed
  obtain ⟨wf₁, rename₁, hfresh₁⟩ := wf.exists_isFreshCopy ht hfirst
  have ht₁ := ht.of_size_le hfresh₁.size_le
  obtain ⟨wf₂, rename₂, hfresh₂⟩ := wf₁.exists_isFreshCopy ht₁ hsecond
  obtain ⟨hcopy₁, hcopy₂⟩ := hfresh₁.both wf ht hfresh₂
  have hapart {v w : TyVar} (hv : v ∈ (st.store.zonk t).vars)
      (hw : w ∈ (st.store.zonk t).vars) : rename₁ v ≠ rename₂ w :=
    hfresh₁.apart hfresh₂ hv hw
  refine ⟨⟨rename₁, hfresh₁⟩, fun v hv hv' => ?_, fun hconflict => ?_⟩
  · rw [hcopy₁.zonk_eq] at hv
    rw [hcopy₂.zonk_eq] at hv'
    obtain ⟨u, hu, rfl⟩ := Ty.mem_vars_map.1 hv
    obtain ⟨w, hw, heq⟩ := Ty.mem_vars_map.1 hv'
    exact hapart hu hw heq
  · obtain ⟨s₃, hrun, hunified₁, hunified₂⟩ := hcopy₁.exists_unified wf ht wf₂
      hcopy₂ (fun v w => hapart) hconflict
    refine ⟨s₃, rename₂, ?_, hunified₁, hunified₂⟩
    rw [unify_eq, withStore, hrun]
    rfl

/-- Both occurrences of a variable are copied to one, also where one of them is
a variable solved to the other. -/
theorem instantiate_copies_joined :
    let store := joinedSession.store
    let t : Ty TyVar := .arrow (.var ⟨0⟩) (.list (.var ⟨1⟩))
    let first := store.inNewScope (Scope.instantiate t)
    let second := first.2.inNewScope (Scope.instantiate t)
    (first.1, second.1) =
        (.arrow (.var ⟨2⟩) (.list (.var ⟨2⟩)),
          .arrow (.var ⟨3⟩) (.list (.var ⟨3⟩))) ∧
      (∃ rename, store.IsFreshCopy t first.2 first.1 rename) ∧
      ∃ s₃ rename, (joinedSession.withStore second.2).unify first.1 second.1 =
          (.ok (), joinedSession.withStore s₃) ∧
        store.IsCopy t s₃ first.1 rename ∧ store.IsCopy t s₃ second.1 rename := by
  intro store t first second
  obtain ⟨hfresh, -, hunified⟩ := instantiate_copies joinedSession_arises
    (show t.InRange store by decide) (rfl : _ = (first.1, first.2))
    (rfl : _ = (second.1, second.2))
  refine ⟨rfl, hfresh, hunified fun v hv classes hclasses => ?_⟩
  have hv : v = ⟨1⟩ := by
    have hvars : (store.zonk t).vars = [⟨1⟩, ⟨1⟩] := rfl
    rw [hvars] at hv
    simpa using hv
  subst hv
  cases hclasses
  rfl

end TypeState

end HindleyMilner

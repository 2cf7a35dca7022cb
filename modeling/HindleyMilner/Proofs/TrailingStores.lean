import HindleyMilner.Proofs.CatchingUp
import HindleyMilner.Proofs.FollowedFailure

/-
Where a unification stands that is made again with second copies of some
variables.  It trails the first run: what this has solved, the second copies
have caught up with, and the variables that are still open on both sides follow
those of the first run.
-/

namespace HindleyMilner

theorem Ty.eq_of_bind_eq {V W : Type} {t : Ty V} {f g : V → Ty W}
    (h : t.bind f = t.bind g) {v : V} (hv : v ∈ t.vars) : f v = g v := by
  induction t with
  | var w =>
      rw [mem_vars_var.1 hv]
      exact h
  | con name => exact absurd hv List.not_mem_nil
  | app func arg ihFunc ihArg =>
      obtain ⟨hfunc, harg⟩ := Ty.app.inj h
      rcases mem_vars_app.1 hv with hv | hv
      · exact ihFunc hfunc hv
      · exact ihArg harg hv

namespace Store

variable {table : ClassTable} {F : Footprint} {base s s' s₃ s₃' : Store}
  {t t' func arg func' arg' : Ty TyVar} {v w : TyVar} {classes : ClassSet}
  {disputed : Prop} {twin : TyVar → TyVar}

theorem length_spine_of_zonk_eq (wf : s.WellFormed) (wf' : s'.WellFormed)
    (h : s'.zonk t' = s.zonk t) :
    (s'.spine t').2.length = (s.spine t).2.length := by
  have hspine := wf'.zonk_spine t'
  rw [h, wf.zonk_spine] at hspine
  have hargs := congrArg List.length (Prod.mk.inj hspine).2
  rw [List.length_map, List.length_map] at hargs
  exact hargs.symm

/-! ### Where the second run stands -/

/-- Whether no other variable of a store leads to a variable. -/
def Lone (s : Store) (v : TyVar) : Prop :=
  ∀ ⦃u⦄, v ∈ (s.zonk (.var u)).vars → u = v

/-- Whether `s` is a store that a first run went through on its way to `base`,
and `s'` the store in which it is made again with second copies.  A second copy
that is open is so because the first one was: in the first run only the types
that are unified mention it. -/
structure Trails (base : Store) (table : ClassTable) (disputed : Prop)
    (twin : TyVar → TyVar) (s s' : Store) : Prop where
  later : s.Extends base
  partOf : base.PartOf s'
  twins : base.Twinning twin
  lone_or_settled : ∀ ⦃v⦄, base.HasTwin twin v →
    (s.Lone v ∧ ∃ classes, s.unsolvedClasses? v = some classes ∧
      s'.unsolvedClasses? (twin v) = some classes ∧
        base.Takes table disputed v classes) ∨
    s'.zonk (.var (twin v)) = base.zonk (.var v)

theorem Trails.behind (h : base.Trails table disputed twin s s') :
    base.Behind table disputed twin s' where
  partOf := h.partOf
  twins := h.twins
  open_or_settled v hv := by
    rcases h.lone_or_settled hv with ⟨-, classes, -, hclasses, htakes⟩ | heq
    · exact Or.inl ⟨classes, hclasses, htakes⟩
    · exact Or.inr heq

theorem Extends.of_steady (h : s.Extends base) (hs₃ : s.Steady s₃) :
    s₃.Extends base where
  wellFormed := h.wellFormed
  size_le := by
    rw [hs₃.size_eq]
    exact h.size_le
  solved v t ht := by
    apply h.zonk_congr
    rw [← hs₃.zonk_eq, ← hs₃.zonk_eq, hs₃.wellFormed.zonk_var_solved ht]

theorem Trails.shortened (h : base.Trails table disputed twin s s')
    (hs₃ : s.Shortened s₃) (hs₃' : s'.Shortened s₃') :
    base.Trails table disputed twin s₃ s₃' where
  later := h.later.of_steady hs₃.steady
  partOf := h.partOf.trans hs₃'.partOf
  twins := h.twins
  lone_or_settled v hv := by
    rw [hs₃'.steady.zonk_eq, hs₃'.unsolvedClasses?_eq,
      hs₃.unsolvedClasses?_eq]
    simp only [Lone, hs₃.steady.zonk_eq]
    exact h.lone_or_settled hv

/-- A type made of second copies stands for what it stands for when it is made
of what the first ones stood for. -/
theorem Trails.zonk_map (h : base.Trails table disputed twin s s')
    (wf : s.WellFormed) (ht : t.InRange base) :
    s'.zonk (t.map twin) = s'.zonk ((s.zonk t).map twin) := by
  rw [h.behind.zonk_map, h.behind.zonk_map, wf.zonk_eq_bind t, Ty.bind_bind]
  apply Ty.bind_congr
  intro v hv
  by_cases hsolved : s.solution? v = none
  · rw [wf.zonk_var_unsolved hsolved]
    rfl
  · have hsettled {w : TyVar} (hw : w.index < base.size)
        (hlone : ¬ s.Lone w ∨ s.solution? w ≠ none) :
        s'.zonk (.var (twin w)) = base.zonk (.var w) := by
      rcases h.twins.same_or_new hw with hsame | hnew
      · rw [hsame, h.partOf.zonk_var hw]
      · refine (h.lone_or_settled ⟨hw, hnew⟩).resolve_left ?_
        rintro ⟨hlone', classes, hclasses, -⟩
        exact hlone.elim (fun hnot => hnot hlone')
          fun hnot => hnot (solution?_eq_none_of_unsolved hclasses)
    rw [hsettled (ht v hv) (Or.inr hsolved), ← h.later.bind_zonk]
    apply Ty.bind_congr
    intro w hw
    have hrange : w.index < base.size := by
      refine Nat.lt_of_lt_of_le ?_ h.later.size_le
      obtain ⟨u, hu⟩ := Option.ne_none_iff_exists'.1 hsolved
      exact wf.inRange_zonk (Ty.inRange_var (lt_size_of_solution? hu)) w hw
    refine (hsettled hrange (Or.inl fun hlone => ?_)).symm
    obtain rfl := hlone hw
    exact hsolved (wf.solution?_of_mem_zonk hw)

theorem Behind.inRange_map (h : base.Behind table disputed twin s')
    (wf : base.WellFormed) (ht : t.InRange base)
    (heq : s'.zonk t' = s'.zonk (t.map twin)) : t'.InRange s' := by
  have wf' := h.partOf.wellFormed
  apply wf'.inRange_of_zonk
  intro w hw
  rw [heq, h.zonk_map, Ty.mem_vars_bind] at hw
  obtain ⟨v, hv, hw⟩ := hw
  have hrange : v.index < base.size := ht v hv
  rcases h.map_twin_var hrange with hsettled | ⟨-, classes, hclasses, -⟩
  · rw [hsettled] at hw
    exact Nat.lt_of_lt_of_le (wf.inRange_zonk (Ty.inRange_var hrange) w hw)
      h.partOf.size_le
  · rw [wf'.zonk_var_unsolved (solution?_eq_none_of_unsolved hclasses),
      Ty.mem_vars_var] at hw
    rw [hw]
    exact lt_size_of_unsolvedClasses? hclasses

/-! ### The place of the failure -/

/-- The variable that a second copy stands for. -/
def followed (s' : Store) (twin : TyVar → TyVar) (v : TyVar) : TyVar :=
  match s'.zonk (.var (twin v)) with
  | .var w => w
  | _ => v

/-- Where nothing more is solved, every open variable of the first run has one
that follows it in the second. -/
theorem Trails.followed_cases (h : base.Trails table disputed twin s s')
    (hsteady : s.Steady base) (hv : s.unsolvedClasses? v = some classes) :
    s'.zonk (.var (twin v)) = .var (s'.followed twin v) ∧
      (s'.followed twin v = v ∧
          s'.unsolvedClasses? v = base.unsolvedClasses? v ∨
        base.HasTwin twin v ∧ s'.followed twin v = twin v ∧
          s'.unsolvedClasses? (twin v) = some classes) := by
  have hrange : v.index < base.size := by
    rw [hsteady.size_eq]
    exact lt_size_of_unsolvedClasses? hv
  have hbase : base.unsolvedClasses? v ≠ none := by
    have hunsolved := hsteady.isUnsolved_eq v
    rw [isUnsolved_of_unsolved hv, isUnsolved, Option.isSome_iff_ne_none]
      at hunsolved
    exact hunsolved
  have hzonk : base.zonk (.var v) = .var v := by
    obtain ⟨own, hown⟩ := Option.ne_none_iff_exists'.1 hbase
    exact hsteady.wellFormed.zonk_var_unsolved
      (solution?_eq_none_of_unsolved hown)
  have hkept (heq : s'.zonk (.var (twin v)) = base.zonk (.var v)) :
      s'.zonk (.var (twin v)) = .var (s'.followed twin v) ∧
        s'.followed twin v = v := by
    rw [followed, heq, hzonk]
    exact ⟨rfl, rfl⟩
  rcases h.twins.same_or_new hrange with hsame | hnew
  · obtain ⟨hfollows, heq⟩ := hkept (by rw [hsame, h.partOf.zonk_var hrange])
    exact ⟨hfollows, Or.inl ⟨heq, h.partOf.classes_eq hrange⟩⟩
  · rcases h.lone_or_settled ⟨hrange, hnew⟩ with
      ⟨-, own, hown, hclasses, -⟩ | hsettled
    · obtain rfl := Option.some.inj (hv.symm.trans hown)
      have hopen := h.partOf.wellFormed.zonk_var_unsolved
        (solution?_eq_none_of_unsolved hclasses)
      have hfollowed : s'.followed twin v = twin v := by
        rw [followed, hopen]
      exact ⟨by rw [hopen, hfollowed],
        Or.inr ⟨⟨hrange, hnew⟩, hfollowed, hclasses⟩⟩
    · obtain ⟨hfollows, heq⟩ := hkept hsettled
      exact ⟨hfollows, Or.inl ⟨heq, h.partOf.classes_eq hrange⟩⟩

theorem Trails.follows (h : base.Trails table disputed twin s s')
    (wf : s.WellFormed) (hsteady : s.Steady base) :
    s.Follows (s'.followed twin) s' where
  left := wf
  right := h.partOf.wellFormed
  injective v w hv hw heq := by
    rw [isUnsolved, Option.isSome_iff_exists] at hv hw
    obtain ⟨classes, hv⟩ := hv
    obtain ⟨others, hw⟩ := hw
    have hrange {u : TyVar} {own : ClassSet}
        (hu : s.unsolvedClasses? u = some own) : u.index < base.size := by
      rw [hsteady.size_eq]
      exact lt_size_of_unsolvedClasses? hu
    rcases (h.followed_cases hsteady hv).2 with ⟨hsame, -⟩ | ⟨hnew, htwin, -⟩
      <;> rcases (h.followed_cases hsteady hw).2 with
        ⟨hsame', -⟩ | ⟨hnew', htwin', -⟩
    · rw [← hsame, heq, hsame']
    · rw [hsame, htwin'] at heq
      exact absurd (hrange hv) (by rw [heq]; exact Nat.not_lt_of_ge hnew'.2)
    · rw [htwin, hsame'] at heq
      exact absurd (hrange hw) (by rw [← heq]; exact Nat.not_lt_of_ge hnew.2)
    · rw [htwin, htwin'] at heq
      exact h.twins.injective hnew.1 hnew'.1 hnew.2 heq

theorem Trails.between (h : base.Trails table disputed twin s s')
    (hsteady : s.Steady base) :
    s'.Between table (s'.followed twin) s base s' where
  tightened := .refl h.partOf.wellFormed
  classes v classes hv := by
    rcases (h.followed_cases hsteady hv).2 with
      ⟨heq, hsame⟩ | ⟨-, heq, hclasses⟩
    · rw [heq]
      exact Or.inr hsame
    · rw [heq]
      exact Or.inl hclasses

theorem Trails.zonk_followed (h : base.Trails table disputed twin s s')
    (wf : s.WellFormed) (hsteady : s.Steady base) (ht : t.InRange s)
    (heq : s'.zonk t' = s'.zonk (t.map twin)) :
    s'.zonk t' = (s.zonk t).map (s'.followed twin) := by
  rw [heq, h.zonk_map wf (ht.of_size_le hsteady.size_eq.ge), h.behind.zonk_map,
    Ty.map_eq_bind]
  apply Ty.bind_congr
  intro v hv
  obtain ⟨classes, hclasses⟩ := wf.exists_unsolvedClasses?_of_mem_zonk ht hv
  exact (h.followed_cases hsteady hclasses).1

/-! ### Applications -/

/-- What is known of the got side of a unification that is made again: it
stands for what it stood for, but that a second copy may be open where an
argument is nothing else. -/
inductive Anchored (base s' : Store) (twin : TyVar → TyVar) :
    Ty TyVar → Prop
  | settled {t : Ty TyVar} (h : s'.zonk (t.map twin) = base.zonk t) :
      Anchored base s' twin t
  | twin {v : TyVar} (hv : base.HasTwin twin v) : Anchored base s' twin (.var v)
  | app {func arg : Ty TyVar}
      (hfunc : s'.zonk (func.map twin) = base.zonk func)
      (harg : Anchored base s' twin arg) : Anchored base s' twin (.app func arg)

theorem Behind.settled_later (h : base.Behind table disputed twin s')
    (hcatches : base.CatchesUp table disputed twin s' s₃')
    (wf : base.WellFormed) (ht : t.InRange base)
    (hsettled : s'.zonk t' = base.zonk t) :
    s₃'.zonk t' = base.zonk t := by
  rw [← hcatches.behind.partOf.zonk_eq wf ht]
  apply hcatches.later.zonk_congr
  rw [hsettled, h.partOf.zonk_eq wf ht]

/-- The parts of the got side are anchored, that in front of the argument
without open second copies. -/
theorem Anchored.of_app (h : Anchored base s' twin (.app func arg))
    (wf : base.WellFormed) (wf' : s'.WellFormed) :
    s'.zonk (func.map twin) = base.zonk func ∧
      Anchored base s' twin arg := by
  cases h with
  | app hfunc harg => exact ⟨hfunc, harg⟩
  | settled heq =>
      rw [Ty.map, wf'.zonk_app, wf.zonk_app] at heq
      obtain ⟨hfunc, harg⟩ := Ty.app.inj heq
      exact ⟨hfunc, .settled harg⟩

theorem Anchored.resolve (h : Anchored base s' twin t)
    (htrails : base.Trails table disputed twin s s') (wf : s.WellFormed)
    (ht : t.InRange base) (ht' : (s.resolve t).InRange base) :
    Anchored base s' twin (s.resolve t) := by
  have hsettled (heq : s'.zonk (t.map twin) = base.zonk t) :
      Anchored base s' twin (s.resolve t) := by
    refine .settled ?_
    rw [htrails.zonk_map wf ht', wf.zonk_resolve, ← htrails.zonk_map wf ht, heq]
    exact htrails.later.zonk_congr (wf.zonk_resolve t).symm
  cases h with
  | settled heq => exact hsettled heq
  | app hfunc harg => exact .app hfunc harg
  | @twin v hv =>
      rcases htrails.lone_or_settled hv with ⟨-, classes, hclasses, -⟩ | heq
      · rw [resolve, rootTy, root_of_unsolved hclasses,
          solution?_eq_none_of_unsolved hclasses]
        exact .twin hv
      · exact hsettled heq

theorem Anchored.shortened (h : Anchored base s' twin t)
    (hs₃' : s'.Shortened s₃') : Anchored base s₃' twin t := by
  induction h with
  | settled heq => exact .settled (by rw [hs₃'.steady.zonk_eq, heq])
  | twin hv => exact .twin hv
  | app hfunc _ ih => exact .app (by rw [hs₃'.steady.zonk_eq, hfunc]) ih

theorem Anchored.later (h : Anchored base s' twin t)
    (hbehind : base.Behind table disputed twin s')
    (hcatches : base.CatchesUp table disputed twin s' s₃')
    (wf : base.WellFormed) (ht : t.InRange base) :
    Anchored base s₃' twin t := by
  induction h with
  | settled heq =>
      exact .settled (hbehind.settled_later hcatches wf ht heq)
  | twin hv => exact .twin hv
  | app hfunc _ ih =>
      refine .app (hbehind.settled_later hcatches wf
        (fun v hv => ht v (Ty.mem_vars_app.2 (Or.inl hv))) hfunc) (ih ?_)
      exact fun v hv => ht v (Ty.mem_vars_app.2 (Or.inr hv))

/-- A variable that a run cannot reach stays one that no other leads to. -/
theorem Lone.evolves (h : s.Lone v) (ordered : table.Ordered)
    (wf : s.WellFormed) (hevolves : Evolves table F s s₃)
    (hout : ¬ F.vars v) : s₃.Lone v := by
  intro u hu
  rw [← (hevolves.extends ordered).bind_zonk, Ty.mem_vars_bind] at hu
  obtain ⟨x, hx, hv⟩ := hu
  by_cases hin : F.vars x
  · refine absurd (hevolves.supports.vars_of_mem_zonk (fun w hw => ?_) hv) hout
    rwa [Ty.mem_vars_var.1 hw]
  · have hsolution : s₃.solution? x = none := by
      rw [solution?, hevolves.outside hin]
      exact wf.solution?_of_mem_zonk hx
    rw [hevolves.wellFormed.zonk_var_unsolved hsolution, Ty.mem_vars_var] at hv
    rw [← hv] at hx
    exact h hx

/-- When functions have been made equal in both runs, the second copies that
they mention are settled, and the others are as they were. -/
theorem Trails.step (h : base.Trails table disputed twin s s')
    (ordered : table.Ordered) (wf : s.WellFormed)
    (hevolves : Evolves table (.reach s [func, func']) s s₃)
    (hlater : s₃.Extends base)
    (hcatches : base.CatchesUp table disputed twin s' s₃')
    (hequal : s₃'.zonk (func.map twin) = base.zonk func)
    (hsettled : s'.zonk (func'.map twin) = base.zonk func')
    (wfBase : base.WellFormed) :
    base.Trails table disputed twin s₃ s₃' where
  later := hlater
  partOf := hcatches.behind.partOf
  twins := h.twins
  lone_or_settled v hv := by
    have hstays := h.behind.zonk_settled hcatches.later
      hcatches.behind.partOf hv.1
    rcases h.lone_or_settled hv with
      ⟨hlone, classes, hclasses, hopen, htakes⟩ | heq
    · by_cases hfunc : v ∈ func.vars
      · rw [hcatches.behind.zonk_map, wfBase.zonk_eq_bind] at hequal
        exact Or.inr (Ty.eq_of_bind_eq hequal hfunc)
      by_cases hfunc' : v ∈ func'.vars
      · rw [h.behind.zonk_map, wfBase.zonk_eq_bind] at hsettled
        exact Or.inr (hstays (Ty.eq_of_bind_eq hsettled hfunc'))
      have hsolution := solution?_eq_none_of_unsolved hclasses
      have hout : ¬ (Footprint.reach s [func, func']).vars v := by
        rintro ⟨t, ht, w, hw, hreach⟩
        obtain rfl := hlone (wf.mem_zonk_of_reach hsolution hreach)
        rcases List.mem_pair.1 ht with rfl | rfl
        · exact hfunc hw
        · exact hfunc' hw
      rcases hcatches.kept hv with hsame | hnow
      · refine Or.inl ⟨hlone.evolves ordered wf hevolves hout, classes, ?_,
          hsame.trans hopen, htakes⟩
        rw [unsolvedClasses?, hevolves.outside hout]
        exact hclasses
      · exact Or.inr hnow
    · exact Or.inr (hstays heq)

/-- Heads that are told apart in the first run are told apart in the
second. -/
theorem Trails.headsDiffer_of_first (h : base.Trails table disputed twin s s')
    (wf : s.WellFormed) (hfunc : func.InRange base)
    (hfunc' : func'.InRange base) {wantFunc gotFunc : Ty TyVar}
    (hwant : s'.zonk wantFunc = s'.zonk (func.map twin))
    (hgot : s'.zonk gotFunc = s'.zonk (func'.map twin))
    (hdiffer : headsDiffer s func func' = true) :
    headsDiffer s' wantFunc gotFunc = true := by
  have hcon {t : Ty TyVar} (ht : t.InRange base) {name : Name}
      (hname : (s.zonk t).spine.1 = .con name) :
      (s'.zonk (t.map twin)).spine.1 = .con name ∧
        (s'.zonk (t.map twin)).spine.2.length =
          (s.zonk t).spine.2.length := by
    have hsame : (s.zonk t).bind .var = s.zonk t := Ty.bind_var _
    rw [h.zonk_map wf ht, h.behind.zonk_map]
    rw [← hsame] at hname
    obtain ⟨hhead, hlength⟩ := (s.zonk t).spine_bind_of_con (f := .var)
      (g := fun v => s'.zonk (.var (twin v)))
      (fun v _ => Or.inr ⟨v, rfl⟩) hname
    rw [hsame] at hlength
    exact ⟨hhead, hlength⟩
  rw [headsDiffer_eq_true_iff wf] at hdiffer
  obtain ⟨c, d, hc, hd, hne⟩ := hdiffer
  rw [headsDiffer_eq_true_iff h.partOf.wellFormed, hwant, hgot,
    (hcon hfunc hc).2, (hcon hfunc' hd).2]
  exact ⟨c, d, (hcon hfunc hc).1, (hcon hfunc' hd).1, hne⟩

/-- Heads that are told apart in the second run are told apart at the end of
the first. -/
theorem Behind.headsDiffer_of_second
    (h : base.Behind table disputed twin s') (wf : base.WellFormed)
    (hfunc : func.InRange base) (hfunc' : func'.InRange base)
    {wantFunc gotFunc : Ty TyVar}
    (hwant : s'.zonk wantFunc = s'.zonk (func.map twin))
    (hgot : s'.zonk gotFunc = s'.zonk (func'.map twin))
    (hdiffer : headsDiffer s' wantFunc gotFunc = true) :
    headsDiffer base func func' = true := by
  rw [headsDiffer_eq_true_iff h.partOf.wellFormed, hwant, hgot] at hdiffer
  obtain ⟨c, d, hc, hd, hne⟩ := hdiffer
  obtain ⟨hhead, hlength⟩ := h.spine_con wf hfunc hc
  obtain ⟨hhead', hlength'⟩ := h.spine_con wf hfunc' hd
  rw [headsDiffer_eq_true_iff wf]
  exact ⟨c, d, hhead, hhead', by rwa [hlength, hlength']⟩

end Store

end HindleyMilner

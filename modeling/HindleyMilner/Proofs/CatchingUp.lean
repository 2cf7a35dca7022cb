import HindleyMilner.Proofs.ClassLattice
import HindleyMilner.Proofs.Settled
import HindleyMilner.Proofs.TypePieces

/-
Copies that catch up.  A store has grown by second copies of some of its
variables, which are still open while the first copies stand for types.  If a
type that was made equal to another is made again from the second copies and
unified with the other once more, every second copy comes to stand for what the
first one stands for, and nothing that was there before changes.

Where a first copy stands for a variable whose classes have a conflict, which
was never looked for, joining the second copy with it reports the conflict.
-/

namespace HindleyMilner

/-! ### Requirements that are met -/

namespace UnifyM

variable {s : Store} {x y : UnifyM Unit}

/-- Whether an action succeeds and does no more than shorten chains, also where
chains have been shortened before. -/
def Idles (x : UnifyM Unit) (s : Store) : Prop :=
  ∀ ⦃s'⦄, s.Shortened s' → ∃ s'', x.run s' = .ok () s'' ∧ s'.Shortened s''

theorem Idles.pure : Idles (pure ()) s :=
  fun s' hs' => ⟨s', rfl, .refl hs'.steady.wellFormed⟩

theorem Idles.bind (hx : Idles x s) (hy : Idles y s) :
    Idles (x >>= fun _ => y) s := by
  intro s' hs'
  obtain ⟨s'', hrun, hs''⟩ := hx hs'
  obtain ⟨last, hlast, hmore⟩ := hy (hs'.trans hs'')
  exact ⟨last, by rw [bind_run_of_ok hrun, hlast], hs''.trans hmore⟩

theorem Idles.forM {A : Type} {f : A → UnifyM Unit} (xs : List A)
    (h : ∀ x ∈ xs, Idles (f x) s) : Idles (xs.forM f) s := by
  induction xs with
  | nil => exact .pure
  | cons head tail ih =>
      rw [List.forall_mem_cons] at h
      exact h.1.bind (ih h.2)

theorem Idles.prune {f : Ty TyVar → UnifyM Unit} {t : Ty TyVar}
    (h : Idles (f (s.resolve t)) s) : Idles (UnifyM.prune t >>= f) s := by
  intro s' hs'
  have hpruned := hs'.steady.wellFormed.shortened_prune t
  obtain ⟨s'', hrun, hs''⟩ := h (hs'.trans hpruned)
  refine ⟨s'', ?_, hpruned.trans hs''⟩
  rw [bind_run_of_ok (prune_run hs'.steady.wellFormed t), hs'.resolve_eq, hrun]

end UnifyM

/-- A constructor that is at the head of a type, and not in what stands for a
variable, is there whatever stands for the variables. -/
theorem Ty.spine_bind_of_con {V W : Type} {f g : V → Ty W} {t : Ty V}
    {name : Name}
    (h : ∀ v ∈ t.vars, f v = g v ∨ ∃ w, f v = .var w)
    (hcon : (t.bind f).spine.1 = .con name) :
    (t.bind g).spine.1 = .con name ∧
      (t.bind g).spine.2.length = (t.bind f).spine.2.length := by
  induction t with
  | var v =>
      rcases h v (mem_vars_var.2 rfl) with hsame | ⟨w, hw⟩
      · rw [bind, ← hsame]
        exact ⟨hcon, rfl⟩
      · rw [bind, hw] at hcon
        contradiction
  | con other => exact ⟨hcon, rfl⟩
  | app func arg ih _ =>
      rw [bind, spine_app] at hcon
      obtain ⟨hhead, hlength⟩ :=
        ih (fun v hv => h v (mem_vars_app.2 (Or.inl hv))) hcon
      simp only [bind, spine_app, List.length_append, hlength]
      exact ⟨hhead, rfl⟩

theorem Ty.conHead?_eq_some_iff {V : Type} {t : Ty V} {name : Name} :
    t.conHead? = some name ↔ t.spine.1 = .con name := by
  induction t with
  | var v => simp [conHead?, spine, spineOnto]
  | con other => simp [conHead?, spine, spineOnto]
  | app func arg ih _ => rw [spine_app, conHead?, ih]

/-- What is an instance of a class and no variable has a constructor at its
head. -/
theorem Ty.Meets.hasConHead {V : Type} {table : ClassTable}
    {holds : V → ClassId → Prop} {t : Ty V} {c : ClassId}
    (h : t.Meets table holds c) (hvar : ∀ v, t ≠ .var v) : t.HasConHead := by
  cases t with
  | var v => exact absurd rfl (hvar v)
  | con name => exact ⟨name, rfl⟩
  | app func arg =>
      cases hhead : func.conHead? with
      | none => simp [Ty.Meets, hhead] at h
      | some name =>
          refine ⟨name, ?_⟩
          rw [spine_app]
          exact conHead?_eq_some_iff.1 hhead

open UnifyM

section

variable {table : ClassTable} {s : Store} {v : TyVar} {t : Ty TyVar}
  {c : ClassId}

theorem idles_constrain (h : s.Requires table v c) :
    Idles (constrain table v c) s := by
  obtain ⟨classes, hclasses, hc⟩ := h
  intro s' hs'
  refine ⟨s', ?_, .refl hs'.steady.wellFormed⟩
  rw [constrain_run table ((hs'.unsolvedClasses?_eq v).trans hclasses),
    Store.constrained_of_implies s' v hc]

/-- A requirement that is met is found to be met. -/
theorem idles_requireWithin (ordered : table.Ordered) (v : TyVar)
    {depth : Nat} (wf : s.WellFormed) (hvar : ∀ w, s.zonk t ≠ .var w)
    (hmeets : (s.zonk t).Meets table (s.Requires table) c)
    (hdepth : (s.zonk t).height < depth) :
    Idles (requireWithin table v depth c t) s := by
  induction depth generalizing t c with
  | zero => exact absurd hdepth (Nat.not_lt_zero _)
  | succ depth ih =>
      intro s' hs'
      rw [requireWithin_run,
        wf.spine_congr hs'.steady.wellFormed hs'.resolve_eq]
      obtain ⟨con, hcon⟩ := hmeets.hasConHead hvar
      rw [wf.zonk_spine] at hcon
      have hspine : s.spine t = (.con con, (s.spine t).2) := Prod.ext hcon rfl
      -- the rule for constructors, for the assignment that looks through `s`
      have hargs := Assignment.meets_iff_of_spine (c := c)
        (wf.satisfiedBy_zonkAssignment ordered) hspine
      simp only [Assignment.Meets, wf.eval_zonkAssignment] at hargs
      obtain ⟨hinstance, hargs⟩ := hargs.1 hmeets
      rw [hspine, requireSpine, if_pos hinstance]
      refine Idles.forM _ (fun arg harg => .forM _ fun d hd => .prune ?_) hs'
      have hlower := wf.height_zonk_lt_of_mem_spine harg
      have harg := hargs arg harg d hd
      rw [← wf.zonk_resolve] at harg hlower
      have hdeeper (hvar : ∀ w, s.resolve arg ≠ .var w) :
          Idles (requireWithin table v depth d (s.resolve arg)) s :=
        ih (wf.zonk_ne_var hvar) harg (by omega)
      cases hresolve : s.resolve arg with
      | var w =>
          rw [hresolve, wf.zonk_var_unsolved (wf.solution?_of_resolve hresolve)]
            at harg
          exact idles_constrain harg
      | con name =>
          rw [hresolve] at hdeeper
          exact hdeeper (by simp)
      | app func arg =>
          rw [hresolve] at hdeeper
          exact hdeeper (by simp)

/-- What is required of a type in order to solve a variable to it may be met
already. -/
theorem idles_requireAll (ordered : table.Ordered) (v : TyVar)
    (wf : s.WellFormed) (ht : t.InRange s) (hvar : ∀ w, t ≠ .var w)
    {classes : ClassSet} (hmeets : ∀ c ∈ classes.members,
      (s.zonk t).Meets table (s.Requires table) c) :
    Idles (classes.members.forM fun c => require table v c t) s := by
  refine Idles.forM _ fun c hc s' hs' => ?_
  rw [require, get_bind_run]
  apply idles_requireWithin ordered v wf (wf.zonk_ne_var hvar) (hmeets c hc) _
    hs'
  rw [← hs'.steady.zonk_eq]
  exact hs'.steady.wellFormed.height_zonk_lt_depthBound
    (ht.of_size_le hs'.steady.size_eq.ge)

end

/-! ### Stores that have grown -/

namespace Store

variable {table : ClassTable} {base s s' s'' : Store} {v w : TyVar}
  {t u : Ty TyVar} {classes others : ClassSet} {c : ClassId}

/-- Whether a store has all of another as it was, but for the lengths of
chains. -/
structure PartOf (base s : Store) : Prop where
  wellFormed : s.WellFormed
  size_le : base.size ≤ s.size
  height_le : base.height ≤ s.height
  zonk_var : ∀ ⦃v : TyVar⦄, v.index < base.size →
    s.zonk (.var v) = base.zonk (.var v)
  classes_eq : ∀ ⦃v : TyVar⦄, v.index < base.size →
    s.unsolvedClasses? v = base.unsolvedClasses? v

theorem PartOf.refl (wf : s.WellFormed) : s.PartOf s :=
  ⟨wf, Nat.le_refl _, Nat.le_refl _, fun _ _ => rfl, fun _ _ => rfl⟩

theorem PartOf.trans (h : s.PartOf s') (h' : s'.PartOf s'') : s.PartOf s'' where
  wellFormed := h'.wellFormed
  size_le := Nat.le_trans h.size_le h'.size_le
  height_le := Nat.le_trans h.height_le h'.height_le
  zonk_var _ hv :=
    (h'.zonk_var (Nat.lt_of_lt_of_le hv h.size_le)).trans (h.zonk_var hv)
  classes_eq _ hv :=
    (h'.classes_eq (Nat.lt_of_lt_of_le hv h.size_le)).trans (h.classes_eq hv)

theorem PartOf.zonk_eq (h : base.PartOf s) (wf : base.WellFormed)
    (ht : t.InRange base) : s.zonk t = base.zonk t := by
  rw [h.wellFormed.zonk_eq_bind, wf.zonk_eq_bind]
  exact Ty.bind_congr fun v hv => h.zonk_var (ht v hv)

/-- What a type stands for in the smaller store, it stands for in the larger
one. -/
theorem PartOf.zonk_zonk (h : base.PartOf s) (wf : base.WellFormed)
    (ht : t.InRange base) : s.zonk (base.zonk t) = base.zonk t := by
  rw [h.zonk_eq wf (wf.inRange_zonk ht), wf.zonk_zonk]

theorem PartOf.extends (h : base.PartOf s) (wf : base.WellFormed) :
    base.Extends s where
  wellFormed := h.wellFormed
  size_le := h.size_le
  solved v t ht := by
    rw [h.zonk_var (lt_size_of_solution? ht), h.zonk_eq wf (wf.inRange ht),
      wf.zonk_var_solved ht]

/-- Where applications stay, no solution gets lower. -/
theorem AppsStay.height_le (h : s.AppsStay s') : s.height ≤ s'.height := by
  apply Store.height_le
  intro v t ht
  cases t with
  | var w => exact Nat.zero_le _
  | con name => exact Nat.zero_le _
  | app func arg =>
      have hroot : s.root v = v := by
        rw [root]
        cases s.size <;> simp [rootWithin, ht]
      have hresolve : s.resolve (.var v) = .app func arg := by
        rw [resolve, rootTy, hroot, ht, Option.getD_some]
      have hstays := h hresolve
      rw [resolve, rootTy] at hstays
      cases hsolution : s'.solution? (s'.root v) with
      | none =>
          rw [hsolution] at hstays
          contradiction
      | some u =>
          rw [hsolution, Option.getD_some] at hstays
          rw [← hstays]
          exact height_le_of_solution? hsolution

theorem Shortened.partOf (h : s.Shortened s') : s.PartOf s' :=
  ⟨h.steady.wellFormed, h.steady.size_eq.ge, h.appsStay.height_le,
    fun _ _ => h.steady.zonk_eq _, fun _ _ => h.unsolvedClasses?_eq _⟩

theorem partOf_fresh (wf : s.WellFormed) (base : String)
    (classes : ClassSet) : s.PartOf (s.fresh base classes).2 where
  wellFormed := wf.fresh base classes
  size_le := by simp
  height_le := Store.height_le fun v t ht =>
    height_le_of_solution? (by rwa [solution?_fresh])
  zonk_var v hv := by
    have hextends := extends_fresh wf base classes
    apply hextends.zonk_eq
    intro w hw
    rw [solution?_fresh]
    exact wf.solution?_of_mem_zonk hw
  classes_eq v hv := by
    rw [unsolvedClasses?_fresh, if_neg]
    rintro rfl
    exact absurd hv (Nat.lt_irrefl _)

theorem PartOf.meets (h : base.PartOf s)
    (ht : t.Meets table (base.Requires table) c) :
    t.Meets table (s.Requires table) c := by
  rw [← Ty.bind_var t]
  apply ht.bind
  rintro v d ⟨classes, hclasses, hd⟩
  exact ⟨classes,
    (h.classes_eq (lt_size_of_unsolvedClasses? hclasses)).trans hclasses, hd⟩

/-! ### Second copies -/

/-- Whether a function sends variables of a store to themselves, or to
variables that the store does not have, one to one. -/
structure Twinning (base : Store) (twin : TyVar → TyVar) : Prop where
  same_or_new : ∀ ⦃v : TyVar⦄, v.index < base.size →
    twin v = v ∨ base.size ≤ (twin v).index
  injective : ∀ ⦃v w : TyVar⦄, v.index < base.size → w.index < base.size →
    base.size ≤ (twin v).index → twin v = twin w → v = w

def HasTwin (base : Store) (twin : TyVar → TyVar) (v : TyVar) : Prop :=
  v.index < base.size ∧ base.size ≤ (twin v).index

/-- Whether what a variable stands for meets classes, which, unless there is a
dispute, have no conflict with those that it has already. -/
structure Takes (base : Store) (table : ClassTable) (disputed : Prop)
    (v : TyVar) (classes : ClassSet) : Prop where
  reduced : classes.Reduced table
  meets : ∀ c ∈ classes.members,
    (base.zonk (.var v)).Meets table (base.Requires table) c
  clear : disputed ∨ ∀ w others, base.zonk (.var v) = .var w →
    base.unsolvedClasses? w = some others → table.conflict? others = none

/-- Whether a store has all of another, and second copies that are open still,
with classes that the first copies meet, or stand for what the first copies
do. -/
structure Behind (base : Store) (table : ClassTable) (disputed : Prop)
    (twin : TyVar → TyVar) (s : Store) : Prop where
  partOf : base.PartOf s
  twins : base.Twinning twin
  open_or_settled : ∀ ⦃v⦄, base.HasTwin twin v →
    (∃ classes, s.unsolvedClasses? (twin v) = some classes ∧
      base.Takes table disputed v classes) ∨
    s.zonk (.var (twin v)) = base.zonk (.var v)

/-- Whether second copies have only been solved to what the first ones stand
for. -/
structure CatchesUp (base : Store) (table : ClassTable) (disputed : Prop)
    (twin : TyVar → TyVar) (s s' : Store) : Prop where
  behind : base.Behind table disputed twin s'
  later : s.Extends s'
  kept : ∀ ⦃v⦄, base.HasTwin twin v →
    s'.unsolvedClasses? (twin v) = s.unsolvedClasses? (twin v) ∨
      s'.zonk (.var (twin v)) = base.zonk (.var v)

variable {disputed : Prop} {twin : TyVar → TyVar}

theorem Behind.zonk_settled (h : base.Behind table disputed twin s)
    (hextends : s.Extends s') (hpart : base.PartOf s')
    (hv : v.index < base.size)
    (hsettled : s.zonk (.var (twin v)) = base.zonk (.var v)) :
    s'.zonk (.var (twin v)) = base.zonk (.var v) := by
  rw [← hpart.zonk_var hv]
  exact hextends.zonk_congr (hsettled.trans (h.partOf.zonk_var hv).symm)

theorem CatchesUp.trans (h : base.CatchesUp table disputed twin s s')
    (h' : base.CatchesUp table disputed twin s' s'') :
    base.CatchesUp table disputed twin s s'' where
  behind := h'.behind
  later := h.later.trans h'.later
  kept v hv := by
    rcases h.kept hv with hclasses | hsettled
    · rw [← hclasses]
      exact h'.kept hv
    · exact Or.inr
        (h.behind.zonk_settled h'.later h'.behind.partOf hv.1 hsettled)

theorem Behind.shortened (h : base.Behind table disputed twin s)
    (hs' : s.Shortened s') : base.CatchesUp table disputed twin s s' where
  behind :=
    { partOf := h.partOf.trans hs'.partOf
      twins := h.twins
      open_or_settled := fun v hv => by
        rw [hs'.unsolvedClasses?_eq, hs'.steady.zonk_eq]
        exact h.open_or_settled hv }
  later := hs'.steady.extends h.partOf.wellFormed
  kept v _ := Or.inl (hs'.unsolvedClasses?_eq _)

/-- A second copy may be solved to what the first one stands for. -/
theorem Behind.settle (h : base.Behind table disputed twin s)
    (wf : base.WellFormed) (hv : base.HasTwin twin v)
    (hextends : s.Extends s') (hheight : s.height ≤ s'.height)
    (hclasses : ∀ u, u ≠ twin v →
      s'.unsolvedClasses? u = s.unsolvedClasses? u)
    (hzonk : s'.zonk (.var (twin v)) = s'.zonk (.var v)) :
    base.CatchesUp table disputed twin s s' ∧
      s'.zonk (.var (twin v)) = base.zonk (.var v) := by
  have hold {u : TyVar} (hu : u.index < base.size) :
      s'.unsolvedClasses? u = base.unsolvedClasses? u := by
    rw [hclasses u, h.partOf.classes_eq hu]
    rintro rfl
    exact absurd hu (Nat.not_lt_of_ge hv.2)
  have hpart : base.PartOf s' :=
    { wellFormed := hextends.wellFormed
      size_le := Nat.le_trans h.partOf.size_le hextends.size_le
      height_le := Nat.le_trans h.partOf.height_le hheight
      zonk_var := fun u hu => by
        rw [← h.partOf.zonk_var hu]
        apply hextends.zonk_eq
        rw [h.partOf.zonk_var hu]
        intro x hx
        have hrange := wf.inRange_zonk (Ty.inRange_var hu) x hx
        obtain ⟨own, hown⟩ :=
          exists_unsolvedClasses? hrange (wf.solution?_of_mem_zonk hx)
        exact solution?_eq_none_of_unsolved ((hold hrange).trans hown)
      classes_eq := fun _ => hold }
  have hsettled : s'.zonk (.var (twin v)) = base.zonk (.var v) :=
    hzonk.trans (hpart.zonk_var hv.1)
  have hkept {w : TyVar} (hw : base.HasTwin twin w) :
      s'.unsolvedClasses? (twin w) = s.unsolvedClasses? (twin w) ∨
        s'.zonk (.var (twin w)) = base.zonk (.var w) := by
    by_cases heq : twin v = twin w
    · obtain rfl := h.twins.injective hv.1 hw.1 hv.2 heq
      exact Or.inr hsettled
    · exact Or.inl (hclasses _ (Ne.symm heq))
  refine ⟨⟨⟨hpart, h.twins, fun w hw => ?_⟩, hextends, fun w => hkept⟩,
    hsettled⟩
  rcases hkept hw with hsame | hnow
  · rw [hsame]
    exact (h.open_or_settled hw).imp_right
      (h.zonk_settled hextends hpart hw.1)
  · exact Or.inr hnow

end Store

/-! ### Unification with what was made equal before -/

/-- How a unification ends that was made before with the first copies: the
second copies catch up, or there is a dispute and a conflict is reported. -/
inductive Caught (base : Store) (table : ClassTable) (disputed : Prop)
    (twin : TyVar → TyVar) (s : Store) (want t : Ty TyVar) :
    EStateM.Result UnifyError Store Unit → Prop
  | ok {s' : Store} (h : base.CatchesUp table disputed twin s s')
      (hwant : s'.zonk want = base.zonk t) :
      Caught base table disputed twin s want t (.ok () s')
  | conflict {a b : ClassId} {path : List Nat} {s' : Store} (h : disputed) :
      Caught base table disputed twin s want t
        (.error ⟨.unsatisfiable a b, path⟩ s')

theorem Caught.within {base s : Store} {table : ClassTable} {disputed : Prop}
    {twin : TyVar → TyVar} {want t : Ty TyVar} {x : UnifyM Unit} (pos : Nat)
    (h : Caught base table disputed twin s want t (x.run s)) :
    Caught base table disputed twin s want t
      ((UnifyM.within pos x).run s) := by
  rw [UnifyM.within, EStateM.run_adaptExcept]
  generalize x.run s = result at h
  cases h with
  | ok hcatches hwant => exact .ok hcatches hwant
  | conflict hdisputed => exact .conflict hdisputed

namespace Store

section

variable {table : ClassTable} {base s s' : Store} {v w : TyVar}
  {want got t u func arg : Ty TyVar} {classes others : ClassSet}
  {disputed : Prop} {twin : TyVar → TyVar}
  {result : EStateM.Result UnifyError Store Unit}

theorem CatchesUp.caught (h : base.CatchesUp table disputed twin s s')
    (hnext : Caught base table disputed twin s' want t result) :
    Caught base table disputed twin s want t result := by
  cases hnext with
  | ok hmore hwant => exact .ok (h.trans hmore) hwant
  | conflict hdisputed => exact .conflict hdisputed

/-- The classes of a second copy are no news for what the first one stands
for. -/
theorem Takes.union_eq (h : base.Takes table disputed v classes)
    (ordered : table.Ordered) (hw : base.zonk (.var v) = .var w)
    (hothers : base.unsolvedClasses? w = some others)
    (hreduced : others.Reduced table) :
    classes.union table others = others := by
  rw [h.reduced.union_comm ordered hreduced]
  apply ClassSet.foldl_insert_of_implies
  intro c hc
  have hmeets := h.meets c hc
  rw [hw] at hmeets
  obtain ⟨own, hown, himplies⟩ := hmeets
  rwa [Option.some.inj (hothers.symm.trans hown)]

theorem Behind.caught_of_equal (h : base.Behind table disputed twin s)
    (hwant : s.zonk want = base.zonk t) (hgot : s.zonk got = base.zonk t)
    {depth : Nat} (hdepth : (base.zonk t).height < depth) :
    Caught base table disputed twin s want t
      ((unifyWithin table depth want got).run s) := by
  obtain ⟨s', hrun, hs'⟩ := unifyWithin_of_zonk_eq table h.partOf.wellFormed
    (hwant.trans hgot.symm) (by rwa [hwant])
  rw [hrun]
  exact .ok (h.shortened hs') ((hs'.steady.zonk_eq want).trans hwant)

/-- A second copy is joined with the variable that the first one stands
for. -/
theorem Behind.caught_joinVars (h : base.Behind table disputed twin s)
    (ordered : table.Ordered) (wf : base.WellFormed)
    (hreduced : base.AllClasses (ClassSet.Reduced table))
    (hv : base.HasTwin twin v)
    (hclasses : s.unsolvedClasses? (twin v) = some classes)
    (htakes : base.Takes table disputed v classes)
    (hw : base.zonk (.var v) = .var w) :
    Caught base table disputed twin s (.var (twin v)) (.var v)
      ((joinVars table (twin v) w).run s) := by
  have hmem : w ∈ (base.zonk (.var v)).vars := by
    rw [hw]
    exact Ty.mem_vars_var.2 rfl
  have hrange : w.index < base.size :=
    wf.inRange_zonk (Ty.inRange_var hv.1) w hmem
  obtain ⟨others, hothers⟩ :=
    exists_unsolvedClasses? hrange (wf.solution?_of_mem_zonk hmem)
  have hothers' := (h.partOf.classes_eq hrange).trans hothers
  have hne : twin v ≠ w := by
    rintro rfl
    exact absurd hrange (Nat.not_lt_of_ge hv.2)
  rw [joinVars_run table hclasses hothers' hne,
    htakes.union_eq ordered hw hothers (hreduced hothers), Store.joined]
  have wf' := h.partOf.wellFormed
  cases hconflict : table.conflict? others with
  | some pair =>
      refine .conflict (htakes.clear.resolve_right fun hclear => ?_)
      rw [hclear w others hw hothers] at hconflict
      contradiction
  | none =>
      have hjoin := wf'.extends_join hclasses hothers' hne others
      obtain ⟨hcatches, hsettled⟩ := h.settle wf hv hjoin
        (wf'.appsStay_join hclasses hothers' hne others).height_le
        (fun x hx => by
          rw [unsolvedClasses?_join hclasses hothers' hne, if_neg hx]
          split
          · rename_i heq
            rw [heq, hothers']
          · rfl)
        (by
          have hself : (s.join (twin v) w others).zonk (.var w) = .var w :=
            wf'.zonk_join_self hclasses hothers' hne
          rw [wf'.zonk_join hclasses hothers' hne, ← hself]
          apply hjoin.zonk_congr
          rw [h.partOf.zonk_var hv.1, hw, wf'.zonk_var_unsolved
            (solution?_eq_none_of_unsolved hothers')])
      exact .ok hcatches hsettled

/-- A second copy is solved to the type that the first one stands for, which
meets its classes. -/
theorem Behind.caught_solveVar (h : base.Behind table disputed twin s)
    (ordered : table.Ordered) (wf : base.WellFormed)
    (hv : base.HasTwin twin v)
    (hclasses : s.unsolvedClasses? (twin v) = some classes)
    (htakes : base.Takes table disputed v classes)
    (hvar : ∀ w, u ≠ .var w) (hu : s.zonk u = base.zonk (.var v)) :
    Caught base table disputed twin s (.var (twin v)) (.var v)
      ((solveVar table (twin v) u).run s) := by
  have wf' := h.partOf.wellFormed
  have hv' : (Ty.var v).InRange base := Ty.inRange_var hv.1
  have hrange : u.InRange s := by
    apply wf'.inRange_of_zonk
    rw [hu]
    exact (wf.inRange_zonk hv').of_size_le h.partOf.size_le
  have hfree : twin v ∉ (s.zonk u).vars := by
    rw [hu]
    intro hmem
    exact absurd (wf.inRange_zonk hv' _ hmem) (Nat.not_lt_of_ge hv.2)
  rw [solveVar_run ordered wf' hclasses,
    if_neg (mt occurs_eq_true_iff.1 hfree)]
  obtain ⟨s₁, hrun, hs₁⟩ := idles_requireAll ordered (twin v) wf' hrange hvar
    (fun c hc => by
      rw [hu]
      exact h.partOf.meets (htakes.meets c hc)) (.refl wf')
  rw [hrun]
  dsimp only
  have hnext := h.shortened hs₁
  have hclasses₁ := (hs₁.unsolvedClasses?_eq _).trans hclasses
  have hfree₁ : twin v ∉ (s₁.zonk u).vars := by rwa [hs₁.steady.zonk_eq]
  have hsolve := hs₁.steady.wellFormed.extends_solve hclasses₁
    (hrange.of_size_le hs₁.steady.size_eq.ge) hfree₁
  have hlt := lt_size_of_unsolvedClasses? hclasses₁
  obtain ⟨hcatches, hsettled⟩ := hnext.behind.settle wf hv hsolve
    (hs₁.steady.wellFormed.appsStay_solve hclasses₁ hvar
      hsolve.wellFormed).height_le
    (fun x hx => by
      rw [unsolvedClasses?_setBinding_solved hlt, if_neg hx])
    (by
      rw [hsolve.wellFormed.zonk_var_solved
        (by rw [solution?_setBinding_solved hlt, if_pos rfl])]
      apply hsolve.zonk_congr
      rw [hs₁.steady.zonk_eq, hu, hnext.behind.partOf.zonk_var hv.1])
  exact .ok (hnext.trans hcatches) hsettled

/-- A second copy catches up when it is unified with what the first one stands
for. -/
theorem Behind.caught_var (h : base.Behind table disputed twin s)
    (ordered : table.Ordered) (wf : base.WellFormed)
    (hreduced : base.AllClasses (ClassSet.Reduced table))
    (hv : base.HasTwin twin v)
    (hclasses : s.unsolvedClasses? (twin v) = some classes)
    (htakes : base.Takes table disputed v classes)
    (hwant : s.zonk want = .var (twin v))
    (hgot : s.zonk got = base.zonk (.var v)) {depth : Nat} :
    Caught base table disputed twin s want (.var v)
      ((unifyWithin table (depth + 1) want got).run s) := by
  have wf' := h.partOf.wellFormed
  have hs₂ := wf'.shortened_prunedBoth want got
  have hnext := h.shortened hs₂
  have hclasses₂ := (hs₂.unsolvedClasses?_eq _).trans hclasses
  have hcaught : Caught base table disputed twin (s.prunedBoth want got)
      (.var (twin v)) (.var v)
      ((unifyTops table depth (.var (twin v)) (s.resolve got)).run
        (s.prunedBoth want got)) := by
    have hgot₂ : (s.prunedBoth want got).zonk (s.resolve got) =
        base.zonk (.var v) := by
      rw [hs₂.steady.zonk_eq, wf'.zonk_resolve, hgot]
    cases hresolve : s.resolve got with
    | var w =>
        have hw : base.zonk (.var v) = .var w := by
          rw [← hgot, wf'.zonk_of_resolve_var hresolve]
        simp only [unifyTops]
        split
        · rename_i heq
          have hrange := wf.inRange_zonk (Ty.inRange_var hv.1) w
            (by rw [hw]; simp [Ty.vars])
          rw [← heq] at hrange
          exact absurd hrange (Nat.not_lt_of_ge hv.2)
        · exact hnext.behind.caught_joinVars ordered wf hreduced hv hclasses₂
            htakes hw
    | con name =>
        rw [hresolve] at hgot₂
        exact hnext.behind.caught_solveVar ordered wf hv hclasses₂ htakes
          (by simp) hgot₂
    | app func arg =>
        rw [hresolve] at hgot₂
        exact hnext.behind.caught_solveVar ordered wf hv hclasses₂ htakes
          (by simp) hgot₂
  rw [unifyWithin_run wf', wf'.resolve_of_zonk_var hwant]
  generalize (unifyTops table depth (.var (twin v)) (s.resolve got)).run
    (s.prunedBoth want got) = result at hcaught
  cases hcaught with
  | conflict hdisputed => exact .conflict hdisputed
  | ok hmore hsettled =>
      refine .ok (hnext.trans hmore) ?_
      rw [← hsettled]
      apply (hnext.trans hmore).later.zonk_congr
      rw [hwant, wf'.zonk_var_unsolved (solution?_eq_none_of_unsolved hclasses)]

theorem Behind.map_twin_var (h : base.Behind table disputed twin s)
    (hv : v.index < base.size) :
    s.zonk (.var (twin v)) = base.zonk (.var v) ∨
      base.HasTwin twin v ∧ ∃ classes,
        s.unsolvedClasses? (twin v) = some classes ∧
          base.Takes table disputed v classes := by
  rcases h.twins.same_or_new hv with hsame | hnew
  · rw [hsame]
    exact Or.inl (h.partOf.zonk_var hv)
  · rcases h.open_or_settled ⟨hv, hnew⟩ with hopen | hsettled
    · exact Or.inr ⟨⟨hv, hnew⟩, hopen⟩
    · exact Or.inl hsettled

theorem Behind.zonk_map (h : base.Behind table disputed twin s)
    (t : Ty TyVar) :
    s.zonk (t.map twin) = t.bind fun v => s.zonk (.var (twin v)) := by
  rw [h.partOf.wellFormed.zonk_eq_bind, Ty.map_eq_bind, Ty.bind_bind]
  rfl

/-- Heads that are told apart where second copies are open are told apart
where the first ones stand for more. -/
theorem Behind.spine_con (h : base.Behind table disputed twin s)
    (wf : base.WellFormed) (ht : t.InRange base) {name : Name}
    (hcon : (s.zonk (t.map twin)).spine.1 = .con name) :
    (base.zonk t).spine.1 = .con name ∧ (base.zonk t).spine.2.length =
      (s.zonk (t.map twin)).spine.2.length := by
  rw [h.zonk_map] at hcon ⊢
  rw [wf.zonk_eq_bind]
  refine Ty.spine_bind_of_con (fun v hv => ?_) hcon
  rcases h.map_twin_var (ht v hv) with hsettled | ⟨-, classes, hclasses, -⟩
  · exact Or.inl hsettled
  · exact Or.inr ⟨_, h.partOf.wellFormed.zonk_var_unsolved
      (solution?_eq_none_of_unsolved hclasses)⟩

theorem Behind.headsDiffer_eq_false (h : base.Behind table disputed twin s)
    (wf : base.WellFormed) (ht : t.InRange base)
    (hwant : s.zonk want = s.zonk (t.map twin))
    (hgot : s.zonk got = base.zonk t) : headsDiffer s want got = false := by
  by_contra hdiffer
  rw [Bool.not_eq_false, headsDiffer_eq_true_iff h.partOf.wellFormed, hwant,
    hgot] at hdiffer
  obtain ⟨c, d, hc, hd, hne⟩ := hdiffer
  obtain ⟨hhead, hlength⟩ := h.spine_con wf ht hc
  rcases hne with hne | hne
  · exact hne (Ty.con.inj (hhead.symm.trans hd))
  · exact hne hlength.symm

theorem CatchesUp.zonk_settled (h : base.CatchesUp table disputed twin s s')
    (hbehind : base.Behind table disputed twin s) (wf : base.WellFormed)
    (ht : t.InRange base) (hu : s.zonk u = base.zonk t) :
    s'.zonk u = base.zonk t := by
  rw [← h.behind.partOf.zonk_eq wf ht]
  exact h.later.zonk_congr (hu.trans (hbehind.partOf.zonk_eq wf ht).symm)

/-- A type made of second copies catches up when it is unified with what the
type made of the first copies stands for. -/
theorem Behind.caught_unifyWithin (h : base.Behind table disputed twin s)
    (ordered : table.Ordered) (wf : base.WellFormed)
    (hreduced : base.AllClasses (ClassSet.Reduced table)) (ht : t.InRange base)
    (hwant : s.zonk want = s.zonk (t.map twin))
    (hgot : s.zonk got = base.zonk t) {depth : Nat}
    (hdepth : (base.zonk t).height < depth) :
    Caught base table disputed twin s want t
      ((unifyWithin table depth want got).run s) := by
  induction t generalizing s want got depth with
  | var v =>
      have hv : v.index < base.size := ht v (Ty.mem_vars_var.2 rfl)
      rcases h.map_twin_var hv with hsettled | ⟨hv, classes, hclasses, htakes⟩
      · exact h.caught_of_equal (hwant.trans hsettled) hgot hdepth
      · obtain ⟨depth, rfl⟩ := Nat.exists_eq_succ_of_ne_zero
          (Nat.ne_zero_of_lt hdepth)
        refine h.caught_var ordered wf hreduced hv hclasses htakes
          (hwant.trans ?_) hgot
        exact h.partOf.wellFormed.zonk_var_unsolved
          (solution?_eq_none_of_unsolved hclasses)
  | con name =>
      refine h.caught_of_equal (hwant.trans ?_) hgot hdepth
      rw [Ty.map, h.partOf.wellFormed.zonk_con, wf.zonk_con]
  | app func arg ihFunc ihArg =>
      obtain ⟨depth, rfl⟩ := Nat.exists_eq_succ_of_ne_zero
        (Nat.ne_zero_of_lt hdepth)
      have wf' := h.partOf.wellFormed
      have hs₂ := wf'.shortened_prunedBoth want got
      have hnext := h.shortened hs₂
      rw [Ty.map, wf'.zonk_app] at hwant
      rw [wf.zonk_app] at hgot hdepth
      rw [Ty.height] at hdepth
      obtain ⟨wantFunc, wantArg, hwantTop, hwantFunc, hwantArg⟩ :=
        wf'.resolve_of_zonk_app hwant
      obtain ⟨gotFunc, gotArg, hgotTop, hgotFunc, hgotArg⟩ :=
        wf'.resolve_of_zonk_app hgot
      rw [unifyWithin_run wf', hwantTop, hgotTop]
      generalize s.prunedBoth want got = s₂ at hs₂ hnext
      have hfunc : func.InRange base :=
        fun v hv => ht v (Ty.mem_vars_app.2 (Or.inl hv))
      have harg : arg.InRange base :=
        fun v hv => ht v (Ty.mem_vars_app.2 (Or.inr hv))
      simp only [← hs₂.steady.zonk_eq] at hwantFunc hwantArg hgotFunc hgotArg
      have hfuncs := ihFunc hnext.behind hfunc hwantFunc hgotFunc
        (by omega : _ < depth)
      rw [unifyTops_app_run _ _ _ _ _
        (hnext.behind.headsDiffer_eq_false wf hfunc hwantFunc hgotFunc),
        EStateM.run_bind]
      generalize (unifyWithin table depth wantFunc gotFunc).run s₂ = result
        at hfuncs
      cases hfuncs with
      | conflict hdisputed => exact .conflict hdisputed
      | @ok s₃ hmore hfuncEq =>
          have hargs := ihArg hmore.behind harg
            (hmore.later.zonk_congr hwantArg)
            (hmore.zonk_settled hnext.behind wf harg hgotArg)
            (by omega : _ < depth)
          have hlater := hnext.trans hmore
          dsimp only
          rw [get_bind_run]
          refine hlater.caught ?_
          have hwithin := hargs.within (s₃.spine wantFunc).2.length
          generalize (UnifyM.within _ (unifyWithin table depth wantArg
            gotArg)).run s₃ = result at hwithin
          cases hwithin with
          | conflict hdisputed => exact .conflict hdisputed
          | @ok s₄ hlast hargEq =>
              refine .ok hlast ?_
              have hwantTop₄ : s₄.zonk want =
                  s₄.zonk (.app wantFunc wantArg) := by
                apply (hlater.trans hlast).later.zonk_congr
                rw [← wf'.zonk_resolve want, hwantTop]
              rw [hwantTop₄, hlast.later.wellFormed.zonk_app, wf.zonk_app,
                hlast.zonk_settled hmore.behind wf hfunc hfuncEq, hargEq]

end

end Store

end HindleyMilner

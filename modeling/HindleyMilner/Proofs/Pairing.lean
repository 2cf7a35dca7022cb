import HindleyMilner.Proofs.Lookup
import HindleyMilner.Proofs.ReducedSet

/-
Two stores side by side.  A pairing relates unsolved variables of one store to
unsolved variables of another, one to one and with equal classes, and two types
are alike if what they stand for is the same up to this relation.  It is
carried through runs of both stores: when a variable is solved on both sides,
its pair is dropped, and all types that were alike stay alike.

Where the second run is given its types the other way round, one store may
solve the first of two variables and the other the second.  Then the variables
that are left over are paired with each other, which are joined with the same
variables in both stores.
-/

namespace HindleyMilner

namespace Ty

/-- Whether two types are the same up to a relation of their variables. -/
inductive Alike {V W : Type} (rel : V → W → Prop) : Ty V → Ty W → Prop
  | var {v : V} {w : W} (h : rel v w) : Alike rel (.var v) (.var w)
  | con (name : Name) : Alike rel (.con name) (.con name)
  | app {func arg : Ty V} {func' arg' : Ty W} (hfunc : Alike rel func func')
      (harg : Alike rel arg arg') :
      Alike rel (.app func arg) (.app func' arg')

namespace Alike

variable {V W X Y : Type} {rel : V → W → Prop} {t : Ty V} {u : Ty W}

theorem bind {rel' : X → Y → Prop} {f : V → Ty X} {g : W → Ty Y}
    (h : Alike rel t u)
    (hfg : ∀ v ∈ t.vars, ∀ w, rel v w → Alike rel' (f v) (g w)) :
    Alike rel' (t.bind f) (u.bind g) := by
  induction h with
  | var h => exact hfg _ (mem_vars_var.2 rfl) _ h
  | con name => exact .con name
  | app _ _ ihFunc ihArg =>
      exact .app (ihFunc fun v hv => hfg v (mem_vars_app.2 (Or.inl hv)))
        (ihArg fun v hv => hfg v (mem_vars_app.2 (Or.inr hv)))

theorem mono {rel' : V → W → Prop} (h : Alike rel t u)
    (hrel : ∀ v ∈ t.vars, ∀ w, rel v w → rel' v w) : Alike rel' t u := by
  have hbind : Alike rel' (t.bind .var) (u.bind .var) :=
    h.bind fun v hv w hvw => .var (hrel v hv w hvw)
  rwa [bind_var, bind_var] at hbind

theorem of_same {rel : V → V → Prop} (h : ∀ v ∈ t.vars, rel v v) :
    Alike rel t t := by
  induction t with
  | var v => exact .var (h v (mem_vars_var.2 rfl))
  | con name => exact .con name
  | app func arg ihFunc ihArg =>
      exact .app (ihFunc fun v hv => h v (mem_vars_app.2 (Or.inl hv)))
        (ihArg fun v hv => h v (mem_vars_app.2 (Or.inr hv)))

theorem forall₂_vars (h : Alike rel t u) : List.Forall₂ rel t.vars u.vars := by
  induction h with
  | var h => exact .cons h .nil
  | con name => exact .nil
  | app _ _ ihFunc ihArg => exact List.rel_append ihFunc ihArg

theorem exists_left {w : W} (h : Alike rel t u) (hw : w ∈ u.vars) :
    ∃ v ∈ t.vars, rel v w := by
  obtain ⟨i, hi, rfl⟩ := List.getElem_of_mem hw
  have hvars := h.forall₂_vars
  have hi' : i < t.vars.length := by rwa [hvars.length_eq]
  exact ⟨t.vars[i], List.getElem_mem hi', hvars.get hi' hi⟩

theorem exists_right {v : V} (h : Alike rel t u) (hv : v ∈ t.vars) :
    ∃ w ∈ u.vars, rel v w := by
  obtain ⟨i, hi, rfl⟩ := List.getElem_of_mem hv
  have hvars := h.forall₂_vars
  have hi' : i < u.vars.length := by rwa [← hvars.length_eq]
  exact ⟨u.vars[i], List.getElem_mem hi', hvars.get hi hi'⟩

theorem spine (h : Alike rel t u) :
    Alike rel t.spine.1 u.spine.1 ∧
      List.Forall₂ (Alike rel) t.spine.2 u.spine.2 := by
  induction h with
  | var h => exact ⟨.var h, .nil⟩
  | con name => exact ⟨.con name, .nil⟩
  | app _ harg ihFunc _ =>
      rw [spine_app, spine_app]
      exact ⟨ihFunc.1, List.rel_append ihFunc.2 (.cons harg .nil)⟩

end Alike

end Ty

/-- A type is over the variables of a store if what it stands for is. -/
theorem Store.WellFormed.inRange_of_zonk {s : Store} (wf : s.WellFormed)
    {t : Ty TyVar} (h : (s.zonk t).InRange s) : t.InRange s := by
  intro v hv
  cases hsolution : s.solution? v with
  | some solution => exact lt_size_of_solution? hsolution
  | none =>
      apply h
      rw [wf.zonk_eq_bind, Ty.mem_vars_bind]
      refine ⟨v, hv, ?_⟩
      rw [wf.zonk_var_unsolved hsolution]
      exact Ty.mem_vars_var.2 rfl

/-- Two stores, with a relation between variables of the first and of the
second. -/
structure Pairing where
  left : Store
  right : Store
  rel : TyVar → TyVar → Prop

namespace Pairing

variable {M N N' : Pairing} {table : ClassTable} {crossed : Bool}
  {v v' w w' : TyVar} {t t' u u' : Ty TyVar} {classes : ClassSet}

/-- Two stores, with some of their variables paired with themselves. -/
def onSame (left right : Store) (paired : TyVar → Prop) : Pairing :=
  ⟨left, right, fun v v' => v = v' ∧ paired v⟩

theorem biUnique_onSame {left right : Store} {paired : TyVar → Prop} :
    Relator.BiUnique (onSame left right paired).rel :=
  ⟨fun _ _ _ ha hb => ha.1.trans hb.1.symm,
    fun _ _ _ hb hc => hb.1.symm.trans hc.1⟩

/-- Whether what two types stand for is the same up to the relation. -/
def Alike (M : Pairing) (t t' : Ty TyVar) : Prop :=
  Ty.Alike M.rel (M.left.zonk t) (M.right.zonk t')

/-- What is needed of stores whose runs are given their types the other way
round. -/
structure Crossed (M : Pairing) (table : ClassTable) : Prop where
  reduced : ∀ ⦃v v' classes⦄, M.rel v v' →
    M.left.unsolvedClasses? v = some classes → classes.Reduced table
  linked : ∀ ⦃v v'⦄, M.rel v v' → M.right.root v = v'
  joined : ∀ v w,
    M.left.root v = M.left.root w ↔ M.right.root v = M.right.root w

/-- Whether the relation pairs unsolved variables with equal classes. -/
structure Faithful (M : Pairing) (table : ClassTable) (crossed : Bool) :
    Prop where
  left : M.left.WellFormed
  right : M.right.WellFormed
  classes : ∀ ⦃v v'⦄, M.rel v v' → ∃ classes,
    M.left.unsolvedClasses? v = some classes ∧
      M.right.unsolvedClasses? v' = some classes
  unique : Relator.BiUnique M.rel
  crossed : crossed = true → M.Crossed table

/-- Whether a pairing comes later than another in two runs: both stores are
extended, types that were alike are alike, and unless the runs are crossed, the
only new pairs are of new variables. -/
structure Leads (M N : Pairing) (crossed : Bool) : Prop where
  left : M.left.Extends N.left
  right : M.right.Extends N.right
  alike : ∀ ⦃v v'⦄, M.rel v v' → N.Alike (.var v) (.var v')
  old : crossed = false → ∀ ⦃v v'⦄, N.rel v v' →
    M.rel v v' ∨ M.left.size ≤ v.index ∧ M.right.size ≤ v'.index

/-! ### Types that are alike -/

/-- Types stay alike when two runs go on. -/
theorem Leads.alike_ty (h : M.Leads N crossed) (ht : M.Alike t t') :
    N.Alike t t' := by
  rw [Alike, ← h.left.bind_zonk t, ← h.right.bind_zonk t']
  exact ht.bind fun v _ v' hv => h.alike hv

theorem Faithful.solution?_left (h : M.Faithful table crossed)
    (hv : M.rel v v') : M.left.solution? v = none := by
  obtain ⟨classes, hleft, -⟩ := h.classes hv
  exact Store.solution?_eq_none_of_unsolved hleft

theorem Faithful.solution?_right (h : M.Faithful table crossed)
    (hv : M.rel v v') : M.right.solution? v' = none := by
  obtain ⟨classes, -, hright⟩ := h.classes hv
  exact Store.solution?_eq_none_of_unsolved hright

theorem Faithful.alike_var (h : M.Faithful table crossed)
    (hv : M.rel v v') : M.Alike (.var v) (.var v') := by
  rw [Alike, h.left.zonk_var_unsolved (h.solution?_left hv),
    h.right.zonk_var_unsolved (h.solution?_right hv)]
  exact .var hv

/-- Unsolved variables are alike only if they are paired. -/
theorem Faithful.rel_of_alike (h : M.Faithful table crossed)
    (hv : M.left.solution? v = none) (hv' : M.right.solution? v' = none)
    (halike : M.Alike (.var v) (.var v')) : M.rel v v' := by
  rw [Alike, h.left.zonk_var_unsolved hv, h.right.zonk_var_unsolved hv']
    at halike
  cases halike with
  | var hrel => exact hrel

theorem Faithful.alike_con (h : M.Faithful table crossed) (name : Name) :
    M.Alike (.con name) (.con name) := by
  rw [Alike, h.left.zonk_con, h.right.zonk_con]
  exact .con name

theorem Faithful.alike_app (h : M.Faithful table crossed)
    (ht : M.Alike t t') (hu : M.Alike u u') :
    M.Alike (.app t u) (.app t' u') := by
  rw [Alike, h.left.zonk_app, h.right.zonk_app]
  exact .app ht hu

theorem Faithful.alike_zonk (h : M.Faithful table crossed)
    (ht : M.Alike t t') : M.Alike (M.left.zonk t) (M.right.zonk t') := by
  rwa [Alike, h.left.zonk_zonk, h.right.zonk_zonk]

theorem Faithful.alike_resolve (h : M.Faithful table crossed)
    (ht : M.Alike t t') :
    M.Alike (M.left.resolve t) (M.right.resolve t') := by
  rwa [Alike, h.left.zonk_resolve, h.right.zonk_resolve]

/-- The variables of types that are alike exist. -/
theorem Faithful.inRange (h : M.Faithful table crossed)
    (ht : M.Alike t t') : t.InRange M.left ∧ t'.InRange M.right := by
  constructor
  · apply h.left.inRange_of_zonk
    intro v hv
    obtain ⟨v', -, hrel⟩ := ht.exists_right hv
    obtain ⟨classes, hleft, -⟩ := h.classes hrel
    exact Store.lt_size_of_unsolvedClasses? hleft
  · apply h.right.inRange_of_zonk
    intro v' hv'
    obtain ⟨v, -, hrel⟩ := ht.exists_left hv'
    obtain ⟨classes, -, hright⟩ := h.classes hrel
    exact Store.lt_size_of_unsolvedClasses? hright

/-- A paired variable occurs in a type where its partner occurs in one that is
alike. -/
theorem Faithful.mem_zonk_iff (h : M.Faithful table crossed)
    (hv : M.rel v v') (ht : M.Alike t t') :
    v ∈ (M.left.zonk t).vars ↔ v' ∈ (M.right.zonk t').vars := by
  constructor
  · intro hmem
    obtain ⟨w', hw', hrel⟩ := ht.exists_right hmem
    rwa [h.unique.2 hv hrel]
  · intro hmem
    obtain ⟨w, hw, hrel⟩ := ht.exists_left hmem
    rwa [h.unique.1 hv hrel]

/-- The tops of two types that are alike and were looked up. -/
inductive Tops (M : Pairing) : Ty TyVar → Ty TyVar → Prop
  | var {v v' : TyVar} (h : M.rel v v') : Tops M (.var v) (.var v')
  | con (name : Name) : Tops M (.con name) (.con name)
  | app {func arg func' arg' : Ty TyVar} (hfunc : M.Alike func func')
      (harg : M.Alike arg arg') : Tops M (.app func arg) (.app func' arg')

/-- Types that are alike and no solved variables have the same form. -/
theorem Faithful.tops (h : M.Faithful table crossed) (ht : M.Alike t t')
    (hleft : ∀ v, t = .var v → M.left.solution? v = none)
    (hright : ∀ v, t' = .var v → M.right.solution? v = none) :
    M.Tops t t' := by
  rw [Alike] at ht
  cases t with
  | var v =>
      have hv := hleft v rfl
      cases t' with
      | var v' => exact .var (h.rel_of_alike hv (hright v' rfl) ht)
      | con name =>
          rw [h.left.zonk_var_unsolved hv, h.right.zonk_con] at ht
          cases ht
      | app func arg =>
          rw [h.left.zonk_var_unsolved hv, h.right.zonk_app] at ht
          cases ht
  | con name =>
      rw [h.left.zonk_con] at ht
      cases t' with
      | var v' =>
          rw [h.right.zonk_var_unsolved (hright v' rfl)] at ht
          cases ht
      | con other =>
          rw [h.right.zonk_con] at ht
          cases ht
          exact .con name
      | app func arg =>
          rw [h.right.zonk_app] at ht
          cases ht
  | app func arg =>
      rw [h.left.zonk_app] at ht
      cases t' with
      | var v' =>
          rw [h.right.zonk_var_unsolved (hright v' rfl)] at ht
          cases ht
      | con other =>
          rw [h.right.zonk_con] at ht
          cases ht
      | app func' arg' =>
          rw [h.right.zonk_app] at ht
          cases ht with
          | app hfunc harg => exact .app hfunc harg

theorem Tops.alike (ht : M.Tops t t') (h : M.Faithful table crossed) :
    M.Alike t t' := by
  cases ht with
  | var hv => exact h.alike_var hv
  | con name => exact h.alike_con name
  | app hfunc harg => exact h.alike_app hfunc harg

/-- The heads of types that are alike, with all solutions looked through. -/
theorem Faithful.spine (h : M.Faithful table crossed) (ht : M.Alike t t') :
    M.Tops (M.left.spine t).1 (M.right.spine t').1 ∧
      List.Forall₂ M.Alike (M.left.spine t).2 (M.right.spine t').2 := by
  have hspine := ht.spine
  rw [h.left.zonk_spine, h.right.zonk_spine, ← h.left.zonk_spine_head,
    ← h.right.zonk_spine_head] at hspine
  refine ⟨h.tops hspine.1 (fun v => h.left.solution?_of_spine)
    (fun v => h.right.solution?_of_spine), ?_⟩
  have hargs := hspine.2
  rw [List.forall₂_map_left_iff, List.forall₂_map_right_iff] at hargs
  exact hargs

/-! ### Sequences -/

theorem Leads.refl (h : M.Faithful table crossed) : M.Leads M crossed :=
  ⟨.refl h.left, .refl h.right, fun _ _ => h.alike_var,
    fun _ _ _ hv => Or.inl hv⟩

theorem Leads.trans (h : M.Leads N crossed) (h' : N.Leads N' crossed) :
    M.Leads N' crossed where
  left := h.left.trans h'.left
  right := h.right.trans h'.right
  alike _ _ hv := h'.alike_ty (h.alike hv)
  old hcrossed v v' hv := by
    rcases h'.old hcrossed hv with hmiddle | ⟨hleft, hright⟩
    · exact h.old hcrossed hmiddle
    · exact Or.inr ⟨Nat.le_trans h.left.size_le hleft,
        Nat.le_trans h.right.size_le hright⟩

/-! ### Changes on both sides -/

/-- Changes that solve nothing, after which the classes of pairs still are
equal. -/
theorem Faithful.steady {L R : Store} (h : M.Faithful table crossed)
    (hL : M.left.Steady L) (hR : M.right.Steady R)
    (hclasses : ∀ ⦃v v'⦄, M.rel v v' → ∃ classes,
      L.unsolvedClasses? v = some classes ∧
        R.unsolvedClasses? v' = some classes ∧
          (crossed = true → classes.Reduced table)) :
    Faithful ⟨L, R, M.rel⟩ table crossed ∧ M.Leads ⟨L, R, M.rel⟩ crossed := by
  have hnow : Faithful ⟨L, R, M.rel⟩ table crossed :=
    { left := hL.wellFormed
      right := hR.wellFormed
      classes := fun v v' hv => by
        obtain ⟨classes, hleft, hright, -⟩ := hclasses hv
        exact ⟨classes, hleft, hright⟩
      unique := h.unique
      crossed := fun hcrossed =>
        { reduced := fun v v' others hv hothers => by
            obtain ⟨classes, hleft, -, hreduced⟩ := hclasses hv
            obtain rfl := Option.some.inj (hleft.symm.trans hothers)
            exact hreduced hcrossed
          linked := fun v v' hv =>
            (hR.root_eq v).trans ((h.crossed hcrossed).linked hv)
          joined := fun v w => by
            rw [hL.root_eq, hL.root_eq, hR.root_eq, hR.root_eq]
            exact (h.crossed hcrossed).joined v w } }
  exact ⟨hnow, hL.extends h.left, hR.extends h.right,
    fun _ _ => hnow.alike_var, fun _ _ _ hv => Or.inl hv⟩

theorem Faithful.reduced (h : M.Faithful table crossed) (hv : M.rel v v')
    (hclasses : M.left.unsolvedClasses? v = some classes)
    (hcrossed : crossed = true) : classes.Reduced table :=
  (h.crossed hcrossed).reduced hv hclasses

def prune (M : Pairing) (t t' : Ty TyVar) : Pairing :=
  ⟨(M.left.prune t).2, (M.right.prune t').2, M.rel⟩

/-- Shortening chains on both sides changes nothing about a pairing. -/
theorem Faithful.prune (h : M.Faithful table crossed) (t t' : Ty TyVar) :
    (M.prune t t').Faithful table crossed ∧
      M.Leads (M.prune t t') crossed := by
  apply h.steady (h.left.steady_prune t) (h.right.steady_prune t')
  intro v v' hv
  obtain ⟨classes, hleft, hright⟩ := h.classes hv
  exact ⟨classes, by rwa [Store.unsolvedClasses?_prune],
    by rwa [Store.unsolvedClasses?_prune], h.reduced hv hleft⟩

def setClasses (M : Pairing) (v v' : TyVar) (classes : ClassSet) : Pairing :=
  ⟨M.left.setBinding v (.unsolved classes),
    M.right.setBinding v' (.unsolved classes), M.rel⟩

/-- A variable and its partner may be given the same classes. -/
theorem Faithful.setClasses (h : M.Faithful table crossed) (hv : M.rel v v')
    (hreduced : crossed = true → classes.Reduced table) :
    (M.setClasses v v' classes).Faithful table crossed ∧
      M.Leads (M.setClasses v v' classes) crossed := by
  obtain ⟨before, hleft, hright⟩ := h.classes hv
  apply h.steady (h.left.steady_setClasses hleft classes)
    (h.right.steady_setClasses hright classes)
  intro w w' hw
  rw [Store.unsolvedClasses?_setBinding_unsolved
      (Store.lt_size_of_unsolvedClasses? hleft),
    Store.unsolvedClasses?_setBinding_unsolved
      (Store.lt_size_of_unsolvedClasses? hright)]
  by_cases heq : w = v
  · subst heq
    rw [if_pos rfl, if_pos (h.unique.2 hw hv)]
    exact ⟨classes, rfl, rfl, hreduced⟩
  · have hne : w' ≠ v' := fun heq' => heq (h.unique.1 (heq' ▸ hw) hv)
    rw [if_neg heq, if_neg hne]
    obtain ⟨others, hothers, hothers'⟩ := h.classes hw
    exact ⟨others, hothers, hothers', h.reduced hw hothers⟩

def solve (M : Pairing) (v v' : TyVar) (t t' : Ty TyVar) : Pairing :=
  ⟨M.left.setBinding v (.solved t), M.right.setBinding v' (.solved t'),
    fun w w' => M.rel w w' ∧ w ≠ v⟩

/-- A variable and its partner may be solved to types that are alike. -/
theorem Faithful.solve (h : M.Faithful table crossed) (hv : M.rel v v')
    (ht : M.Alike t t') (hoccurs : v ∉ (M.left.zonk t).vars)
    (hvar : crossed = true → (∀ w, t ≠ .var w) ∧ ∀ w, t' ≠ .var w) :
    (M.solve v v' t t').Faithful table crossed ∧
      M.Leads (M.solve v v' t t') crossed := by
  obtain ⟨classes, hleft, hright⟩ := h.classes hv
  have hoccurs' : v' ∉ (M.right.zonk t').vars := fun hmem =>
    hoccurs ((h.mem_zonk_iff hv ht).2 hmem)
  have hL := h.left.extends_solve hleft (h.inRange ht).1 hoccurs
  have hR := h.right.extends_solve hright (h.inRange ht).2 hoccurs'
  have hne {w w' : TyVar} (hw : M.rel w w') (hwv : w ≠ v) : w' ≠ v' :=
    fun heq => hwv (h.unique.1 (heq ▸ hw) hv)
  have hnow : (M.solve v v' t t').Faithful table crossed :=
    { left := hL.wellFormed
      right := hR.wellFormed
      classes := fun w w' ⟨hw, hwv⟩ => by
        obtain ⟨others, hothers, hothers'⟩ := h.classes hw
        refine ⟨others, ?_, ?_⟩
        · rwa [Pairing.solve, Store.unsolvedClasses?_setBinding_solved
            (Store.lt_size_of_unsolvedClasses? hleft), if_neg hwv]
        · rwa [Pairing.solve, Store.unsolvedClasses?_setBinding_solved
            (Store.lt_size_of_unsolvedClasses? hright), if_neg (hne hw hwv)]
      unique := ⟨fun _ _ _ ha hb => h.unique.1 ha.1 hb.1,
        fun _ _ _ ha hb => h.unique.2 ha.1 hb.1⟩
      crossed := fun hcrossed => by
        have hroot := h.left.root_setBinding_of_ne_var hleft
          (hvar hcrossed).1 hL.wellFormed
        have hroot' := h.right.root_setBinding_of_ne_var hright
          (hvar hcrossed).2 hR.wellFormed
        have hbefore := h.crossed hcrossed
        refine ⟨fun w w' others ⟨hw, hwv⟩ hothers => ?_,
          fun w w' ⟨hw, _⟩ => (hroot' w).trans (hbefore.linked hw),
          fun a b => ?_⟩
        · rw [Pairing.solve, Store.unsolvedClasses?_setBinding_solved
            (Store.lt_size_of_unsolvedClasses? hleft), if_neg hwv] at hothers
          exact hbefore.reduced hw hothers
        · simp only [Pairing.solve, hroot, hroot']
          exact hbefore.joined a b }
  refine ⟨hnow, hL, hR, fun w w' hw => ?_, fun _ _ _ hw => Or.inl hw.1⟩
  by_cases heq : w = v
  · -- what the variables stand for now is what their solutions stood for
    subst heq
    obtain rfl := h.unique.2 hw hv
    rw [Alike, Pairing.solve, h.left.zonk_setBinding_solved hleft hL hoccurs,
      h.right.zonk_setBinding_solved hright hR hoccurs']
    exact ht.mono fun u hu u' huu' => ⟨huu', fun heq => hoccurs (heq ▸ hu)⟩
  · exact hnow.alike_var ⟨hw, heq⟩

/-- Both stores after the first of two variables was solved to the second in
one and the second to the first in the other.  The variables that are left are
paired. -/
def cross (M : Pairing) (v v' w w' : TyVar) (classes : ClassSet) : Pairing :=
  ⟨M.left.join v w classes, M.right.join w' v' classes,
    fun u u' => M.rel u u' ∧ u ≠ v ∧ u ≠ w ∨ u = w ∧ u' = v'⟩

/-- A variable may be joined with another in one store and the other with it in
the second: the roots differ, but are paired. -/
theorem Faithful.cross (h : M.Faithful table true) (hv : M.rel v v')
    (hw : M.rel w w') (hne : v ≠ w) (hreduced : classes.Reduced table) :
    (M.cross v v' w w' classes).Faithful table true ∧
      M.Leads (M.cross v v' w w' classes) true := by
  obtain ⟨forV, hleftV, hrightV⟩ := h.classes hv
  obtain ⟨forW, hleftW, hrightW⟩ := h.classes hw
  have hne' : w' ≠ v' := fun heq => hne (h.unique.1 hv (heq ▸ hw))
  have hL := h.left.extends_join hleftV hleftW hne classes
  have hR := h.right.extends_join hrightW hrightV hne' classes
  have hbefore := h.crossed rfl
  have hother {u u' : TyVar} (hu : M.rel u u') (huv : u ≠ v) (huw : u ≠ w) :
      u' ≠ v' ∧ u' ≠ w' :=
    ⟨fun heq => huv (h.unique.1 (heq ▸ hu) hv),
      fun heq => huw (h.unique.1 (heq ▸ hu) hw)⟩
  have hnow : (M.cross v v' w w' classes).Faithful table true :=
    { left := hL.wellFormed
      right := hR.wellFormed
      classes := by
        rintro u u' (⟨hu, huv, huw⟩ | ⟨rfl, rfl⟩)
        · obtain ⟨others, hothers, hothers'⟩ := h.classes hu
          obtain ⟨huv', huw'⟩ := hother hu huv huw
          refine ⟨others, ?_, ?_⟩
          · rwa [Pairing.cross, Store.unsolvedClasses?_join hleftV hleftW hne,
              if_neg huv, if_neg huw]
          · rwa [Pairing.cross,
              Store.unsolvedClasses?_join hrightW hrightV hne', if_neg huw',
              if_neg huv']
        · exact ⟨classes, Store.unsolvedClasses?_join_self hleftV hleftW hne,
            Store.unsolvedClasses?_join_self hrightW hrightV hne'⟩
      unique := by
        constructor
        · rintro a b c (⟨ha, hav, -⟩ | ⟨rfl, rfl⟩) (⟨hb, hbv, -⟩ | ⟨rfl, hc⟩)
          · exact h.unique.1 ha hb
          · exact absurd (h.unique.1 (hc ▸ ha) hv) hav
          · exact absurd (h.unique.1 hb hv) hbv
          · rfl
        · rintro a b c (⟨hb, -, haw⟩ | ⟨rfl, rfl⟩) (⟨hc, -, haw'⟩ | ⟨ha, rfl⟩)
          · exact h.unique.2 hb hc
          · exact absurd ha haw
          · exact absurd rfl haw'
          · rfl
      crossed := fun _ => by
        have hrootV (u : TyVar) : M.left.root u = v ↔ M.right.root u = v' := by
          have hjoined := hbefore.joined u v
          rwa [Store.root_of_unsolved hleftV, hbefore.linked hv] at hjoined
        have hrootW (u : TyVar) : M.left.root u = w ↔ M.right.root u = w' := by
          have hjoined := hbefore.joined u w
          rwa [Store.root_of_unsolved hleftW, hbefore.linked hw] at hjoined
        refine ⟨?_, ?_, fun a b => ?_⟩
        · rintro u u' others (⟨hu, huv, huw⟩ | ⟨rfl, rfl⟩) hothers
          · rw [Pairing.cross, Store.unsolvedClasses?_join hleftV hleftW hne,
              if_neg huv, if_neg huw] at hothers
            exact hbefore.reduced hu hothers
          · rw [Pairing.cross,
              Store.unsolvedClasses?_join_self hleftV hleftW hne] at hothers
            rwa [← Option.some.inj hothers]
        · rintro u u' (⟨hu, huv, huw⟩ | ⟨rfl, rfl⟩)
          · rw [Pairing.cross, h.right.root_join hrightW hrightV hne',
              hbefore.linked hu, if_neg (hother hu huv huw).2]
          · rw [Pairing.cross, h.right.root_join hrightW hrightV hne',
              hbefore.linked hw, if_pos rfl]
        · simp only [Pairing.cross, h.left.root_join hleftV hleftW hne,
            h.right.root_join hrightW hrightV hne']
          have hjoined := hbefore.joined a b
          grind }
  refine ⟨hnow, hL, hR, fun u u' hu => ?_, fun hcrossed => by contradiction⟩
  by_cases huv : u = v
  · subst huv
    obtain rfl := h.unique.2 hu hv
    rw [Alike, Pairing.cross, h.left.zonk_join hleftV hleftW hne,
      h.right.zonk_join_self hrightW hrightV hne']
    exact .var (Or.inr ⟨rfl, rfl⟩)
  · by_cases huw : u = w
    · subst huw
      obtain rfl := h.unique.2 hu hw
      rw [Alike, Pairing.cross, h.left.zonk_join_self hleftV hleftW hne,
        h.right.zonk_join hrightW hrightV hne']
      exact .var (Or.inr ⟨rfl, rfl⟩)
    · exact hnow.alike_var (Or.inl ⟨hu, huv, huw⟩)

def fresh (M : Pairing) (base base' : String) (classes : ClassSet) : Pairing :=
  ⟨(M.left.fresh base classes).2, (M.right.fresh base' classes).2,
    fun v v' => M.rel v v' ∨ v = ⟨M.left.size⟩ ∧ v' = ⟨M.right.size⟩⟩

/-- Variables that are created at the same time are paired from then on. -/
theorem Faithful.fresh (h : M.Faithful table false) (base base' : String)
    (classes : ClassSet) :
    (M.fresh base base' classes).Faithful table false ∧
      M.Leads (M.fresh base base' classes) false := by
  have hold {v v' : TyVar} (hv : M.rel v v') :
      v ≠ ⟨M.left.size⟩ ∧ v' ≠ ⟨M.right.size⟩ := by
    obtain ⟨others, hleft, hright⟩ := h.classes hv
    have hlt := Store.lt_size_of_unsolvedClasses? hleft
    have hlt' := Store.lt_size_of_unsolvedClasses? hright
    constructor
    · rintro rfl
      exact Nat.lt_irrefl _ hlt
    · rintro rfl
      exact Nat.lt_irrefl _ hlt'
  have hnow : (M.fresh base base' classes).Faithful table false :=
    { left := h.left.fresh base classes
      right := h.right.fresh base' classes
      classes := by
        rintro v v' (hv | ⟨rfl, rfl⟩)
        · obtain ⟨others, hleft, hright⟩ := h.classes hv
          refine ⟨others, ?_, ?_⟩
          · rwa [Pairing.fresh, Store.unsolvedClasses?_fresh,
              if_neg (hold hv).1]
          · rwa [Pairing.fresh, Store.unsolvedClasses?_fresh,
              if_neg (hold hv).2]
        · exact ⟨classes, by simp [Pairing.fresh, Store.unsolvedClasses?_fresh],
            by simp [Pairing.fresh, Store.unsolvedClasses?_fresh]⟩
      unique := by
        constructor
        · rintro a b c (ha | ⟨rfl, rfl⟩) (hb | ⟨rfl, hc⟩)
          · exact h.unique.1 ha hb
          · exact absurd hc (hold ha).2
          · exact absurd rfl (hold hb).2
          · rfl
        · rintro a b c (hb | ⟨rfl, rfl⟩) (hc | ⟨ha, rfl⟩)
          · exact h.unique.2 hb hc
          · exact absurd ha (hold hb).1
          · exact absurd rfl (hold hc).1
          · rfl
      crossed := fun hcrossed => by contradiction }
  refine ⟨hnow, Store.extends_fresh h.left base classes,
    Store.extends_fresh h.right base' classes,
    fun _ _ hv => hnow.alike_var (Or.inl hv), fun _ v v' hv => ?_⟩
  rcases hv with hv | ⟨rfl, rfl⟩
  · exact Or.inl hv
  · exact Or.inr ⟨Nat.le_refl _, Nat.le_refl _⟩

end Pairing

end HindleyMilner

import HindleyMilner.Proofs.Extension
import HindleyMilner.Proofs.Session
import HindleyMilner.Proofs.Typing

/-
The states that an inference goes through.  The variables that signatures and
annotations leave open are generic: they are copied, never changed.  All else
happens apart from them, so every use of a signature sees the signature as it
was when the inference started.
-/

namespace HindleyMilner

/-- What stays fixed during an inference: the classes, the store that it
starts from, and the signatures and annotations. -/
structure Setting where
  table : ClassTable
  start : Store
  schemes : List (Ty TyVar)
  ordered : table.Ordered
  wellFormed : start.WellFormed
  inRange : ∀ t ∈ schemes, t.InRange start

namespace Setting

variable {S : Setting} {s s' s'' : Store} {v w : TyVar} {t u : Ty TyVar}
  {scheme : Ty TyVar}

/-! ### Generic variables -/

/-- Whether a signature or an annotation leaves a variable open. -/
def Generic (S : Setting) (v : TyVar) : Prop :=
  ∃ scheme ∈ S.schemes, v ∈ (S.start.zonk scheme).vars

/-- Whether a variable leads to no generic one. -/
def Apart (S : Setting) (v : TyVar) : Prop :=
  ∀ w ∈ (S.start.zonk (.var v)).vars, ¬ S.Generic w

theorem Generic.solution? (h : S.Generic v) : S.start.solution? v = none := by
  rcases h with ⟨scheme, -, hv⟩
  exact S.wellFormed.solution?_of_mem_zonk hv

theorem Generic.lt_size (h : S.Generic v) : v.index < S.start.size := by
  rcases h with ⟨scheme, hscheme, hv⟩
  exact S.wellFormed.inRange_zonk (S.inRange scheme hscheme) v hv

/-- A generic variable is not apart, as it leads to itself. -/
theorem Generic.not_apart (h : S.Generic v) : ¬ S.Apart v := by
  intro hapart
  apply hapart v _ h
  rw [S.wellFormed.zonk_var_unsolved h.solution?]
  exact Ty.mem_vars_var.2 rfl

/-- Variables newer than the setting lead to no generic one. -/
theorem apart_of_new (h : S.start.size ≤ v.index) : S.Apart v := by
  intro w hw hgeneric
  have hnone : S.start.solution? v = none := by
    by_contra hsome
    obtain ⟨t, ht⟩ := Option.ne_none_iff_exists'.1 hsome
    have := Store.lt_size_of_solution? ht
    omega
  rw [S.wellFormed.zonk_var_unsolved hnone, Ty.mem_vars_var] at hw
  have := hgeneric.lt_size
  rw [hw] at this
  omega

theorem apart_of_mem_zonk_apart
    (ht : ∀ w ∈ (S.start.zonk t).vars, ¬ S.Generic w) (hv : v ∈ t.vars) :
    S.Apart v := by
  intro w hw
  apply ht
  rw [S.wellFormed.zonk_eq_bind, Ty.mem_vars_bind]
  exact ⟨v, hv, hw⟩

theorem Apart.of_solution? (h : S.Apart v)
    (ht : S.start.solution? v = some t) (hw : w ∈ t.vars) : S.Apart w := by
  apply apart_of_mem_zonk_apart _ hw
  rw [← S.wellFormed.zonk_var_solved ht]
  exact h

/-! ### States of an inference -/

/-- Whether a type may come up in the inference: its variables exist and are
apart from the generic ones. -/
def Admits (S : Setting) (s : Store) (t : Ty TyVar) : Prop :=
  ∀ v ∈ t.vars, v.index < s.size ∧ S.Apart v

/-- Types stay admissible while a store gets more variables. -/
theorem Admits.mono (h : S.Admits s t) (hsize : s.size ≤ s'.size) :
    S.Admits s' t :=
  fun v hv => ⟨Nat.lt_of_lt_of_le (h v hv).1 hsize, (h v hv).2⟩

theorem Admits.inRange (h : S.Admits s t) : t.InRange s :=
  fun v hv => (h v hv).1

theorem Admits.arrow (ht : S.Admits s t) (hu : S.Admits s u) :
    S.Admits s (.arrow t u) :=
  fun v hv => (Ty.mem_vars_arrow.1 hv).elim (ht v) (hu v)

theorem Admits.arrows {params : List (Ty TyVar)}
    (hparams : ∀ t ∈ params, S.Admits s t) (hu : S.Admits s u) :
    S.Admits s (.arrows params u) := by
  intro v hv
  rcases Ty.mem_vars_arrows.1 hv with ⟨param, hparam, hv⟩ | hv
  · exact hparams param hparam v hv
  · exact hu v hv

/-- What holds of the view and the store in the middle of an inference. -/
structure State (S : Setting) (view : View) (s : Store) : Prop where
  wellFormed : s.WellFormed
  size_le : S.start.size ≤ s.size
  closed : ∀ ⦃v t⦄, S.Apart v → s.solution? v = some t →
    ∀ w ∈ t.vars, S.Apart w
  outside : ∀ ⦃v⦄, ¬ S.Apart v →
    s.cells[v.index]? = S.start.cells[v.index]?
  satisfied : ∀ a : Assignment S.table,
    s.SatisfiedBy a → S.start.SatisfiedBy a
  binders : ∀ ⦃id t⦄, view.binders.lookup id = some t → S.Admits s t

/-- Whether a store comes later in an inference: it has more variables and is
harder to satisfy. -/
structure Later (S : Setting) (s s' : Store) : Prop where
  size_le : s.size ≤ s'.size
  satisfied : ∀ a : Assignment S.table, s'.SatisfiedBy a → s.SatisfiedBy a

theorem Later.refl (s : Store) : S.Later s s :=
  ⟨Nat.le_refl _, fun _ h => h⟩

theorem Later.trans (h : S.Later s s') (h' : S.Later s' s'') :
    S.Later s s'' :=
  ⟨Nat.le_trans h.size_le h'.size_le,
    fun a ha => h.satisfied a (h'.satisfied a ha)⟩

variable {view : View}

/-- An inference starts in a state: nothing is found, and nothing has been
solved. -/
theorem state_start (S : Setting) : S.State .empty S.start where
  wellFormed := S.wellFormed
  size_le := Nat.le_refl _
  closed _ _ hv ht _ hw := hv.of_solution? ht hw
  outside _ _ := rfl
  satisfied _ h := h
  binders _ _ h := by simp [View.empty] at h

/-! ### Signatures stay as they are -/

/-- What a signature leaves open stays open, with the same classes, whatever is
inferred. -/
theorem State.unsolvedClasses?_generic (h : S.State view s)
    (hv : S.Generic v) :
    s.unsolvedClasses? v = S.start.unsolvedClasses? v := by
  rw [Store.unsolvedClasses?, h.outside hv.not_apart, Store.unsolvedClasses?]

theorem State.solution?_generic (h : S.State view s) (hv : S.Generic v) :
    s.solution? v = none := by
  rw [Store.solution?, h.outside hv.not_apart]
  exact hv.solution?

theorem State.extends (h : S.State view s) : S.start.Extends s :=
  .of_satisfied S.ordered h.wellFormed h.size_le h.satisfied

/-- A type that is made of generic variables stands for the same throughout. -/
theorem State.zonk_generic (h : S.State view s)
    (ht : ∀ v ∈ (S.start.zonk t).vars, S.Generic v) :
    s.zonk t = S.start.zonk t :=
  h.extends.zonk_eq fun v hv => h.solution?_generic (ht v hv)

/-- What a signature or an annotation stands for never changes during an
inference. -/
theorem State.zonk_scheme (h : S.State view s) (hscheme : scheme ∈ S.schemes) :
    s.zonk scheme = S.start.zonk scheme :=
  h.zonk_generic fun _ hv => ⟨scheme, hscheme, hv⟩

/-! ### Fresh variables -/

/-- A fresh variable disturbs nothing. -/
theorem State.fresh (h : S.State view s) (base : String)
    (classes : ClassSet) : S.State view (s.fresh base classes).2 where
  wellFormed := h.wellFormed.fresh base classes
  size_le := by
    rw [Store.size_fresh]
    exact Nat.le_succ_of_le h.size_le
  closed v t hv ht := by
    rw [Store.solution?_fresh] at ht
    exact h.closed hv ht
  outside v hv := by
    rw [Store.getElem?_cells_fresh v fun hindex =>
      hv (apart_of_new (by rw [hindex]; exact h.size_le))]
    exact h.outside hv
  satisfied a ha := h.satisfied a (Store.satisfiedBy_fresh_iff.1 ha).1
  binders id t ht := (h.binders ht).mono (by simp)

theorem later_fresh (base : String) (classes : ClassSet) :
    S.Later s (s.fresh base classes).2 :=
  ⟨by simp, fun _ ha => (Store.satisfiedBy_fresh_iff.1 ha).1⟩

theorem State.admits_fresh (h : S.State view s) (base : String)
    (classes : ClassSet) :
    S.Admits (s.fresh base classes).2 (.var ⟨s.size⟩) := by
  intro v hv
  rw [Ty.mem_vars_var.1 hv, Store.size_fresh]
  exact ⟨Nat.lt_succ_self _, apart_of_new h.size_le⟩

/-! ### Unification -/

/-- No walk from a variable that is apart meets a generic one, however far the
inference has come. -/
theorem State.apart_of_reach (h : S.State view s) (hv : S.Apart v)
    (hreach : Relation.ReflTransGen s.Mentions v w) : S.Apart w := by
  induction hreach with
  | refl => exact hv
  | tail _ hstep ih =>
      rcases hstep with ⟨t, ht, hw⟩
      exact h.closed ih ht _ hw

/-- Unifying types that may come up leaves the generic variables alone. -/
theorem State.unify (h : S.State view s) {want got : Ty TyVar}
    (hwant : S.Admits s want) (hgot : S.Admits s got)
    (hevolves : Store.Evolves S.table (.reach s [want, got]) s s') :
    S.State view s' := by
  have hinside : ∀ v, (Footprint.reach s [want, got]).vars v → S.Apart v := by
    rintro v ⟨t, ht, w, hw, hreach⟩
    refine h.apart_of_reach ?_ hreach
    rcases List.mem_pair.1 ht with rfl | rfl
    · exact (hwant w hw).2
    · exact (hgot w hw).2
  refine
    { wellFormed := hevolves.wellFormed
      size_le := Nat.le_trans h.size_le (Nat.le_of_eq hevolves.size_eq.symm)
      closed := fun v t hv ht w hw => ?_
      outside := fun v hv =>
        (hevolves.outside fun hin => hv (hinside v hin)).trans (h.outside hv)
      satisfied := fun a ha => h.satisfied a (hevolves.satisfied a ha)
      binders := fun id t ht =>
        (h.binders ht).mono (Nat.le_of_eq hevolves.size_eq.symm) }
  by_cases hin : (Footprint.reach s [want, got]).vars v
  · exact hinside w (hevolves.supports.closed hin ht w hw)
  · rw [Store.solution?, hevolves.outside hin] at ht
    exact h.closed hv ht w hw

end Setting

end HindleyMilner

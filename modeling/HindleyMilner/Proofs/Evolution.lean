import HindleyMilner.Unify
import HindleyMilner.Proofs.Assignment

/-
What a run of unification does to a store, said once for all of its parts.
The store evolves inside a footprint, a set of variables that its solutions
never leave, and it only becomes harder to satisfy.  A run that imposes a goal
ends in a store that is satisfied exactly where the goal holds as well, and
if it fails, no ground assignment reaches the goal, unless the run got stuck
on an application of a variable.
-/

namespace HindleyMilner

/-- Variables that a run may read and change, and a bound on the heights of
the types that it meets. -/
structure Footprint where
  vars : TyVar → Prop
  height : Nat

namespace Footprint

variable {F : Footprint} {s : Store} {v w : TyVar} {t : Ty TyVar}

/-- Whether a type is made of variables of the footprint and not too high. -/
structure Covers (F : Footprint) (t : Ty TyVar) : Prop where
  height_le : t.height ≤ F.height
  vars : ∀ v ∈ t.vars, F.vars v

/-- Whether the variables of the footprint exist and lead nowhere else. -/
structure Supports (F : Footprint) (s : Store) : Prop where
  inRange : ∀ ⦃v⦄, F.vars v → v.index < s.size
  closed : ∀ ⦃v t⦄, F.vars v → s.solution? v = some t →
    ∀ w ∈ t.vars, F.vars w
  height_le : ∀ ⦃v t⦄, s.solution? v = some t → t.height ≤ F.height

theorem covers_var (hv : F.vars v) : F.Covers (.var v) :=
  ⟨Nat.zero_le _, fun w hw => by rwa [Ty.mem_vars_var.1 hw]⟩

theorem Covers.func {func arg : Ty TyVar} (h : F.Covers (.app func arg)) :
    F.Covers func := by
  have hheight := h.height_le
  simp only [Ty.height] at hheight
  exact ⟨by omega, fun v hv => h.vars v (Ty.mem_vars_app.2 (Or.inl hv))⟩

theorem Covers.arg {func arg : Ty TyVar} (h : F.Covers (.app func arg)) :
    F.Covers arg := by
  have hheight := h.height_le
  simp only [Ty.height] at hheight
  exact ⟨by omega, fun v hv => h.vars v (Ty.mem_vars_app.2 (Or.inr hv))⟩

theorem Covers.inRange (h : F.Covers t) (hF : F.Supports s) : t.InRange s :=
  fun v hv => hF.inRange (h.vars v hv)

theorem Supports.covers_solution (hF : F.Supports s) (hv : F.vars v)
    (ht : s.solution? v = some t) : F.Covers t :=
  ⟨hF.height_le ht, hF.closed hv ht⟩

/-- No path leads out of the footprint. -/
theorem Supports.of_mentions (hF : F.Supports s) (hv : F.vars v)
    (h : Relation.ReflTransGen s.Mentions v w) : F.vars w := by
  induction h with
  | refl => exact hv
  | tail _ hstep ih =>
      rcases hstep with ⟨t, ht, hw⟩
      exact hF.closed ih ht _ hw

theorem Supports.covers_resolve (hF : F.Supports s) (ht : F.Covers t) :
    F.Covers (s.resolve t) := by
  cases t with
  | con name => exact ht
  | app func arg => exact ht
  | var v =>
      have hv : F.vars v := ht.vars v (Ty.mem_vars_var.2 rfl)
      have hroot : F.vars (s.root v) :=
        hF.of_mentions hv (s.reflTransGen_rootWithin s.size v)
      rw [Store.resolve, Store.rootTy]
      cases hsolution : s.solution? (s.root v) with
      | none => exact covers_var hroot
      | some solution => exact hF.covers_solution hroot hsolution

theorem covers_of_mem_spineOnto {args : List (Ty TyVar)} {arg : Ty TyVar}
    (ht : F.Covers t) (hargs : ∀ arg ∈ args, F.Covers arg)
    (harg : arg ∈ (t.spineOnto args).2) : F.Covers arg := by
  induction t generalizing args with
  | var v => exact hargs arg harg
  | con name => exact hargs arg harg
  | app func last ihFunc _ =>
      refine ihFunc ht.func (fun arg' harg' => ?_) harg
      rcases List.mem_cons.1 harg' with rfl | hold
      · exact ht.arg
      · exact hargs arg' hold

theorem Supports.covers_of_mem_spineWithin (hF : F.Supports s) {n : Nat}
    {args : List (Ty TyVar)} {arg : Ty TyVar} (ht : F.Covers t)
    (hargs : ∀ arg ∈ args, F.Covers arg)
    (harg : arg ∈ (s.spineWithin n t args).2) : F.Covers arg := by
  induction n generalizing t args with
  | zero => exact covers_of_mem_spineOnto ht hargs harg
  | succ n ih =>
      rw [Store.spineWithin] at harg
      split at harg
      · rename_i v rest hspine
        have hrest : ∀ arg ∈ rest, F.Covers arg := by
          intro arg harg
          exact covers_of_mem_spineOnto ht hargs (by rwa [hspine])
        split at harg
        · rename_i solution hsolution
          have hv : F.vars v :=
            ht.vars v (Ty.mem_vars_of_spineOnto (by rw [hspine]))
          exact ih (hF.covers_solution hv hsolution) hrest harg
        · exact hrest arg harg
      · exact covers_of_mem_spineOnto ht hargs harg

theorem Supports.covers_of_mem_spine (hF : F.Supports s) {arg : Ty TyVar}
    (ht : F.Covers t) (harg : arg ∈ (s.spine t).2) : F.Covers arg :=
  hF.covers_of_mem_spineWithin ht (fun _ h => absurd h List.not_mem_nil) harg

theorem Supports.vars_of_mem_zonk (hF : F.Supports s)
    (ht : ∀ w ∈ t.vars, F.vars w) (hv : v ∈ (s.zonk t).vars) : F.vars v := by
  obtain ⟨w, hw, hreach⟩ := Store.exists_reach_of_mem_zonk hv
  exact hF.of_mentions (ht w hw) hreach

/-- The height of a type with all solutions looked through is bounded by the
number of variables. -/
theorem Supports.height_zonkWithin_le (hF : F.Supports s)
    (wf : s.WellFormed) {n : Nat} (hlevel : s.LevelLe n t) :
    (s.zonkWithin n t).height ≤ t.height + n * F.height := by
  induction n generalizing t with
  | zero => simp [Store.zonkWithin]
  | succ n ih =>
      rw [Store.zonkWithin, Nat.succ_mul]
      apply Nat.le_trans (Ty.height_bind_le (n := n * F.height + F.height) _)
      · omega
      · intro v hv
        split
        · rename_i solution hsolution
          have hsub := ih (wf.levelLe_solution (hlevel v hv) hsolution)
          have := hF.height_le hsolution
          omega
        · exact Nat.zero_le _

/-- What a covered type stands for is lower than the bound that unification
starts with. -/
theorem Supports.height_zonk_lt (hF : F.Supports s) (wf : s.WellFormed)
    (ht : F.Covers t) :
    (s.zonk t).height < (s.size + 1) * (F.height + 1) := by
  have hzonk := hF.height_zonkWithin_le wf (s.levelLe_size t)
  have hheight := ht.height_le
  rw [Store.zonk]
  calc (s.zonkWithin s.size t).height
      ≤ F.height + s.size * F.height := by omega
    _ < (s.size + 1) * (F.height + 1) := by
        rw [Nat.add_mul, Nat.mul_add]
        omega

/-- What a store leads to from some types, with a bound on the heights of
these types and of all solutions. -/
def reach (s : Store) (ts : List (Ty TyVar)) : Footprint where
  vars v := ∃ t ∈ ts, ∃ w ∈ t.vars, Relation.ReflTransGen s.Mentions w v
  height := ts.foldr (fun t highest => max t.height highest) s.height

theorem le_foldr_max_height {ts : List (Ty TyVar)} {n : Nat} :
    n ≤ ts.foldr (fun t highest => max t.height highest) n ∧
      ∀ t ∈ ts, t.height ≤
        ts.foldr (fun t highest => max t.height highest) n := by
  induction ts with
  | nil => simp
  | cons head tail ih =>
      rcases ih with ⟨hn, htail⟩
      simp only [List.foldr_cons, List.forall_mem_cons]
      exact ⟨by omega, by omega, fun t ht => by have := htail t ht; omega⟩

theorem Covers.reach {ts : List (Ty TyVar)} (ht : t ∈ ts) :
    (Footprint.reach s ts).Covers t :=
  ⟨le_foldr_max_height.2 t ht, fun v hv => ⟨t, ht, v, hv, .refl⟩⟩

/-- What types lead to is a footprint. -/
theorem Supports.reach {ts : List (Ty TyVar)} (wf : s.WellFormed)
    (hts : ∀ t ∈ ts, t.InRange s) : (Footprint.reach s ts).Supports s where
  inRange := by
    rintro v ⟨t, ht, w, hw, hreach⟩
    exact wf.lt_size_of_reach (hts t ht w hw) hreach
  closed := by
    rintro v solution ⟨t, ht, w, hw, hreach⟩ hsolution u hu
    exact ⟨t, ht, w, hw, hreach.tail ⟨solution, hsolution, hu⟩⟩
  height_le _ _ hsolution :=
    Nat.le_trans (Store.height_le_of_solution? hsolution) le_foldr_max_height.1

/-- A footprint contains what its types lead to. -/
theorem Supports.vars_of_reach (hF : F.Supports s) {ts : List (Ty TyVar)}
    (hts : ∀ t ∈ ts, F.Covers t) (hv : (Footprint.reach s ts).vars v) :
    F.vars v := by
  rcases hv with ⟨t, ht, w, hw, hreach⟩
  exact hF.of_mentions ((hts t ht).vars w hw) hreach

theorem Supports.height_reach_le (hF : F.Supports s) {ts : List (Ty TyVar)}
    (hts : ∀ t ∈ ts, F.Covers t) :
    (Footprint.reach s ts).height ≤ F.height := by
  have hstore : s.height ≤ F.height :=
    Store.height_le fun _ _ ht => hF.height_le ht
  rw [Footprint.reach]
  induction ts with
  | nil => exact hstore
  | cons head tail ih =>
      rw [List.forall_mem_cons] at hts
      exact Nat.max_le.2 ⟨hts.1.height_le, ih hts.2⟩

end Footprint

namespace Store

variable {table : ClassTable} {F : Footprint} {s s' s'' : Store}
  {v w : TyVar} {t : Ty TyVar} {classes : ClassSet}

/-- Whether `s'` may have come from `s` by changes inside the footprint: it is
harder to satisfy, and outside nothing has changed. -/
structure Evolves (table : ClassTable) (F : Footprint) (s s' : Store) :
    Prop where
  wellFormed : s'.WellFormed
  supports : F.Supports s'
  size_eq : s'.size = s.size
  outside : ∀ ⦃v⦄, ¬ F.vars v → s'.cells[v.index]? = s.cells[v.index]?
  satisfied : ∀ a : Assignment table, s'.SatisfiedBy a → s.SatisfiedBy a

theorem Evolves.refl (wf : s.WellFormed) (hF : F.Supports s) :
    Evolves table F s s :=
  ⟨wf, hF, rfl, fun _ _ => rfl, fun _ h => h⟩

theorem Evolves.trans (h : Evolves table F s s')
    (h' : Evolves table F s' s'') : Evolves table F s s'' where
  wellFormed := h'.wellFormed
  supports := h'.supports
  size_eq := h'.size_eq.trans h.size_eq
  outside _ hv := (h'.outside hv).trans (h.outside hv)
  satisfied a ha := h.satisfied a (h'.satisfied a ha)

/-- Where a store has evolved, it may evolve further. -/
theorem Evolves.here (h : Evolves table F s s') : Evolves table F s' s' :=
  .refl h.wellFormed h.supports

/-- Changes inside a part of a footprint are changes inside the footprint. -/
theorem Evolves.mono {F' : Footprint} (h : Evolves table F' s s')
    (hF : F.Supports s) (hvars : ∀ v, F'.vars v → F.vars v)
    (hheight : F'.height ≤ F.height) : Evolves table F s s' where
  wellFormed := h.wellFormed
  supports :=
    { inRange := fun v hv => by
        rw [h.size_eq]
        exact hF.inRange hv
      closed := fun v t hv ht w hw => by
        by_cases hv' : F'.vars v
        · exact hvars w (h.supports.closed hv' ht w hw)
        · rw [solution?, h.outside hv'] at ht
          exact hF.closed hv ht w hw
      height_le := fun _ _ ht =>
        Nat.le_trans (h.supports.height_le ht) hheight }
  size_eq := h.size_eq
  outside v hv := h.outside fun hv' => hv (hvars v hv')
  satisfied := h.satisfied

/-- Types that have the same value in all assignments of a store stand for the
same type at all later times. -/
theorem Evolves.zonk_eq_of_eval_eq (ordered : table.Ordered)
    (h : Evolves table F s s') {t u : Ty TyVar}
    (heval : ∀ a : Assignment table, s.SatisfiedBy a → a.eval t = a.eval u) :
    s'.zonk t = s'.zonk u := by
  rw [← h.wellFormed.eval_zonkAssignment ordered t,
    ← h.wellFormed.eval_zonkAssignment ordered u]
  exact heval _
    (h.satisfied _ (h.wellFormed.satisfiedBy_zonkAssignment ordered))

/-! ### Single changes -/

theorem Evolves.setBinding_unsolved (hs : Evolves table F s s)
    (hv : F.vars v) (h : s.unsolvedClasses? v = some classes)
    {others : ClassSet}
    (hsat : ∀ a : Assignment table,
      (s.setBinding v (.unsolved others)).SatisfiedBy a → s.SatisfiedBy a) :
    Evolves table F s (s.setBinding v (.unsolved others)) where
  wellFormed := hs.wellFormed.setBinding_unsolved h others
  supports :=
    { inRange := fun w hw => by simpa using hs.supports.inRange hw
      closed := fun w t hw ht => by
        rw [solution?_setBinding_unsolved h] at ht
        exact hs.supports.closed hw ht
      height_le := fun w t ht => by
        rw [solution?_setBinding_unsolved h] at ht
        exact hs.supports.height_le ht }
  size_eq := size_setBinding _ _ _
  outside w hw := getElem?_cells_setBinding_of_ne fun heq => hw (heq ▸ hv)
  satisfied := hsat

/-- A variable inside the footprint may be solved to a covered type that does
not have it. -/
theorem Evolves.setBinding_solved (hs : Evolves table F s s)
    (hv : F.vars v) (ht : F.Covers t)
    (h : s.unsolvedClasses? v = some classes)
    (hoccurs : v ∉ (s.zonk t).vars)
    (hsat : ∀ a : Assignment table,
      (s.setBinding v (.solved t)).SatisfiedBy a → s.SatisfiedBy a) :
    Evolves table F s (s.setBinding v (.solved t)) where
  wellFormed :=
    hs.wellFormed.setBinding_solved h (ht.inRange hs.supports) hoccurs
  supports :=
    { inRange := fun w hw => by simpa using hs.supports.inRange hw
      closed := fun w u hw hu => by
        rw [solution?_setBinding_solved (lt_size_of_unsolvedClasses? h)] at hu
        split at hu
        · obtain rfl := Option.some.inj hu
          exact ht.vars
        · exact hs.supports.closed hw hu
      height_le := fun w u hu => by
        rw [solution?_setBinding_solved (lt_size_of_unsolvedClasses? h)] at hu
        split at hu
        · obtain rfl := Option.some.inj hu
          exact ht.height_le
        · exact hs.supports.height_le hu }
  size_eq := size_setBinding _ _ _
  outside w hw := getElem?_cells_setBinding_of_ne fun heq => hw (heq ▸ hv)
  satisfied := hsat

theorem Evolves.compress (hs : Evolves table F s s) (hv : F.vars v) :
    Evolves table F s (s.compress v) := by
  have hroot : F.vars (s.root v) :=
    hs.supports.of_mentions hv (s.reflTransGen_rootWithin s.size v)
  refine
    { wellFormed := hs.wellFormed.compress v
      supports :=
        { inRange := fun w hw => by simpa using hs.supports.inRange hw
          closed := fun w t hw ht => ?_
          height_le := fun w t ht => ?_ }
      size_eq := size_compress s v
      outside := fun w hw => getElem?_cells_compress fun hpassed =>
        hw (hs.supports.of_mentions hv
          (reflTransGen_of_mem_passedWithin hpassed))
      satisfied := fun a => (satisfiedBy_compress_iff v).1 }
  · rw [solution?_compress] at ht
    split at ht
    · obtain rfl := Option.some.inj ht
      exact (Footprint.covers_var hroot).vars
    · exact hs.supports.closed hw ht
  · rw [solution?_compress] at ht
    split at ht
    · obtain rfl := Option.some.inj ht
      exact Nat.zero_le _
    · exact hs.supports.height_le ht

/-- What pruning a type in `s` does: all values stay, and what is returned is
covered and no solved variable. -/
structure Pruned (table : ClassTable) (F : Footprint) (s : Store)
    (t : Ty TyVar) (s' : Store) : Prop where
  evolves : Evolves table F s s'
  satisfied_iff : ∀ a : Assignment table, s'.SatisfiedBy a ↔ s.SatisfiedBy a
  unsolvedClasses?_eq : ∀ v, s'.unsolvedClasses? v = s.unsolvedClasses? v
  covers : F.Covers (s.resolve t)
  unsolved : ∀ ⦃v⦄, s.resolve t = .var v →
    ∃ classes, s'.unsolvedClasses? v = some classes

theorem Evolves.exists_unsolvedClasses?_of_resolve (hs : Evolves table F s s)
    (ht : F.Covers t) (h : s.resolve t = .var v) :
    ∃ classes, s.unsolvedClasses? v = some classes := by
  have hcovers := hs.supports.covers_resolve ht
  rw [h] at hcovers
  have hrange := hcovers.inRange hs.supports v (Ty.mem_vars_var.2 rfl)
  exact exists_unsolvedClasses? hrange (hs.wellFormed.solution?_of_resolve h)

theorem Evolves.pruned (hs : Evolves table F s s) (ht : F.Covers t) :
    Pruned table F s t (s.prune t).2 := by
  have hcovers := hs.supports.covers_resolve ht
  cases t with
  | con name =>
      exact ⟨hs, fun _ => Iff.rfl, fun _ => rfl, hcovers,
        fun _ => hs.exists_unsolvedClasses?_of_resolve ht⟩
  | app func arg =>
      exact ⟨hs, fun _ => Iff.rfl, fun _ => rfl, hcovers,
        fun _ => hs.exists_unsolvedClasses?_of_resolve ht⟩
  | var v =>
      refine ⟨hs.compress (ht.vars v (Ty.mem_vars_var.2 rfl)),
        fun a => satisfiedBy_compress_iff v, unsolvedClasses?_compress s v,
        hcovers, fun w hw => ?_⟩
      rw [prune, unsolvedClasses?_compress]
      exact hs.exists_unsolvedClasses?_of_resolve ht hw

/-! ### Depth -/

/-- What is known of a type that has been looked up: if it still is a
variable, the variable is unsolved. -/
structure Resolved (F : Footprint) (s : Store) (t : Ty TyVar) : Prop where
  covers : F.Covers t
  unsolved : ∀ ⦃v⦄, t = .var v →
    F.vars v ∧ ∃ classes, s.unsolvedClasses? v = some classes

theorem Pruned.resolved (h : Pruned table F s t s') :
    Resolved F s' (s.resolve t) := by
  refine ⟨h.covers, fun v hv => ⟨?_, h.unsolved hv⟩⟩
  have hcovers := h.covers
  rw [hv] at hcovers
  exact hcovers.vars v (Ty.mem_vars_var.2 rfl)

theorem Resolved.later (h : Resolved F s t)
    (heq : ∀ v, s'.unsolvedClasses? v = s.unsolvedClasses? v) :
    Resolved F s' t :=
  ⟨h.covers, fun v hv => by rw [heq]; exact h.unsolved hv⟩

/-- Whether a type stays lower than a bound for as long as the store
evolves. -/
def Shallow (table : ClassTable) (F : Footprint) (s : Store) (t : Ty TyVar)
    (depth : Nat) : Prop :=
  ∀ ⦃s'⦄, Evolves table F s s' → (s'.zonk t).height < depth

theorem Shallow.later {depth : Nat} (h : Shallow table F s t depth)
    (hs : Evolves table F s s') : Shallow table F s' t depth :=
  fun _ hs' => h (hs.trans hs')

/-- The footprint bounds how deep any covered type can ever become. -/
theorem shallow_of_le (ht : F.Covers t) {depth : Nat}
    (hdepth : (s.size + 1) * (F.height + 1) ≤ depth) :
    Shallow table F s t depth := by
  intro s' hs'
  have hlt := hs'.supports.height_zonk_lt hs'.wellFormed ht
  rw [hs'.size_eq] at hlt
  omega

/-- A type that stays low while a store evolves stays low while the store
evolves in a part of the footprint. -/
theorem Shallow.reach {ts : List (Ty TyVar)} {depth : Nat}
    (h : Shallow table F s t depth) (hs : Evolves table F s s)
    (hts : ∀ t ∈ ts, F.Covers t) :
    Shallow table (.reach s ts) s t depth :=
  fun _ hs' => h (hs'.mono hs.supports
    (fun _ hv => hs.supports.vars_of_reach hts hv)
    (hs.supports.height_reach_le hts))

theorem Shallow.func {func arg : Ty TyVar} {depth : Nat}
    (h : Shallow table F s (.app func arg) (depth + 1)) :
    Shallow table F s func depth := by
  intro s' hs'
  have hlt := h hs'
  rw [hs'.wellFormed.zonk_app, Ty.height] at hlt
  omega

theorem Shallow.arg {func arg : Ty TyVar} {depth : Nat}
    (h : Shallow table F s (.app func arg) (depth + 1)) :
    Shallow table F s arg depth := by
  intro s' hs'
  have hlt := h hs'
  rw [hs'.wellFormed.zonk_app, Ty.height] at hlt
  omega

theorem Shallow.resolve (ordered : table.Ordered) {depth : Nat}
    (h : Shallow table F s t depth) :
    Shallow table F s (s.resolve t) depth := by
  intro s' hs'
  rw [hs'.zonk_eq_of_eval_eq ordered fun a ha => ha.solved.eval_resolve t]
  exact h hs'

/-- The arguments of a type are at least one level lower, so requirements on
them need one level less. -/
theorem Shallow.of_mem_spine (ordered : table.Ordered) {depth : Nat}
    {arg : Ty TyVar} (h : Shallow table F s t (depth + 1))
    (harg : arg ∈ (s.spine t).2) : Shallow table F s arg depth := by
  intro s' hs'
  let a := s'.zonkAssignment ordered
  have hsat : s.SatisfiedBy a :=
    hs'.satisfied a (hs'.wellFormed.satisfiedBy_zonkAssignment ordered)
  have heval (u : Ty TyVar) : a.eval u = s'.zonk u :=
    hs'.wellFormed.eval_zonkAssignment ordered u
  have hheight : (a.eval arg).height < (a.eval t).height := by
    rw [hsat.solved.eval_spine t]
    exact Ty.height_lt_height_applyTo (List.mem_map_of_mem harg)
  have hlt := h hs'
  rw [← heval] at hlt ⊢
  exact Nat.lt_of_lt_of_le hheight (Nat.le_of_lt_succ hlt)

end Store

end HindleyMilner

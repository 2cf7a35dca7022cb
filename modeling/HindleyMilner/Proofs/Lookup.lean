import HindleyMilner.Proofs.Extension

/-
Types looked at one level at a time.  Looking up the top of a type, and then
the tops of its two parts, comes to an end, since what a type stands for is
finite.  All walks into a type are functions of what is looked up on the way.
-/

namespace HindleyMilner.Store

variable {s s' : Store} {v w : TyVar} {t func arg : Ty TyVar}

/-! ### What a type stands for -/

theorem WellFormed.zonk_of_resolve_var (wf : s.WellFormed)
    (h : s.resolve t = .var v) : s.zonk t = .var v := by
  rw [← wf.zonk_resolve, h, wf.zonk_var_unsolved (wf.solution?_of_resolve h)]

theorem WellFormed.zonk_of_resolve_con (wf : s.WellFormed) {name : Name}
    (h : s.resolve t = .con name) : s.zonk t = .con name := by
  rw [← wf.zonk_resolve, h, wf.zonk_con]

theorem WellFormed.zonk_of_resolve_app (wf : s.WellFormed)
    (h : s.resolve t = .app func arg) :
    s.zonk t = .app (s.zonk func) (s.zonk arg) := by
  rw [← wf.zonk_resolve, h, wf.zonk_app]

theorem WellFormed.resolve_of_zonk_var (wf : s.WellFormed)
    (h : s.zonk t = .var v) : s.resolve t = .var v := by
  cases hresolve : s.resolve t with
  | var w => rw [← h, wf.zonk_of_resolve_var hresolve]
  | con name => simp [wf.zonk_of_resolve_con hresolve] at h
  | app func arg => simp [wf.zonk_of_resolve_app hresolve] at h

theorem WellFormed.resolve_resolve (wf : s.WellFormed) (t : Ty TyVar) :
    s.resolve (s.resolve t) = s.resolve t := by
  cases hresolve : s.resolve t with
  | var v =>
      exact wf.resolve_of_zonk_var
        (wf.zonk_var_unsolved (wf.solution?_of_resolve hresolve))
  | con name => rfl
  | app func arg => rfl

/-- What is no variable stands for none. -/
theorem WellFormed.zonk_ne_var (wf : s.WellFormed) (h : ∀ w, t ≠ .var w)
    (v : TyVar) : s.zonk t ≠ .var v := by
  cases t with
  | var w => exact absurd rfl (h w)
  | con name => simp [wf.zonk_con]
  | app func arg => simp [wf.zonk_app]

theorem WellFormed.resolve_of_zonk_con (wf : s.WellFormed) {name : Name}
    (h : s.zonk t = .con name) : s.resolve t = .con name := by
  cases hresolve : s.resolve t with
  | var w => simp [wf.zonk_of_resolve_var hresolve] at h
  | con other => rw [← h, wf.zonk_of_resolve_con hresolve]
  | app func arg => simp [wf.zonk_of_resolve_app hresolve] at h

/-- A type that stands for an application shows one when it is looked up. -/
theorem WellFormed.resolve_of_zonk_app (wf : s.WellFormed)
    (h : s.zonk t = .app func arg) :
    ∃ func' arg', s.resolve t = .app func' arg' ∧
      s.zonk func' = func ∧ s.zonk arg' = arg := by
  cases hresolve : s.resolve t with
  | var w => simp [wf.zonk_of_resolve_var hresolve] at h
  | con name => simp [wf.zonk_of_resolve_con hresolve] at h
  | app func' arg' =>
      rw [wf.zonk_of_resolve_app hresolve, Ty.app.injEq] at h
      exact ⟨func', arg', rfl, h⟩

/-- Induction on what a type stands for, where only one level of it is looked
up at a time. -/
theorem WellFormed.resolve_induction (wf : s.WellFormed)
    {motive : Ty TyVar → Prop}
    (var : ∀ t v, s.resolve t = .var v → motive t)
    (con : ∀ t name, s.resolve t = .con name → motive t)
    (app : ∀ t func arg, s.resolve t = .app func arg →
      motive func → motive arg → motive t) (t : Ty TyVar) : motive t := by
  have hall : ∀ n, ∀ t, (s.zonk t).height < n → motive t := by
    intro n
    induction n with
    | zero => exact fun t h => absurd h (Nat.not_lt_zero _)
    | succ n ih =>
        intro t hheight
        cases hresolve : s.resolve t with
        | var v => exact var t v hresolve
        | con name => exact con t name hresolve
        | app func arg =>
            rw [wf.zonk_of_resolve_app hresolve, Ty.height] at hheight
            exact app t func arg hresolve (ih func (by omega))
              (ih arg (by omega))
  exact hall _ t (Nat.lt_succ_self _)

/-- Every walk into a type ends before the bound of a walk is reached. -/
theorem WellFormed.height_zonk_lt_depthBound (wf : s.WellFormed)
    (ht : t.InRange s) : (s.zonk t).height < s.depthBound t := by
  have hsupports : (Footprint.reach s [t]).Supports s :=
    .reach wf fun u hu => by rwa [List.mem_singleton.1 hu]
  have hlt := hsupports.height_zonk_lt wf (.reach List.mem_cons_self)
  rwa [Footprint.reach, List.foldr_cons, List.foldr_nil, Nat.max_comm] at hlt

theorem WellFormed.inRange_resolve (wf : s.WellFormed) (ht : t.InRange s) :
    (s.resolve t).InRange s := by
  have hsupports : (Footprint.reach s [t]).Supports s :=
    .reach wf fun u hu => by rwa [List.mem_singleton.1 hu]
  exact (hsupports.covers_resolve (.reach List.mem_cons_self)).inRange
    hsupports

/-! ### Spines -/

theorem WellFormed.inRange_of_mem_spine (wf : s.WellFormed)
    (ht : t.InRange s) (harg : arg ∈ (s.spine t).2) : arg.InRange s := by
  have hsupports : (Footprint.reach s [t]).Supports s :=
    .reach wf fun u hu => by rwa [List.mem_singleton.1 hu]
  exact (hsupports.covers_of_mem_spine (.reach List.mem_cons_self)
    harg).inRange hsupports

theorem spineWithin_eq (s : Store) (n : Nat) (t : Ty TyVar)
    (args : List (Ty TyVar)) :
    s.spineWithin n t args =
      ((s.spineWithin n t []).1, (s.spineWithin n t []).2 ++ args) := by
  induction n generalizing t args with
  | zero => exact t.spineOnto_eq args
  | succ n ih =>
      rw [spineWithin, spineWithin, t.spineOnto_eq args, ← Ty.spine]
      rcases t.spine with ⟨head, more⟩
      cases head with
      | var v =>
          dsimp only
          cases s.solution? v with
          | none => rfl
          | some solution =>
              dsimp only
              rw [ih solution (more ++ args), ih solution more,
                List.append_assoc]
      | con name => rfl
      | app func arg => rfl

theorem spine_app (s : Store) (func arg : Ty TyVar) :
    s.spine (.app func arg) =
      ((s.spine func).1, (s.spine func).2 ++ [arg]) := by
  have hstep (n : Nat) :
      s.spineWithin n (.app func arg) [] = s.spineWithin n func [arg] := by
    cases n <;> rfl
  rw [spine, hstep, spineWithin_eq, spine]

theorem spine_con (s : Store) (name : Name) :
    s.spine (.con name) = (.con name, []) := by
  rw [spine]
  cases s.size <;> rfl

theorem spine_var_unsolved (h : s.solution? v = none) :
    s.spine (.var v) = (.var v, []) := by
  rw [spine]
  cases s.size with
  | zero => rfl
  | succ n => simp only [spineWithin, Ty.spineOnto, h]

/-- More hops than levels find no other spine. -/
theorem WellFormed.spineWithin_succ (wf : s.WellFormed) {n : Nat}
    (ht : s.LevelLe n t) (args : List (Ty TyVar)) :
    s.spineWithin (n + 1) t args = s.spineWithin n t args := by
  induction n generalizing t args with
  | zero =>
      rw [spineWithin, spineWithin]
      split
      · rename_i v more hspine
        have hv := ht v (Ty.mem_vars_of_spineOnto (by rw [hspine]))
        rw [solution?_eq_none_of_level_eq_zero (Nat.le_zero.1 hv), hspine]
      · rfl
  | succ n ih =>
      rw [spineWithin, spineWithin]
      split
      · rename_i v more hspine
        have hv := ht v (Ty.mem_vars_of_spineOnto (by rw [hspine]))
        cases hsolution : s.solution? v with
        | none => rfl
        | some solution => exact ih (wf.levelLe_solution hv hsolution) more
      · rfl

theorem WellFormed.spine_var_solved (wf : s.WellFormed)
    (h : s.solution? v = some t) : s.spine (.var v) = s.spine t := by
  rw [spine, ← wf.spineWithin_succ (s.levelLe_size _)]
  simp only [spineWithin, Ty.spineOnto, h, spine]

theorem WellFormed.spine_rootWithin (wf : s.WellFormed) (n : Nat)
    (v : TyVar) : s.spine (.var (s.rootWithin n v)) = s.spine (.var v) := by
  induction n generalizing v with
  | zero => rfl
  | succ n ih =>
      rw [rootWithin]
      split
      · rename_i next hnext
        rw [ih next, wf.spine_var_solved hnext]
      · rfl

/-- The spine of a type is the spine of what is looked up for it. -/
theorem WellFormed.spine_resolve (wf : s.WellFormed) (t : Ty TyVar) :
    s.spine (s.resolve t) = s.spine t := by
  cases t with
  | con name => rfl
  | app func arg => rfl
  | var v =>
      rw [resolve, rootTy, ← wf.spine_rootWithin s.size v, ← root]
      cases hroot : s.solution? (s.root v) with
      | none => rfl
      | some solution => exact (wf.spine_var_solved hroot).symm

/-- The spine of what a type stands for is its spine, with the arguments looked
through. -/
theorem WellFormed.zonk_spine (wf : s.WellFormed) (t : Ty TyVar) :
    (s.zonk t).spine = ((s.spine t).1, (s.spine t).2.map s.zonk) := by
  induction t using wf.resolve_induction with
  | var t v hresolve =>
      rw [wf.zonk_of_resolve_var hresolve, ← wf.spine_resolve, hresolve,
        spine_var_unsolved (wf.solution?_of_resolve hresolve)]
      rfl
  | con t name hresolve =>
      rw [wf.zonk_of_resolve_con hresolve, ← wf.spine_resolve, hresolve,
        spine_con]
      rfl
  | app t func arg hresolve ihFunc _ =>
      rw [wf.zonk_of_resolve_app hresolve, Ty.spine_app, ihFunc,
        ← wf.spine_resolve t, hresolve, spine_app, List.map_append]
      rfl

/-- The head of a spine stands for itself. -/
theorem WellFormed.zonk_spine_head (wf : s.WellFormed) (t : Ty TyVar) :
    s.zonk (s.spine t).1 = (s.spine t).1 := by
  have hatom := s.spine_isAtom t
  cases hhead : (s.spine t).1 with
  | var v => exact wf.zonk_var_unsolved (wf.solution?_of_spine hhead)
  | con name => exact wf.zonk_con name
  | app func arg =>
      rw [hhead] at hatom
      exact hatom.elim

/-- What an argument stands for is lower than what the whole type does. -/
theorem WellFormed.height_zonk_lt_of_mem_spine (wf : s.WellFormed)
    (harg : arg ∈ (s.spine t).2) :
    (s.zonk arg).height < (s.zonk t).height := by
  rw [← Ty.applyTo_spine (s.zonk t), wf.zonk_spine]
  exact Ty.height_lt_height_applyTo (List.mem_map_of_mem harg)

/-- Stores in which the same is looked up for all types have the same
spines. -/
theorem WellFormed.spine_congr (wf : s.WellFormed) (wf' : s'.WellFormed)
    (h : ∀ t, s'.resolve t = s.resolve t) (t : Ty TyVar) :
    s'.spine t = s.spine t := by
  induction t using wf.resolve_induction with
  | var t v hresolve =>
      have hresolve' := (h t).trans hresolve
      rw [← wf.spine_resolve, ← wf'.spine_resolve, hresolve, hresolve',
        spine_var_unsolved (wf.solution?_of_resolve hresolve),
        spine_var_unsolved (wf'.solution?_of_resolve hresolve')]
  | con t name hresolve =>
      rw [← wf.spine_resolve, ← wf'.spine_resolve, h t, hresolve, spine_con,
        spine_con]
  | app t func arg hresolve ihFunc _ =>
      rw [← wf.spine_resolve t, ← wf'.spine_resolve t, h t, hresolve,
        spine_app, spine_app, ihFunc]

end HindleyMilner.Store

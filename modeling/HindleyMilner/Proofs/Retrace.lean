import HindleyMilner.Proofs.Tightening

/-
Requirements made a second time.  Those that were met are found to be met, and
one that could not be met fails again for the same cause.  Neither changes more
than the lengths of chains.
-/

namespace HindleyMilner

namespace UnifyM

variable {table : ClassTable} {s : Store} {x y f g : UnifyM Unit}

/-- Whether a run solves nothing and fails where it stands, and another action
that is run later on goes the same way: where more has been asked for since, if
the run succeeded, and where nothing has been, if it failed. -/
def Retraces (table : ClassTable) (x y : UnifyM Unit) (s : Store) : Prop :=
  match x.run s with
  | .ok _ s₁ => s.Tightened table s₁ ∧ ∀ ⦃s'⦄, s₁.Tightened table s' →
      ∃ s'', y.run s' = .ok () s'' ∧ s'.Shortened s''
  | .error e s₁ => s.Tightened table s₁ ∧ e.path = [] ∧
      ∀ ⦃s'⦄, s₁.Shortened s' →
        ∃ s'', y.run s' = .error e s'' ∧ s'.Shortened s''

namespace Retraces

theorem pure (wf : s.WellFormed) : Retraces table (pure ()) (pure ()) s :=
  ⟨.refl wf, fun s' hs' => ⟨s', rfl, .refl hs'.steady.wellFormed⟩⟩

theorem fail (wf : s.WellFormed) (cause : UnifyError.Cause) :
    Retraces table (fail cause) (fail cause) s :=
  ⟨.refl wf, rfl, fun s' hs' => ⟨s', rfl, .refl hs'.steady.wellFormed⟩⟩

theorem congr {x' y' : UnifyM Unit} (h : Retraces table x y s)
    (hx : x'.run s = x.run s)
    (hy : ∀ ⦃s'⦄, s.Tightened table s' → y'.run s' = y.run s') :
    Retraces table x' y' s := by
  rw [Retraces] at h ⊢
  rw [hx]
  cases hrun : x.run s with
  | error e s₁ =>
      rw [hrun] at h
      refine ⟨h.1, h.2.1, fun s' hs' => ?_⟩
      rw [hy (h.1.trans hs'.tightened)]
      exact h.2.2 hs'
  | ok u s₁ =>
      rw [hrun] at h
      refine ⟨h.1, fun s' hs' => ?_⟩
      rw [hy (h.1.trans hs')]
      exact h.2 hs'

/-- Both runs may look at the store that they start in. -/
theorem get {f g : Store → UnifyM Unit} (wf : s.WellFormed)
    (h : ∀ ⦃s'⦄, s.Tightened table s' → Retraces table (f s) (g s') s) :
    Retraces table (MonadState.get >>= f) (MonadState.get >>= g) s := by
  have hfirst := h (.refl wf)
  rw [Retraces] at hfirst ⊢
  change match (f s).run s with
    | .ok _ s₁ => _
    | .error e s₁ => _
  cases hrun : (f s).run s with
  | error e s₁ =>
      rw [hrun] at hfirst
      refine ⟨hfirst.1, hfirst.2.1, fun s' hs' => ?_⟩
      have hnow := h (hfirst.1.trans hs'.tightened)
      rw [Retraces, hrun] at hnow
      exact hnow.2.2 hs'
  | ok u s₁ =>
      rw [hrun] at hfirst
      refine ⟨hfirst.1, fun s' hs' => ?_⟩
      have hnow := h (hfirst.1.trans hs')
      rw [Retraces, hrun] at hnow
      exact hnow.2 hs'

theorem bind (hx : Retraces table x y s)
    (hf : ∀ ⦃s₁⦄, s.Tightened table s₁ → Retraces table f g s₁) :
    Retraces table (x >>= fun _ => f) (y >>= fun _ => g) s := by
  rw [Retraces] at hx ⊢
  rw [EStateM.run_bind]
  cases hrun : x.run s with
  | error e s₁ =>
      rw [hrun] at hx
      refine ⟨hx.1, hx.2.1, fun s' hs' => ?_⟩
      obtain ⟨s'', hagain, hs''⟩ := hx.2.2 hs'
      exact ⟨s'', by rw [EStateM.run_bind, hagain], hs''⟩
  | ok u s₁ =>
      rw [hrun] at hx
      have hrest := hf hx.1
      rw [Retraces] at hrest
      dsimp only
      cases hrunRest : f.run s₁ with
      | error e s₂ =>
          rw [hrunRest] at hrest
          refine ⟨hx.1.trans hrest.1, hrest.2.1, fun s' hs' => ?_⟩
          obtain ⟨s'', hagain, hs''⟩ := hx.2 (hrest.1.trans hs'.tightened)
          obtain ⟨last, hlast, hmore⟩ := hrest.2.2 (hs'.trans hs'')
          exact ⟨last, by rw [bind_run_of_ok hagain, hlast], hs''.trans hmore⟩
      | ok w s₂ =>
          rw [hrunRest] at hrest
          refine ⟨hx.1.trans hrest.1, fun s' hs' => ?_⟩
          obtain ⟨s'', hagain, hs''⟩ := hx.2 (hrest.1.trans hs')
          obtain ⟨last, hlast, hmore⟩ := hrest.2 (hs'.trans hs''.tightened)
          exact ⟨last, by rw [bind_run_of_ok hagain, hlast], hs''.trans hmore⟩

theorem forM {A : Type} {f g : A → UnifyM Unit} (xs : List A)
    (wf : s.WellFormed)
    (h : ∀ x ∈ xs, ∀ ⦃s₁⦄, s.Tightened table s₁ →
      Retraces table (f x) (g x) s₁) :
    Retraces table (xs.forM f) (xs.forM g) s := by
  induction xs generalizing s with
  | nil => exact pure wf
  | cons head tail ih =>
      rw [List.forall_mem_cons] at h
      refine (h.1 (.refl wf)).bind fun s₁ hs₁ => ?_
      exact ih hs₁.steady.wellFormed fun x hx s₂ hs₂ =>
        h.2 x hx (hs₁.trans hs₂)

theorem prune {f g : Ty TyVar → UnifyM Unit} {t : Ty TyVar}
    (wf : s.WellFormed)
    (h : ∀ ⦃s₁⦄, s.Shortened s₁ →
      Retraces table (f (s.resolve t)) (g (s.resolve t)) s₁) :
    Retraces table (UnifyM.prune t >>= f) (UnifyM.prune t >>= g) s := by
  have hs₁ := wf.shortened_prune t
  have hrest := h hs₁
  -- What is looked up does not change before the second run.
  have hagain {s'} (hs' : s.Tightened table s') :
      (UnifyM.prune t >>= g).run s' = (g (s.resolve t)).run (s'.prune t).2 := by
    rw [bind_run_of_ok (prune_run hs'.steady.wellFormed t), hs'.resolve_eq]
  rw [Retraces] at hrest ⊢
  rw [bind_run_of_ok (prune_run wf t)]
  cases hrun : (f (s.resolve t)).run (s.prune t).2 with
  | error e s₂ =>
      rw [hrun] at hrest
      have hbefore := hs₁.tightened.trans hrest.1
      refine ⟨hbefore, hrest.2.1, fun s' hs' => ?_⟩
      have hs'' := hs'.steady.wellFormed.shortened_prune t
      obtain ⟨last, hlast, hmore⟩ := hrest.2.2 (hs'.trans hs'')
      exact ⟨last, by rw [hagain (hbefore.trans hs'.tightened), hlast],
        hs''.trans hmore⟩
  | ok u s₂ =>
      rw [hrun] at hrest
      have hbefore := hs₁.tightened.trans hrest.1
      refine ⟨hbefore, fun s' hs' => ?_⟩
      have hs'' := hs'.steady.wellFormed.shortened_prune t
      obtain ⟨last, hlast, hmore⟩ := hrest.2 (hs'.trans hs''.tightened)
      exact ⟨last, by rw [hagain (hbefore.trans hs'), hlast],
        hs''.trans hmore⟩

end Retraces

/-- Whether an action that fails has solved nothing and fails where it stands,
and another fails with the same error later on. -/
def FailsAgain (table : ClassTable) (x y : UnifyM Unit) (s : Store) : Prop :=
  ∀ ⦃e s₁⦄, x.run s = .error e s₁ →
    s.Tightened table s₁ ∧ e.path = [] ∧ ∀ ⦃s'⦄, s₁.Shortened s' →
      ∃ s'', y.run s' = .error e s'' ∧ s'.Shortened s''

theorem Retraces.failsAgain (h : Retraces table x y s) :
    FailsAgain table x y s := by
  intro e s₁ hrun
  rwa [Retraces, hrun] at h

end UnifyM

open UnifyM

variable {table : ClassTable} {s s' : Store} {v : TyVar} {c : ClassId}
  {t : Ty TyVar} {classes : ClassSet}

theorem Store.constrained_of_implies (s : Store) (v : TyVar)
    (hc : classes.implies table c = true) :
    s.constrained table v classes c = .ok () s := by
  rw [Store.constrained, ClassSet.insert?, if_pos hc]

/-- A class that was added is implied later on, and one that was in conflict
with others still is. -/
theorem retraces_constrain (ordered : table.Ordered) (wf : s.WellFormed)
    (h : s.unsolvedClasses? v = some classes) (c : ClassId) :
    Retraces table (constrain table v c) (constrain table v c) s := by
  rw [Retraces, constrain_run table h, Store.constrained]
  cases hinsert : classes.insert? table c with
  | none =>
      have himplied := ClassSet.implies_of_insert?_eq_none hinsert
      refine ⟨.refl wf, fun s' hs' => ?_⟩
      obtain ⟨others, hothers, hmore⟩ := hs'.implied h
      refine ⟨s', ?_, .refl hs'.steady.wellFormed⟩
      rw [constrain_run table hothers,
        Store.constrained_of_implies s' v (hmore c himplied)]
  | some larger =>
      obtain ⟨himplied, hmore⟩ := ClassSet.implies_of_insert? ordered hinsert
      cases hconflict : table.conflict? larger with
      | some pair =>
          simp only [hconflict]
          refine ⟨.refl wf, trivial, fun s' hs' => ?_⟩
          refine ⟨s', ?_, .refl hs'.steady.wellFormed⟩
          rw [constrain_run table ((hs'.unsolvedClasses?_eq v).trans h),
            Store.constrained]
          simp only [hinsert, hconflict]
      | none =>
          simp only [hconflict]
          refine ⟨wf.tightened_setClasses h hmore, fun s' hs' => ?_⟩
          have hv : (s.setBinding v (.unsolved larger)).unsolvedClasses? v =
              some larger := by
            rw [Store.unsolvedClasses?_setBinding_unsolved
              (Store.lt_size_of_unsolvedClasses? h), if_pos rfl]
          obtain ⟨others, hothers, hlater⟩ := hs'.implied hv
          refine ⟨s', ?_, .refl hs'.steady.wellFormed⟩
          rw [constrain_run table hothers,
            Store.constrained_of_implies s' v (hlater c himplied)]

theorem retraces_requireArg (ordered : table.Ordered) (wf : s.WellFormed)
    (ht : t.InRange s) (c : ClassId) {f g : Ty TyVar → UnifyM Unit}
    (hrest : ∀ ⦃s₁⦄, s.Shortened s₁ →
      Retraces table (f (s.resolve t)) (g (s.resolve t)) s₁) :
    Retraces table
      (prune t >>= fun
        | .var w => constrain table w c
        | inner => f inner)
      (prune t >>= fun
        | .var w => constrain table w c
        | inner => g inner) s := by
  apply Retraces.prune wf
  intro s₁ hs₁
  have hrest := hrest hs₁
  cases hresolve : s.resolve t with
  | con name => rwa [hresolve] at hrest
  | app func arg => rwa [hresolve] at hrest
  | var w =>
      have hrange := wf.inRange_resolve ht
      rw [hresolve] at hrange
      obtain ⟨classes, hclasses⟩ := Store.exists_unsolvedClasses?
        (hrange w (Ty.mem_vars_var.2 rfl)) (wf.solution?_of_resolve hresolve)
      exact retraces_constrain ordered hs₁.steady.wellFormed
        ((hs₁.unsolvedClasses?_eq w).trans hclasses) c

def requireSpine (table : ClassTable) (v : TyVar) (depth : Nat) (c : ClassId)
    (zonked : Ty TyVar) : Ty TyVar × List (Ty TyVar) → UnifyM Unit
  | (.con con, args) =>
      if table.hasInstance c con then
        args.forM fun arg =>
          (table.argClasses c con).members.forM fun d => do
            match ← prune arg with
            | .var w => constrain table w d
            | inner => requireWithin table v depth d inner
      else UnifyM.fail (.constraint v c zonked)
  | _ => UnifyM.fail (.constraint v c zonked)

theorem requireWithin_run (table : ClassTable) (v : TyVar) (depth : Nat)
    (c : ClassId) (t : Ty TyVar) (s : Store) :
    (requireWithin table v (depth + 1) c t).run s =
      (requireSpine table v depth c (s.zonk t) (s.spine t)).run s := by
  rw [requireWithin, get_bind_run]
  rcases s.spine t with ⟨head, args⟩
  cases head <;> rfl

/-- The depths of the two runs may differ, since neither is reached. -/
theorem retraces_requireWithin (ordered : table.Ordered) (v : TyVar)
    {depth depth' : Nat} (wf : s.WellFormed) (ht : t.InRange s)
    (hdepth : (s.zonk t).height < depth)
    (hdepth' : (s.zonk t).height < depth') (c : ClassId) :
    Retraces table (requireWithin table v depth c t)
      (requireWithin table v depth' c t) s := by
  induction depth generalizing s t c depth' with
  | zero => exact absurd hdepth (Nat.not_lt_zero _)
  | succ depth ih =>
      obtain ⟨depth', rfl⟩ := Nat.exists_eq_succ_of_ne_zero
        (Nat.ne_zero_of_lt hdepth')
      have hspine : Retraces table
          (requireSpine table v depth c (s.zonk t) (s.spine t))
          (requireSpine table v depth' c (s.zonk t) (s.spine t)) s := by
        rcases hspine : s.spine t with ⟨head, args⟩
        cases head with
        | var w => exact .fail wf _
        | app func arg => exact .fail wf _
        | con con =>
            simp only [requireSpine]
            split
            · refine .forM args wf fun arg harg s₁ hs₁ =>
                .forM _ hs₁.steady.wellFormed fun d _ s₂ hs₂ => ?_
              have hbefore := hs₁.trans hs₂
              have wf₂ := hbefore.steady.wellFormed
              have hmem : arg ∈ (s.spine t).2 := by rwa [hspine]
              have hlower := wf.height_zonk_lt_of_mem_spine hmem
              have hrange : arg.InRange s₂ :=
                (wf.inRange_of_mem_spine ht hmem).of_size_le
                  hbefore.steady.size_eq.ge
              apply retraces_requireArg ordered wf₂ hrange
              intro s₃ hs₃
              have hzonk : s₃.zonk (s₂.resolve arg) = s.zonk arg := by
                rw [hs₃.steady.zonk_eq, wf₂.zonk_resolve,
                  hbefore.steady.zonk_eq]
              refine ih hs₃.steady.wellFormed
                ((wf₂.inRange_resolve hrange).of_size_le
                  hs₃.steady.size_eq.ge) ?_ ?_ d
              · rw [hzonk]
                omega
              · rw [hzonk]
                omega
            · exact .fail wf _
      apply hspine.congr (requireWithin_run ..)
      intro s' hs'
      rw [requireWithin_run, hs'.steady.zonk_eq,
        wf.spine_congr hs'.steady.wellFormed hs'.resolve_eq]

/-- All that is required of a type in order to solve a variable to it. -/
theorem retraces_requireAll (ordered : table.Ordered) (v : TyVar)
    (wf : s.WellFormed) (ht : t.InRange s) (classes : ClassSet) :
    Retraces table (classes.members.forM fun c => require table v c t)
      (classes.members.forM fun c => require table v c t) s := by
  apply Retraces.forM _ wf
  intro c _ s₁ hs₁
  have wf₁ := hs₁.steady.wellFormed
  have hrange : t.InRange s₁ := ht.of_size_le hs₁.steady.size_eq.ge
  apply Retraces.get wf₁
  intro s' hs'
  apply retraces_requireWithin ordered v wf₁ hrange
    (wf₁.height_zonk_lt_depthBound hrange)
  rw [← hs'.steady.zonk_eq]
  exact hs'.steady.wellFormed.height_zonk_lt_depthBound
    (hrange.of_size_le hs'.steady.size_eq.ge)

end HindleyMilner

import HindleyMilner.Proofs.ClassLattice
import HindleyMilner.Proofs.Pairing

/-
Unification in two stores at once.  Run on types that are alike, with or
without the two types turned round, it takes the same way in both stores: both
runs succeed, or both fail at the same place and for the same cause.  Types
that were alike stay alike at every step, so each part of unification is
compared once, under a pairing of any two stores.
-/

namespace HindleyMilner

/-! ### Outcomes of two runs -/

namespace Pairing

variable {A B C D : Type} {M N : Pairing} {table : ClassTable}
  {crossed : Bool} {v v' w w' : TyVar} {t t' r r' : Ty TyVar}

/-- Whether two causes say the same of two stores.  Where the runs are
crossed, a mismatch has its types turned round. -/
inductive Mirrors (M : Pairing) (crossed : Bool) :
    UnifyError.Cause → UnifyError.Cause → Prop
  | mismatch {want want' got got' : Ty TyVar} (h : crossed = false)
      (hwant : M.Alike want want') (hgot : M.Alike got got') :
      Mirrors M crossed (.mismatch want got) (.mismatch want' got')
  | turned {want want' got got' : Ty TyVar} (h : crossed = true)
      (hwant : M.Alike want want') (hgot : M.Alike got got') :
      Mirrors M crossed (.mismatch want got) (.mismatch got' want')
  | constraint {v v' : TyVar} (c : ClassId) {t t' : Ty TyVar}
      (hv : M.Alike (.var v) (.var v')) (ht : M.Alike t t') :
      Mirrors M crossed (.constraint v c t) (.constraint v' c t')
  | unsatisfiable (a b : ClassId) :
      Mirrors M crossed (.unsatisfiable a b) (.unsatisfiable a b)
  | circularity {v v' : TyVar} {t t' : Ty TyVar}
      (hv : M.Alike (.var v) (.var v')) (ht : M.Alike t t') :
      Mirrors M crossed (.circularity v t) (.circularity v' t')

/-- How two runs end that go the same way: both with results, or both with
errors at the same place that say the same.  Where a run finds its store
broken, nothing is said of the other. -/
inductive Ends (M : Pairing) (table : ClassTable) (crossed : Bool)
    (post : Pairing → A → B → Prop) :
    EStateM.Result UnifyError Store A → EStateM.Result UnifyError Store B →
      Prop
  | ok {a : A} {b : B} {s s' : Store} {rel : TyVar → TyVar → Prop}
      (h : Faithful ⟨s, s', rel⟩ table crossed)
      (hleads : M.Leads ⟨s, s', rel⟩ crossed)
      (hpost : post ⟨s, s', rel⟩ a b) : Ends M table crossed post (.ok a s)
        (.ok b s')
  | error {cause cause' : UnifyError.Cause} (path : List Nat) {s s' : Store}
      {rel : TyVar → TyVar → Prop} (h : Faithful ⟨s, s', rel⟩ table crossed)
      (hleads : M.Leads ⟨s, s', rel⟩ crossed)
      (hcause : Mirrors ⟨s, s', rel⟩ crossed cause cause') :
      Ends M table crossed post (.error ⟨cause, path⟩ s)
        (.error ⟨cause', path⟩ s')
  | leftFault {fault : Fault} {path : List Nat} {s : Store}
      {result : EStateM.Result UnifyError Store B} :
      Ends M table crossed post (.error ⟨.fault fault, path⟩ s) result
  | rightFault {fault : Fault} {path : List Nat} {s : Store}
      {result : EStateM.Result UnifyError Store A} :
      Ends M table crossed post result (.error ⟨.fault fault, path⟩ s)

/-- Whether two actions, each run in its store, go the same way and have
results with `post`. -/
def Runs (M : Pairing) (table : ClassTable) (crossed : Bool)
    (x : UnifyM A) (y : UnifyM B) (post : Pairing → A → B → Prop) : Prop :=
  M.Ends table crossed post (x.run M.left) (y.run M.right)

variable {x : UnifyM A} {y : UnifyM B} {post : Pairing → A → B → Prop}
  {post' : Pairing → C → D → Prop}

/-- What is said of runs that start later holds of the runs as a whole. -/
theorem Ends.after {first : EStateM.Result UnifyError Store A}
    {second : EStateM.Result UnifyError Store B}
    (h : N.Ends table crossed post first second) (hleads : M.Leads N crossed) :
    M.Ends table crossed post first second := by
  cases h with
  | ok hfaithful hmore hpost =>
      exact .ok hfaithful (hleads.trans hmore) hpost
  | error path hfaithful hmore hcause =>
      exact .error path hfaithful (hleads.trans hmore) hcause
  | leftFault => exact .leftFault
  | rightFault => exact .rightFault

theorem Runs.of_ok {a : A} {b : B} (hx : x.run M.left = .ok a N.left)
    (hy : y.run M.right = .ok b N.right)
    (hnext : N.Faithful table crossed ∧ M.Leads N crossed)
    (hpost : post N a b) : M.Runs table crossed x y post := by
  rw [Runs, hx, hy]
  exact .ok hnext.1 hnext.2 hpost

theorem Runs.pure (h : M.Faithful table crossed) {a : A} {b : B}
    (hpost : post M a b) : M.Runs table crossed (pure a) (pure b) post :=
  .of_ok rfl rfl ⟨h, .refl h⟩ hpost

theorem Runs.fail (h : M.Faithful table crossed)
    {cause cause' : UnifyError.Cause}
    (hcause : M.Mirrors crossed cause cause') :
    M.Runs table crossed (UnifyM.fail cause) (UnifyM.fail cause') post :=
  .error [] h (.refl h) hcause

theorem Runs.get {f : Store → UnifyM A} {g : Store → UnifyM B}
    (h : M.Runs table crossed (f M.left) (g M.right) post) :
    M.Runs table crossed (MonadStateOf.get >>= f) (MonadStateOf.get >>= g)
      post :=
  h

/-- Two runs that go the same way may go on with actions that do, in the pairing
that they have come to. -/
theorem Runs.bind {f : A → UnifyM C} {g : B → UnifyM D}
    (h : M.Runs table crossed x y post)
    (hrest : ∀ N a b, N.Faithful table crossed → M.Leads N crossed →
      post N a b → N.Runs table crossed (f a) (g b) post') :
    M.Runs table crossed (x >>= f) (y >>= g) post' := by
  rw [Runs] at h ⊢
  rw [EStateM.run_bind, EStateM.run_bind]
  generalize x.run M.left = first at h
  generalize y.run M.right = second at h
  cases h with
  | ok hfaithful hleads hpost =>
      exact Ends.after (hrest _ _ _ hfaithful hleads hpost) hleads
  | error path hfaithful hleads hcause =>
      exact .error path hfaithful hleads hcause
  | leftFault => exact .leftFault
  | rightFault => exact .rightFault

theorem Runs.imp {post' : Pairing → A → B → Prop}
    (h : M.Runs table crossed x y post)
    (himp : ∀ N a b, M.Leads N crossed → post N a b → post' N a b) :
    M.Runs table crossed x y post' := by
  rw [Runs] at h ⊢
  generalize x.run M.left = first at h
  generalize y.run M.right = second at h
  cases h with
  | ok hfaithful hleads hpost =>
      exact .ok hfaithful hleads (himp _ _ _ hleads hpost)
  | error path hfaithful hleads hcause =>
      exact .error path hfaithful hleads hcause
  | leftFault => exact .leftFault
  | rightFault => exact .rightFault

/-- Errors that were at the same place are at the same place seen from
outside. -/
theorem Runs.within (pos : Nat) (h : M.Runs table crossed x y post) :
    M.Runs table crossed (UnifyM.within pos x) (UnifyM.within pos y) post := by
  rw [Runs] at h ⊢
  rw [UnifyM.within, UnifyM.within, EStateM.run_adaptExcept,
    EStateM.run_adaptExcept]
  generalize x.run M.left = first at h
  generalize y.run M.right = second at h
  cases h with
  | ok hfaithful hleads hpost => exact .ok hfaithful hleads hpost
  | error path hfaithful hleads hcause =>
      exact .error (pos :: path) hfaithful hleads hcause
  | leftFault => exact .leftFault
  | rightFault => exact .rightFault

/-! ### Runs that solve nothing -/

/-- Whether a pairing has the pairs of another, no variable having been
solved. -/
structure Rests (M N : Pairing) : Prop where
  rel_eq : N.rel = M.rel
  steady : M.left.Steady N.left

theorem Faithful.rests (h : M.Faithful table crossed) : M.Rests M :=
  ⟨rfl, .refl h.left⟩

theorem Rests.trans {N' : Pairing} (h : M.Rests N) (h' : N.Rests N') :
    M.Rests N' :=
  ⟨h'.rel_eq.trans h.rel_eq, h.steady.trans h'.steady⟩

/-- Two loops over things that are alike go the same way if each turn does. -/
theorem Runs.forM {like : A → B → Prop} {f : A → UnifyM PUnit}
    {g : B → UnifyM PUnit} {xs : List A} {ys : List B}
    (h : M.Faithful table crossed) (hxs : List.Forall₂ like xs ys)
    (hstep : ∀ a b, like a b → ∀ N, N.Faithful table crossed →
      M.Leads N crossed → M.Rests N →
        N.Runs table crossed (f a) (g b) fun N' _ _ => N.Rests N') :
    M.Runs table crossed (xs.forM f) (ys.forM g) fun N _ _ => M.Rests N := by
  induction hxs generalizing M with
  | nil => exact .pure h h.rests
  | cons hlike _ ih =>
      apply (hstep _ _ hlike M h (.refl h) h.rests).bind
      intro N _ _ hN hleads hrests
      refine (ih hN fun a b hab N' hN' hleads' hrests' => ?_).imp
        fun N' _ _ _ hmore => hrests.trans hmore
      exact hstep a b hab N' hN' (hleads.trans hleads') (hrests.trans hrests')

theorem Runs.forM_same {f g : A → UnifyM PUnit}
    (h : M.Faithful table crossed) (xs : List A)
    (hstep : ∀ a N, N.Faithful table crossed → M.Leads N crossed →
      M.Rests N → N.Runs table crossed (f a) (g a) fun N' _ _ => N.Rests N') :
    M.Runs table crossed (xs.forM f) (xs.forM g) fun N _ _ => M.Rests N := by
  have hxs : List.Forall₂ Eq xs xs := List.forall₂_refl xs
  apply Runs.forM h hxs
  rintro a _ rfl
  exact hstep a

/-! ### Class requirements -/

theorem Faithful.runs_unsolvedClasses (h : M.Faithful table crossed)
    (hv : M.rel v v') :
    M.Runs table crossed (UnifyM.unsolvedClasses v)
      (UnifyM.unsolvedClasses v') fun N a b =>
        N = M ∧ a = b ∧ M.left.unsolvedClasses? v = some a := by
  obtain ⟨classes, hleft, hright⟩ := h.classes hv
  exact .of_ok (UnifyM.unsolvedClasses_run hleft)
    (UnifyM.unsolvedClasses_run hright) ⟨h, .refl h⟩ ⟨rfl, rfl, hleft⟩

theorem Faithful.runs_setClasses (h : M.Faithful table crossed)
    (hv : M.rel v v') {classes : ClassSet}
    (hreduced : crossed = true → classes.Reduced table) :
    M.Runs table crossed (UnifyM.setClasses v classes)
      (UnifyM.setClasses v' classes) fun N _ _ =>
        N = M.setClasses v v' classes := by
  obtain ⟨before, hleft, hright⟩ := h.classes hv
  exact .of_ok (UnifyM.setClasses_run hleft classes)
    (UnifyM.setClasses_run hright classes) (h.setClasses hv hreduced) rfl

/-- Paired variables have the same classes, so adding a class to both has the
same outcome. -/
theorem Faithful.runs_constrain (h : M.Faithful table crossed)
    (ordered : table.Ordered) (hv : M.rel v v') (c : ClassId) :
    M.Runs table crossed (constrain table v c) (constrain table v' c)
      fun N _ _ => M.Rests N := by
  apply (h.runs_unsolvedClasses hv).bind
  rintro _ classes _ - - ⟨rfl, rfl, hclasses⟩
  cases hinsert : classes.insert? table c with
  | none => exact .pure h h.rests
  | some larger =>
      cases hconflict : table.conflict? larger with
      | some pair =>
          simp only [hconflict]
          exact .fail h (.unsatisfiable pair.1 pair.2)
      | none =>
          simp only [hconflict]
          have hreduced (hcrossed : crossed = true) :
              larger.Reduced table := by
            have hinserted :=
              (h.reduced hv hclasses hcrossed).insert ordered (c := c)
            rwa [ClassSet.insert, hinsert, Option.getD_some] at hinserted
          refine (h.runs_setClasses hv hreduced).imp ?_
          rintro _ - - - rfl
          exact ⟨rfl, h.left.steady_setClasses hclasses larger⟩

/-! ### Types that were looked up -/

end Pairing

/-- Whether a type is another with its top looked up. -/
structure Store.Looked (s : Store) (t r : Ty TyVar) : Prop where
  zonk_eq : s.zonk r = s.zonk t
  unsolved : ∀ v, r = .var v → s.solution? v = none

namespace Store

variable {s : Store} {t r : Ty TyVar}

theorem WellFormed.looked_prune (wf : s.WellFormed) (t : Ty TyVar) :
    (s.prune t).2.Looked t (s.resolve t) where
  zonk_eq := by
    rw [(wf.steady_prune t).zonk_eq, (wf.steady_prune t).zonk_eq,
      wf.zonk_resolve]
  unsolved _ hv := solution?_prune_eq_none (wf.solution?_of_resolve hv) t

theorem Looked.prune (h : s.Looked t r) (wf : s.WellFormed) (u : Ty TyVar) :
    (s.prune u).2.Looked t r where
  zonk_eq := by
    rw [(wf.steady_prune u).zonk_eq, (wf.steady_prune u).zonk_eq, h.zonk_eq]
  unsolved v hv := solution?_prune_eq_none (h.unsolved v hv) u

end Store

namespace Pairing

variable {M N : Pairing} {table : ClassTable} {crossed : Bool}
  {v v' w w' : TyVar} {t t' r r' : Ty TyVar}

/-- Types that are alike have tops of the same kind once they are looked up. -/
theorem Faithful.tops_looked (h : M.Faithful table crossed)
    (ht : M.Alike t t') (hr : M.left.Looked t r)
    (hr' : M.right.Looked t' r') : M.Tops r r' := by
  refine h.tops ?_ hr.unsolved hr'.unsolved
  rwa [Alike, hr.zonk_eq, hr'.zonk_eq]

/-- Types that are alike have the same form once both were looked up. -/
theorem Faithful.runs_prune (h : M.Faithful table crossed)
    (ht : M.Alike t t') {f g : Ty TyVar → UnifyM A}
    {post : Pairing → A → A → Prop}
    (hrest : ∀ N r r', N.Faithful table crossed → M.Leads N crossed →
      M.Rests N → N.Tops r r' → N.Runs table crossed (f r) (g r') post) :
    M.Runs table crossed (UnifyM.prune t >>= f) (UnifyM.prune t' >>= g)
      post := by
  obtain ⟨hnext, hleads⟩ := h.prune t t'
  have htops := hnext.tops_looked (hleads.alike_ty ht)
    (h.left.looked_prune t) (h.right.looked_prune t')
  have hruns := hrest _ _ _ hnext hleads ⟨rfl, h.left.steady_prune t⟩ htops
  rw [Runs, bind_run_of_ok (UnifyM.prune_run h.left t),
    bind_run_of_ok (UnifyM.prune_run h.right t')]
  exact Ends.after hruns hleads

/-- Requirements on alike types go the same way, whatever the depths they may go
to. -/
theorem Faithful.runs_requireWithin (h : M.Faithful table crossed)
    (ordered : table.Ordered) (hv : M.Alike (.var v) (.var v'))
    (ht : M.Alike t t') (depth depth' : Nat) (c : ClassId) :
    M.Runs table crossed (requireWithin table v depth c t)
      (requireWithin table v' depth' c t') fun N _ _ => M.Rests N := by
  induction depth generalizing M depth' c t t' with
  | zero => exact .leftFault
  | succ depth ih =>
      cases depth' with
      | zero => exact .rightFault
      | succ depth' =>
          rw [requireWithin, requireWithin]
          apply Runs.get
          have hspine := h.spine ht
          generalize M.left.spine t = spine at hspine ⊢
          generalize M.right.spine t' = spine' at hspine ⊢
          rcases spine with ⟨head, args⟩
          rcases spine' with ⟨head', args'⟩
          obtain ⟨htops, hargs⟩ := hspine
          have hfail : M.Runs table crossed
              (UnifyM.fail (.constraint v c (M.left.zonk t)) : UnifyM PUnit)
              (UnifyM.fail (.constraint v' c (M.right.zonk t')) :
                UnifyM PUnit) fun N _ _ => M.Rests N :=
            .fail h (.constraint c hv (h.alike_zonk ht))
          cases htops with
          | var _ => exact hfail
          | app _ _ => exact hfail
          | con con =>
              dsimp only
              split
              · apply Runs.forM h hargs
                intro arg arg' harg N hN hleads _
                apply Runs.forM_same hN
                intro d N₁ hN₁ hleads₁ _
                apply hN₁.runs_prune (hleads₁.alike_ty (hleads.alike_ty harg))
                intro N₂ r r' hN₂ hleads₂ hrests htops
                have hv₂ := ((hleads.trans hleads₁).trans hleads₂).alike_ty hv
                have hdeeper := ih hN₂ hv₂ (htops.alike hN₂) depth' d
                cases htops with
                | var hw =>
                    exact (hN₂.runs_constrain ordered hw d).imp
                      fun _ _ _ _ hmore => hrests.trans hmore
                | con name =>
                    exact hdeeper.imp fun _ _ _ _ hmore => hrests.trans hmore
                | app _ _ =>
                    exact hdeeper.imp fun _ _ _ _ hmore => hrests.trans hmore
              · exact hfail

theorem Faithful.runs_require (h : M.Faithful table crossed)
    (ordered : table.Ordered) (hv : M.Alike (.var v) (.var v'))
    (ht : M.Alike t t') (c : ClassId) :
    M.Runs table crossed (require table v c t) (require table v' c t')
      fun N _ _ => M.Rests N :=
  Runs.get (h.runs_requireWithin ordered hv ht _ _ c)

/-! ### Solving variables -/

theorem Faithful.runs_solveVar (h : M.Faithful table crossed)
    (ordered : table.Ordered) (hv : M.rel v v') (ht : M.Alike t t')
    (hvar : crossed = true → (∀ w, t ≠ .var w) ∧ ∀ w, t' ≠ .var w) :
    M.Runs table crossed (solveVar table v t) (solveVar table v' t')
      fun N _ _ => N.left.zonk (.var v) = N.left.zonk t := by
  have hoccurs : M.left.occurs v t = M.right.occurs v' t' := by
    rw [Bool.eq_iff_iff, Store.occurs_eq_true_iff, Store.occurs_eq_true_iff]
    exact h.mem_zonk_iff hv ht
  rw [solveVar, solveVar]
  apply Runs.get
  rw [← hoccurs]
  split
  · have hfail : M.Runs table crossed
        (UnifyM.fail (.circularity v t) : UnifyM PUnit)
        (UnifyM.fail (.circularity v' t') : UnifyM PUnit)
        fun _ _ _ => False :=
      .fail h (.circularity (h.alike_var hv) ht)
    exact hfail.bind fun _ _ _ _ _ hfalse => hfalse.elim
  rename_i hnot
  apply (h.runs_unsolvedClasses hv).bind
  rintro _ classes _ - - ⟨rfl, rfl, -⟩
  refine (Runs.forM_same h classes.members ?_).bind ?_
  · intro c N hN hleads _
    exact hN.runs_require ordered (hleads.alike hv) (hleads.alike_ty ht) c
  · intro N _ _ hN hleads hrests
    have hv₁ : N.rel v v' := by rwa [hrests.rel_eq]
    have hoccurs₁ : v ∉ (N.left.zonk t).vars := by
      rwa [hrests.steady.zonk_eq, ← Store.occurs_eq_true_iff]
    obtain ⟨classes₁, hleft, hright⟩ := hN.classes hv₁
    have hnext := hN.solve hv₁ (hleads.alike_ty ht) hoccurs₁ hvar
    refine Runs.of_ok (UnifyM.solve_run hleft t)
      (UnifyM.solve_run hright t') hnext ?_
    apply hnext.1.left.zonk_var_solved
    rw [Pairing.solve, Store.solution?_setBinding_solved
      (Store.lt_size_of_unsolvedClasses? hleft), if_pos rfl]

end Pairing

/-- A function of two things, which takes them the other way round where the
runs are crossed. -/
def turned {A B : Type} (crossed : Bool) (f : A → A → B) (x y : A) : B :=
  if crossed then f y x else f x y

namespace Pairing

variable {M N : Pairing} {table : ClassTable} {crossed : Bool}
  {v v' w w' : TyVar} {t t' r r' : Ty TyVar}

/-- Two pairs of variables may be joined, the other way round in the second
store where the runs are crossed. -/
theorem Faithful.exists_join (h : M.Faithful table crossed)
    (hv : M.rel v v') (hw : M.rel w w') (hne : v ≠ w) {both : ClassSet}
    (hreduced : crossed = true → both.Reduced table) :
    ∃ N : Pairing, N.left = M.left.join v w both ∧
      N.right = turned crossed (M.right.join · · both) v' w' ∧
        N.Faithful table crossed ∧ M.Leads N crossed := by
  cases crossed with
  | true => exact ⟨_, rfl, rfl, h.cross hv hw hne (hreduced rfl)⟩
  | false =>
      obtain ⟨hset, hleads⟩ := h.setClasses hw hreduced
      obtain ⟨others, hothers, -⟩ := hset.classes hw
      have hoccurs : v ∉ ((M.setClasses w w' both).left.zonk (.var w)).vars :=
        by
          rwa [hset.left.zonk_var_unsolved
            (Store.solution?_eq_none_of_unsolved hothers), Ty.mem_vars_var]
      have hsolve := hset.solve hv (hset.alike_var hw) hoccurs
        fun hcrossed => absurd hcrossed Bool.false_ne_true
      exact ⟨_, rfl, rfl, hsolve.1, hleads.trans hsolve.2⟩

/-- Joining two variables goes the same way as joining their partners, the other
way round where the runs are crossed. -/
theorem Faithful.runs_joinVars (h : M.Faithful table crossed)
    (ordered : table.Ordered) (hv : M.rel v v') (hw : M.rel w w')
    (hne : v ≠ w) :
    M.Runs table crossed (joinVars table v w)
      (turned crossed (joinVars table) v' w') fun N _ _ =>
        N.left.zonk (.var v) = N.left.zonk (.var w) := by
  obtain ⟨classes, hleft, hright⟩ := h.classes hv
  obtain ⟨others, hleft', hright'⟩ := h.classes hw
  have hne' : v' ≠ w' := fun heq => hne (h.unique.1 (heq ▸ hv) hw)
  have hrun := joinVars_run table hleft hleft' hne
  -- in both orders the variables that are joined get the same classes
  have hrun' : (turned crossed (joinVars table) v' w').run M.right =
      turned crossed (M.right.joined table · · (classes.union table others))
        v' w' := by
    cases crossed with
    | false => exact joinVars_run table hright hright' hne'
    | true =>
        rw [(h.reduced hv hleft rfl).union_comm ordered
          (h.reduced hw hleft' rfl)]
        exact joinVars_run table hright' hright hne'.symm
  rw [Runs, hrun, hrun']
  cases hconflict : table.conflict? (classes.union table others) with
  | some pair =>
      simp only [Store.joined, hconflict, turned, ite_self]
      exact .error [] h (.refl h) (.unsatisfiable pair.1 pair.2)
  | none =>
      have hjoined (s : Store) (v w : TyVar) :
          s.joined table v w (classes.union table others) =
            .ok () (s.join v w (classes.union table others)) := by
        rw [Store.joined, hconflict]
      have hright : turned crossed
          (M.right.joined table · · (classes.union table others)) v' w' =
            .ok () (turned crossed
              (M.right.join · · (classes.union table others)) v' w') := by
        cases crossed <;> exact hjoined ..
      have hreduced (hcrossed : crossed = true) :
          (classes.union table others).Reduced table :=
        (h.reduced hv hleft hcrossed).foldl_insert ordered _
      obtain ⟨N, hN, hN', hnext, hleads⟩ := h.exists_join hv hw hne hreduced
      rw [hjoined, hright, ← hN, ← hN']
      refine .ok hnext hleads ?_
      change N.left.zonk (.var v) = N.left.zonk (.var w)
      rw [hN, h.left.zonk_join hleft hleft' hne,
        h.left.zonk_join_self hleft hleft' hne]

end Pairing

/-! ### Making types equal -/

def unifyTops (table : ClassTable) (depth : Nat) (want got : Ty TyVar) :
    UnifyM Unit := do
  match want, got with
  | .var v, .var w => if v = w then return else joinVars table v w
  | .var v, ty => solveVar table v ty
  | ty, .var v => solveVar table v ty
  | .con c, .con d =>
      if c = d then return else UnifyM.fail (.mismatch want got)
  | .app wantFunc wantArg, .app gotFunc gotArg => do
      let s ← get
      if headsDiffer s want got then
        UnifyM.fail (.mismatch (s.zonk want) (s.zonk got))
      unifyWithin table depth wantFunc gotFunc
      let pos := ((← get).spine wantFunc).2.length
      UnifyM.within pos (unifyWithin table depth wantArg gotArg)
  | _, _ => UnifyM.fail (.mismatch want got)

theorem unifyWithin_succ (table : ClassTable) (depth : Nat)
    (want got : Ty TyVar) :
    unifyWithin table (depth + 1) want got =
      UnifyM.prune want >>= fun want => UnifyM.prune got >>= fun got =>
        unifyTops table depth want got :=
  rfl

/-- Unification first looks its types up, which solves nothing. -/
theorem Store.WellFormed.exists_tops {s : Store} (wf : s.WellFormed)
    (table : ClassTable) (depth : Nat) (want got : Ty TyVar) :
    ∃ s' r u,
      (unifyWithin table (depth + 1) want got).run s =
          (unifyTops table depth r u).run s' ∧
        s.Steady s' ∧ (∀ v, s'.unsolvedClasses? v = s.unsolvedClasses? v) ∧
          s'.Looked want r ∧ s'.Looked got u := by
  have hfirst := wf.steady_prune want
  refine ⟨_, _, _, ?_, hfirst.trans (hfirst.wellFormed.steady_prune got), ?_,
    (wf.looked_prune want).prune hfirst.wellFormed got,
    hfirst.wellFormed.looked_prune got⟩
  · rw [unifyWithin_succ, bind_run_of_ok (UnifyM.prune_run wf want),
      bind_run_of_ok (UnifyM.prune_run hfirst.wellFormed got)]
  · intro v
    rw [unsolvedClasses?_prune, unsolvedClasses?_prune]

namespace Pairing

variable {M N : Pairing} {table : ClassTable} {crossed : Bool}
  {v v' w w' : TyVar} {want want' got got' : Ty TyVar}

/-- Whether types are told apart by their heads does not depend on their
order. -/
theorem Faithful.headsDiffer_eq (h : M.Faithful table crossed)
    (hwant : M.Alike want want') (hgot : M.Alike got got') :
    headsDiffer M.left want got =
      turned crossed (headsDiffer M.right) want' got' := by
  obtain ⟨htops, hargs⟩ := h.spine hwant
  obtain ⟨htops', hargs'⟩ := h.spine hgot
  have hlength := hargs.length_eq
  have hlength' := hargs'.length_eq
  simp only [turned, headsDiffer]
  generalize M.left.spine want = spine at *
  generalize M.right.spine want' = spine' at *
  generalize M.left.spine got = other at *
  generalize M.right.spine got' = other' at *
  rcases spine with ⟨head, args⟩
  rcases spine' with ⟨head', args'⟩
  rcases other with ⟨next, more⟩
  rcases other' with ⟨next', more'⟩
  dsimp only at *
  cases htops <;> cases htops' <;> cases crossed <;>
    simp [hlength, hlength', eq_comm]

theorem Faithful.runs_mismatch (h : M.Faithful table crossed)
    (hwant : M.Alike want want') (hgot : M.Alike got got')
    {post : Pairing → Unit → Unit → Prop} :
    M.Runs table crossed (UnifyM.fail (.mismatch want got))
      (turned crossed (fun a b => UnifyM.fail (.mismatch a b)) want' got')
      post := by
  cases crossed with
  | false => exact .fail h (.mismatch rfl hwant hgot)
  | true => exact .fail h (.turned rfl hwant hgot)

/-- Whether the first store now has one value for two types. -/
def Equates (want got : Ty TyVar) (N : Pairing) (_ _ : Unit) : Prop :=
  N.left.zonk want = N.left.zonk got

/-- Whether unification at two depths goes the same way in two stores. -/
def InStep (table : ClassTable) (crossed : Bool) (depth depth' : Nat) :
    Prop :=
  ∀ ⦃M : Pairing⦄ ⦃want want' got got' : Ty TyVar⦄,
    M.Faithful table crossed → M.Alike want want' → M.Alike got got' →
      M.Runs table crossed (unifyWithin table depth want got)
        (turned crossed (unifyWithin table depth') want' got')
        (Equates want got)

section

variable {func func' arg arg' gotFunc gotFunc' gotArg gotArg' : Ty TyVar}
  {depth depth' : Nat}

theorem turned_unifyTops_app :
    turned crossed (unifyTops table depth) (.app func arg)
        (.app gotFunc gotArg) = (do
      let s ← get
      if turned crossed (headsDiffer s) (.app func arg)
          (.app gotFunc gotArg) then
        turned crossed (fun t u => UnifyM.fail (.mismatch t u))
          (s.zonk (.app func arg)) (s.zonk (.app gotFunc gotArg))
      turned crossed (unifyWithin table depth) func gotFunc
      let pos :=
        ((← get).spine (turned crossed (fun t _ => t) func gotFunc)).2.length
      UnifyM.within pos
        (turned crossed (unifyWithin table depth) arg gotArg)) := by
  cases crossed <;> rfl

theorem Faithful.runs_unifyApps (h : M.Faithful table crossed)
    (hdeeper : InStep table crossed depth depth')
    (hfunc : M.Alike func func') (harg : M.Alike arg arg')
    (hgotFunc : M.Alike gotFunc gotFunc') (hgotArg : M.Alike gotArg gotArg') :
    M.Runs table crossed
      (unifyTops table depth (.app func arg) (.app gotFunc gotArg))
      (turned crossed (unifyTops table depth') (.app func' arg')
        (.app gotFunc' gotArg'))
      (Equates (.app func arg) (.app gotFunc gotArg)) := by
  have hwant := h.alike_app hfunc harg
  have hgot := h.alike_app hgotFunc hgotArg
  rw [turned_unifyTops_app]
  apply Runs.get
  rw [← h.headsDiffer_eq hwant hgot]
  split
  · have hfail : M.Runs table crossed
        (UnifyM.fail (.mismatch (M.left.zonk (.app func arg))
          (M.left.zonk (.app gotFunc gotArg))) : UnifyM Unit)
        (turned crossed (fun t u => UnifyM.fail (.mismatch t u))
          (M.right.zonk (.app func' arg'))
          (M.right.zonk (.app gotFunc' gotArg')) : UnifyM Unit)
        fun _ _ _ => False :=
      h.runs_mismatch (h.alike_zonk hwant) (h.alike_zonk hgot)
    exact hfail.bind fun _ _ _ _ _ hfalse => hfalse.elim
  · apply (hdeeper h hfunc hgotFunc).bind
    intro N _ _ hN hleads hequal
    apply Runs.get
    -- the functions have the same arguments by now
    have hpos : N.Alike func
        (turned crossed (fun t _ => t) func' gotFunc') := by
      cases crossed with
      | false => exact hleads.alike_ty hfunc
      | true =>
          rw [Alike, hequal]
          exact hleads.alike_ty hgotFunc
    rw [← (hN.spine hpos).2.length_eq]
    have hargs := hdeeper hN (hleads.alike_ty harg) (hleads.alike_ty hgotArg)
    refine (hargs.imp fun N' _ _ hmore hequal' => ?_).within _
    rw [Equates, hmore.left.wellFormed.zonk_app,
      hmore.left.wellFormed.zonk_app, hmore.left.zonk_congr hequal, hequal']

end

/-- Unification of alike types that were looked up goes the same way if it does
one level deeper. -/
theorem Faithful.runs_unifyTops (h : M.Faithful table crossed)
    (ordered : table.Ordered) {depth depth' : Nat}
    (hdeeper : InStep table crossed depth depth')
    (hwant : M.Tops want want') (hgot : M.Tops got got') :
    M.Runs table crossed (unifyTops table depth want got)
      (turned crossed (unifyTops table depth') want' got')
      (Equates want got) := by
  have hmismatch : M.Runs table crossed
      (UnifyM.fail (.mismatch want got))
      (turned crossed (fun t u => UnifyM.fail (.mismatch t u)) want' got')
      (Equates want got) :=
    h.runs_mismatch (hwant.alike h) (hgot.alike h)
  have hsolve {v v' : TyVar} {t t' : Ty TyVar} (hv : M.rel v v')
      (ht : M.Tops t t') (hvar : ∀ w, t ≠ .var w) :
      M.Runs table crossed (solveVar table v t) (solveVar table v' t')
        (Equates (.var v) t) := by
    refine h.runs_solveVar ordered hv (ht.alike h) fun _ => ⟨hvar, ?_⟩
    rintro w rfl
    cases ht with
    | var _ => exact hvar _ rfl
  have hsolve' {v v' : TyVar} {t t' : Ty TyVar} (hv : M.rel v v')
      (ht : M.Tops t t') (hvar : ∀ w, t ≠ .var w) :
      M.Runs table crossed (solveVar table v t) (solveVar table v' t')
        (Equates t (.var v)) :=
    (hsolve hv ht hvar).imp fun _ _ _ _ => Eq.symm
  cases hwant with
  | @var v v' hv =>
      cases hgot with
      | @var w w' hw =>
          have hsame : v = w ↔ v' = w' :=
            ⟨fun heq => h.unique.2 (heq ▸ hv) hw,
              fun heq => h.unique.1 (heq ▸ hv) hw⟩
          have hright : turned crossed (unifyTops table depth') (.var v')
              (.var w') = if v' = w' then pure ()
                else turned crossed (joinVars table) v' w' := by
            cases crossed <;> simp [turned, unifyTops, eq_comm]
          rw [hright, unifyTops]
          by_cases heq : v = w
          · rw [if_pos heq, if_pos (hsame.1 heq), heq]
            exact .pure h rfl
          · rw [if_neg heq, if_neg (mt hsame.2 heq)]
            exact h.runs_joinVars ordered hv hw heq
      | con name =>
          cases crossed <;> exact hsolve hv (.con name) (by simp)
      | app hfunc harg =>
          cases crossed <;> exact hsolve hv (.app hfunc harg) (by simp)
  | con name =>
      cases hgot with
      | var hw => cases crossed <;> exact hsolve' hw (.con name) (by simp)
      | con other =>
          have hright : turned crossed (unifyTops table depth') (.con name)
              (.con other) = if name = other then pure ()
                else turned crossed (fun t u => UnifyM.fail (.mismatch t u))
                  (.con name) (.con other) := by
            cases crossed <;> simp [turned, unifyTops, eq_comm]
          rw [hright, unifyTops]
          by_cases heq : name = other
          · rw [if_pos heq, if_pos heq, heq]
            exact .pure h rfl
          · rw [if_neg heq, if_neg heq]
            exact hmismatch
      | app hfunc harg => cases crossed <;> exact hmismatch
  | app hfunc harg =>
      cases hgot with
      | var hw => cases crossed <;> exact hsolve' hw (.app hfunc harg) (by simp)
      | con name => cases crossed <;> exact hmismatch
      | app hgotFunc hgotArg =>
          exact h.runs_unifyApps hdeeper hfunc harg hgotFunc hgotArg

theorem inStep (ordered : table.Ordered) (depth depth' : Nat) :
    InStep table crossed depth depth' := by
  induction depth generalizing depth' with
  | zero => exact fun _ _ _ _ _ _ _ _ => .leftFault
  | succ depth ih =>
      intro M want want' got got' h hwant hgot
      cases depth' with
      | zero => cases crossed <;> exact .rightFault
      | succ depth' =>
          obtain ⟨s, r, u, hrun, hs, hclasses, hr, hu⟩ :=
            h.left.exists_tops table depth want got
          have hright : ∃ s' r' u',
              (turned crossed (unifyWithin table (depth' + 1)) want' got').run
                  M.right =
                (turned crossed (unifyTops table depth') r' u').run s' ∧
              M.right.Steady s' ∧
                (∀ v, s'.unsolvedClasses? v = M.right.unsolvedClasses? v) ∧
                  s'.Looked want' r' ∧ s'.Looked got' u' := by
            cases crossed with
            | false => exact h.right.exists_tops table depth' want' got'
            | true =>
                obtain ⟨s', u', r', hrun', hs', hclasses', hu', hr'⟩ :=
                  h.right.exists_tops table depth' got' want'
                exact ⟨s', r', u', hrun', hs', hclasses', hr', hu'⟩
          obtain ⟨s', r', u', hrun', hs', hclasses', hr', hu'⟩ := hright
          obtain ⟨hN, hleads⟩ := h.steady hs hs' fun v v' hv => by
            obtain ⟨classes, hleft, hright⟩ := h.classes hv
            exact ⟨classes, (hclasses v).trans hleft,
              (hclasses' v').trans hright, h.reduced hv hleft⟩
          have htops := hN.tops_looked (hleads.alike_ty hwant) hr hr'
          have htops' := hN.tops_looked (hleads.alike_ty hgot) hu hu'
          have hruns := hN.runs_unifyTops ordered (ih depth') htops htops'
          rw [Runs, hrun, hrun']
          refine Ends.after (hruns.imp fun N' _ _ hmore hequal => ?_) hleads
          rw [Equates, ← hmore.left.zonk_congr hr.zonk_eq,
            ← hmore.left.zonk_congr hu.zonk_eq]
          exact hequal

/-- Unification goes the same way in both stores. -/
theorem Faithful.runs_unify (h : M.Faithful table crossed)
    (ordered : table.Ordered) (hwant : M.Alike want want')
    (hgot : M.Alike got got') :
    M.Runs table crossed (unify table want got)
      (turned crossed (unify table) want' got') (Equates want got) := by
  cases crossed <;> exact inStep ordered _ _ h hwant hgot

end Pairing

end HindleyMilner

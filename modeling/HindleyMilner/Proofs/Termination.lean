import HindleyMilner.Proofs.Fuelled
import HindleyMilner.Proofs.History
import HindleyMilner.Proofs.Settled

/-
Unification that has fuel instead of bounds.  From every state that arises it
finishes without a failed assertion, with the outcome of unification itself,
however much fuel is left.
-/

namespace HindleyMilner

namespace Fuelled

/-! ### Actions that finish -/

variable {A B : Type}

/-- What a run that finishes without a failed assertion leads to. -/
def outcome :
    EStateM.Result UnifyError Store A →
      ExceptT FailedAssertion Option (Except UnifyError A × Store)
  | .ok a s => pure (.ok a, s)
  | .error e s => pure (.error e, s)

/-- Whether an action finishes without a failed assertion, with an outcome. -/
def Finishes (action : FuelledM A) (s : Store)
    (result : EStateM.Result UnifyError Store A) : Prop :=
  action.run.run s = outcome result

namespace Finishes

variable {action : FuelledM A} {g : A → FuelledM B} {s s' : Store} {a : A}
  {result : EStateM.Result UnifyError Store B}

theorem pure (a : A) (s : Store) :
    Finishes (pure a) s ((Pure.pure a : UnifyM A).run s) :=
  rfl

theorem fail (cause : UnifyError.Cause) (s : Store) :
    Finishes (Fuelled.fail cause : FuelledM A) s
      ((UnifyM.fail cause : UnifyM A).run s) :=
  rfl

/-- A loop that finishes with a result goes on with the next step. -/
theorem bind_ok (h : Finishes action s (.ok a s'))
    (hg : Finishes (g a) s' result) : Finishes (action >>= g) s result := by
  change (action.run.run s >>= fun p => ExceptT.bindCont g p.1 p.2) = _
  rw [show action.run.run s = _ from h]
  exact hg

theorem bind_error {e : UnifyError} (h : Finishes action s (.error e s')) :
    Finishes (action >>= g) s (.error e s') := by
  change (action.run.run s >>= fun p => ExceptT.bindCont g p.1 p.2) = _
  rw [show action.run.run s = _ from h]
  rfl

/-- A run followed by another, where the second starts as the first ends. -/
theorem bind {x : UnifyM A} {f : A → UnifyM B}
    (h : Finishes action s (x.run s))
    (hg : ∀ a s', x.run s = .ok a s' →
      Finishes (g a) s' ((f a).run s')) :
    Finishes (action >>= g) s ((x >>= f).run s) := by
  rw [EStateM.run_bind]
  cases hrun : x.run s with
  | ok a s' =>
      rw [hrun] at h
      exact h.bind_ok (hg a s' hrun)
  | error e s' =>
      rw [hrun] at h
      exact h.bind_error

/-- A walk that ends gives its result to the next step. -/
theorem walk {f : Store → Option A} (h : f s = some a)
    (hg : Finishes (g a) s result) :
    Finishes (Fuelled.walk f >>= g) s result := by
  have hwalk : Finishes (Fuelled.walk f) s (.ok a s) := by
    change ExceptT.lift (f s >>= fun a => some (Except.ok a, s)) = _
    rw [h]
    rfl
  exact hwalk.bind_ok hg

/-- Reading the store costs no fuel. -/
theorem get {f : Store → UnifyM A} {x : FuelledM A}
    (h : Finishes x s ((f s).run s)) :
    Finishes x s ((MonadState.get >>= f).run s) :=
  h

theorem forM {f : B → UnifyM PUnit} {g : B → FuelledM PUnit}
    {P : Store → Prop} (xs : List B) (hs : P s)
    (hkeeps : ∀ x ∈ xs, UnifyM.Keeps P (f x) fun _ => True)
    (h : ∀ x ∈ xs, ∀ ⦃s'⦄, P s' → Finishes (g x) s' ((f x).run s')) :
    Finishes (xs.forM g) s ((xs.forM f).run s) := by
  induction xs generalizing s with
  | nil => rfl
  | cons head tail ih =>
      rw [List.forall_mem_cons] at hkeeps h
      have hhead := hkeeps.1 hs
      refine bind (f := fun _ => tail.forM f) (h.1 hs) fun _ s' hrun => ?_
      rw [hrun] at hhead
      exact ih hhead.1 hkeeps.2 h.2

theorem within {x : UnifyM A} (pos : Nat) (h : Finishes action s (x.run s)) :
    Finishes (Fuelled.within pos action) s
      ((UnifyM.within pos x).run s) := by
  rw [UnifyM.within, EStateM.run_adaptExcept]
  change (action.run.run s >>= fun p =>
    Pure.pure (Except.mapError (UnifyError.within pos) p.1, p.2)) = _
  rw [show action.run.run s = _ from h]
  cases x.run s <;> rfl

/-- Looking up a type needs fuel for as many hops as there are variables. -/
theorem prune {fuel : Nat} (wf : s.WellFormed) (hfuel : s.size < fuel)
    (t : Ty TyVar) :
    Finishes (Fuelled.prune fuel t) s ((UnifyM.prune t).run s) := by
  cases t with
  | con name => rfl
  | app func arg => rfl
  | var v =>
      refine walk (find_eq wf hfuel v) ?_
      rw [UnifyM.prune_run_eq, Store.prune]
      change (compress (s.root v) fuel v s >>= fun s' =>
        Pure.pure (Except.ok (s'.rootTy (s.root v)), s')) = _
      rw [compress_eq wf hfuel]
      rfl

theorem unsolvedClasses {v : TyVar} {classes : ClassSet}
    (h : s.unsolvedClasses? v = some classes) :
    Finishes (Fuelled.unsolvedClasses v) s (.ok classes s) := by
  have hget : Finishes (MonadState.get : FuelledM Store) s (.ok s s) := rfl
  refine hget.bind_ok ?_
  rw [h]
  rfl

theorem rebind {v : TyVar} {classes : ClassSet}
    (h : s.unsolvedClasses? v = some classes) (binding : Binding) :
    Finishes (Fuelled.rebind v binding) s
      (.ok () (s.setBinding v binding)) :=
  (unsolvedClasses h).bind_ok rfl

/-! ### Unification finishes -/

variable {table : ClassTable} {v w : TyVar} {t : Ty TyVar}
  {classes others : ClassSet} {fuel : Nat}

theorem constrain (h : s.unsolvedClasses? v = some classes) (c : ClassId) :
    Finishes (Fuelled.constrain table v c) s
      ((HindleyMilner.constrain table v c).run s) := by
  refine (unsolvedClasses h).bind_ok ?_
  rw [constrain_run table h, Store.constrained]
  cases hinsert : classes.insert? table c with
  | none => exact .pure () s
  | some larger =>
      cases hconflict : table.conflict? larger with
      | some pair =>
          simp only [hconflict]
          exact .fail _ s
      | none =>
          simp only [hconflict]
          exact rebind h _

theorem joinVars (hv : s.unsolvedClasses? v = some classes)
    (hw : s.unsolvedClasses? w = some others) (hne : v ≠ w) :
    Finishes (Fuelled.joinVars table v w) s
      ((HindleyMilner.joinVars table v w).run s) := by
  refine (unsolvedClasses hv).bind_ok ((unsolvedClasses hw).bind_ok ?_)
  rw [joinVars_run table hv hw hne, Store.joined]
  cases hconflict : table.conflict? (classes.union table others) with
  | some pair =>
      simp only [hconflict]
      exact .fail _ s
  | none =>
      simp only [hconflict]
      exact (rebind hw _).bind_ok
        (rebind (Store.unsolvedClasses?_setClasses_of_ne hv hw hne _) _)

theorem requireArg (wf : s.WellFormed) (ht : t.InRange s)
    (hfuel : s.size < fuel) (c : ClassId) {f : Ty TyVar → UnifyM Unit}
    {g : Ty TyVar → FuelledM Unit}
    (hrest : ∀ ⦃s'⦄, s.Shortened s' →
      Finishes (g (s.resolve t)) s' ((f (s.resolve t)).run s')) :
    Finishes
      (Fuelled.prune fuel t >>= fun
        | .var w => Fuelled.constrain table w c
        | inner => g inner) s
      ((UnifyM.prune t >>= fun
        | .var w => HindleyMilner.constrain table w c
        | inner => f inner).run s) := by
  refine (prune wf hfuel t).bind fun inner s' hrun => ?_
  rw [UnifyM.prune_run wf] at hrun
  cases hrun
  have hrest := hrest (wf.shortened_prune t)
  cases hresolve : s.resolve t with
  | var w =>
      have hrange := wf.inRange_resolve ht
      rw [hresolve] at hrange
      obtain ⟨classes, hclasses⟩ := Store.exists_unsolvedClasses?
        (hrange w (Ty.mem_vars_var.2 rfl)) (wf.solution?_of_resolve hresolve)
      refine constrain (?_ : _ = some classes) c
      rw [Store.unsolvedClasses?_prune, hclasses]
  | con name => rwa [hresolve] at hrest
  | app func arg => rwa [hresolve] at hrest

/-- A requirement finishes, since every argument of a type stands for a lower
type, and requirements solve nothing meanwhile. -/
theorem checkInstance (ordered : table.Ordered) (v : TyVar) {depth : Nat}
    (wf : s.WellFormed) (ht : t.InRange s)
    (hdepth : (s.zonk t).height < depth)
    (hfuel : s.size + (s.zonk t).height < fuel) (c : ClassId) :
    Finishes (Fuelled.checkInstance table v fuel c t) s
      ((requireWithin table v depth c t).run s) := by
  induction depth generalizing s t c fuel with
  | zero => exact absurd hdepth (Nat.not_lt_zero _)
  | succ depth ih =>
      obtain ⟨fuel, rfl⟩ := Nat.exists_eq_succ_of_ne_zero
        (Nat.ne_zero_of_lt hfuel)
      have hstuck : Finishes
          (Fuelled.walk (zonk · (fuel + 1) t) >>= fun zonked =>
            Fuelled.fail (.constraint v c zonked)) s
          ((UnifyM.fail (.constraint v c (s.zonk t)) : UnifyM Unit).run s) :=
        walk (zonk_eq wf hfuel) (.fail _ s)
      rw [requireWithin]
      refine walk (spine_eq wf hfuel) (get ?_)
      rcases hspine : s.spine t with ⟨head, args⟩
      cases head with
      | var w => exact hstuck
      | app func arg => exact hstuck
      | con con =>
          dsimp only
          split
          · have hkeeps (arg : Ty TyVar) (d : ClassId) :=
              tightens_requireArg (s := s) ordered arg d
                (tightens_requireWithin ordered v depth d)
            refine forM args (Store.Tightened.refl wf)
              (fun arg _ => .forM _ fun d _ => hkeeps arg d)
              fun arg harg s₁ hs₁ => forM _ hs₁ (fun d _ => hkeeps arg d)
                fun d _ s₂ hs₂ => ?_
            have wf₂ := hs₂.steady.wellFormed
            have hsize₂ := hs₂.steady.size_eq
            have hmem : arg ∈ (s.spine t).2 := by rwa [hspine]
            have hlower := wf.height_zonk_lt_of_mem_spine hmem
            have hrange : arg.InRange s₂ :=
              (wf.inRange_of_mem_spine ht hmem).of_size_le hsize₂.ge
            apply requireArg wf₂ hrange (by omega)
            intro s₃ hs₃
            have hsize₃ := hs₃.steady.size_eq
            have hzonk : s₃.zonk (s₂.resolve arg) = s.zonk arg := by
              rw [hs₃.steady.zonk_eq, wf₂.zonk_resolve, hs₂.steady.zonk_eq]
            refine ih hs₃.steady.wellFormed
              ((wf₂.inRange_resolve hrange).of_size_le hsize₃.ge) ?_ ?_ d
            · rw [hzonk]
              omega
            · rw [hzonk]
              omega
          · exact hstuck

/-- All requirements on a type have the same fuel, as they do not make it
higher. -/
theorem requireAll (ordered : table.Ordered) (v : TyVar) (wf : s.WellFormed)
    (ht : t.InRange s) (hfuel : s.size + (s.zonk t).height < fuel)
    (classes : ClassSet) :
    Finishes
      (classes.members.forM fun c => Fuelled.checkInstance table v fuel c t) s
      ((classes.members.forM fun c => require table v c t).run s) := by
  refine forM _ (Store.Tightened.refl wf)
    (fun c _ => tightens_require ordered v c t) fun c _ s' hs' => ?_
  have wf' := hs'.steady.wellFormed
  have hsize := hs'.steady.size_eq
  have hrange : t.InRange s' := ht.of_size_le hsize.ge
  apply get
  apply checkInstance ordered v wf' hrange
    (wf'.height_zonk_lt_depthBound hrange)
  rw [hsize, hs'.steady.zonk_eq]
  exact hfuel

/-- Solving a variable finishes: what is required of the type leaves the
variable unsolved. -/
theorem solveVar (ordered : table.Ordered) (wf : s.WellFormed)
    (ht : t.InRange s) (hfuel : s.size + (s.zonk t).height < fuel)
    (h : s.unsolvedClasses? v = some classes) :
    Finishes (Fuelled.solveVar table fuel v t) s
      ((HindleyMilner.solveVar table v t).run s) := by
  refine walk (occurs_eq wf v hfuel) ?_
  rw [solveVar_run ordered wf h]
  split
  · exact .fail _ s
  · refine (unsolvedClasses h).bind_ok ?_
    have hrequire := requireAll ordered v wf ht hfuel classes
    have hs₁ := tightens_requireAll ordered wf v t classes.members
    cases hrun : (classes.members.forM fun c => require table v c t).run s with
    | error e s₁ =>
        rw [hrun] at hrequire
        exact hrequire.bind_error
    | ok u s₁ =>
        rw [hrun] at hrequire hs₁
        obtain ⟨others, hothers, -⟩ := hs₁.implied h
        exact hrequire.bind_ok (rebind hothers _)

theorem conHead_eq (wf : s.WellFormed)
    (hfuel : s.size + (s.zonk t).height < fuel) :
    conHead s fuel t =
      some (match s.spine t with
        | (.con name, args) => some (name, args.length)
        | _ => none) := by
  rw [conHead, spine_eq wf hfuel, Option.bind_eq_bind, Option.bind_some]
  rcases s.spine t with ⟨head, args⟩
  cases head <;> rfl

theorem checkHeads {want got : Ty TyVar} (wf : s.WellFormed)
    (hwant : s.size + (s.zonk want).height < fuel)
    (hgot : s.size + (s.zonk got).height < fuel) :
    Finishes (Fuelled.checkHeads fuel want got) s
      (if headsDiffer s want got then
        .error ⟨.mismatch (s.zonk want) (s.zonk got), []⟩ s
      else .ok () s) := by
  refine walk (conHead_eq wf hwant) (walk (conHead_eq wf hgot) ?_)
  rw [headsDiffer]
  rcases s.spine want with ⟨wantHead, wantArgs⟩
  rcases s.spine got with ⟨gotHead, gotArgs⟩
  cases wantHead with
  | var v => exact .pure () s
  | app func arg => exact .pure () s
  | con c =>
      cases gotHead with
      | var v => exact .pure () s
      | app func arg => exact .pure () s
      | con d =>
          have hpair : (c, wantArgs.length) ≠ (d, gotArgs.length) ↔
              c ≠ d ∨ wantArgs.length ≠ gotArgs.length := by
            rw [Ne, Prod.mk.injEq, not_and_or]
          simp only [hpair, decide_eq_true_eq]
          split
          · exact walk (zonk_eq wf hwant) (walk (zonk_eq wf hgot)
              (.fail _ s))
          · exact .pure () s

variable {F : Footprint}

theorem pruneBoth {want got : Ty TyVar}
    {g : Ty TyVar → Ty TyVar → FuelledM B} (wf : s.WellFormed)
    (hfuel : s.size < fuel)
    (h : Finishes (g (s.resolve want) (s.resolve got))
      (s.prunedBoth want got) result) :
    Finishes
      (Fuelled.prune fuel want >>= fun want =>
        Fuelled.prune fuel got >>= fun got => g want got) s result := by
  have hfirst := wf.shortened_prune want
  have hsize := hfirst.steady.size_eq
  have hwant := prune wf hfuel want
  have hgot := prune hfirst.steady.wellFormed (hsize.trans_lt hfuel) got
  rw [UnifyM.prune_run wf] at hwant
  rw [UnifyM.prune_run hfirst.steady.wellFormed] at hgot
  rw [hfirst.resolve_eq] at hgot
  exact hwant.bind_ok (hgot.bind_ok h)

theorem unifyTops_app (ordered : table.Ordered) {depth : Nat}
    {wantFunc wantArg gotFunc gotArg : Ty TyVar}
    (hs : Store.Evolves table F s s)
    (hwant : F.Covers (.app wantFunc wantArg))
    (hgot : F.Covers (.app gotFunc gotArg))
    (hwantDepth : Store.Shallow table F s (.app wantFunc wantArg) (depth + 1))
    (hgotDepth : Store.Shallow table F s (.app gotFunc gotArg) (depth + 1))
    (hfuel : s.size + depth ≤ fuel)
    (hrest : ∀ ⦃s' : Store⦄ ⦃want got : Ty TyVar⦄,
      Store.Evolves table F s' s' → s'.size = s.size → F.Covers want →
        F.Covers got → Store.Shallow table F s' want depth →
          Store.Shallow table F s' got depth →
            Finishes (Fuelled.unify table fuel want got) s'
              ((unifyWithin table depth want got).run s')) :
    Finishes
      (do
        Fuelled.checkHeads (fuel + 1) (.app wantFunc wantArg)
          (.app gotFunc gotArg)
        Fuelled.unify table fuel wantFunc gotFunc
        let pos :=
          (← Fuelled.walk (Fuelled.spine · (fuel + 1) wantFunc)).2.length
        Fuelled.within pos (Fuelled.unify table fuel wantArg gotArg)) s
      ((unifyTops table depth (.app wantFunc wantArg)
        (.app gotFunc gotArg)).run s) := by
  have wf := hs.wellFormed
  have hwantLow : s.size + (s.zonk (.app wantFunc wantArg)).height <
      fuel + 1 := by have := hwantDepth hs; omega
  have hgotLow : s.size + (s.zonk (.app gotFunc gotArg)).height <
      fuel + 1 := by have := hgotDepth hs; omega
  have hheads := checkHeads wf hwantLow hgotLow
  rw [unifyTops]
  apply get
  split
  · rename_i hdiffer
    rw [if_pos hdiffer] at hheads
    exact hheads.bind_error
  · rename_i hdiffer
    rw [if_neg hdiffer] at hheads
    refine hheads.bind_ok ?_
    refine (hrest hs rfl hwant.func hgot.func hwantDepth.func
      hgotDepth.func).bind fun _ s₁ hrun => ?_
    have hs₁ := imposes_unifyWithin ordered depth hs hwant.func hgot.func
      hwantDepth.func
    rw [hrun] at hs₁
    have hsize := hs₁.evolves.size_eq
    have hlow := hwantDepth.func hs₁.evolves
    refine walk (spine_eq hs₁.evolves.wellFormed (by omega)) (get ?_)
    exact (hrest hs₁.evolves.here hsize hwant.arg hgot.arg
      (hwantDepth.arg.later hs₁.evolves)
      (hgotDepth.arg.later hs₁.evolves)).within _

/-- Unification finishes with the outcome that it has at a depth that the two
types never reach. -/
theorem unify (ordered : table.Ordered) (depth : Nat)
    {want got : Ty TyVar} (hs : Store.Evolves table F s s)
    (hwant : F.Covers want) (hgot : F.Covers got)
    (hwantDepth : Store.Shallow table F s want depth)
    (hgotDepth : Store.Shallow table F s got depth)
    (hfuel : s.size + depth ≤ fuel) :
    Finishes (Fuelled.unify table fuel want got) s
      ((unifyWithin table depth want got).run s) := by
  induction depth generalizing s want got fuel with
  | zero => exact absurd (hwantDepth hs) (Nat.not_lt_zero _)
  | succ depth ih =>
      obtain ⟨fuel, rfl⟩ : ∃ less, fuel = less + 1 :=
        Nat.exists_eq_succ_of_ne_zero (by omega)
      rw [unifyWithin_run hs.wellFormed]
      refine pruneBoth hs.wellFormed (by omega) ?_
      obtain ⟨hevolves, hwant₂, hgot₂⟩ := hs.prunedBoth hwant hgot
      have hs₂ := hevolves.here
      have hsize₂ := hevolves.size_eq
      have hwantDepth₂ := (hwantDepth.resolve ordered).later hevolves
      have hgotDepth₂ := (hgotDepth.resolve ordered).later hevolves
      generalize s.prunedBoth want got = s₂ at *
      generalize s.resolve want = want₂ at *
      generalize s.resolve got = got₂ at *
      have hsolve {v : TyVar} {t : Ty TyVar}
          (hv : ∃ classes, s₂.unsolvedClasses? v = some classes)
          (ht : F.Covers t) (hlow : (s₂.zonk t).height < depth + 1) :
          Finishes (Fuelled.solveVar table (fuel + 1) v t) s₂
            ((HindleyMilner.solveVar table v t).run s₂) := by
        obtain ⟨classes, hclasses⟩ := hv
        exact solveVar ordered hs₂.wellFormed (ht.inRange hs₂.supports)
          (by omega) hclasses
      have hwantLow := hwantDepth₂ hs₂
      have hgotLow := hgotDepth₂ hs₂
      cases want₂ with
      | var v =>
          have hv := (hwant₂.unsolved rfl).2
          cases got₂ with
          | var w =>
              obtain ⟨classes, hclasses⟩ := hv
              obtain ⟨-, others, hothers⟩ := hgot₂.unsolved rfl
              simp only [unifyTops]
              split
              · exact .pure () s₂
              · rename_i hne
                exact joinVars hclasses hothers hne
          | con d => exact hsolve hv hgot₂.covers hgotLow
          | app func arg => exact hsolve hv hgot₂.covers hgotLow
      | con c =>
          cases got₂ with
          | var w =>
              exact hsolve (hgot₂.unsolved rfl).2 hwant₂.covers hwantLow
          | con d =>
              simp only [unifyTops]
              split
              · exact .pure () s₂
              · exact .fail _ s₂
          | app func arg => exact .fail _ s₂
      | app func arg =>
          cases got₂ with
          | var w =>
              exact hsolve (hgot₂.unsolved rfl).2 hwant₂.covers hwantLow
          | con d => exact .fail _ s₂
          | app gotFunc gotArg =>
              exact unifyTops_app ordered hs₂ hwant₂.covers hgot₂.covers
                hwantDepth₂ hgotDepth₂ (by omega)
                fun s' want got hs' hsize' hwant hgot hlow hlow' =>
                  ih hs' hwant hgot hlow hlow' (by omega)

end Finishes

/-- Fuel for the store and for the depths of both types is enough to unify
them. -/
theorem finishes_unify {table : ClassTable} {s : Store} {fuel : Nat}
    {want got : Ty TyVar} (ordered : table.Ordered) (wf : s.WellFormed)
    (hwant : want.InRange s) (hgot : got.InRange s)
    (hfuel : s.size + max (s.depthBound want) (s.depthBound got) ≤ fuel) :
    Finishes (unify table fuel want got) s
      ((HindleyMilner.unify table want got).run s) := by
  have hsupports : (Footprint.reach s [want, got]).Supports s :=
    .reach wf (by simpa using ⟨hwant, hgot⟩)
  have hcovers : ∀ t ∈ [want, got], (Footprint.reach s [want, got]).Covers t :=
    fun t => .reach
  exact Finishes.get (f := fun _ => unifyWithin table _ want got)
    (.unify ordered _ (.refl wf hsupports) (hcovers want (by simp))
      (hcovers got (by simp)) (Store.shallow_unify (hcovers want (by simp)))
      (Store.shallow_unify (hcovers got (by simp))) hfuel)

/-- Whether all walks from a variable or into a type end, with the results of
the bounded walks. -/
structure WalksEnd (s : Store) (fuel : Nat) (t : Ty TyVar) : Prop where
  find (v : TyVar) : find s fuel v = some (s.root v)
  compress (v : TyVar) :
    compress (s.root v) fuel v s = pure (s.compress v)
  zonk : zonk s fuel t = some (s.zonk t)
  spine : spine s fuel t = some (s.spine t)
  occurs (v : TyVar) : occurs s v fuel t = some (s.occurs v t)
  freeVars : addFreeVars s fuel [] t = some (s.freeVars t)

theorem walksEnd {s : Store} {fuel : Nat} {t : Ty TyVar} (wf : s.WellFormed)
    (hfuel : s.size + (s.zonk t).height < fuel) : WalksEnd s fuel t where
  find := find_eq wf (by omega)
  compress := compress_eq wf (by omega)
  zonk := zonk_eq wf hfuel
  spine := spine_eq wf hfuel
  occurs v := occurs_eq wf v hfuel
  freeVars := addFreeVars_eq wf [] hfuel

end Fuelled

namespace TypeState

variable {st : TypeState} {want got : Ty TyVar}

/-- In every state of every session unification ends, and so do all walks that
it takes: given enough fuel, it finishes with the result that it has with its
bounds, and no assertion fails on the way. -/
theorem unify_finishes (h : st.Arises) (hwant : want.InRange st.store)
    (hgot : got.InRange st.store) :
    (∃ enough, ∀ fuel ≥ enough,
      Fuelled.WalksEnd st.store fuel want ∧
        Fuelled.WalksEnd st.store fuel got ∧
          (Fuelled.unify st.classes fuel want got).run.run st.store =
            pure ((st.unify want got).1, (st.unify want got).2.store)) ∧
      ∀ e, (st.unify want got).1 = .error e →
        ∀ fault, e.cause ≠ .fault fault := by
  obtain ⟨ordered, wf⟩ := h.wellFormed
  have himposes := imposes_unify ordered wf hwant hgot
  rw [unify_eq]
  refine ⟨⟨st.store.size +
    max (st.store.depthBound want) (st.store.depthBound got),
    fun fuel hfuel => ?_⟩, fun e hrun => ?_⟩
  · have hwantLow := wf.height_zonk_lt_depthBound hwant
    have hgotLow := wf.height_zonk_lt_depthBound hgot
    have hfinishes :=
      Fuelled.finishes_unify ordered wf hwant hgot hfuel
    refine ⟨Fuelled.walksEnd wf (by omega), Fuelled.walksEnd wf (by omega),
      hfinishes.trans ?_⟩
    cases (HindleyMilner.unify st.classes want got).run st.store <;> rfl
  · cases hresult : (HindleyMilner.unify st.classes want got).run st.store with
    | ok u s => simp [hresult] at hrun
    | error e' s =>
        rw [hresult] at hrun himposes
        rw [← Except.error.inj hrun]
        exact himposes.not_fault

theorem unify_finishes_joined :
    (∃ enough, ∀ fuel ≥ enough,
      Fuelled.WalksEnd joinedSession.store fuel (.var ⟨0⟩) ∧
        Fuelled.WalksEnd joinedSession.store fuel (.list (.var ⟨1⟩)) ∧
          (Fuelled.unify joinedSession.classes fuel (.var ⟨0⟩)
            (.list (.var ⟨1⟩))).run.run joinedSession.store =
              pure (.error ⟨.circularity ⟨1⟩ (.list (.var ⟨1⟩)), []⟩,
                (joinedSession.unify (.var ⟨0⟩)
                  (.list (.var ⟨1⟩))).2.store)) ∧
      ∀ e, (joinedSession.unify (.var ⟨0⟩) (.list (.var ⟨1⟩))).1 = .error e →
        ∀ fault, e.cause ≠ .fault fault :=
  unify_finishes joinedSession_arises (by decide) (by decide)

end TypeState

end HindleyMilner

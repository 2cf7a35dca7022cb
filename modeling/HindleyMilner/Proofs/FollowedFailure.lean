import HindleyMilner.Proofs.UnifiedCopies

/-
A failure that is followed in another store, where other variables stand for
the unsolved ones.  While requirements are made in the first store, the classes
of a variable grow.  In the second store its classes may be those that it had
at first, or those that it has in the end: what is added in the first store is
then added in the second as well, or is there already.  So a requirement that
cannot be met is found to be so in both stores, and for causes of one kind.
-/

namespace HindleyMilner

/-! ### Kinds of causes -/

/-- What kind of thing keeps two types apart. -/
inductive UnifyError.Kind where
  | mismatch
  | constraint
  | unsatisfiable
  | circularity
  | fault
  deriving DecidableEq, Repr

/-- The kind of a cause, without the variables, types and classes that it
names. -/
def UnifyError.Cause.kind : UnifyError.Cause → UnifyError.Kind
  | .mismatch _ _ => .mismatch
  | .constraint _ _ _ => .constraint
  | .unsatisfiable _ _ => .unsatisfiable
  | .circularity _ _ => .circularity
  | .fault _ => .fault

/-- Whether errors are of one kind and at one place. -/
structure UnifyError.Like (e e' : UnifyError) : Prop where
  kind_eq : e'.cause.kind = e.cause.kind
  path_eq : e'.path = e.path

/-! ### Stores that follow others -/

namespace Store

/-- Whether a function sends the unsolved variables of a store to variables of
another, one to one. -/
structure Follows (g : TyVar → TyVar) (first second : Store) : Prop where
  left : first.WellFormed
  right : second.WellFormed
  injective : ∀ ⦃v w⦄, first.isUnsolved v = true →
    first.isUnsolved w = true → g v = g w → v = w

/-- Whether a store asks of the variables that stand for those of a first store
what that store asks of them now, or what it asks of them in the end. -/
structure Between (table : ClassTable) (g : TyVar → TyVar)
    (second s last s' : Store) : Prop where
  tightened : second.Tightened table s'
  classes : ∀ ⦃v classes⦄, s.unsolvedClasses? v = some classes →
    s'.unsolvedClasses? (g v) = some classes ∨
      s'.unsolvedClasses? (g v) = last.unsolvedClasses? v

variable {g : TyVar → TyVar} {first second s s' last : Store}
  {table : ClassTable} {t t' : Ty TyVar} {v w : TyVar} {classes : ClassSet}

/-- The first store asks for more, and the second one asks for what is asked in
the end. -/
theorem Between.setFirst (h : second.Between table g s last s')
    (hw : s.unsolvedClasses? w = some classes)
    (hnow : s'.unsolvedClasses? (g w) = last.unsolvedClasses? w)
    (larger : ClassSet) :
    second.Between table g (s.setBinding w (.unsolved larger)) last s' where
  tightened := h.tightened
  classes u own hown := by
    rw [unsolvedClasses?_setBinding_unsolved
      (lt_size_of_unsolvedClasses? hw)] at hown
    by_cases heq : u = w
    · rw [heq]
      exact Or.inr hnow
    · rw [if_neg heq] at hown
      exact h.classes hown

/-- Both stores ask for more. -/
theorem Between.setBoth (h : second.Between table g s last s')
    (hw : s.unsolvedClasses? w = some classes)
    (hw' : s'.unsolvedClasses? (g w) = some classes)
    (hinjective : ∀ ⦃u own⦄, s.unsolvedClasses? u = some own → u ≠ w →
      g u ≠ g w) {larger : ClassSet}
    (hmore : ∀ c, classes.implies table c = true →
      larger.implies table c = true) :
    second.Between table g (s.setBinding w (.unsolved larger)) last
      (s'.setBinding (g w) (.unsolved larger)) where
  tightened := h.tightened.trans
    (h.tightened.steady.wellFormed.tightened_setClasses hw' hmore)
  classes u own hown := by
    rw [unsolvedClasses?_setBinding_unsolved
      (lt_size_of_unsolvedClasses? hw)] at hown
    rw [unsolvedClasses?_setBinding_unsolved
      (lt_size_of_unsolvedClasses? hw')]
    by_cases heq : u = w
    · rw [if_pos heq] at hown
      rw [if_pos (congrArg g heq)]
      exact Or.inl hown
    · rw [if_neg heq] at hown
      rw [if_neg (hinjective hown heq)]
      exact h.classes hown

/-- Renaming the variables in what a type stands for keeps its spine. -/
theorem WellFormed.spine_of_zonk_eq_map (wf : first.WellFormed)
    (wf' : second.WellFormed) (h : second.zonk t' = (first.zonk t).map g) :
    (second.spine t').1 = (first.spine t).1.map g ∧
      List.Forall₂ (fun arg arg' =>
        second.zonk arg' = (first.zonk arg).map g)
        (first.spine t).2 (second.spine t').2 := by
  have hspine := wf'.zonk_spine t'
  rw [h, Ty.spine_map, wf.zonk_spine, List.map_map] at hspine
  obtain ⟨hhead, hargs⟩ := Prod.mk.inj hspine
  refine ⟨hhead.symm, ?_⟩
  have hforall : List.Forall₂ Eq
      ((second.spine t').2.map second.zonk)
      ((first.spine t).2.map (Ty.map g ∘ first.zonk)) := by
    rw [List.forall₂_eq_eq_eq]
    exact hargs.symm
  rw [List.forall₂_map_left_iff, List.forall₂_map_right_iff] at hforall
  exact hforall.flip

end Store

namespace UnifyM

variable {table : ClassTable} {g : TyVar → TyVar} {second s : Store}
  {x y x' y' f k : UnifyM Unit}

/-- Whether a run solves nothing, and another action goes the same way in every
store that is between the start and the end of the run. -/
def Chases (table : ClassTable) (g : TyVar → TyVar) (second : Store)
    (x y : UnifyM Unit) (s : Store) : Prop :=
  match x.run s with
  | .ok _ s₁ => s.Tightened table s₁ ∧ ∀ ⦃last s'⦄, s₁.Tightened table last →
      second.Between table g s last s' →
        ∃ s'', y.run s' = .ok () s'' ∧ second.Between table g s₁ last s''
  | .error e s₁ => s.Tightened table s₁ ∧
      ∀ ⦃s'⦄, second.Between table g s s₁ s' →
        ∃ e' s'', y.run s' = .error e' s'' ∧ e.Like e'

namespace Chases

theorem pure (wf : s.WellFormed) :
    Chases table g second (pure ()) (pure ()) s :=
  ⟨.refl wf, fun _ s' _ hs' => ⟨s', rfl, hs'⟩⟩

theorem fail (wf : s.WellFormed) {cause cause' : UnifyError.Cause}
    (h : cause'.kind = cause.kind) :
    Chases table g second (fail cause) (fail cause') s :=
  ⟨.refl wf, fun s' _ => ⟨⟨cause', []⟩, s', rfl, h, rfl⟩⟩

theorem congr (h : Chases table g second x y s) (hx : x'.run s = x.run s)
    (hy : ∀ ⦃s'⦄, second.Tightened table s' → y'.run s' = y.run s') :
    Chases table g second x' y' s := by
  rw [Chases] at h ⊢
  rw [hx]
  cases hrun : x.run s with
  | error e s₁ =>
      rw [hrun] at h
      refine ⟨h.1, fun s' hs' => ?_⟩
      rw [hy hs'.tightened]
      exact h.2 hs'
  | ok u s₁ =>
      rw [hrun] at h
      refine ⟨h.1, fun last s' hlast hs' => ?_⟩
      rw [hy hs'.tightened]
      exact h.2 hlast hs'

/-- The second run may look at the store that it is in. -/
theorem get {f k : Store → UnifyM Unit}
    (wf : second.WellFormed)
    (h : ∀ ⦃s'⦄, second.Tightened table s' →
      Chases table g second (f s) (k s') s) :
    Chases table g second (MonadState.get >>= f) (MonadState.get >>= k) s := by
  have hfirst := h (.refl wf)
  rw [Chases] at hfirst ⊢
  change match (f s).run s with
    | .ok _ s₁ => _
    | .error e s₁ => _
  cases hrun : (f s).run s with
  | error e s₁ =>
      rw [hrun] at hfirst
      refine ⟨hfirst.1, fun s' hs' => ?_⟩
      have hnow := h hs'.tightened
      rw [Chases, hrun] at hnow
      exact hnow.2 hs'
  | ok u s₁ =>
      rw [hrun] at hfirst
      refine ⟨hfirst.1, fun last s' hlast hs' => ?_⟩
      have hnow := h hs'.tightened
      rw [Chases, hrun] at hnow
      exact hnow.2 hlast hs'

theorem bind (hx : Chases table g second x y s)
    (hf : ∀ ⦃s₁⦄, s.Tightened table s₁ → Chases table g second f k s₁) :
    Chases table g second (x >>= fun _ => f) (y >>= fun _ => k) s := by
  rw [Chases] at hx ⊢
  rw [EStateM.run_bind]
  cases hrun : x.run s with
  | error e s₁ =>
      rw [hrun] at hx
      refine ⟨hx.1, fun s' hs' => ?_⟩
      obtain ⟨e', s'', hagain, hlike⟩ := hx.2 hs'
      exact ⟨e', s'', by rw [EStateM.run_bind, hagain], hlike⟩
  | ok u s₁ =>
      rw [hrun] at hx
      have hrest := hf hx.1
      rw [Chases] at hrest
      dsimp only
      cases hrunRest : f.run s₁ with
      | error e s₂ =>
          rw [hrunRest] at hrest
          refine ⟨hx.1.trans hrest.1, fun s' hs' => ?_⟩
          obtain ⟨s'', hagain, hs''⟩ := hx.2 hrest.1 hs'
          obtain ⟨e', last, hlast, hlike⟩ := hrest.2 hs''
          exact ⟨e', last, by rw [bind_run_of_ok hagain, hlast], hlike⟩
      | ok w s₂ =>
          rw [hrunRest] at hrest
          refine ⟨hx.1.trans hrest.1, fun last s' hlater hs' => ?_⟩
          obtain ⟨s'', hagain, hs''⟩ := hx.2 (hrest.1.trans hlater) hs'
          obtain ⟨end', hend, hmore⟩ := hrest.2 hlater hs''
          exact ⟨end', by rw [bind_run_of_ok hagain, hend], hmore⟩

theorem forM {A : Type} {like : A → A → Prop} {f k : A → UnifyM Unit}
    {xs ys : List A} (wf : s.WellFormed) (hxs : List.Forall₂ like xs ys)
    (h : ∀ x ∈ xs, ∀ y, like x y → ∀ ⦃s₁⦄, s.Tightened table s₁ →
      Chases table g second (f x) (k y) s₁) :
    Chases table g second (xs.forM f) (ys.forM k) s := by
  induction hxs generalizing s with
  | nil => exact pure wf
  | @cons head head' tail tail' hlike _ ih =>
      rw [List.forall_mem_cons] at h
      refine (h.1 head' hlike (.refl wf)).bind fun s₁ hs₁ => ?_
      exact ih hs₁.steady.wellFormed fun x hx y hxy s₂ hs₂ =>
        h.2 x hx y hxy (hs₁.trans hs₂)

theorem forM_same {A : Type} {f k : A → UnifyM Unit} (xs : List A)
    (wf : s.WellFormed)
    (h : ∀ x, ∀ ⦃s₁⦄, s.Tightened table s₁ →
      Chases table g second (f x) (k x) s₁) :
    Chases table g second (xs.forM f) (xs.forM k) s := by
  have hxs : List.Forall₂ Eq xs xs := List.forall₂_refl xs
  apply forM wf hxs
  rintro x - _ rfl
  exact h x

theorem prune {f k : Ty TyVar → UnifyM Unit} {t t' : Ty TyVar}
    (wf : s.WellFormed)
    (h : ∀ ⦃s₁⦄, s.Shortened s₁ → Chases table g second
      (f (s.resolve t)) (k (second.resolve t')) s₁) :
    Chases table g second (UnifyM.prune t >>= f) (UnifyM.prune t' >>= k)
      s := by
  have hs₁ := wf.shortened_prune t
  have hrest := h hs₁
  have hagain {s'} (hs' : second.Tightened table s') :
      (UnifyM.prune t' >>= k).run s' =
        (k (second.resolve t')).run (s'.prune t').2 := by
    rw [bind_run_of_ok (prune_run hs'.steady.wellFormed t'), hs'.resolve_eq]
  have hnext {last s'} (hs' : second.Between table g s last s') :
      second.Between table g (s.prune t).2 last (s'.prune t').2 := by
    have hs'' := hs'.tightened.steady.wellFormed.shortened_prune t'
    refine ⟨hs'.tightened.trans hs''.tightened, fun v classes hv => ?_⟩
    rw [hs''.unsolvedClasses?_eq]
    exact hs'.classes ((hs₁.unsolvedClasses?_eq v).symm.trans hv)
  rw [Chases] at hrest ⊢
  rw [bind_run_of_ok (prune_run wf t)]
  cases hrun : (f (s.resolve t)).run (s.prune t).2 with
  | error e s₂ =>
      rw [hrun] at hrest
      refine ⟨hs₁.tightened.trans hrest.1, fun s' hs' => ?_⟩
      rw [hagain hs'.tightened]
      exact hrest.2 (hnext hs')
  | ok u s₂ =>
      rw [hrun] at hrest
      refine ⟨hs₁.tightened.trans hrest.1, fun last s' hlast hs' => ?_⟩
      rw [hagain hs'.tightened]
      exact hrest.2 hlast (hnext hs')

end Chases

end UnifyM

open UnifyM

section

variable {table : ClassTable} {g : TyVar → TyVar} {first second s s₁ s' : Store}
  {v v' w : TyVar} {c : ClassId} {t t' : Ty TyVar} {classes : ClassSet}

/-! ### Requirements -/

/-- A class that is added to the classes of a variable is added to those of the
variable that stands for it, unless it has been added before. -/
theorem chases_constrain (h : first.Follows g second)
    (ordered : table.Ordered) (hs : first.Tightened table s)
    (hw : s.unsolvedClasses? w = some classes) (c : ClassId) :
    Chases table g second (constrain table w c) (constrain table (g w) c)
      s := by
  have wf := hs.steady.wellFormed
  have hlike (e : UnifyError) : e.Like e := ⟨rfl, rfl⟩
  rw [Chases, constrain_run table hw, Store.constrained]
  cases hinsert : classes.insert? table c with
  | none =>
      have himplied := ClassSet.implies_of_insert?_eq_none hinsert
      refine ⟨.refl wf, fun last s' hlast hs' => ⟨s', ?_, hs'⟩⟩
      rcases hs'.classes hw with hsame | hnow
      · rw [constrain_run table hsame,
          Store.constrained_of_implies s' _ himplied]
      · obtain ⟨others, hothers, hmore⟩ := hlast.implied hw
        rw [constrain_run table (hnow.trans hothers),
          Store.constrained_of_implies s' _ (hmore c himplied)]
  | some larger =>
      obtain ⟨himplied, hmore⟩ := ClassSet.implies_of_insert? ordered hinsert
      cases hconflict : table.conflict? larger with
      | some pair =>
          simp only [hconflict]
          refine ⟨.refl wf, fun s' hs' =>
            ⟨⟨.unsatisfiable pair.1 pair.2, []⟩, s', ?_, hlike _⟩⟩
          have hclasses : s'.unsolvedClasses? (g w) = some classes :=
            (hs'.classes hw).elim id fun hnow => hnow.trans hw
          rw [constrain_run table hclasses, Store.constrained]
          simp only [hinsert, hconflict]
      | none =>
          simp only [hconflict]
          refine ⟨wf.tightened_setClasses hw hmore,
            fun last s' hlast hs' => ?_⟩
          rcases hs'.classes hw with hsame | hnow
          · refine ⟨s'.setBinding (g w) (.unsolved larger), ?_,
              hs'.setBoth hw hsame (fun u own hown hne heq => hne ?_) hmore⟩
            · rw [constrain_run table hsame, Store.constrained]
              simp only [hinsert, hconflict]
            · have hleft {x : TyVar} {set : ClassSet}
                  (hx : s.unsolvedClasses? x = some set) :
                  first.isUnsolved x = true := by
                rw [← hs.steady.isUnsolved_eq]
                exact Store.isUnsolved_of_unsolved hx
              exact h.injective (hleft hown) (hleft hw) heq
          · have hlarger : (s.setBinding w
                (.unsolved larger)).unsolvedClasses? w = some larger := by
              rw [Store.unsolvedClasses?_setBinding_unsolved
                (Store.lt_size_of_unsolvedClasses? hw), if_pos rfl]
            obtain ⟨others, hothers, hlater⟩ := hlast.implied hlarger
            refine ⟨s', ?_, hs'.setFirst hw hnow larger⟩
            rw [constrain_run table (hnow.trans hothers),
              Store.constrained_of_implies s' _ (hlater c himplied)]

theorem chases_requireArg (h : first.Follows g second)
    (ordered : table.Ordered) (ht : t.InRange first)
    (hzonk : second.zonk t' = (first.zonk t).map g)
    (hs : first.Tightened table s) (c : ClassId)
    {f k : Ty TyVar → UnifyM Unit}
    (hrest : ∀ ⦃s₁⦄, s.Shortened s₁ → Chases table g second
      (f (first.resolve t)) (k (second.resolve t')) s₁) :
    Chases table g second
      (prune t >>= fun
        | .var w => constrain table w c
        | inner => f inner)
      (prune t' >>= fun
        | .var w => constrain table w c
        | inner => k inner) s := by
  apply Chases.prune hs.steady.wellFormed
  intro s₁ hs₁
  have hrest := hrest hs₁
  rw [hs.resolve_eq]
  cases hresolve : first.resolve t with
  | con name =>
      rw [h.left.zonk_of_resolve_con hresolve] at hzonk
      rw [h.right.resolve_of_zonk_con hzonk] at hrest ⊢
      rwa [hresolve] at hrest
  | app func arg =>
      rw [h.left.zonk_of_resolve_app hresolve] at hzonk
      obtain ⟨func', arg', hresolve', -, -⟩ :=
        h.right.resolve_of_zonk_app hzonk
      rw [hresolve, hresolve'] at hrest
      rw [hresolve']
      exact hrest
  | var w =>
      rw [h.left.zonk_of_resolve_var hresolve] at hzonk
      rw [h.right.resolve_of_zonk_var hzonk]
      have hrange := h.left.inRange_resolve ht
      rw [hresolve] at hrange
      obtain ⟨classes, hclasses⟩ := Store.exists_unsolvedClasses?
        (hrange w (Ty.mem_vars_var.2 rfl))
        (h.left.solution?_of_resolve hresolve)
      obtain ⟨others, hothers, -⟩ := (hs.trans hs₁.tightened).implied hclasses
      exact chases_constrain h ordered (hs.trans hs₁.tightened) hothers c

theorem chases_requireWithin (h : first.Follows g second)
    (ordered : table.Ordered) (v v' : TyVar) {depth depth' : Nat}
    (ht : t.InRange first) (hzonk : second.zonk t' = (first.zonk t).map g)
    (hdepth : (first.zonk t).height < depth)
    (hdepth' : (first.zonk t).height < depth') (c : ClassId)
    (hs : first.Tightened table s) :
    Chases table g second (requireWithin table v depth c t)
      (requireWithin table v' depth' c t') s := by
  induction depth generalizing s t t' c depth' with
  | zero => exact absurd hdepth (Nat.not_lt_zero _)
  | succ depth ih =>
      obtain ⟨depth', rfl⟩ := Nat.exists_eq_succ_of_ne_zero
        (Nat.ne_zero_of_lt hdepth')
      have wf := hs.steady.wellFormed
      obtain ⟨hhead, hargs⟩ := h.left.spine_of_zonk_eq_map h.right hzonk
      have hspine : Chases table g second
          (requireSpine table v depth c (first.zonk t) (first.spine t))
          (requireSpine table v' depth' c (second.zonk t')
            (second.spine t')) s := by
        have hlower (arg : Ty TyVar) (harg : arg ∈ (first.spine t).2) :=
          h.left.height_zonk_lt_of_mem_spine harg
        have hrange (arg : Ty TyVar) (harg : arg ∈ (first.spine t).2) :=
          h.left.inRange_of_mem_spine ht harg
        generalize first.spine t = spine at hhead hargs hlower hrange ⊢
        generalize second.spine t' = spine' at hhead hargs ⊢
        rcases spine with ⟨head, args⟩
        rcases spine' with ⟨head', args'⟩
        dsimp only at hhead hargs
        subst hhead
        cases head with
        | var w => exact .fail wf rfl
        | app func arg => exact .fail wf rfl
        | con con =>
            simp only [requireSpine, Ty.map]
            split
            · refine .forM wf hargs fun arg harg arg' hzonkArg s₁ hs₁ =>
                .forM_same _ hs₁.steady.wellFormed fun d s₂ hs₂ => ?_
              have hlowerArg := hlower arg harg
              have hnow := (hs.trans hs₁).trans hs₂
              apply chases_requireArg h ordered (hrange arg harg) hzonkArg hnow
              intro s₃ hs₃
              apply ih (h.left.inRange_resolve (hrange arg harg))
              · rw [h.right.zonk_resolve, h.left.zonk_resolve, hzonkArg]
              · rw [h.left.zonk_resolve]
                omega
              · rw [h.left.zonk_resolve]
                omega
              · exact hnow.trans hs₃.tightened
            · exact .fail wf rfl
      refine hspine.congr ?_ fun s' hs' => ?_
      · rw [requireWithin_run, hs.steady.zonk_eq,
          h.left.spine_congr wf hs.resolve_eq]
      · rw [requireWithin_run, hs'.steady.zonk_eq,
          h.right.spine_congr hs'.steady.wellFormed hs'.resolve_eq]

end

/-! ### Steps that fail -/

section

variable {table : ClassTable} {g : TyVar → TyVar} {s s₁ s' : Store}
  {v w : TyVar} {want got want' got' t t' : Ty TyVar}
  {classes others : ClassSet} {e : UnifyError}

/-- All that is required of a type in order to solve a variable to it. -/
theorem chases_requireAll (h : s.Follows g s') (ordered : table.Ordered)
    (v v' : TyVar) (ht : t.InRange s) (ht' : t'.InRange s')
    (hzonk : s'.zonk t' = (s.zonk t).map g) (classes : ClassSet) :
    Chases table g s' (classes.members.forM fun c => require table v c t)
      (classes.members.forM fun c => require table v' c t') s := by
  apply Chases.forM_same _ h.left
  intro c s₂ hs₂
  have wf₂ := hs₂.steady.wellFormed
  apply Chases.get h.right
  intro s₃ hs₃
  apply chases_requireWithin h ordered v v' ht hzonk _ _ c hs₂
  · rw [← hs₂.steady.zonk_eq]
    exact wf₂.height_zonk_lt_depthBound (ht.of_size_le hs₂.steady.size_eq.ge)
  · rw [← Ty.height_map (s.zonk t) g, ← hzonk, ← hs₃.steady.zonk_eq]
    exact hs₃.steady.wellFormed.height_zonk_lt_depthBound
      (ht'.of_size_le hs₃.steady.size_eq.ge)

theorem Store.Follows.mem_vars_iff (h : s.Follows g s')
    (hv : s.unsolvedClasses? v = some classes) (ht : t.InRange s)
    (hzonk : s'.zonk t' = (s.zonk t).map g) :
    g v ∈ (s'.zonk t').vars ↔ v ∈ (s.zonk t).vars := by
  rw [hzonk, Ty.mem_vars_map]
  constructor
  · rintro ⟨w, hw, heq⟩
    obtain ⟨own, hown⟩ := h.left.exists_unsolvedClasses?_of_mem_zonk ht hw
    rwa [h.injective (Store.isUnsolved_of_unsolved hv)
      (Store.isUnsolved_of_unsolved hown) heq]
  · exact fun hmem => ⟨v, hmem, rfl⟩

/-- A variable that cannot be solved to a type cannot be solved in the second
store. -/
theorem Store.Follows.fails_solveVar (h : s.Follows g s')
    (ordered : table.Ordered) (hv : s.unsolvedClasses? v = some classes)
    (ht : t.InRange s) (ht' : t'.InRange s')
    (hzonk : s'.zonk t' = (s.zonk t).map g)
    (hbetween : s'.Between table g s s₁ s')
    (hrun : (solveVar table v t).run s = .error e s₁) :
    ∃ e' s₂, (solveVar table (g v) t').run s' = .error e' s₂ ∧ e.Like e' := by
  have hmem := h.mem_vars_iff hv ht hzonk
  obtain ⟨hcircular, rfl, rfl⟩ | ⟨hcircular, hrequire⟩ :=
    solveVar_error_cases ordered h.left hv hrun
  · have hclasses : s'.unsolvedClasses? (g v) = some classes :=
      (hbetween.classes hv).elim id fun hnow => hnow.trans hv
    rw [solveVar_run ordered h.right hclasses, if_pos]
    · exact ⟨_, _, rfl, rfl, rfl⟩
    · rwa [Store.occurs_eq_true_iff, hmem, ← Store.occurs_eq_true_iff]
  · have hchases := chases_requireAll h ordered v (g v) ht ht' hzonk classes
    rw [Chases, hrequire] at hchases
    have hlast :=
      unsolvedClasses?_requireAll ordered h.left hv ht hcircular hrequire
    have hclasses : s'.unsolvedClasses? (g v) = some classes :=
      (hbetween.classes hv).elim id fun hnow => hnow.trans hlast
    obtain ⟨e', s₃, hrun', hlike⟩ := hchases.2 hbetween
    refine ⟨e', s₃, ?_, hlike⟩
    rw [solveVar_run ordered h.right hclasses, if_neg, hrun']
    rw [Store.occurs_eq_true_iff, hmem, ← Store.occurs_eq_true_iff, hcircular]
    exact Bool.false_ne_true

theorem Store.Follows.fails_joinVars (h : s.Follows g s')
    (hv : s.unsolvedClasses? v = some classes)
    (hw : s.unsolvedClasses? w = some others) (hne : v ≠ w)
    (hbetween : s'.Between table g s s₁ s')
    (hrun : (joinVars table v w).run s = .error e s₁) :
    ∃ e' s₂, (joinVars table (g v) (g w)).run s' = .error e' s₂ ∧
      e.Like e' := by
  have hne' : g v ≠ g w := fun heq => hne (h.injective
    (Store.isUnsolved_of_unsolved hv) (Store.isUnsolved_of_unsolved hw) heq)
  obtain ⟨a, b, hconflict, rfl, rfl⟩ :=
    conflict?_of_joinVars_error hv hw hne hrun
  have hv' : s'.unsolvedClasses? (g v) = some classes :=
    (hbetween.classes hv).elim id fun hnow => hnow.trans hv
  have hw' : s'.unsolvedClasses? (g w) = some others :=
    (hbetween.classes hw).elim id fun hnow => hnow.trans hw
  rw [joinVars_run table hv' hw' hne', Store.joined, hconflict]
  exact ⟨_, _, rfl, rfl, rfl⟩

/-- Whether a type has the top of another, its variables renamed. -/
inductive SameTop (g : TyVar → TyVar) : Ty TyVar → Ty TyVar → Prop
  | var (v : TyVar) : SameTop g (.var v) (.var (g v))
  | con (name : Name) : SameTop g (.con name) (.con name)
  | app (func arg func' arg' : Ty TyVar) :
      SameTop g (.app func arg) (.app func' arg')

theorem Store.Follows.sameTop (h : s.Follows g s')
    (htop : s'.resolve t' = t') (hzonk : s'.zonk t' = (s.zonk t).map g)
    (hvar : ∀ v, t = .var v → s.solution? v = none) : SameTop g t t' := by
  cases t with
  | var v =>
      rw [h.left.zonk_var_unsolved (hvar v rfl)] at hzonk
      rw [← htop, h.right.resolve_of_zonk_var hzonk]
      exact .var v
  | con name =>
      rw [h.left.zonk_con] at hzonk
      rw [← htop, h.right.resolve_of_zonk_con hzonk]
      exact .con name
  | app func arg =>
      rw [h.left.zonk_app] at hzonk
      obtain ⟨func', arg', hresolve, -, -⟩ :=
        h.right.resolve_of_zonk_app hzonk
      rw [← htop, hresolve]
      exact .app func arg func' arg'

/-- A step of unification between two types that are not both applications
fails in the second store as it does in the first. -/
theorem Store.Follows.fails_unifyTops (h : s.Follows g s')
    (ordered : table.Ordered) {F : Footprint} (hs : F.Supports s)
    (hwant : Store.Resolved F s want) (hgot : Store.Resolved F s got)
    (hnot : ∀ func arg func' arg', want = .app func arg →
      got ≠ .app func' arg')
    (hwantTop : s'.resolve want' = want') (hgotTop : s'.resolve got' = got')
    (hwantRange : want'.InRange s') (hgotRange : got'.InRange s')
    (hwantZonk : s'.zonk want' = (s.zonk want).map g)
    (hgotZonk : s'.zonk got' = (s.zonk got).map g)
    (hbetween : s'.Between table g s s₁ s') {depth : Nat} (depth' : Nat)
    (hrun : (unifyTops table depth want got).run s = .error e s₁) :
    ∃ e' s₂, (unifyTops table depth' want' got').run s' = .error e' s₂ ∧
      e.Like e' := by
  have hunsolved {t : Ty TyVar} (ht : Store.Resolved F s t) (v : TyVar)
      (hv : t = .var v) : s.solution? v = none := by
    obtain ⟨-, own, hown⟩ := ht.unsolved hv
    exact Store.solution?_eq_none_of_unsolved hown
  have hwantTop := h.sameTop hwantTop hwantZonk (hunsolved hwant)
  have hgotTop := h.sameTop hgotTop hgotZonk (hunsolved hgot)
  have hmismatch {cause cause' : UnifyError.Cause}
      (hfail : (UnifyM.fail cause : UnifyM Unit).run s = .error e s₁)
      (hkind : cause'.kind = cause.kind) :
      ∃ e' s₂, (UnifyM.fail cause' : UnifyM Unit).run s' = .error e' s₂ ∧
        e.Like e' := by
    cases hfail
    exact ⟨_, _, rfl, hkind, rfl⟩
  have hsolve {v : TyVar} {t t' : Ty TyVar}
      (hv : ∃ classes, s.unsolvedClasses? v = some classes)
      (ht : t.InRange s) (ht' : t'.InRange s')
      (hzonk : s'.zonk t' = (s.zonk t).map g)
      (hfail : (solveVar table v t).run s = .error e s₁) :
      ∃ e' s₂, (solveVar table (g v) t').run s' = .error e' s₂ ∧
        e.Like e' := by
    obtain ⟨classes, hclasses⟩ := hv
    exact h.fails_solveVar ordered hclasses ht ht' hzonk hbetween hfail
  have hwantFirst := hwant.covers.inRange hs
  have hgotFirst := hgot.covers.inRange hs
  cases hwantTop with
  | var v =>
      have hv := (hwant.unsolved rfl).2
      cases hgotTop with
      | var w =>
          obtain ⟨classes, hclasses⟩ := hv
          obtain ⟨-, others, hothers⟩ := hgot.unsolved rfl
          simp only [unifyTops] at hrun ⊢
          by_cases heq : v = w
          · rw [if_pos heq] at hrun
            contradiction
          · rw [if_neg heq] at hrun
            rw [if_neg fun hsame => heq (h.injective
              (Store.isUnsolved_of_unsolved hclasses)
              (Store.isUnsolved_of_unsolved hothers) hsame)]
            exact h.fails_joinVars hclasses hothers heq hbetween hrun
      | con d => exact hsolve hv hgotFirst hgotRange hgotZonk hrun
      | app func arg func' arg' =>
          exact hsolve hv hgotFirst hgotRange hgotZonk hrun
  | con c =>
      cases hgotTop with
      | var w =>
          exact hsolve (hgot.unsolved rfl).2 hwantFirst hwantRange hwantZonk
            hrun
      | con d =>
          simp only [unifyTops] at hrun ⊢
          by_cases heq : c = d
          · rw [if_pos heq] at hrun
            contradiction
          · rw [if_neg heq] at hrun ⊢
            exact hmismatch hrun rfl
      | app func arg func' arg' => exact hmismatch hrun rfl
  | app func arg func' arg' =>
      cases hgotTop with
      | var w =>
          exact hsolve (hgot.unsolved rfl).2 hwantFirst hwantRange hwantZonk
            hrun
      | con d => exact hmismatch hrun rfl
      | app func₂ arg₂ func₂' arg₂' =>
          exact absurd rfl (hnot func arg func₂ arg₂ rfl)

end

end HindleyMilner

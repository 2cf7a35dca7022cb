import HindleyMilner.Proofs.AlikeText

/-
Inference in two stores at once.  From views that keep alike types, and for an
expression whose signatures, annotations and literals are alike, inference
takes the same way in both stores.  Copies of signatures are made in the same
order, so the new variables can be paired as they are created.
-/

namespace HindleyMilner

open Infer

namespace Pairing

variable {M N N' : Pairing} {table : ClassTable} {v v' w w' : TyVar}
  {t t' : Ty TyVar} {scope scope' : Scope} {s s' : Store}

/-! ### Copies -/

/-- Whether paired variables are one of the two only where both are, which
stays so when either is solved. -/
structure Keys (M : Pairing) (v v' : TyVar) : Prop where
  left : v.index < M.left.size
  right : v'.index < M.right.size
  same : ∀ ⦃u u'⦄, M.rel u u' → (u = v ↔ u' = v')

theorem Faithful.keys (h : M.Faithful table false) (hv : M.rel v v') :
    M.Keys v v' := by
  obtain ⟨classes, hleft, hright⟩ := h.classes hv
  exact ⟨Store.lt_size_of_unsolvedClasses? hleft,
    Store.lt_size_of_unsolvedClasses? hright, fun u u' hu =>
      ⟨fun heq => h.unique.2 (heq ▸ hu) hv,
        fun heq => h.unique.1 (heq ▸ hu) hv⟩⟩

theorem Keys.leads (h : M.Keys v v') (hleads : M.Leads N false) :
    N.Keys v v' where
  left := Nat.lt_of_lt_of_le h.left hleads.left.size_le
  right := Nat.lt_of_lt_of_le h.right hleads.right.size_le
  same u u' hu := by
    rcases hleads.old rfl hu with hold | ⟨hnew, hnew'⟩
    · exact h.same hold
    · -- variables that came later are neither of the two
      have hne : u ≠ v := by
        rintro rfl
        exact absurd h.left (Nat.not_lt.2 hnew)
      have hne' : u' ≠ v' := by
        rintro rfl
        exact absurd h.right (Nat.not_lt.2 hnew')
      exact iff_of_false hne hne'

/-- Whether two scopes made copies of the same variables, in order. -/
def Scopes (M : Pairing) (scope scope' : Scope) : Prop :=
  List.Forall₂
    (fun p q => M.Keys p.1 q.1 ∧ M.Alike (.var p.2) (.var q.2))
    scope.copies scope'.copies

theorem Scopes.leads (h : M.Scopes scope scope') (hleads : M.Leads N false) :
    N.Scopes scope scope' :=
  List.Forall₂.imp (fun _ _ ⟨hkeys, hcopy⟩ =>
    ⟨hkeys.leads hleads, hleads.alike_ty hcopy⟩) h

theorem scopes_empty (M : Pairing) : M.Scopes .empty .empty :=
  .nil

/-- A variable and its partner were copied both or neither. -/
theorem Scopes.lookup (h : M.Scopes scope scope') (hv : M.rel v v') :
    (∃ w w', scope.copies.lookup v = some w ∧
        scope'.copies.lookup v' = some w' ∧ M.Alike (.var w) (.var w')) ∨
      scope.copies.lookup v = none ∧ scope'.copies.lookup v' = none := by
  rw [Scopes] at h
  generalize scope.copies = copies at h ⊢
  generalize scope'.copies = copies' at h ⊢
  induction h with
  | nil => exact Or.inr ⟨rfl, rfl⟩
  | @cons p q _ _ hpq _ ih =>
      rcases p with ⟨u, w⟩
      rcases q with ⟨u', w'⟩
      obtain ⟨hkeys, hcopy⟩ := hpq
      rw [lookup_cons_if, lookup_cons_if]
      by_cases heq : v = u
      · rw [if_pos heq, if_pos ((hkeys.same hv).1 heq)]
        exact Or.inl ⟨w, w', rfl, rfl, hcopy⟩
      · rw [if_neg heq, if_neg (mt (hkeys.same hv).2 heq)]
        exact ih

/-- Whether two scopes and their stores came from a pairing by creating
variables on both sides. -/
structure Copied (M N : Pairing) (table : ClassTable)
    (now now' : Scope × Store) : Prop where
  left : now.2 = N.left
  right : now'.2 = N.right
  faithful : N.Faithful table false
  leads : M.Leads N false
  scopes : N.Scopes now.1 now'.1
  rel : ∀ ⦃v v'⦄, M.rel v v' → N.rel v v'

theorem Copied.trans {now now' next next' : Scope × Store}
    (h : M.Copied N table now now') (h' : N.Copied N' table next next') :
    M.Copied N' table next next' :=
  { h' with
    leads := h.leads.trans h'.leads
    rel := fun _ _ hv => h'.rel (h.rel hv) }

theorem Faithful.copied (h : M.Faithful table false)
    (hscopes : M.Scopes scope scope') :
    M.Copied M table (scope, M.left) (scope', M.right) :=
  ⟨rfl, rfl, h, .refl h, hscopes, fun _ _ => id⟩

/-- Paired variables have copies that are paired: either both were met before or
neither was. -/
theorem Faithful.copy (h : M.Faithful table false)
    (hscopes : M.Scopes scope scope') (hv : M.rel v v') :
    ∃ N, M.Copied N table ((Scope.copy v).run (scope, M.left)).2
        ((Scope.copy v').run (scope', M.right)).2 ∧
      N.Alike (.var ((Scope.copy v).run (scope, M.left)).1)
        (.var ((Scope.copy v').run (scope', M.right)).1) := by
  rcases hscopes.lookup hv with ⟨w, w', hleft, hright, hcopy⟩ | ⟨hleft, hright⟩
  · rw [Scope.copy_run_of_some hleft, Scope.copy_run_of_some hright]
    exact ⟨M, h.copied hscopes, hcopy⟩
  · rw [Scope.copy_run_of_none hleft, Scope.copy_run_of_none hright]
    obtain ⟨classes, hclasses, hclasses'⟩ := h.classes hv
    rw [hclasses, hclasses', Option.getD_some]
    obtain ⟨hnext, hleads⟩ :=
      h.fresh (M.left.baseOf v) (M.right.baseOf v') classes
    have hnew := hnext.alike_var (Or.inr ⟨rfl, rfl⟩)
    refine ⟨_, ⟨rfl, rfl, hnext, hleads, ?_, fun _ _ => Or.inl⟩, hnew⟩
    exact .cons ⟨(h.keys hv).leads hleads, hnew⟩ (hscopes.leads hleads)

/-- Copying alike types creates as many variables on both sides, in the same
order. -/
theorem Faithful.mapVarsM_copy {rel : TyVar → TyVar → Prop}
    (h : M.Faithful table false) (ht : Ty.Alike rel t t')
    (hrel : ∀ v v', rel v v' → M.rel v v')
    (hscopes : M.Scopes scope scope') :
    ∃ N, M.Copied N table ((t.mapVarsM Scope.copy).run (scope, M.left)).2
        ((t'.mapVarsM Scope.copy).run (scope', M.right)).2 ∧
      N.Alike ((t.mapVarsM Scope.copy).run (scope, M.left)).1
        ((t'.mapVarsM Scope.copy).run (scope', M.right)).1 := by
  induction ht generalizing M scope scope' with
  | var hv => exact h.copy hscopes (hrel _ _ hv)
  | con name => exact ⟨M, h.copied hscopes, h.alike_con name⟩
  | @app func arg func' arg' _ _ ihFunc ihArg =>
      obtain ⟨N, hN, hfunc⟩ := ihFunc h hrel hscopes
      rw [Scope.mapVarsM_app_run, Scope.mapVarsM_app_run]
      generalize (func.mapVarsM Scope.copy).run (scope, M.left) = first
        at hN hfunc ⊢
      generalize (func'.mapVarsM Scope.copy).run (scope', M.right) = first'
        at hN hfunc ⊢
      rcases first with ⟨a, scope₁, s₁⟩
      rcases first' with ⟨a', scope₁', s₁'⟩
      obtain rfl : s₁ = N.left := hN.left
      obtain rfl : s₁' = N.right := hN.right
      obtain ⟨N', hN', harg⟩ := ihArg hN.faithful
        (fun v v' hv => hN.rel (hrel v v' hv)) hN.scopes
      exact ⟨N', hN.trans hN',
        hN'.faithful.alike_app (hN'.leads.alike_ty hfunc) harg⟩

/-- Types that are alike are either both copied or both left as they are. -/
theorem Alike.freeVars_eq_nil_iff (ht : M.Alike t t') :
    M.left.freeVars t = [] ↔ M.right.freeVars t' = [] := by
  simp only [List.eq_nil_iff_forall_not_mem, Store.mem_freeVars]
  constructor
  · intro hnone v' hv'
    obtain ⟨v, hv, -⟩ := ht.exists_left hv'
    exact hnone v hv
  · intro hnone v hv
    obtain ⟨v', hv', -⟩ := ht.exists_right hv
    exact hnone v' hv'

/-- Copies of types that are alike are alike. -/
theorem Faithful.instantiate (h : M.Faithful table false)
    (hscopes : M.Scopes scope scope') (ht : M.Alike t t') :
    ∃ N, M.Copied N table ((Scope.instantiate t).run (scope, M.left)).2
        ((Scope.instantiate t').run (scope', M.right)).2 ∧
      N.Alike ((Scope.instantiate t).run (scope, M.left)).1
        ((Scope.instantiate t').run (scope', M.right)).1 := by
  rw [Scope.instantiate_run, Scope.instantiate_run]
  by_cases hground : M.left.freeVars t = []
  · rw [if_pos hground, if_pos (ht.freeVars_eq_nil_iff.1 hground)]
    exact ⟨M, h.copied hscopes, ht⟩
  · rw [if_neg hground, if_neg (mt ht.freeVars_eq_nil_iff.2 hground)]
    exact h.mapVarsM_copy ht (fun _ _ => id) hscopes

/-! ### Views -/

/-- Whether two tables have alike types for the same keys, in order. -/
def Entries {K : Type} (M : Pairing) (entries entries' : List (K × Ty TyVar)) :
    Prop :=
  List.Forall₂ (fun p q => p.1 = q.1 ∧ M.Alike p.2 q.2) entries entries'

theorem Entries.leads {K : Type} {entries entries' : List (K × Ty TyVar)}
    (h : M.Entries entries entries') (hleads : M.Leads N false) :
    N.Entries entries entries' :=
  List.Forall₂.imp (fun _ _ ⟨hkey, ht⟩ => ⟨hkey, hleads.alike_ty ht⟩) h

/-- A table has an alike type for a key where the other one has a type. -/
theorem Entries.lookup {K : Type} [DecidableEq K]
    {entries entries' : List (K × Ty TyVar)}
    (h : M.Entries entries entries') (k : K) :
    (∃ t t', entries.lookup k = some t ∧ entries'.lookup k = some t' ∧
        M.Alike t t') ∨
      entries.lookup k = none ∧ entries'.lookup k = none :=
  lookup_of_forall₂ h k

structure Views (M : Pairing) (view view' : View) : Prop where
  exps : M.Entries view.exps view'.exps
  binders : M.Entries view.binders view'.binders

theorem Views.leads {view view' : View} (h : M.Views view view')
    (hleads : M.Leads N false) : N.Views view view' :=
  ⟨h.exps.leads hleads, h.binders.leads hleads⟩

theorem Views.keepExp {view view' : View} (h : M.Views view view')
    (ht : M.Alike t t') (id : ExpId) :
    M.Views { view with exps := (id, t) :: view.exps }
      { view' with exps := (id, t') :: view'.exps } :=
  ⟨.cons ⟨rfl, ht⟩ h.exps, h.binders⟩

theorem Views.keepBinder {view view' : View} (h : M.Views view view')
    (ht : M.Alike t t') (id : BinderId) :
    M.Views { view with binders := (id, t) :: view.binders }
      { view' with binders := (id, t') :: view'.binders } :=
  ⟨h.exps, .cons ⟨rfl, ht⟩ h.binders⟩

theorem views_empty (M : Pairing) : M.Views .empty .empty :=
  ⟨.nil, .nil⟩

theorem Knows.leads {p : Parts} (h : M.Knows p) (hleads : M.Leads N false) :
    N.Knows p :=
  ⟨fun t ht => hleads.alike_ty (h.1 t ht),
    fun t ht => hleads.alike_ty (h.2 t ht)⟩

/-! ### Outcomes of inference -/

variable {A B C D : Type} {view view' : View}

/-- How two inferences end that go the same way: both with results, or both
with errors in the same expression that say the same. -/
inductive Outcomes (M : Pairing) (table : ClassTable)
    (post : Pairing → A → B → Prop) :
    EStateM.Result InferError (View × Store) A →
      EStateM.Result InferError (View × Store) B → Prop
  | ok {a : A} {b : B} {view view' : View} {s s' : Store}
      {rel : TyVar → TyVar → Prop} (h : Faithful ⟨s, s', rel⟩ table false)
      (hleads : M.Leads ⟨s, s', rel⟩ false)
      (hviews : Views ⟨s, s', rel⟩ view view')
      (hpost : post ⟨s, s', rel⟩ a b) :
      Outcomes M table post (.ok a (view, s)) (.ok b (view', s'))
  | unify {e : Exp} {cause cause' : UnifyError.Cause} (path : List Nat)
      {view view' : View} {s s' : Store} {rel : TyVar → TyVar → Prop}
      (h : Faithful ⟨s, s', rel⟩ table false)
      (he : Knows ⟨s, s', rel⟩ e.parts)
      (hcause : Mirrors ⟨s, s', rel⟩ false cause cause') :
      Outcomes M table post (.error ⟨e, .unify ⟨cause, path⟩⟩ (view, s))
        (.error ⟨e, .unify ⟨cause', path⟩⟩ (view', s'))
  | unbound {e : Exp} {binder : Binder} {now now' : View × Store} :
      Outcomes M table post (.error ⟨e, .unboundBinder binder⟩ now)
        (.error ⟨e, .unboundBinder binder⟩ now')

/-- Whether two actions, each run from its view and store, go the same way and
have results with `post`. -/
def Infers (M : Pairing) (table : ClassTable) (view view' : View)
    (x : InferM A) (y : InferM B) (post : Pairing → A → B → Prop) : Prop :=
  M.Outcomes table post (x.run (view, M.left)) (y.run (view', M.right))

variable {x : InferM A} {y : InferM B} {post : Pairing → A → B → Prop}
  {post' : Pairing → C → D → Prop}

theorem Outcomes.after
    {first : EStateM.Result InferError (View × Store) A}
    {second : EStateM.Result InferError (View × Store) B}
    (h : N.Outcomes table post first second) (hleads : M.Leads N false) :
    M.Outcomes table post first second := by
  cases h with
  | ok hfaithful hmore hviews hpost =>
      exact .ok hfaithful (hleads.trans hmore) hviews hpost
  | unify path hfaithful he hcause => exact .unify path hfaithful he hcause
  | unbound => exact .unbound

theorem Infers.of_ok {a : A} {b : B} {next next' : View}
    (hx : x.run (view, M.left) = .ok a (next, N.left))
    (hy : y.run (view', M.right) = .ok b (next', N.right))
    (hnext : N.Faithful table false ∧ M.Leads N false)
    (hviews : N.Views next next') (hpost : post N a b) :
    M.Infers table view view' x y post := by
  rw [Infers, hx, hy]
  exact .ok hnext.1 hnext.2 hviews hpost

theorem Infers.pure (h : M.Faithful table false) (hviews : M.Views view view')
    {a : A} {b : B} (hpost : post M a b) :
    M.Infers table view view' (pure a) (pure b) post :=
  .of_ok rfl rfl ⟨h, .refl h⟩ hviews hpost

/-- Two inferences that go the same way may go on with continuations that do. -/
theorem Infers.bind {f : A → InferM C} {g : B → InferM D}
    (h : M.Infers table view view' x y post)
    (hrest : ∀ N next next' a b, N.Faithful table false → M.Leads N false →
      N.Views next next' → post N a b →
        N.Infers table next next' (f a) (g b) post') :
    M.Infers table view view' (x >>= f) (y >>= g) post' := by
  rw [Infers] at h ⊢
  rw [EStateM.run_bind, EStateM.run_bind]
  generalize x.run (view, M.left) = first at h
  generalize y.run (view', M.right) = second at h
  cases h with
  | ok hfaithful hleads hviews hpost =>
      exact (hrest _ _ _ _ _ hfaithful hleads hviews hpost).after hleads
  | unify path hfaithful he hcause => exact .unify path hfaithful he hcause
  | unbound => exact .unbound

/-! ### Actions -/

theorem Faithful.infers_fresh (h : M.Faithful table false)
    (hviews : M.Views view view') (base : String) :
    M.Infers table view view' (Infer.fresh base) (Infer.fresh base)
      fun N t t' => N.Alike t t' := by
  have hnext := h.fresh base base ∅
  exact .of_ok rfl rfl hnext (hviews.leads hnext.2)
    (hnext.1.alike_var (Or.inr ⟨rfl, rfl⟩))

/-- Signatures that are alike have alike copies. -/
theorem Faithful.infers_instantiate (h : M.Faithful table false)
    (hviews : M.Views view view') (ht : M.Alike t t') :
    M.Infers table view view'
      (onStore (·.inNewScope (Scope.instantiate t)))
      (onStore (·.inNewScope (Scope.instantiate t')))
      fun N u u' => N.Alike u u' := by
  obtain ⟨N, hN, halike⟩ := h.instantiate M.scopes_empty ht
  refine .of_ok ?_ ?_ ⟨hN.faithful, hN.leads⟩ (hviews.leads hN.leads) halike
  · rw [← hN.left]
    rfl
  · rw [← hN.right]
    rfl

/-- Types that are alike exist, so unification does not find its store
broken. -/
theorem Faithful.infers_unifyAt (h : M.Faithful table false)
    (ordered : table.Ordered) (hviews : M.Views view view') {e : Exp}
    (he : M.Knows e.parts) {want want' got got' : Ty TyVar}
    (hwant : M.Alike want want') (hgot : M.Alike got got') :
    M.Infers table view view' (unifyAt table e want got)
      (unifyAt table e want' got') fun _ _ _ => True := by
  have hruns := h.runs_unify ordered hwant hgot
  have hleft := imposes_unify ordered h.left (h.inRange hwant).1
    (h.inRange hgot).1
  have hright := imposes_unify ordered h.right (h.inRange hwant).2
    (h.inRange hgot).2
  change Ends M table false _ ((unify table want got).run M.left)
    ((unify table want' got').run M.right) at hruns
  rw [Infers, unifyAt_run, unifyAt_run]
  generalize (unify table want got).run M.left = first at hruns hleft ⊢
  generalize (unify table want' got').run M.right = second at hruns hright ⊢
  cases hruns with
  | ok hfaithful hleads _ =>
      exact .ok hfaithful hleads (hviews.leads hleads) trivial
  | error path hfaithful hleads hcause =>
      exact .unify path hfaithful (he.leads hleads) hcause
  | leftFault => exact absurd rfl (hleft.not_fault _)
  | rightFault => exact absurd rfl (hright.not_fault _)

theorem Faithful.infers_remember (h : M.Faithful table false)
    (hviews : M.Views view view') (e : Exp)
    {rule rule' : InferM (Ty TyVar)}
    (hrule : M.Infers table view view' rule rule' fun N t t' => N.Alike t t') :
    M.Infers table view view' (remember e rule) (remember e rule')
      fun N t t' => N.Alike t t' := by
  rcases hviews.exps.lookup e.id with ⟨t, t', hleft, hright, ht⟩ |
    ⟨hleft, hright⟩
  · have hcached : (view, M.left).1.cached? e = some t := hleft
    have hcached' : (view', M.right).1.cached? e = some t' := hright
    rw [Infers, remember_run_cached hcached, remember_run_cached hcached']
    exact .ok h (.refl h) hviews ht
  · have hcached : (view, M.left).1.cached? e = none := hleft
    have hcached' : (view', M.right).1.cached? e = none := hright
    rw [Infers, remember_run hcached, remember_run hcached']
    apply hrule.bind
    intro N next next' t t' hN _ hviews' ht
    exact .of_ok rfl rfl ⟨hN, .refl hN⟩ (hviews'.keepExp ht e.id) ht

/-! ### Binders -/

def AlikeIn (M : Pairing) (found found' : Ty TyVar × Scope) : Prop :=
  M.Alike found.1 found'.1 ∧ M.Scopes found.2 found'.2

/-- Annotations that are alike give binders alike types. -/
theorem Faithful.infers_bindIn (h : M.Faithful table false)
    (hviews : M.Views view view') (hscopes : M.Scopes scope scope')
    {binder : Binder} (hbinder : M.Knows (.ofBinders [binder])) :
    M.Infers table view view' (bindIn scope binder) (bindIn scope' binder)
      AlikeIn := by
  rcases binder with ⟨id, name, declared?⟩
  cases declared? with
  | none =>
      obtain ⟨hnext, hleads⟩ := h.fresh name.text name.text ∅
      have hnew := hnext.alike_var (Or.inr ⟨rfl, rfl⟩)
      exact .of_ok rfl rfl ⟨hnext, hleads⟩
        ((hviews.leads hleads).keepBinder hnew id)
        ⟨hnew, hscopes.leads hleads⟩
  | some declared =>
      have hdeclared : M.Alike declared declared :=
        hbinder.2 declared (by simp [Parts.ofBinders])
      obtain ⟨N, hN, halike⟩ := h.instantiate hscopes hdeclared
      generalize hfirst : (Scope.instantiate declared).run (scope, M.left) =
        first at hN halike
      generalize hsecond : (Scope.instantiate declared).run (scope', M.right) =
        second at hN halike
      have hfound : N.AlikeIn (first.1, first.2.1) (second.1, second.2.1) :=
        ⟨halike, hN.scopes⟩
      refine .of_ok ?_ ?_ ⟨hN.faithful, hN.leads⟩
        ((hviews.leads hN.leads).keepBinder halike id) hfound
      · rw [← hN.left, ← hfirst]
        rfl
      · rw [← hN.right, ← hsecond]
        rfl

theorem knows_ofBinders_cons {binder : Binder} {rest : List Binder} :
    M.Knows (.ofBinders (binder :: rest)) ↔
      M.Knows (.ofBinders [binder]) ∧ M.Knows (.ofBinders rest) := by
  rw [← knows_append]
  rcases binder with ⟨id, name, declared?⟩
  cases declared? <;> exact Iff.rfl

theorem Faithful.infers_bindAll (h : M.Faithful table false)
    (hviews : M.Views view view') (hscopes : M.Scopes scope scope')
    (params : List Binder) (hparams : M.Knows (.ofBinders params)) :
    M.Infers table view view' (bindAll scope params) (bindAll scope' params)
      fun N ts ts' => List.Forall₂ N.Alike ts ts' := by
  induction params generalizing M view view' scope scope' with
  | nil => exact .pure h hviews .nil
  | cons binder rest ih =>
      rw [knows_ofBinders_cons] at hparams
      apply (h.infers_bindIn hviews hscopes hparams.1).bind
      rintro N next next' ⟨t, later⟩ ⟨t', later'⟩ hN hleads hviews' ⟨ht, hlater⟩
      apply (ih hN hviews' hlater (hparams.2.leads hleads)).bind
      intro N' last last' ts ts' hN' hleads' hviews'' hts
      exact .pure hN' hviews'' (.cons (hleads'.alike_ty ht) hts)

theorem Faithful.alike_arrow (h : M.Faithful table false)
    {u u' : Ty TyVar} (ht : M.Alike t t') (hu : M.Alike u u') :
    M.Alike (.arrow t u) (.arrow t' u') :=
  h.alike_app (h.alike_app (h.alike_con .arrow) ht) hu

theorem Faithful.alike_arrows (h : M.Faithful table false)
    {ts ts' : List (Ty TyVar)} (hts : List.Forall₂ M.Alike ts ts')
    (ht : M.Alike t t') : M.Alike (.arrows ts t) (.arrows ts' t') := by
  induction hts with
  | nil => exact ht
  | cons hhead _ ih => exact h.alike_arrow hhead ih

/-! ### Expressions -/

mutual

/-- Inference takes the same way in both stores. -/
theorem Faithful.infers_findType (ordered : table.Ordered) :
    ∀ (e : Exp) {M : Pairing} {view view' : View}, M.Faithful table false →
      M.Views view view' → M.Knows e.parts →
        M.Infers table view view' (e.findType table) (e.findType table)
          fun N t t' => N.Alike t t'
  | .value id ty text, M, view, view', h, hviews, he => by
      rw [Exp.findType]
      exact h.infers_remember hviews _
        (.pure h hviews (he.1 ty (by simp [Exp.parts])))
  | .localVar id binder, M, view, view', h, hviews, _ => by
      rw [Exp.findType]
      apply h.infers_remember hviews
      rw [Infers, get_bind_run, get_bind_run]
      rcases hviews.binders.lookup binder.id with
        ⟨t, t', hleft, hright, ht⟩ | ⟨hleft, hright⟩
      · simp only [View.binderTy?, hleft, hright]
        exact .ok h (.refl h) hviews ht
      · simp only [View.binderTy?, hleft, hright]
        exact .unbound
  | .function id use, M, view, view', h, hviews, he => by
      rw [Exp.findType]
      exact h.infers_remember hviews _ (h.infers_instantiate hviews
        (he.2 use.signature (by simp [Exp.parts])))
  | .hole id, M, view, view', h, hviews, _ => by
      rw [Exp.findType]
      exact h.infers_remember hviews _ (h.infers_fresh hviews "hole")
  | .apply id func arg, M, view, view', h, hviews, he => by
      have hparts := he
      rw [Exp.parts, knows_append, knows_append] at hparts
      rw [Exp.findType]
      apply h.infers_remember hviews
      apply (Faithful.infers_findType ordered func h hviews hparts.2.1).bind
      intro M₁ _ _ funcTy funcTy' h₁ hleads₁ hviews₁ hfunc
      apply (Faithful.infers_findType ordered arg h₁ hviews₁
        (hparts.2.2.leads hleads₁)).bind
      intro M₂ _ _ argTy argTy' h₂ hleads₂ hviews₂ harg
      apply (h₂.infers_fresh hviews₂ "res").bind
      intro M₃ _ _ result result' h₃ hleads₃ hviews₃ hresult
      have hlater := (hleads₁.trans hleads₂).trans hleads₃
      apply (h₃.infers_unifyAt ordered hviews₃ (he.leads hlater)
        ((hleads₂.trans hleads₃).alike_ty hfunc)
        (h₃.alike_arrow (hleads₃.alike_ty harg) hresult)).bind
      intro M₄ _ _ _ _ h₄ hleads₄ hviews₄ _
      exact .pure h₄ hviews₄ (hleads₄.alike_ty hresult)
  | .lambda id params body, M, view, view', h, hviews, he => by
      rw [Exp.parts, knows_append, knows_append] at he
      rw [Exp.findType]
      apply h.infers_remember hviews
      apply (h.infers_bindAll hviews M.scopes_empty params he.2.1).bind
      intro M₁ _ _ paramTys paramTys' h₁ hleads₁ hviews₁ hparams
      apply (Faithful.infers_findType ordered body h₁ hviews₁
        (he.2.2.leads hleads₁)).bind
      intro M₂ _ _ bodyTy bodyTy' h₂ hleads₂ hviews₂ hbody
      have hparams₂ := hparams.imp fun _ _ => hleads₂.alike_ty
      exact .pure h₂ hviews₂ (h₂.alike_arrows hparams₂ hbody)
  | .letIn id bindings body, M, view, view', h, hviews, he => by
      have hparts := he
      rw [Exp.parts, knows_append, knows_append] at hparts
      rw [Exp.findType]
      apply h.infers_remember hviews
      apply (Faithful.infers_findTypes ordered bindings _ h hviews
        M.scopes_empty he hparts.2.1).bind
      intro M₁ _ _ _ _ h₁ hleads₁ hviews₁ _
      exact Faithful.infers_findType ordered body h₁ hviews₁
        (hparts.2.2.leads hleads₁)
  | .annotated id inner declared, M, view, view', h, hviews, he => by
      have hparts := he
      rw [Exp.parts, knows_append] at hparts
      rw [Exp.findType]
      apply h.infers_remember hviews
      apply (Faithful.infers_findType ordered inner h hviews hparts.2).bind
      intro M₁ _ _ got got' h₁ hleads₁ hviews₁ hgot
      have hdeclared := hleads₁.alike_ty (hparts.1.2 declared (by simp))
      apply (h₁.infers_instantiate hviews₁ hdeclared).bind
      intro M₂ _ _ want want' h₂ hleads₂ hviews₂ hwant
      apply (h₂.infers_unifyAt ordered hviews₂
        (he.leads (hleads₁.trans hleads₂)) hwant
        (hleads₂.alike_ty hgot)).bind
      intro M₃ _ _ _ _ h₃ hleads₃ hviews₃ _
      exact .pure h₃ hviews₃ ((hleads₂.trans hleads₃).alike_ty hgot)

/-- Bindings are inferred the same way from views that are alike. -/
theorem Faithful.infers_findTypes (ordered : table.Ordered) :
    ∀ (bindings : Bindings) (e : Exp) {M : Pairing} {view view' : View}
      {scope scope' : Scope}, M.Faithful table false →
      M.Views view view' → M.Scopes scope scope' → M.Knows e.parts →
        M.Knows bindings.parts →
          M.Infers table view view' (bindings.findTypes table e scope)
            (bindings.findTypes table e scope') fun _ _ _ => True
  | .nil, e, M, view, view', scope, scope', h, hviews, _, _, _ => by
      rw [Bindings.findTypes, Bindings.findTypes]
      exact .pure h hviews trivial
  | .cons binder bound rest, e, M, view, view', scope, scope', h, hviews,
      hscopes, he, hparts => by
      rw [Bindings.parts, knows_append, knows_append] at hparts
      rw [Bindings.findTypes, Bindings.findTypes]
      apply (Faithful.infers_findType ordered bound h hviews hparts.1).bind
      intro M₁ _ _ got got' h₁ hleads₁ hviews₁ hgot
      apply (h₁.infers_bindIn hviews₁ (hscopes.leads hleads₁)
        (hparts.2.1.leads hleads₁)).bind
      rintro M₂ _ _ ⟨want, later⟩ ⟨want', later'⟩ h₂ hleads₂ hviews₂
        ⟨hwant, hlater⟩
      have hleads := hleads₁.trans hleads₂
      apply (h₂.infers_unifyAt ordered hviews₂ (he.leads hleads) hwant
        (hleads₂.alike_ty hgot)).bind
      intro M₃ _ _ _ _ h₃ hleads₃ hviews₃ _
      have hafter := hleads.trans hleads₃
      exact Faithful.infers_findTypes ordered rest e h₃ hviews₃
        (hlater.leads hleads₃) (he.leads hafter) (hparts.2.2.leads hafter)

end

/-- Inference from views that are alike finds types that are alike, or fails in
the same expression for the same cause. -/
theorem Faithful.infers_infer (h : M.Faithful table false)
    (ordered : table.Ordered) (hviews : M.Views view view') {e : Exp}
    (he : M.Knows e.parts) :
    M.Infers table view view' (e.infer table) (e.infer table)
      fun N t t' => N.Alike t t' := by
  apply (Faithful.infers_findType ordered e h hviews he).bind
  intro N next next' t t' hN _ hviews' ht
  exact .of_ok rfl rfl ⟨hN, .refl hN⟩ hviews' (hN.alike_zonk ht)

end Pairing

end HindleyMilner

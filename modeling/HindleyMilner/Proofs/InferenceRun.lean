import HindleyMilner.Proofs.Instantiation

/-
Runs of inference, one action at a time.  A part of an expression is ready
when nothing in it has a type yet; inference then gives types to its
expressions and binders and to no others.
-/

namespace HindleyMilner

/-! ### Views -/

namespace View

variable {view view' view'' : View} {p q : Parts}

/-- Whether a view has no types for a part. -/
structure Lacks (view : View) (p : Parts) : Prop where
  exps : ∀ id ∈ p.exps, view.exps.lookup id = none
  binders : ∀ id ∈ p.binders, view.binders.lookup id = none

/-- Whether a view has become another by types for a part. -/
structure Adds (view view' : View) (p : Parts) : Prop where
  exps : ∀ id ∉ p.exps, view'.exps.lookup id = view.exps.lookup id
  binders : ∀ id ∉ p.binders, view'.binders.lookup id = view.binders.lookup id

theorem Adds.refl (view : View) (p : Parts) : view.Adds view p :=
  ⟨fun _ _ => rfl, fun _ _ => rfl⟩

/-- A view that grew twice has grown by the types for both parts. -/
theorem Adds.trans (h : view.Adds view' p) (h' : view'.Adds view'' q) :
    view.Adds view'' (p ++ q) where
  exps id hid := by
    rw [Parts.exps_append, List.mem_append, not_or] at hid
    rw [h'.exps id hid.2, h.exps id hid.1]
  binders id hid := by
    rw [Parts.binders_append, List.mem_append, not_or] at hid
    rw [h'.binders id hid.2, h.binders id hid.1]

theorem Adds.right (h : view.Adds view' q) (p : Parts) :
    view.Adds view' (p ++ q) :=
  (Adds.refl view p).trans h

end View

namespace Labelling

variable {V : Type} {label : Labelling V} {value : TyVar → Ty V}
  {view view' : View} {p : Parts}

/-- Whether binders are labelled with the values of the types in a view. -/
def ReadsBinders (label : Labelling V) (view : View)
    (value : TyVar → Ty V) : Prop :=
  ∀ ⦃id t⦄, view.binders.lookup id = some t →
    label.binder id = some (t.bind value)

/-- Whether a labelling is made of the values of the types in a view. -/
structure Reads (label : Labelling V) (view : View) (value : TyVar → Ty V) :
    Prop where
  exps : ∀ ⦃id t⦄, view.exps.lookup id = some t →
    label.exp id = some (t.bind value)
  binders : label.ReadsBinders view value

/-- Labels that agree with a view agree with what it was before it grew. -/
theorem Reads.before (h : label.Reads view' value) (hadds : view.Adds view' p)
    (hlacks : view.Lacks p) : label.Reads view value where
  exps id t ht := by
    have hid : id ∉ p.exps := fun hmem => by simp [hlacks.exps id hmem] at ht
    exact h.exps ((hadds.exps id hid).trans ht)
  binders id t ht := by
    have hid : id ∉ p.binders := fun hmem => by
      simp [hlacks.binders id hmem] at ht
    exact h.binders ((hadds.binders id hid).trans ht)

end Labelling

/-! ### Parts that are ready to be inferred -/

namespace Setting

variable {S : Setting} {view view' : View} {s s' : Store} {p q : Parts}

/-- Whether a part of an expression can be inferred in a state. -/
structure Ready (S : Setting) (p : Parts) (view : View) (s : Store) :
    Prop where
  exps_nodup : p.exps.Nodup
  binders_nodup : p.binders.Nodup
  literals : ∀ t ∈ p.literals, S.Admits S.start t
  schemes : ∀ t ∈ p.schemes, t ∈ S.schemes
  lacks : view.Lacks p
  state : S.State view s

theorem Ready.left (h : S.Ready (p ++ q) view s) : S.Ready p view s where
  exps_nodup := (List.nodup_append.1 h.exps_nodup).1
  binders_nodup := (List.nodup_append.1 h.binders_nodup).1
  literals t ht := h.literals t (List.mem_append_left _ ht)
  schemes t ht := h.schemes t (List.mem_append_left _ ht)
  lacks :=
    ⟨fun id hid => h.lacks.exps id (List.mem_append_left _ hid),
      fun id hid => h.lacks.binders id (List.mem_append_left _ hid)⟩
  state := h.state

theorem Ready.right (h : S.Ready (p ++ q) view s) : S.Ready q view s where
  exps_nodup := (List.nodup_append.1 h.exps_nodup).2.1
  binders_nodup := (List.nodup_append.1 h.binders_nodup).2.1
  literals t ht := h.literals t (List.mem_append_right _ ht)
  schemes t ht := h.schemes t (List.mem_append_right _ ht)
  lacks :=
    ⟨fun id hid => h.lacks.exps id (List.mem_append_right _ hid),
      fun id hid => h.lacks.binders id (List.mem_append_right _ hid)⟩
  state := h.state

/-- What follows a part is ready when the part has been inferred. -/
theorem Ready.next (h : S.Ready (p ++ q) view s) (hadds : view.Adds view' p)
    (hstate : S.State view' s') : S.Ready q view' s' := by
  have hexps := (List.nodup_append.1 h.exps_nodup).2.2
  have hbinders := (List.nodup_append.1 h.binders_nodup).2.2
  refine { h.right with lacks := ⟨fun id hid => ?_, fun id hid => ?_⟩,
                        state := hstate }
  · rw [hadds.exps id fun hmem => hexps id hmem id hid rfl]
    exact h.right.lacks.exps id hid
  · rw [hadds.binders id fun hmem => hbinders id hmem id hid rfl]
    exact h.right.lacks.binders id hid

/-- What comes before a part still lacks types when the part has been
inferred. -/
theorem Ready.lookup_exp (h : S.Ready (p ++ q) view s)
    (hadds : view.Adds view' q) {id : ExpId} (hid : id ∈ p.exps) :
    view'.exps.lookup id = none := by
  have hexps := (List.nodup_append.1 h.exps_nodup).2.2
  rw [hadds.exps id fun hmem => hexps id hid id hmem rfl]
  exact h.left.lacks.exps id hid

end Setting

/-! ### Outcomes -/

/-- What comes of a run of inference: a result, or a unification error, which
only arises if it got stuck or if something is not possible. -/
def Outcome {A : Type} (ok : A → View → Store → Prop) (possible : Prop) :
    EStateM.Result InferError (View × Store) A → Prop
  | .ok a (view, s) => ok a view s
  | .error e (_, s) =>
      ∀ cause, e.cause = .unify cause → cause.Stuck s ∨ ¬ possible

namespace Outcome

variable {A B : Type} {ok : A → View → Store → Prop}
  {ok' : B → View → Store → Prop} {possible possible' : Prop}
  {now : View × Store}

/-- What a run comes to may be weakened on both sides: results may be known to
be less, and fewer typings may be possible. -/
theorem imp {ok₁ : A → View → Store → Prop}
    {result : EStateM.Result InferError (View × Store) A}
    (h : Outcome ok possible result) (hle : possible' → possible)
    (hok : ∀ a view s, ok a view s → ok₁ a view s) :
    Outcome ok₁ possible' result := by
  cases result with
  | ok a next => exact hok a next.1 next.2 h
  | error e next =>
      intro cause hcause
      exact (h cause hcause).imp_right fun hnot hpossible =>
        hnot (hle hpossible)

/-- Outcomes compose: if the first action fails, so does the whole, for the same
reason. -/
theorem bind {action : InferM A} {f : A → InferM B}
    (h : Outcome ok possible (action.run now)) (hle : possible' → possible)
    (hf : ∀ a view s, ok a view s →
      Outcome ok' possible' ((f a).run (view, s))) :
    Outcome ok' possible' ((action >>= f).run now) := by
  rw [EStateM.run_bind]
  cases hrun : action.run now with
  | ok a next =>
      rw [hrun] at h
      exact hf a next.1 next.2 h
  | error e next =>
      rw [hrun] at h
      intro cause hcause
      exact (h cause hcause).imp_right fun hnot hpossible =>
        hnot (hle hpossible)

end Outcome

namespace Setting

variable {S : Setting} {view view' : View} {s s' s'' : Store}
  {scope scope' : Scope} {t : Ty TyVar} {r r' : TyVar → GroundTy}

/-- Whether an assignment satisfies the store of an inference, agrees with
another on the variables from before the inference, and gives binders the
types of a labelling. -/
structure Fits (S : Setting) (before : TyVar → GroundTy)
    (label : Labelling Empty) (view : View) (s : Store)
    (r : TyVar → GroundTy) : Prop where
  satisfied : s.SatisfiedBy (.ground S.table r)
  agrees : ∀ v : TyVar, v.index < S.start.size → r v = before v
  binders : label.ReadsBinders view r

/-- An assignment that fits goes on to fit when it is extended to a later
store. -/
theorem Fits.extend {before : TyVar → GroundTy} {label : Labelling Empty}
    (h : S.Fits before label view s r) (hstate : S.State view s)
    (hr : S.Extends s r s' r') : S.Fits before label view s' r' where
  satisfied := hr.satisfied
  agrees v hv :=
    (hr.agrees v (Nat.lt_of_lt_of_le hv hstate.size_le)).trans (h.agrees v hv)
  binders id t ht := by
    rw [hr.bind_eq (hstate.binders ht).inRange]
    exact h.binders ht

/-! ### Unification -/

/-- What unifying two types for a rule does. -/
structure Unified (S : Setting) (want got : Ty TyVar) (view : View)
    (s s' : Store) : Prop where
  state : S.State view s'
  size_eq : s'.size = s.size
  satisfied_iff : ∀ a : Assignment S.table,
    s'.SatisfiedBy a ↔ s.SatisfiedBy a ∧ a.eval want = a.eval got

theorem Unified.later {want got : Ty TyVar}
    (h : S.Unified want got view s s') : S.Later s s' :=
  ⟨Nat.le_of_eq h.size_eq.symm, fun a ha => ((h.satisfied_iff a).1 ha).1⟩

/-- Whatever already makes the two types equal satisfies the store after they
were unified. -/
theorem Unified.extends {want got : Ty TyVar}
    (h : S.Unified want got view s s')
    (hr : s.SatisfiedBy (.ground S.table r))
    (hequal : want.bind r = got.bind r) : S.Extends s r s' r :=
  ⟨h.later.size_le, (h.satisfied_iff (.ground S.table r)).2 ⟨hr, hequal⟩,
    fun _ _ => rfl⟩

/-- Unification for a rule makes the two types equal, or no assignment does. -/
theorem outcome_unifyAt (h : S.State view s) {want got : Ty TyVar}
    (hwant : S.Admits s want) (hgot : S.Admits s got) (exp : Exp)
    {possible : Prop}
    (hpossible : possible → ∃ r : TyVar → GroundTy,
      s.SatisfiedBy (.ground S.table r) ∧ want.bind r = got.bind r) :
    Outcome (fun _ view' s' => view' = view ∧ S.Unified want got view s s')
      possible ((Infer.unifyAt S.table exp want got).run (view, s)) := by
  have himposes := imposes_unify S.ordered h.wellFormed hwant.inRange
    hgot.inRange
  rw [Infer.unifyAt_run]
  cases hrun : (HindleyMilner.unify S.table want got).run s with
  | ok u s' =>
      rw [hrun] at himposes
      exact ⟨rfl, h.unify hwant hgot himposes.evolves,
        himposes.evolves.size_eq, himposes.satisfied_iff⟩
  | error e s' =>
      rw [hrun] at himposes
      rintro cause ⟨⟩
      apply himposes.refuted.imp_right
      intro hnone hposs
      obtain ⟨r, hr, hequal⟩ := hpossible hposs
      exact hnone r hr hequal

/-! ### Binders -/

/-- What has been done when a binder has been given a type. -/
structure Bound (S : Setting) (view : View) (binder : Binder)
    (scope : Scope) (s : Store) (t : Ty TyVar) (scope' : Scope)
    (s' : Store) : Prop where
  state : S.State view s'
  later : S.Later s s'
  copies : S.Copies scope' s'
  kept : ∀ ⦃v w⦄, scope.copies.lookup v = some w →
    scope'.copies.lookup v = some w
  admits : S.Admits s' t
  sound : ∀ (a : Assignment S.table) (label : Labelling a.Var)
    (inst : TyVar → Ty a.Var), s'.SatisfiedBy a →
      scope'.CopiesAs inst a.value →
        ∀ declared, binder.declared = some declared →
          (S.typing a label).Instance inst declared (a.eval t)
  complete : ∀ ⦃r before inst : TyVar → GroundTy⦄ (label : Labelling Empty)
    (T : GroundTy), s.SatisfiedBy (.ground S.table r) →
      scope.CopiesAs inst r →
        (∀ declared, binder.declared = some declared →
          (S.typing (.ground S.table before) label).Instance inst declared
            T) →
          ∃ r', S.Extends s r s' r' ∧ scope'.CopiesAs inst r' ∧
            t.bind r' = T

/-- A binder without an annotation gets a new variable, which may have any
value. -/
theorem bound_fresh (h : S.State view s) (hcopies : S.Copies scope s)
    {binder : Binder} (hnone : binder.declared = none) (base : String) :
    S.Bound view binder scope s (.var ⟨s.size⟩) scope
      (s.fresh base ∅).2 where
  state := h.fresh base ∅
  later := later_fresh base ∅
  copies := hcopies.later (later_fresh base ∅)
  kept _ _ hw := hw
  admits := h.admits_fresh base ∅
  sound _ _ _ _ _ declared hdeclared := by simp [hnone] at hdeclared
  complete r before inst label T hr hinst _ := by
    have hT : ∀ c ∈ (∅ : ClassSet).members, T.Meets S.table Empty.elim c :=
      fun c hc => absurd hc List.not_mem_nil
    obtain ⟨r', hr', hnew⟩ := h.exists_fresh hr base hT
    exact ⟨r', hr', hcopies.copiesAs hr' hinst, hnew⟩

/-- A binder with an annotation gets a copy of it. -/
theorem Instantiated.bound {binder : Binder} {declared : Ty TyVar}
    (h : S.Instantiated view declared scope s t scope' s')
    (hdeclared : binder.declared = some declared) :
    S.Bound view binder scope s t scope' s' where
  state := h.state
  later := h.later
  copies := h.copies
  kept := h.kept
  admits := h.admits
  sound a label inst ha hinst other hother := by
    obtain rfl := Option.some.inj (hdeclared.symm.trans hother)
    exact h.sound a label inst ha hinst
  complete r before inst label T hr hinst hinstance := by
    obtain ⟨hrespects, hT⟩ := hinstance declared hdeclared
    obtain ⟨r', hr', hinst'⟩ := h.complete label hr hinst hrespects
    refine ⟨r', hr', hinst', ?_⟩
    rw [hT]
    exact (h.sound (.ground S.table r') label inst hr'.satisfied hinst').2

theorem State.bindBinder (h : S.State view s) (ht : S.Admits s t)
    (id : BinderId) :
    S.State { view with binders := (id, t) :: view.binders } s where
  wellFormed := h.wellFormed
  size_le := h.size_le
  closed := h.closed
  outside := h.outside
  satisfied := h.satisfied
  binders other u hu := by
    rw [lookup_cons_if] at hu
    split at hu
    · obtain rfl := Option.some.inj hu
      exact ht
    · exact h.binders hu

/-- Giving a binder a type never fails. -/
theorem exists_bindIn (h : S.State view s) (hcopies : S.Copies scope s)
    (binder : Binder)
    (hscheme : ∀ declared, binder.declared = some declared →
      declared ∈ S.schemes) :
    ∃ t scope' s', (Infer.bindIn scope binder).run (view, s) =
        .ok (t, scope')
          ({ view with binders := (binder.id, t) :: view.binders }, s') ∧
      S.Bound view binder scope s t scope' s' := by
  rcases binder with ⟨id, name, declared?⟩
  cases declared? with
  | none => exact ⟨_, _, _, rfl, bound_fresh h hcopies rfl name.text⟩
  | some declared =>
      obtain ⟨t, scope', s', hrun, hinstantiated⟩ :=
        exists_instantiate h hcopies (hscheme declared rfl)
      have hopen : (Infer.bindIn scope ⟨id, name, some declared⟩).run
          (view, s) =
            let result := (Scope.instantiate declared).run (scope, s)
            .ok (result.1, result.2.1)
              ({ view with binders := (id, result.1) :: view.binders },
                result.2.2) := rfl
      rw [hrun] at hopen
      exact ⟨t, scope', s', hopen, hinstantiated.bound rfl⟩

theorem Fits.bindBinder {before : TyVar → GroundTy} {label : Labelling Empty}
    (h : S.Fits before label view s r) {id : BinderId}
    (hlabel : label.binder id = some (t.bind r)) :
    S.Fits before label
      { view with binders := (id, t) :: view.binders } s r where
  satisfied := h.satisfied
  agrees := h.agrees
  binders other u hu := by
    rw [lookup_cons_if] at hu
    by_cases heq : other = id
    · rw [if_pos heq] at hu
      obtain rfl := Option.some.inj hu
      rw [heq]
      exact hlabel
    · rw [if_neg heq] at hu
      exact h.binders hu

theorem adds_bindBinder (view : View) (binder : Binder) (t : Ty TyVar) :
    view.Adds { view with binders := (binder.id, t) :: view.binders }
      (.ofBinders [binder]) where
  exps _ _ := rfl
  binders id hid := by
    rw [lookup_cons_if, if_neg fun heq => hid (by simp [heq, Parts.ofBinders])]

/-- What has been done when the binders of a lambda have been given types. -/
structure BoundAll (S : Setting) (view : View) (binders : List Binder)
    (scope : Scope) (s : Store) (ts : List (Ty TyVar)) (view' : View)
    (s' : Store) : Prop where
  state : S.State view' s'
  later : S.Later s s'
  adds : view.Adds view' (.ofBinders binders)
  admits : ∀ t ∈ ts, S.Admits s' t
  sound : ∀ (a : Assignment S.table) (label : Labelling a.Var),
    s'.SatisfiedBy a → label.ReadsBinders view' a.value →
      ∃ inst, scope.CopiesAs inst a.value ∧
        List.Forall₂ ((S.typing a label).Binds inst) binders (ts.map a.eval)
  complete : ∀ ⦃r before inst : TyVar → GroundTy⦄ (label : Labelling Empty)
    (Ts : List GroundTy), S.Fits before label view s r →
      scope.CopiesAs inst r →
        List.Forall₂
          ((S.typing (.ground S.table before) label).Binds inst) binders Ts →
          ∃ r', S.Extends s r s' r' ∧ S.Fits before label view' s' r' ∧
            ts.map (·.bind r') = Ts

theorem ofBinders_cons (binder : Binder) (rest : List Binder) :
    Parts.ofBinders (binder :: rest) =
      Parts.ofBinders [binder] ++ Parts.ofBinders rest := by
  rcases binder with ⟨id, name, declared?⟩
  cases declared? <;> rfl

theorem exists_copiesAs {V : Type} (scope : Scope) (value : TyVar → Ty V) :
    ∃ inst, scope.CopiesAs inst value := by
  refine ⟨fun v => value ((scope.copies.lookup v).getD v), fun v w hw => ?_⟩
  simp only [hw, Option.getD_some]

theorem BoundAll.nil (h : S.State view s) (scope : Scope) :
    S.BoundAll view [] scope s [] view s where
  state := h
  later := .refl s
  adds := .refl view _
  admits _ ht := absurd ht List.not_mem_nil
  sound a _ _ _ := by
    obtain ⟨inst, hinst⟩ := exists_copiesAs scope a.value
    exact ⟨inst, hinst, .nil⟩
  complete r _ _ _ _ hr _ hTs := by
    cases hTs
    exact ⟨r, .refl hr.satisfied, hr, rfl⟩

theorem Bound.cons {binder : Binder} {rest : List Binder}
    {ts : List (Ty TyVar)} (hstate : S.State view s)
    (hfirst : binder.id ∉ (Parts.ofBinders rest).binders)
    (h : S.Bound view binder scope s t scope' s')
    (hrest : S.BoundAll
      { view with binders := (binder.id, t) :: view.binders } rest scope' s' ts
      view' s'') :
    S.BoundAll view (binder :: rest) scope s (t :: ts) view' s'' where
  state := hrest.state
  later := h.later.trans hrest.later
  adds := by
    rw [ofBinders_cons]
    exact (adds_bindBinder view binder t).trans hrest.adds
  admits := by
    rw [List.forall_mem_cons]
    exact ⟨h.admits.mono hrest.later.size_le, hrest.admits⟩
  sound a label ha hlabel := by
    obtain ⟨inst, hinst, htypes⟩ := hrest.sound a label ha hlabel
    refine ⟨inst, fun v w hw => hinst (h.kept hw), ?_⟩
    rw [List.map_cons]
    refine .cons ⟨hlabel ?_, ?_⟩ htypes
    · rw [hrest.adds.binders binder.id hfirst, lookup_cons_if, if_pos rfl]
    · exact h.sound a label inst (hrest.later.satisfied a ha) hinst
  complete r before inst label Ts hr hinst hTs := by
    cases hTs with
    | cons hhead htail =>
        rename_i T Ts
        obtain ⟨r₁, hr₁, hinst₁, hvalue⟩ :=
          h.complete label T hr.satisfied hinst hhead.2
        have hfits := (hr.extend hstate hr₁).bindBinder (t := t)
          (by rw [hvalue]; exact hhead.1)
        obtain ⟨r₂, hr₂, hfits₂, hvalues⟩ :=
          hrest.complete label Ts hfits hinst₁ htail
        refine ⟨r₂, hr₁.trans hr₂, hfits₂, ?_⟩
        rw [List.map_cons, hvalues, hr₂.bind_eq h.admits.inRange, hvalue]

/-- Binding all names of a lambda never fails. -/
theorem exists_bindAll {binders : List Binder}
    (h : S.Ready (.ofBinders binders) view s) (hcopies : S.Copies scope s) :
    ∃ ts view' s', (Infer.bindAll scope binders).run (view, s) =
        .ok ts (view', s') ∧
      S.BoundAll view binders scope s ts view' s' := by
  induction binders generalizing view scope s with
  | nil => exact ⟨[], view, s, rfl, .nil h.state scope⟩
  | cons binder rest ih =>
      rw [ofBinders_cons] at h
      obtain ⟨t, scope₁, s₁, hrun, hbound⟩ := exists_bindIn h.state hcopies
        binder fun declared hdeclared =>
          h.left.schemes declared (by simp [Parts.ofBinders, hdeclared])
      have hfirst : binder.id ∉ (Parts.ofBinders rest).binders :=
        (List.nodup_cons.1 h.binders_nodup).1
      have hready := h.next (adds_bindBinder view binder t)
        (hbound.state.bindBinder hbound.admits _)
      obtain ⟨ts, view', s', hrunRest, hrest⟩ := ih hready hbound.copies
      refine ⟨t :: ts, view', s', ?_, hbound.cons h.state hfirst hrest⟩
      have hopen : (Infer.bindAll scope (binder :: rest)).run (view, s) =
          (Infer.bindIn scope binder >>= fun first =>
            Infer.bindAll first.2 rest >>= fun others =>
              pure (first.1 :: others)).run (view, s) := rfl
      rw [hopen, bind_run_of_ok hrun, bind_run_of_ok hrunRest]
      rfl

end Setting

end HindleyMilner

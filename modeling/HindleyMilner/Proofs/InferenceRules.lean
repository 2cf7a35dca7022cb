import HindleyMilner.Proofs.InferenceRun

/-
Every rule of inference is sound and complete for the typing rules.  It is
sound if the types that it finds follow the rules under all assignments that
satisfy the store from then on, and complete if every typing of the expression
is reached by an assignment.  One lemma for each kind of expression assumes as
much of its parts.
-/

namespace HindleyMilner.Setting

variable {S : Setting} {view view' : View} {s s' : Store} {e : Exp}
  {t : Ty TyVar} {scope : Scope}

/-- What finding a type for an expression leaves behind.  Every typing of the
expression gives the type a value. -/
structure Found (S : Setting) (e : Exp) (view : View) (s : Store)
    (t : Ty TyVar) (view' : View) (s' : Store) : Prop where
  state : S.State view' s'
  later : S.Later s s'
  adds : view.Adds view' e.parts
  admits : S.Admits s' t
  complete : ∀ ⦃before r : TyVar → GroundTy⦄ (label : Labelling Empty)
    (T : GroundTy), S.Fits before label view s r →
      (S.typing (.ground S.table before) label).HasType e T →
        ∃ r', S.Extends s r s' r' ∧ S.Fits before label view' s' r' ∧
          t.bind r' = T

/-- What has been done when the type of an expression has been found. -/
structure Inferred (S : Setting) (e : Exp) (view : View) (s : Store)
    (t : Ty TyVar) (view' : View) (s' : Store) : Prop
    extends S.Found e view s t view' s' where
  sound : ∀ (a : Assignment S.table) (label : Labelling a.Var),
    s'.SatisfiedBy a → label.Reads view' a.value →
      (S.typing a label).HasType e (a.eval t)

/-- What the rule of an expression has done before its type is kept. -/
structure Ruled (S : Setting) (e : Exp) (view : View) (s : Store)
    (t : Ty TyVar) (view' : View) (s' : Store) : Prop
    extends S.Found e view s t view' s' where
  lacks : view'.exps.lookup e.id = none
  sound : ∀ (a : Assignment S.table) (label : Labelling a.Var),
    s'.SatisfiedBy a → label.Reads view' a.value →
      label.exp e.id = some (a.eval t) →
        (S.typing a label).HasType e (a.eval t)

/-- What the rule of an expression has done before the last equation that it
asks for is unified.  Every typing solves the equation. -/
structure Posed (S : Setting) (e : Exp) (view : View) (s : Store)
    (want got t : Ty TyVar) (view' : View) (s' : Store) : Prop where
  state : S.State view' s'
  later : S.Later s s'
  adds : view.Adds view' e.parts
  lacks : view'.exps.lookup e.id = none
  admitsWant : S.Admits s' want
  admitsGot : S.Admits s' got
  admits : S.Admits s' t
  sound : ∀ (a : Assignment S.table) (label : Labelling a.Var),
    s'.SatisfiedBy a → a.eval want = a.eval got →
      label.Reads view' a.value → label.exp e.id = some (a.eval t) →
        (S.typing a label).HasType e (a.eval t)
  complete : ∀ ⦃before r : TyVar → GroundTy⦄ (label : Labelling Empty)
    (T : GroundTy), S.Fits before label view s r →
      (S.typing (.ground S.table before) label).HasType e T →
        ∃ r', S.Extends s r s' r' ∧ S.Fits before label view' s' r' ∧
          want.bind r' = got.bind r' ∧ t.bind r' = T

/-- Whether an expression has a typing that fits the state. -/
def Possible (S : Setting) (e : Exp) (view : View) (s : Store) : Prop :=
  ∃ before label r T, S.Fits before label view s r ∧
    (S.typing (.ground S.table before) label).HasType e T

/-- Whether inference is sound and complete for an expression. -/
def Infers (S : Setting) (e : Exp) : Prop :=
  ∀ view s, S.Ready e.parts view s →
    Outcome (S.Inferred e view s) (S.Possible e view s)
      ((e.findType S.table).run (view, s))

theorem id_mem_parts (e : Exp) : e.id ∈ e.parts.exps := by
  cases e <;> simp [Exp.parts, Exp.id, Parts.node]

theorem Ruled.remember (h : S.Ruled e view s t view' s') :
    S.Inferred e view s t
      { view' with exps := (e.id, t) :: view'.exps } s' where
  state := ⟨h.state.wellFormed, h.state.size_le, h.state.closed,
    h.state.outside, h.state.satisfied, h.state.binders⟩
  later := h.later
  adds := by
    refine ⟨fun id hid => ?_, h.adds.binders⟩
    have hne : id ≠ e.id := by
      rintro rfl
      exact hid (id_mem_parts e)
    rw [lookup_cons_if, if_neg hne]
    exact h.adds.exps id hid
  admits := h.admits
  sound a label ha hlabel := by
    refine h.sound a label ha ⟨fun id u hu => hlabel.exps ?_, hlabel.binders⟩
      (hlabel.exps (by rw [lookup_cons_if, if_pos rfl]))
    have hne : id ≠ e.id := by
      rintro rfl
      rw [h.lacks] at hu
      contradiction
    rwa [lookup_cons_if, if_neg hne]
  complete before r label T hfits hT := by
    obtain ⟨r', hr', hfits', hvalue⟩ := h.complete label T hfits hT
    exact ⟨r', hr', ⟨hfits'.satisfied, hfits'.agrees, hfits'.binders⟩, hvalue⟩

/-- What a rule finds is kept, so the expression has its type in the view from
then on. -/
theorem outcome_remember {rule : InferM (Ty TyVar)} {possible : Prop}
    (hready : S.Ready e.parts view s)
    (h : Outcome (S.Ruled e view s) possible (rule.run (view, s))) :
    Outcome (S.Inferred e view s) possible
      ((Infer.remember e rule).run (view, s)) := by
  have hnone : view.cached? e = none :=
    hready.lacks.exps e.id (id_mem_parts e)
  rw [Infer.remember_run hnone]
  exact h.bind id fun _ _ _ hruled => hruled.remember

/-- The last equation of a rule decides: what solves it is a typing, and without
a solution there is none. -/
theorem Posed.outcome {want got : Ty TyVar}
    (h : S.Posed e view s want got t view' s') :
    Outcome (S.Ruled e view s) (S.Possible e view s)
      ((Infer.unifyAt S.table e want got >>= fun _ => pure t).run
        (view', s')) := by
  refine (outcome_unifyAt h.state h.admitsWant h.admitsGot e ?_).bind id
    fun _ view₁ s₁ hunified => ?_
  · rintro ⟨before, label, r, T, hfits, hT⟩
    obtain ⟨r', hr', -, hequal, -⟩ := h.complete label T hfits hT
    exact ⟨r', hr'.satisfied, hequal⟩
  rcases hunified with ⟨rfl, hunified⟩
  refine
    { state := hunified.state
      later := h.later.trans hunified.later
      adds := h.adds
      lacks := h.lacks
      admits := h.admits.mono hunified.later.size_le
      complete := fun before r label T hfits hT => ?_
      sound := fun a label hsat hlabel hid => ?_ }
  · obtain ⟨r', hr', hfits', hequal, hvalue⟩ := h.complete label T hfits hT
    have hlast := hunified.extends hr'.satisfied hequal
    exact ⟨r', hr'.trans hlast, hfits'.extend h.state hlast, hvalue⟩
  · obtain ⟨hsat', hequal⟩ := (hunified.satisfied_iff a).1 hsat
    exact h.sound a label hsat' hequal hlabel hid

/-! ### Leaves -/

theorem infers_value (id : ExpId) (ty : Ty TyVar) (text : String) :
    S.Infers (.value id ty text) := by
  intro view s h
  rw [Exp.findType]
  apply outcome_remember h
  have hliteral : S.Admits S.start ty := h.literals ty (by simp [Exp.parts])
  refine
    { state := h.state
      later := .refl s
      adds := .refl view _
      lacks := h.lacks.exps _ (id_mem_parts _)
      admits := hliteral.mono h.state.size_le
      complete := fun before r label T hfits hT => ?_
      sound := fun a label _ _ hid => ?_ }
  · rcases hT with ⟨-, hvalue⟩
    refine ⟨r, .refl hfits.satisfied, hfits, ?_⟩
    rw [hvalue]
    exact Store.bind_eq_of_inRange hliteral.inRange hfits.agrees
  · rw [Typing.HasType]
    exact ⟨hid, rfl⟩

theorem infers_localVar (id : ExpId) (binder : Binder) :
    S.Infers (.localVar id binder) := by
  intro view s h
  rw [Exp.findType]
  apply outcome_remember h
  rw [get_bind_run]
  simp only [View.binderTy?]
  cases hlookup : view.binders.lookup binder.id with
  | none =>
      intro cause hcause
      contradiction
  | some t =>
      refine
        { state := h.state
          later := .refl s
          adds := .refl view _
          lacks := h.lacks.exps _ (id_mem_parts _)
          admits := h.state.binders hlookup
          complete := fun before r label T hfits hT => ?_
          sound := fun a label _ hlabel hid => ?_ }
      · rcases hT with ⟨-, hbinder⟩
        refine ⟨r, .refl hfits.satisfied, hfits, ?_⟩
        exact Option.some.inj ((hfits.binders hlookup).symm.trans hbinder)
      · rw [Typing.HasType]
        exact ⟨hid, hlabel.binders hlookup⟩

theorem copiesAs_empty (inst r : TyVar → GroundTy) :
    Scope.empty.CopiesAs inst r := by
  intro v w hw
  simp [Scope.empty] at hw

/-- A signature is instantiated in a scope of its own. -/
theorem exists_inNewScope (h : S.State view s) {scheme : Ty TyVar}
    (hscheme : scheme ∈ S.schemes) :
    ∃ t scope' s', (Infer.onStore fun s =>
        s.inNewScope (Scope.instantiate scheme)).run (view, s) =
          .ok t (view, s') ∧
      S.Instantiated view scheme .empty s t scope' s' := by
  obtain ⟨t, scope', s', hrun, hinstantiated⟩ :=
    exists_instantiate h copies_empty hscheme
  have hopen : (Infer.onStore fun s =>
      s.inNewScope (Scope.instantiate scheme)).run (view, s) =
        let result := (Scope.instantiate scheme).run (.empty, s)
        .ok result.1 (view, result.2.2) := rfl
  rw [hrun] at hopen
  exact ⟨t, scope', s', hopen, hinstantiated⟩

theorem Instantiated.exists_instance {scheme : Ty TyVar} {scope' : Scope}
    (h : S.Instantiated view scheme scope s t scope' s')
    {a : Assignment S.table} (label : Labelling a.Var)
    (ha : s'.SatisfiedBy a) :
    ∃ inst, (S.typing a label).Instance inst scheme (a.eval t) := by
  obtain ⟨inst, hinst⟩ := exists_copiesAs scope' a.value
  exact ⟨inst, h.sound a label inst ha hinst⟩

/-- Every instance of a signature is the value of its copy, with all other
values kept. -/
theorem Instantiated.exists_extends {scheme : Ty TyVar} {scope' : Scope}
    (h : S.Instantiated view scheme .empty s t scope' s')
    {before r inst : TyVar → GroundTy} {label : Labelling Empty}
    {T : GroundTy} (hr : s.SatisfiedBy (.ground S.table r))
    (hT : (S.typing (.ground S.table before) label).Instance inst scheme T) :
    ∃ r', S.Extends s r s' r' ∧ t.bind r' = T := by
  obtain ⟨r', hr', hinst⟩ := h.complete label hr (copiesAs_empty inst r) hT.1
  refine ⟨r', hr', ?_⟩
  rw [hT.2]
  exact (h.sound (.ground S.table r') label inst hr'.satisfied hinst).2

theorem infers_function (id : ExpId) (use : FunctionUse) :
    S.Infers (.function id use) := by
  intro view s h
  rw [Exp.findType]
  apply outcome_remember h
  obtain ⟨t, scope', s', hrun, hinst⟩ := exists_inNewScope h.state
    (h.schemes use.signature (by simp [Exp.parts]))
  have hopen : Infer.onStore use.instantiate =
      Infer.onStore fun s => s.inNewScope (Scope.instantiate use.signature) :=
    rfl
  rw [hopen, hrun]
  refine
    { state := hinst.state
      later := hinst.later
      adds := .refl view _
      lacks := h.lacks.exps _ (id_mem_parts _)
      admits := hinst.admits
      complete := fun before r label T hfits hT => ?_
      sound := fun a label ha _ hid => ?_ }
  · rcases hT with ⟨-, inst, hinstance⟩
    obtain ⟨r', hr', hvalue⟩ := hinst.exists_extends hfits.satisfied hinstance
    exact ⟨r', hr', hfits.extend h.state hr', hvalue⟩
  · rw [Typing.HasType]
    exact ⟨hid, hinst.exists_instance label ha⟩

theorem fresh_run (base : String) :
    (Infer.fresh base).run (view, s) =
      .ok (.var ⟨s.size⟩) (view, (s.fresh base ∅).2) := rfl

theorem Fits.exists_fresh {before r : TyVar → GroundTy}
    {label : Labelling Empty} (h : S.Fits before label view s r)
    (hstate : S.State view s) (base : String) (T : GroundTy) :
    ∃ r', S.Extends s r (s.fresh base ∅).2 r' ∧
      S.Fits before label view (s.fresh base ∅).2 r' ∧ r' ⟨s.size⟩ = T := by
  have hT : ∀ c ∈ (∅ : ClassSet).members, T.Meets S.table Empty.elim c :=
    fun c hc => absurd hc List.not_mem_nil
  obtain ⟨r', hr', hnew⟩ := hstate.exists_fresh h.satisfied base hT
  exact ⟨r', hr', h.extend hstate hr', hnew⟩

theorem infers_hole (id : ExpId) : S.Infers (.hole id) := by
  intro view s h
  rw [Exp.findType]
  apply outcome_remember h
  rw [fresh_run]
  refine
    { state := h.state.fresh "hole" ∅
      later := later_fresh "hole" ∅
      adds := .refl view _
      lacks := h.lacks.exps _ (id_mem_parts _)
      admits := h.state.admits_fresh "hole" ∅
      sound := fun a label _ _ hid => ?_
      complete := fun before r label T hfits _ =>
        hfits.exists_fresh h.state "hole" T }
  rw [Typing.HasType]
  exact hid

/-! ### Applications -/

/-- Every typing of an application solves the equation of the function's
type. -/
theorem Found.exists_apply {func arg : Exp} {funcTy argTy : Ty TyVar}
    {view₁ view₂ : View} {s₁ s₂ : Store}
    (hf : S.Found func view s funcTy view₁ s₁)
    (ha : S.Found arg view₁ s₁ argTy view₂ s₂) {id : ExpId}
    {before r : TyVar → GroundTy} {label : Labelling Empty} {T : GroundTy}
    (hfits : S.Fits before label view s r)
    (hT : (S.typing (.ground S.table before) label).HasType
      (.apply id func arg) T) :
    ∃ r', S.Extends s r (s₂.fresh "res" ∅).2 r' ∧
      S.Fits before label view₂ (s₂.fresh "res" ∅).2 r' ∧
        funcTy.bind r' = (Ty.arrow argTy (.var ⟨s₂.size⟩)).bind r' ∧
          r' ⟨s₂.size⟩ = T := by
  rcases hT with ⟨-, param, hfuncT, hargT⟩
  obtain ⟨r₁, hr₁, hfits₁, hfuncValue⟩ := hf.complete label _ hfits hfuncT
  obtain ⟨r₂, hr₂, hfits₂, hargValue⟩ := ha.complete label _ hfits₁ hargT
  obtain ⟨r₃, hr₃, hfits₃, hnew⟩ := hfits₂.exists_fresh ha.state "res" T
  refine ⟨r₃, (hr₁.trans hr₂).trans hr₃, hfits₃, ?_, hnew⟩
  rw [(hr₂.trans hr₃).bind_eq hf.admits.inRange, hfuncValue]
  simp only [Ty.arrow, Ty.bind]
  rw [hr₃.bind_eq ha.admits.inRange, hargValue, hnew]
  rfl

theorem infers_apply (id : ExpId) {func arg : Exp} (hfunc : S.Infers func)
    (harg : S.Infers arg) : S.Infers (.apply id func arg) := by
  intro view s h
  have hinner : S.Ready (func.parts ++ arg.parts) view s := h.right
  rw [Exp.findType]
  apply outcome_remember h
  refine (hfunc view s hinner.left).bind ?_ fun funcTy view₁ s₁ hf => ?_
  · rintro ⟨before, label, r, T, hfits, -, param, hT, -⟩
    exact ⟨before, label, r, _, hfits, hT⟩
  have hready₁ := hinner.next hf.adds hf.state
  refine (harg view₁ s₁ hready₁).bind ?_ fun argTy view₂ s₂ ha => ?_
  · rintro ⟨before, label, r, T, hfits, -, param, hT, hparam⟩
    obtain ⟨r₁, -, hfits₁, -⟩ := hf.complete label _ hfits hT
    exact ⟨before, label, r₁, param, hfits₁, hparam⟩
  rw [bind_run_of_ok (fresh_run "res")]
  have hlast := later_fresh (S := S) (s := s₂) "res" ∅
  have hresult := ha.state.admits_fresh "res" ∅
  apply Posed.outcome
  refine
    { state := ha.state.fresh "res" ∅
      later := (hf.later.trans ha.later).trans hlast
      adds := (hf.adds.trans ha.adds).right (.node id)
      lacks := Ready.lookup_exp h (hf.adds.trans ha.adds)
        (by simp [Parts.node, Exp.id])
      admitsWant := (hf.admits.mono ha.later.size_le).mono hlast.size_le
      admitsGot := (ha.admits.mono hlast.size_le).arrow hresult
      admits := hresult
      sound := fun a label hsat hequal hlabel hid => ?_
      complete := fun before r label T hfits hT =>
        hf.exists_apply ha.toFound hfits hT }
  rw [Typing.HasType]
  have hsat₂ := hlast.satisfied a hsat
  have hfuncType := hf.sound a label (ha.later.satisfied a hsat₂)
    (hlabel.before ha.adds hready₁.lacks)
  rw [hequal] at hfuncType
  exact ⟨hid, a.eval argTy, hfuncType, ha.sound a label hsat₂ hlabel⟩

/-! ### Lambdas -/

/-- In every typing of a lambda, the parameters have values before the body is
looked at. -/
theorem BoundAll.exists_params {params : List Binder} {body : Exp}
    {ts : List (Ty TyVar)} {view₁ : View} {s₁ : Store}
    (h : S.BoundAll view params .empty s ts view₁ s₁) {id : ExpId}
    {before r : TyVar → GroundTy} {label : Labelling Empty} {T : GroundTy}
    (hfits : S.Fits before label view s r)
    (hT : (S.typing (.ground S.table before) label).HasType
      (.lambda id params body) T) :
    ∃ Ts result r', S.Extends s r s₁ r' ∧ S.Fits before label view₁ s₁ r' ∧
      ts.map (·.bind r') = Ts ∧
        (S.typing (.ground S.table before) label).HasType body result ∧
          T = .arrows Ts result := by
  rcases hT with ⟨-, inst, Ts, result, hbinds, hresult, hvalue⟩
  obtain ⟨r', hr', hfits', hvalues⟩ :=
    h.complete label Ts hfits (copiesAs_empty inst r) hbinds
  exact ⟨Ts, result, r', hr', hfits', hvalues, hresult, hvalue⟩

theorem infers_lambda (id : ExpId) (params : List Binder) {body : Exp}
    (hbody : S.Infers body) : S.Infers (.lambda id params body) := by
  intro view s h
  have hinner : S.Ready (.ofBinders params ++ body.parts) view s := h.right
  obtain ⟨paramTys, view₁, s₁, hrun, hparams⟩ :=
    exists_bindAll hinner.left copies_empty
  have hready₁ := hinner.next hparams.adds hparams.state
  rw [Exp.findType]
  apply outcome_remember h
  rw [bind_run_of_ok hrun]
  refine (hbody view₁ s₁ hready₁).bind ?_ fun bodyTy view' s' hb => ?_
  · rintro ⟨before, label, r, T, hfits, hT⟩
    obtain ⟨Ts, result, r', -, hfits', -, hresult, -⟩ :=
      hparams.exists_params hfits hT
    exact ⟨before, label, r', result, hfits', hresult⟩
  refine
    { state := hb.state
      later := hparams.later.trans hb.later
      adds := (hparams.adds.trans hb.adds).right (.node id)
      lacks := Ready.lookup_exp h (hparams.adds.trans hb.adds)
        (by simp [Parts.node, Exp.id])
      admits := Admits.arrows
        (fun t ht => (hparams.admits t ht).mono hb.later.size_le) hb.admits
      complete := fun before r label T hfits hT => ?_
      sound := fun a label hsat hlabel hid => ?_ }
  · obtain ⟨Ts, result, r₁, hr₁, hfits₁, hvalues, hresult, rfl⟩ :=
      hparams.exists_params hfits hT
    obtain ⟨r₂, hr₂, hfits₂, hvalue⟩ := hb.complete label _ hfits₁ hresult
    refine ⟨r₂, hr₁.trans hr₂, hfits₂, ?_⟩
    have hkept : paramTys.map (·.bind r₂) = paramTys.map (·.bind r₁) :=
      List.map_congr_left fun t ht => hr₂.bind_eq (hparams.admits t ht).inRange
    rw [Ty.bind_arrows, hkept, hvalues, hvalue]
  · rw [Typing.HasType]
    obtain ⟨inst, -, hbinds⟩ := hparams.sound a label
      (hb.later.satisfied a hsat)
      (hlabel.before hb.adds hready₁.lacks).binders
    exact ⟨hid, inst, paramTys.map a.eval, a.eval bodyTy, hbinds,
      hb.sound a label hsat hlabel, Ty.bind_arrows _ _ _⟩

/-! ### Bindings -/

/-- What has been done when the types of bindings have been found. -/
structure InferredAll (S : Setting) (bindings : Bindings) (scope : Scope)
    (view : View) (s : Store) (view' : View) (s' : Store) : Prop where
  state : S.State view' s'
  later : S.Later s s'
  adds : view.Adds view' bindings.parts
  sound : ∀ (a : Assignment S.table) (label : Labelling a.Var),
    s'.SatisfiedBy a → label.Reads view' a.value →
      ∃ inst, scope.CopiesAs inst a.value ∧
        (S.typing a label).BindsAll inst bindings
  complete : ∀ ⦃before r inst : TyVar → GroundTy⦄ (label : Labelling Empty),
    S.Fits before label view s r → scope.CopiesAs inst r →
      (S.typing (.ground S.table before) label).BindsAll inst bindings →
        ∃ r', S.Extends s r s' r' ∧ S.Fits before label view' s' r'

/-- Whether bindings have a typing that fits the state. -/
def PossibleAll (S : Setting) (bindings : Bindings) (scope : Scope)
    (view : View) (s : Store) : Prop :=
  ∃ before label r inst, S.Fits before label view s r ∧
    scope.CopiesAs inst r ∧
      (S.typing (.ground S.table before) label).BindsAll inst bindings

/-- Whether inference is sound and complete for bindings. -/
def InfersAll (S : Setting) (bindings : Bindings) : Prop :=
  ∀ e scope view s, S.Ready bindings.parts view s → S.Copies scope s →
    Outcome (fun _ => S.InferredAll bindings scope view s)
      (S.PossibleAll bindings scope view s)
      ((bindings.findTypes S.table e scope).run (view, s))

theorem infersAll_nil : S.InfersAll .nil := by
  intro e scope view s h hcopies
  rw [Bindings.findTypes]
  refine ⟨h.state, .refl s, .refl view _, fun a label _ _ => ?_,
    fun before r inst label hfits _ _ => ⟨r, .refl hfits.satisfied, hfits⟩⟩
  obtain ⟨inst, hinst⟩ := exists_copiesAs scope a.value
  exact ⟨inst, hinst, trivial⟩

/-- What has been done when a binder of a let has been given the type of what
is bound to it. -/
structure BoundTo (S : Setting) (binder : Binder) (bound : Exp) (view : View)
    (scope : Scope) (s : Store) (view' : View) (scope' : Scope) (s' : Store) :
    Prop where
  state : S.State view' s'
  later : S.Later s s'
  adds : view.Adds view' (bound.parts ++ .ofBinders [binder])
  copies : S.Copies scope' s'
  kept : ∀ ⦃v w⦄, scope.copies.lookup v = some w →
    scope'.copies.lookup v = some w
  sound : ∀ (a : Assignment S.table) (label : Labelling a.Var)
    (inst : TyVar → Ty a.Var), s'.SatisfiedBy a →
      label.Reads view' a.value → scope'.CopiesAs inst a.value →
        ∃ t, (S.typing a label).HasType bound t ∧
          (S.typing a label).Binds inst binder t
  complete : ∀ ⦃before r inst : TyVar → GroundTy⦄ (label : Labelling Empty)
    (T : GroundTy), S.Fits before label view s r → scope.CopiesAs inst r →
      (S.typing (.ground S.table before) label).HasType bound T →
        (S.typing (.ground S.table before) label).Binds inst binder T →
          ∃ r', S.Extends s r s' r' ∧ S.Fits before label view' s' r' ∧
            scope'.CopiesAs inst r'

/-- Every type that a binder may have solves the equation of the binder and
what is bound to it. -/
theorem Found.exists_bound {binder : Binder} {bound : Exp}
    {want got : Ty TyVar} {view₁ : View} {scope₂ : Scope} {s₁ s₂ : Store}
    (hb : S.Found bound view s got view₁ s₁)
    (hbinder : S.Bound view₁ binder scope s₁ want scope₂ s₂)
    (hcopies : S.Copies scope s) {before r inst : TyVar → GroundTy}
    {label : Labelling Empty} {T : GroundTy}
    (hfits : S.Fits before label view s r) (hinst : scope.CopiesAs inst r)
    (hT : (S.typing (.ground S.table before) label).HasType bound T)
    (hbinds : (S.typing (.ground S.table before) label).Binds inst binder T) :
    ∃ r', S.Extends s r s₂ r' ∧
      S.Fits before label
        { view₁ with binders := (binder.id, want) :: view₁.binders } s₂ r' ∧
        scope₂.CopiesAs inst r' ∧ want.bind r' = got.bind r' := by
  obtain ⟨r₁, hr₁, hfits₁, hgot⟩ := hb.complete label T hfits hT
  obtain ⟨r₂, hr₂, hinst₂, hwant⟩ := hbinder.complete label T
    hfits₁.satisfied (hcopies.copiesAs hr₁ hinst) hbinds.2
  refine ⟨r₂, hr₁.trans hr₂, ?_, hinst₂, ?_⟩
  · apply (hfits₁.extend hb.state hr₂).bindBinder
    rw [hwant]
    exact hbinds.1
  · rw [hwant, hr₂.bind_eq hb.admits.inRange, hgot]

/-- A binding of a let is made before what follows it. -/
theorem outcome_bindTo {A : Type} {binder : Binder} {bound : Exp}
    (hbound : S.Infers bound)
    (h : S.Ready (bound.parts ++ .ofBinders [binder]) view s)
    (hcopies : S.Copies scope s) (e : Exp) (next : Scope → InferM A)
    {ok : A → View → Store → Prop} {possible : Prop}
    (hpossible : possible → ∃ before label r inst T,
      S.Fits before label view s r ∧ scope.CopiesAs inst r ∧
        (S.typing (.ground S.table before) label).HasType bound T ∧
          (S.typing (.ground S.table before) label).Binds inst binder T)
    (hnext : ∀ view' scope' s',
      S.BoundTo binder bound view scope s view' scope' s' →
        Outcome ok possible ((next scope').run (view', s'))) :
    Outcome ok possible ((bound.findType S.table >>= fun got =>
      Infer.bindIn scope binder >>= fun p =>
        Infer.unifyAt S.table e p.1 got >>= fun _ => next p.2).run
          (view, s)) := by
  refine (hbound view s h.left).bind ?_ fun got view₁ s₁ hb => ?_
  · intro hposs
    obtain ⟨before, label, r, inst, T, hfits, -, hT, -⟩ := hpossible hposs
    exact ⟨before, label, r, T, hfits, hT⟩
  have hready₁ := h.next hb.adds hb.state
  obtain ⟨want, scope₂, s₂, hrun, hbinder⟩ := exists_bindIn hb.state
    (hcopies.later hb.later) binder fun declared hdeclared =>
      hready₁.schemes declared (by simp [Parts.ofBinders, hdeclared])
  have hadds₂ := adds_bindBinder view₁ binder want
  have hstate₂ := hbinder.state.bindBinder hbinder.admits binder.id
  rw [bind_run_of_ok hrun]
  dsimp only
  refine (outcome_unifyAt hstate₂ hbinder.admits
    (hb.admits.mono hbinder.later.size_le) e ?_).bind id
    fun _ view₃ s₃ hunified => ?_
  · intro hposs
    obtain ⟨before, label, r, inst, T, hfits, hinst, hT, hbinds⟩ :=
      hpossible hposs
    obtain ⟨r', hr', -, -, hequal⟩ :=
      hb.exists_bound hbinder hcopies hfits hinst hT hbinds
    exact ⟨r', hr'.satisfied, hequal⟩
  rcases hunified with ⟨rfl, hunified⟩
  apply hnext
  refine
    { state := hunified.state
      later := hb.later.trans (hbinder.later.trans hunified.later)
      adds := hb.adds.trans hadds₂
      copies := hbinder.copies.later hunified.later
      kept := hbinder.kept
      sound := fun a label inst hsat hlabel hinst => ?_
      complete := fun before r inst label T hfits hinst hT hbinds => ?_ }
  · obtain ⟨hsat₂, hequal⟩ := (hunified.satisfied_iff a).1 hsat
    refine ⟨a.eval got, ?_, ?_, ?_⟩
    · exact hb.sound a label (hbinder.later.satisfied a hsat₂)
        (hlabel.before hadds₂ hready₁.lacks)
    · rw [← hequal]
      exact hlabel.binders (by rw [lookup_cons_if, if_pos rfl])
    · rw [← hequal]
      exact hbinder.sound a label inst hsat₂ hinst
  · obtain ⟨r₂, hr₂, hfits₂, hinst₂, hequal⟩ :=
      hb.exists_bound hbinder hcopies hfits hinst hT hbinds
    have hlast := hunified.extends hr₂.satisfied hequal
    exact ⟨r₂, hr₂.trans hlast, hfits₂.extend hstate₂ hlast, hinst₂⟩

theorem infersAll_cons (binder : Binder) {bound : Exp} {rest : Bindings}
    (hbound : S.Infers bound) (hrest : S.InfersAll rest) :
    S.InfersAll (.cons binder bound rest) := by
  intro e scope view s h hcopies
  have hparts : (Bindings.cons binder bound rest).parts =
      bound.parts ++ .ofBinders [binder] ++ rest.parts :=
    (Parts.append_assoc _ _ _).symm
  rw [hparts] at h
  rw [Bindings.findTypes]
  refine outcome_bindTo hbound h.left hcopies e
    (fun scope' => rest.findTypes S.table e scope') ?_
    fun view₁ scope₁ s₁ hfirst => ?_
  · rintro ⟨before, label, r, inst, hfits, hinst, ⟨T, hT, hbinds⟩, -⟩
    exact ⟨before, label, r, inst, T, hfits, hinst, hT, hbinds⟩
  have hready₁ := h.next hfirst.adds hfirst.state
  refine (hrest e scope₁ view₁ s₁ hready₁ hfirst.copies).imp ?_
    fun _ view' s' hr => ?_
  · rintro ⟨before, label, r, inst, hfits, hinst, ⟨T, hT, hbinds⟩, hrestT⟩
    obtain ⟨r₁, -, hfits₁, hinst₁⟩ :=
      hfirst.complete label T hfits hinst hT hbinds
    exact ⟨before, label, r₁, inst, hfits₁, hinst₁, hrestT⟩
  refine
    { state := hr.state
      later := hfirst.later.trans hr.later
      adds := hparts ▸ hfirst.adds.trans hr.adds
      sound := fun a label hsat hlabel => ?_
      complete := fun before r inst label hfits hinst hT => ?_ }
  · obtain ⟨inst, hinst, htypes⟩ := hr.sound a label hsat hlabel
    refine ⟨inst, fun v w hw => hinst (hfirst.kept hw), ?_, htypes⟩
    exact hfirst.sound a label inst (hr.later.satisfied a hsat)
      (hlabel.before hr.adds hready₁.lacks) hinst
  · rcases hT with ⟨⟨T, hboundT, hbinds⟩, hrestT⟩
    obtain ⟨r₁, hr₁, hfits₁, hinst₁⟩ :=
      hfirst.complete label T hfits hinst hboundT hbinds
    obtain ⟨r₂, hr₂, hfits₂⟩ := hr.complete label hfits₁ hinst₁ hrestT
    exact ⟨r₂, hr₁.trans hr₂, hfits₂⟩

/-- The body of a let is inferred with the types of all bindings. -/
theorem infers_letIn (id : ExpId) {bindings : Bindings} {body : Exp}
    (hbindings : S.InfersAll bindings) (hbody : S.Infers body) :
    S.Infers (.letIn id bindings body) := by
  intro view s h
  have hinner : S.Ready (bindings.parts ++ body.parts) view s := h.right
  rw [Exp.findType]
  apply outcome_remember h
  refine (hbindings (.letIn id bindings body) .empty view s hinner.left
    copies_empty).bind ?_ fun _ view₁ s₁ hall => ?_
  · rintro ⟨before, label, r, T, hfits, -, ⟨inst, hT⟩, -⟩
    exact ⟨before, label, r, inst, hfits, copiesAs_empty inst r, hT⟩
  have hready₁ := hinner.next hall.adds hall.state
  refine (hbody view₁ s₁ hready₁).imp ?_ fun t view' s' hb => ?_
  · rintro ⟨before, label, r, T, hfits, -, ⟨inst, hT⟩, hbodyT⟩
    obtain ⟨r₁, -, hfits₁⟩ :=
      hall.complete label hfits (copiesAs_empty inst r) hT
    exact ⟨before, label, r₁, T, hfits₁, hbodyT⟩
  refine
    { state := hb.state
      later := hall.later.trans hb.later
      adds := (hall.adds.trans hb.adds).right (.node id)
      lacks := Ready.lookup_exp h (hall.adds.trans hb.adds)
        (by simp [Parts.node, Exp.id])
      admits := hb.admits
      complete := fun before r label T hfits hT => ?_
      sound := fun a label hsat hlabel hid => ?_ }
  · rcases hT with ⟨-, ⟨inst, hT⟩, hbodyT⟩
    obtain ⟨r₁, hr₁, hfits₁⟩ :=
      hall.complete label hfits (copiesAs_empty inst r) hT
    obtain ⟨r₂, hr₂, hfits₂, hvalue⟩ := hb.complete label T hfits₁ hbodyT
    exact ⟨r₂, hr₁.trans hr₂, hfits₂, hvalue⟩
  · rw [Typing.HasType]
    obtain ⟨inst, -, htypes⟩ := hall.sound a label
      (hb.later.satisfied a hsat) (hlabel.before hb.adds hready₁.lacks)
    exact ⟨hid, ⟨inst, htypes⟩, hb.sound a label hsat hlabel⟩

/-! ### Annotations -/

/-- Every typing of an annotated expression gives it an instance of the
annotation. -/
theorem Found.exists_annotated {inner : Exp} {declared want got : Ty TyVar}
    {view₁ : View} {s₁ s₂ : Store} (hi : S.Found inner view s got view₁ s₁)
    (hinst : S.Instantiated view₁ declared .empty s₁ want scope s₂)
    {id : ExpId} {before r : TyVar → GroundTy} {label : Labelling Empty}
    {T : GroundTy} (hfits : S.Fits before label view s r)
    (hT : (S.typing (.ground S.table before) label).HasType
      (.annotated id inner declared) T) :
    ∃ r', S.Extends s r s₂ r' ∧ S.Fits before label view₁ s₂ r' ∧
      want.bind r' = got.bind r' ∧ got.bind r' = T := by
  rcases hT with ⟨-, hinnerT, inst, hinstance⟩
  obtain ⟨r₁, hr₁, hfits₁, hgot⟩ := hi.complete label T hfits hinnerT
  obtain ⟨r₂, hr₂, hwant⟩ := hinst.exists_extends hfits₁.satisfied hinstance
  have hgot₂ : got.bind r₂ = T := by
    rw [hr₂.bind_eq hi.admits.inRange, hgot]
  exact ⟨r₂, hr₁.trans hr₂, hfits₁.extend hi.state hr₂,
    hwant.trans hgot₂.symm, hgot₂⟩

theorem infers_annotated (id : ExpId) {inner : Exp} (declared : Ty TyVar)
    (hinfers : S.Infers inner) : S.Infers (.annotated id inner declared) := by
  intro view s h
  have hinner : S.Ready inner.parts view s := h.right
  rw [Exp.findType]
  apply outcome_remember h
  refine (hinfers view s hinner).bind ?_ fun got view₁ s₁ hi => ?_
  · rintro ⟨before, label, r, T, hfits, -, hT, -⟩
    exact ⟨before, label, r, T, hfits, hT⟩
  obtain ⟨want, scope, s₂, hrun, hinst⟩ := exists_inNewScope hi.state
    (h.schemes declared (by simp [Exp.parts]))
  rw [bind_run_of_ok hrun]
  have hgot := hi.admits.mono hinst.later.size_le
  apply Posed.outcome
  refine
    { state := hinst.state
      later := hi.later.trans hinst.later
      adds := hi.adds.right _
      lacks := Ready.lookup_exp h hi.adds (by simp [Parts.node, Exp.id])
      admitsWant := hinst.admits
      admitsGot := hgot
      admits := hgot
      sound := fun a label hsat hequal hlabel hid => ?_
      complete := fun before r label T hfits hT =>
        hi.exists_annotated hinst hfits hT }
  rw [Typing.HasType]
  have hinstance := hinst.exists_instance label hsat
  rw [hequal] at hinstance
  exact ⟨hid, hi.sound a label (hinst.later.satisfied a hsat) hlabel,
    hinstance⟩

/-! ### All expressions -/

mutual

/-- Inference is sound and complete for all expressions. -/
theorem infers (S : Setting) : ∀ e : Exp, S.Infers e
  | .value id ty text => infers_value id ty text
  | .localVar id binder => infers_localVar id binder
  | .function id use => infers_function id use
  | .hole id => infers_hole id
  | .apply id func arg => infers_apply id (infers S func) (infers S arg)
  | .lambda id params body => infers_lambda id params (infers S body)
  | .letIn id bindings body =>
      infers_letIn id (infersAll S bindings) (infers S body)
  | .annotated id inner declared =>
      infers_annotated id declared (infers S inner)

theorem infersAll (S : Setting) : ∀ bindings : Bindings, S.InfersAll bindings
  | .nil => infersAll_nil
  | .cons binder bound rest =>
      infersAll_cons binder (infers S bound) (infersAll S rest)

end

end HindleyMilner.Setting

import HindleyMilner.Proofs.FairSession
import HindleyMilner.Proofs.Lockstep

/-
The order of unifications.  Equations that could be solved in one order hold
of what their types stand for afterwards, and that assignment shows that no
other order runs into a contradiction.  Another order can fail in two ways
only.  A class may be required of an application of a variable before another
equation finds a constructor for the variable.  And classes may be joined that
have no common instance, which are only accepted in the form of a single class
below them that has no instance at all.  Such a class is required of a
variable of the equations themselves: what is asked of all other variables can
be left out, and both orders go the same way without it.
-/

namespace HindleyMilner

/-! ### Sets that some constructor is an instance of -/

/-- Whether some constructor is an instance of all classes of a set. -/
def ClassSet.Inhabited (table : ClassTable) (set : ClassSet) : Prop :=
  ∃ con, ∀ c ∈ set.members, table.hasInstance c con = true

namespace ClassTable

variable {table : ClassTable} {set : ClassSet}

/-- A set without conflict has at most one member or a common instance. -/
theorem inhabited_of_conflict?_eq_none (h : table.conflict? set = none)
    (hmembers : ∀ c ∈ set.members, ∃ con, table.hasInstance c con = true) :
    set.Inhabited table := by
  rcases conflict?_eq_none_iff.1 h with hlength | hcon
  · match hset : set.members with
    | [] => exact ⟨.unit, fun c hc => by simp [hset] at hc⟩
    | [c] =>
        obtain ⟨con, hcon⟩ := hmembers c (by simp [hset])
        exact ⟨con, fun d hd => by simp_all⟩
    | _ :: _ :: _ => simp [hset] at hlength
  · exact hcon

/-- Having a common instance survives unification. -/
theorem lasts_inhabited (table : ClassTable) :
    table.Lasts (ClassSet.Inhabited table) where
  union a b ha hb hnone := by
    apply inhabited_of_conflict?_eq_none hnone
    intro c hc
    rcases ClassSet.mem_foldl_insert_imp hc with hmem | hmem
    · exact ha.imp fun con hcon => hcon c hmem
    · exact hb.imp fun con hcon => hcon c hmem
  insert set larger c con hset hc hinsert hnone := by
    apply inhabited_of_conflict?_eq_none hnone
    intro d hd
    rcases (ClassSet.mem_of_insert? hinsert).1 hd with rfl | ⟨hmem, -⟩
    · exact ⟨con, hc⟩
    · exact hset.imp fun con hcon => hcon d hmem

end ClassTable

/-! ### Several equations -/

/-- Unifies pairs of types one after the other, up to the first failure. -/
def TypeState.unifyAll (st : TypeState) :
    List (Ty TyVar × Ty TyVar) → Except UnifyError Unit × TypeState
  | [] => (.ok (), st)
  | (want, got) :: rest =>
      match st.unify want got with
      | (.ok _, st') => st'.unifyAll rest
      | failed => failed

variable {table : ClassTable} {F : Footprint} {s s' : Store}
  {eqs : List (Ty TyVar × Ty TyVar)}

/-- Unifying inside a footprint. -/
theorem imposes_unify_covered (ordered : table.Ordered)
    (hs : Store.Evolves table F s s) {want got : Ty TyVar}
    (hwant : F.Covers want) (hgot : F.Covers got) :
    Imposes table F s (fun a => a.eval want = a.eval got)
      ((unify table want got).run s) := by
  have hboth : ∀ t ∈ [want, got], F.Covers t := by simpa using ⟨hwant, hgot⟩
  exact (imposes_unify ordered hs.wellFormed (hwant.inRange hs.supports)
    (hgot.inRange hs.supports)).mono hs.supports
      (fun v => hs.supports.vars_of_reach hboth)
      (hs.supports.height_reach_le hboth)

/-- Unifying pairs of types imposes that all of them are equal. -/
theorem exists_imposes_unifyAll (ordered : table.Ordered) (wf : s.WellFormed)
    (heqs : ∀ p ∈ eqs, p.1.InRange s ∧ p.2.InRange s) :
    ∃ F, Imposes table F s (fun a => ∀ p ∈ eqs, a.eval p.1 = a.eval p.2)
      ((eqs.forM fun p => unify table p.1 p.2).run s) := by
  let types := eqs.flatMap fun p => [p.1, p.2]
  have hmem : ∀ p ∈ eqs, p.1 ∈ types ∧ p.2 ∈ types := fun p hp =>
    ⟨List.mem_flatMap.2 ⟨p, hp, by simp⟩, List.mem_flatMap.2 ⟨p, hp, by simp⟩⟩
  have hsupports : (Footprint.reach s types).Supports s := by
    apply Footprint.Supports.reach wf
    intro t ht
    obtain ⟨p, hp, ht⟩ := List.mem_flatMap.1 ht
    rcases List.mem_pair.1 ht with rfl | rfl
    · exact (heqs p hp).1
    · exact (heqs p hp).2
  refine ⟨.reach s types, Imposes.forM eqs (.refl wf hsupports) ?_⟩
  intro p hp s' hs'
  exact imposes_unify_covered ordered hs'.here (.reach (hmem p hp).1)
    (.reach (hmem p hp).2)

/-- Where all classes of unsolved variables have common instances, the
variables of what types stand for are in no classes that are in conflict. -/
theorem Store.AllClasses.not_leftOpen (ordered : table.Ordered)
    (h : s.AllClasses (ClassSet.Inhabited table)) (e : UnifyError) :
    ¬ e.LeftOpen (s.zonkAssignment ordered) := by
  rintro ⟨set, p, q, v, -, hconflict, hholds⟩
  have hrequired : ∀ c ∈ set.members, s.Requires table v c := hholds
  obtain ⟨c, hc, -⟩ :=
    ClassTable.exists_not_hasInstance_of_conflict? hconflict .unit
  obtain ⟨classes, hv, -⟩ := hrequired c hc
  obtain ⟨con, hcon⟩ := h hv
  obtain ⟨d, hd, hnot⟩ :=
    ClassTable.exists_not_hasInstance_of_conflict? hconflict con
  obtain ⟨others, hothers, himplies⟩ := hrequired d hd
  rw [hv] at hothers
  obtain rfl := Option.some.inj hothers
  rw [ClassSet.of_implies (ClassTable.hasInstance_upward ordered con) hcon
    himplies] at hnot
  contradiction

/-- Equations that could be solved in one order can be solved in another, or
that other order gets stuck, or has to do with a variable in classes without a
common instance. -/
theorem unifyAll_reordered {others : List (Ty TyVar × Ty TyVar)} {u : Unit}
    {e : UnifyError} {s₁ s₂ : Store} (ordered : table.Ordered)
    (wf : s.WellFormed) (heqs : ∀ p ∈ eqs, p.1.InRange s ∧ p.2.InRange s)
    (hsub : ∀ p ∈ others, p ∈ eqs)
    (hrun : (eqs.forM fun p => unify table p.1 p.2).run s = .ok u s₁)
    (hother : (others.forM fun p => unify table p.1 p.2).run s =
      .error e s₂) :
    e.Stuck s₂ ∨ (∃ p q, e.cause = .unsatisfiable p q) ∧
      ∃ v classes, s.unsolvedClasses? v = some classes ∧
        ¬ classes.Inhabited table := by
  obtain ⟨F, hsolved⟩ := exists_imposes_unifyAll ordered wf heqs
  obtain ⟨F', hrefused⟩ := exists_imposes_unifyAll ordered wf
    fun p hp => heqs p (hsub p hp)
  rw [hrun] at hsolved
  rw [hother] at hrefused
  -- what the types stand for in the end solves the equations in any order
  have hsat := (hsolved.satisfied_iff _).1
    (hsolved.evolves.wellFormed.satisfiedBy_zonkAssignment ordered)
  refine hrefused.blamed.imp_right fun hleft => ?_
  have hopen := hleft _ hsat.1 fun p hp => hsat.2 p (hsub p hp)
  constructor
  · obtain ⟨-, p, q, -, hcause, -⟩ := hopen
    exact ⟨p, q, hcause⟩
  · by_contra hnone
    have hall : s.AllClasses (ClassSet.Inhabited table) := by
      intro v classes hv
      by_contra hinhabited
      exact hnone ⟨v, classes, hv, hinhabited⟩
    have hkeeps : UnifyM.Keeps (Store.AllClasses (ClassSet.Inhabited table))
        (eqs.forM fun p => unify table p.1 p.2) fun _ => True :=
      .forM eqs fun p _ => keeps_unify (Store.carries_allClasses _) ordered
        table.lasts_inhabited p.1 p.2
    have hend := hkeeps.finalState hall
    rw [hrun] at hend
    exact hend.not_leftOpen ordered e hopen

/-! ### Leaving out what is asked of other variables -/

/-- The store with nothing asked of the unsolved variables outside a list. -/
def Store.maskedTo (s : Store) (kept : List TyVar) : Store :=
  ⟨s.cells.mapIdx fun i cell =>
    match cell.binding with
    | .unsolved classes =>
        { cell with
          binding := .unsolved (if ⟨i⟩ ∈ kept then classes else ∅) }
    | .solved _ => cell⟩

namespace Store

variable {kept : List TyVar} {t : Ty TyVar}

theorem solution?_maskedTo (s : Store) (kept : List TyVar) (v : TyVar) :
    (s.maskedTo kept).solution? v = s.solution? v := by
  simp only [solution?, maskedTo, Array.getElem?_mapIdx]
  cases s.cells[v.index]? with
  | none => rfl
  | some cell => obtain ⟨base, _ | _⟩ := cell <;> rfl

theorem unsolvedClasses?_maskedTo (s : Store) (kept : List TyVar)
    (v : TyVar) :
    (s.maskedTo kept).unsolvedClasses? v =
      (s.unsolvedClasses? v).map fun classes =>
        if v ∈ kept then classes else ∅ := by
  simp only [unsolvedClasses?, maskedTo, Array.getElem?_mapIdx]
  cases s.cells[v.index]? with
  | none => rfl
  | some cell => obtain ⟨base, _ | _⟩ := cell <;> rfl

theorem WellFormed.steady_maskedTo (wf : s.WellFormed) (kept : List TyVar) :
    s.Steady (s.maskedTo kept) := by
  refine wf.steady_of_solution?_eq ?_ (fun v => ?_) (s.solution?_maskedTo kept)
  · rw [size, maskedTo, Array.size_mapIdx, size]
  · rw [isUnsolved, unsolvedClasses?_maskedTo, Option.isSome_map, isUnsolved]

/-- A store and the same with less asked, with the variables paired that the
same is asked of. -/
def beside (s : Store) (kept : List TyVar) : Pairing :=
  .onSame s (s.maskedTo kept) fun v => v ∈ kept ∧ s.isUnsolved v = true

theorem WellFormed.faithful_beside (wf : s.WellFormed) (kept : List TyVar) :
    (s.beside kept).Faithful table false where
  left := wf
  right := (wf.steady_maskedTo kept).wellFormed
  classes := by
    rintro v _ ⟨rfl, hkept, hv⟩
    obtain ⟨classes, hclasses⟩ := Option.isSome_iff_exists.1 hv
    refine ⟨classes, hclasses, ?_⟩
    change (s.maskedTo kept).unsolvedClasses? v = some classes
    rw [unsolvedClasses?_maskedTo, hclasses, Option.map_some, if_pos hkept]
  unique := Pairing.biUnique_onSame
  crossed := nofun

theorem WellFormed.alike_beside (wf : s.WellFormed) (ht : t.InRange s)
    (hkept : ∀ v ∈ (s.zonk t).vars, v ∈ kept) : (s.beside kept).Alike t t := by
  have hzonk := (wf.steady_maskedTo kept).zonk_eq t
  change Ty.Alike _ (s.zonk t) ((s.maskedTo kept).zonk t)
  rw [hzonk]
  exact .of_same fun v hv =>
    ⟨rfl, hkept v hv, wf.isUnsolved_of_mem_zonk ht hv⟩

end Store

/-- Equations between types that are alike go the same way. -/
theorem Pairing.Faithful.runs_unifyAll {M : Pairing}
    (h : M.Faithful table false) (ordered : table.Ordered)
    (heqs : ∀ p ∈ eqs, M.Alike p.1 p.1 ∧ M.Alike p.2 p.2) :
    M.Runs table false (eqs.forM fun p => unify table p.1 p.2)
      (eqs.forM fun p => unify table p.1 p.2) fun _ _ _ => True := by
  induction eqs generalizing M with
  | nil => exact .pure h trivial
  | cons head tail ih =>
      rw [List.forall_mem_cons] at heqs
      apply (h.runs_unify ordered heqs.1.1 heqs.1.2).bind
      intro N _ _ hN hleads _
      exact ih hN fun p hp => ⟨hleads.alike_ty (heqs.2 p hp).1,
        hleads.alike_ty (heqs.2 p hp).2⟩

/-- A run of equations does not find the store broken. -/
theorem not_fault_unifyAll {fault : Fault} {path : List Nat}
    (ordered : table.Ordered) (wf : s.WellFormed)
    (heqs : ∀ p ∈ eqs, p.1.InRange s ∧ p.2.InRange s) :
    (eqs.forM fun p => unify table p.1 p.2).run s ≠
      .error ⟨.fault fault, path⟩ s' := by
  intro hrun
  obtain ⟨F, himposes⟩ := exists_imposes_unifyAll ordered wf heqs
  rw [hrun] at himposes
  exact himposes.not_fault fault rfl

/-- The second run succeeds where the first one does. -/
theorem Pairing.Ends.exists_ok {M : Pairing} {crossed : Bool} {A B : Type}
    {post : Pairing → A → B → Prop} {a : A}
    {second : EStateM.Result UnifyError Store B}
    (h : M.Ends table crossed post (.ok a s) second)
    (hfault : ∀ fault path s', second ≠ .error ⟨.fault fault, path⟩ s') :
    ∃ b s', second = .ok b s' := by
  cases h with
  | ok _ _ _ => exact ⟨_, _, rfl⟩
  | rightFault => exact absurd rfl (hfault _ _ _)

/-- The second run finds the classes in conflict that the first one finds. -/
theorem Pairing.Ends.exists_unsatisfiable {M : Pairing} {crossed : Bool}
    {A B : Type} {post : Pairing → A → B → Prop} {e : UnifyError}
    {second : EStateM.Result UnifyError Store B} {p q : ClassId}
    (h : M.Ends table crossed post (.error e s) second)
    (hcause : e.cause = .unsatisfiable p q)
    (hfault : ∀ fault path s', second ≠ .error ⟨.fault fault, path⟩ s') :
    ∃ e' s', second = .error e' s' ∧ e'.cause = .unsatisfiable p q := by
  cases h with
  | error path _ _ hmirrors =>
      obtain rfl : _ = UnifyError.Cause.unsatisfiable p q := hcause
      cases hmirrors with
      | unsatisfiable _ _ => exact ⟨_, _, rfl, rfl⟩
  | leftFault => contradiction
  | rightFault => exact absurd rfl (hfault _ _ _)

/-- The variable in classes without a common instance is one of what the types
stand for. -/
theorem unifyAll_reordered_vars {others : List (Ty TyVar × Ty TyVar)}
    {u : Unit} {e : UnifyError} {s₁ s₂ : Store} (ordered : table.Ordered)
    (wf : s.WellFormed) (heqs : ∀ p ∈ eqs, p.1.InRange s ∧ p.2.InRange s)
    (hsub : ∀ p ∈ others, p ∈ eqs)
    (hrun : (eqs.forM fun p => unify table p.1 p.2).run s = .ok u s₁)
    (hother : (others.forM fun p => unify table p.1 p.2).run s =
      .error e s₂) :
    e.Stuck s₂ ∨ (∃ p q, e.cause = .unsatisfiable p q) ∧
      ∃ t ∈ eqs.flatMap fun p => [p.1, p.2], ∃ v ∈ (s.zonk t).vars,
        ∃ classes, s.unsolvedClasses? v = some classes ∧
          ¬ classes.Inhabited table := by
  refine (unifyAll_reordered ordered wf heqs hsub hrun hother).imp_right ?_
  rintro ⟨⟨p, q, hcause⟩, -⟩
  refine ⟨⟨p, q, hcause⟩, ?_⟩
  let types := eqs.flatMap fun p => [p.1, p.2]
  let kept := types.flatMap fun t => (s.zonk t).vars
  have hmem : ∀ p ∈ eqs, p.1 ∈ types ∧ p.2 ∈ types := fun p hp =>
    ⟨List.mem_flatMap.2 ⟨p, hp, by simp⟩, List.mem_flatMap.2 ⟨p, hp, by simp⟩⟩
  have hsteady := wf.steady_maskedTo kept
  have hrange : ∀ p ∈ eqs, p.1.InRange (s.maskedTo kept) ∧
      p.2.InRange (s.maskedTo kept) := fun p hp =>
    (heqs p hp).imp (.of_size_le · (Nat.le_of_eq hsteady.size_eq.symm))
      (.of_size_le · (Nat.le_of_eq hsteady.size_eq.symm))
  have halike {t : Ty TyVar} (ht : t ∈ types) (hrange : t.InRange s) :
      (s.beside kept).Alike t t :=
    wf.alike_beside hrange fun v hv => List.mem_flatMap.2 ⟨t, ht, hv⟩
  have hstart : (s.beside kept).Faithful table false := wf.faithful_beside kept
  -- with the other sets left out one order succeeds, and the other one fails
  have hfirst := hstart.runs_unifyAll ordered fun p hp =>
    ⟨halike (hmem p hp).1 (heqs p hp).1, halike (hmem p hp).2 (heqs p hp).2⟩
  have hsecond := hstart.runs_unifyAll ordered fun p hp =>
    ⟨halike (hmem p (hsub p hp)).1 (heqs p (hsub p hp)).1,
      halike (hmem p (hsub p hp)).2 (heqs p (hsub p hp)).2⟩
  rw [Pairing.Runs, Store.beside, Pairing.onSame, hrun] at hfirst
  rw [Pairing.Runs, Store.beside, Pairing.onSame, hother] at hsecond
  obtain ⟨_, s₁', hrun'⟩ := hfirst.exists_ok fun fault path s' =>
    not_fault_unifyAll ordered hsteady.wellFormed hrange
  obtain ⟨e', s₂', hother', hcause'⟩ :=
    hsecond.exists_unsatisfiable hcause fun fault path s' =>
      not_fault_unifyAll ordered hsteady.wellFormed fun p hp =>
        hrange p (hsub p hp)
  rcases unifyAll_reordered ordered hsteady.wellFormed hrange hsub hrun'
    hother' with ⟨w, c, t, x, hstuck, -⟩ | ⟨-, v, classes, hv, hinhabited⟩
  · rw [hcause'] at hstuck
    contradiction
  · obtain ⟨before, hbefore, rfl⟩ := Option.map_eq_some_iff.1
      ((s.unsolvedClasses?_maskedTo kept v).symm.trans hv)
    by_cases hv : v ∈ kept
    · obtain ⟨t, ht, hvars⟩ := List.mem_flatMap.1 hv
      rw [if_pos hv] at hinhabited
      exact ⟨t, ht, v, hvars, before, hbefore, hinhabited⟩
    · rw [if_neg hv] at hinhabited
      exact absurd ⟨.unit, fun c hc => absurd hc List.not_mem_nil⟩ hinhabited

namespace TypeState

variable {st st' : TypeState}

theorem unifyAll_eq (st : TypeState) (eqs : List (Ty TyVar × Ty TyVar)) :
    st.unifyAll eqs =
      match (eqs.forM fun p => HindleyMilner.unify st.classes p.1 p.2).run
        st.store with
      | .ok _ s => (.ok (), st.withStore s)
      | .error e s => (.error e, st.withStore s) := by
  induction eqs generalizing st with
  | nil => rfl
  | cons head tail ih =>
      have hopen : (head :: tail).forM
          (fun p => HindleyMilner.unify st.classes p.1 p.2) =
            HindleyMilner.unify st.classes head.1 head.2 >>= fun _ =>
              tail.forM fun p => HindleyMilner.unify st.classes p.1 p.2 := rfl
      rw [unifyAll, unify_eq, hopen, EStateM.run_bind]
      cases (HindleyMilner.unify st.classes head.1 head.2).run st.store with
      | ok u s => exact ih (st.withStore s)
      | error e s => rfl

/-- Two unifications that succeed one after the other also succeed in the
other order, unless that gets stuck on an application of an unsolved variable,
or finds two classes without a common instance, and some variable of what the
four types stood for was in classes that no constructor is an instance of. -/
theorem unify_order {a b c d : Ty TyVar} (hst : st.Arises)
    (ha : a.InRange st.store) (hb : b.InRange st.store)
    (hc : c.InRange st.store) (hd : d.InRange st.store)
    (hrun : (st.unifyAll [(a, b), (c, d)]).1 = .ok ()) :
    (st.unifyAll [(c, d), (a, b)]).1 = .ok () ∨
      ∃ e st', st.unifyAll [(c, d), (a, b)] = (.error e, st') ∧
        (e.Stuck st'.store ∨ (∃ p q, e.cause = .unsatisfiable p q) ∧
          ∃ t ∈ [a, b, c, d], ∃ v ∈ (st.store.zonk t).vars, ∃ classes,
            st.store.unsolvedClasses? v = some classes ∧
              ¬ classes.Inhabited st.classes) := by
  obtain ⟨ordered, wf⟩ := hst.wellFormed
  rw [unifyAll_eq] at hrun ⊢
  cases hfirst : ([(a, b), (c, d)].forM fun p =>
      HindleyMilner.unify st.classes p.1 p.2).run st.store with
  | error e s =>
      rw [hfirst] at hrun
      contradiction
  | ok u s₁ =>
      cases hsecond : ([(c, d), (a, b)].forM fun p =>
          HindleyMilner.unify st.classes p.1 p.2).run st.store with
      | ok u s₂ => exact Or.inl rfl
      | error e s₂ =>
          exact Or.inr ⟨e, _, rfl, unifyAll_reordered_vars ordered wf
            (by simp [ha, hb, hc, hd]) (by simp [or_comm]) hfirst hsecond⟩

/-- A session with two classes, a third below them and no instances, and a
variable in each of them. -/
def lowerSession : TypeState :=
  let classes : ClassTable :=
    ⟨#[⟨⟨"A", by decide⟩, [], [], []⟩, ⟨⟨"B", by decide⟩, [], [], []⟩,
      ⟨⟨"C", by decide⟩, [⟨0⟩, ⟨1⟩], [], []⟩]⟩
  let store := (Store.empty.fresh "a" (.ofList classes [⟨0⟩])).2
  let store := (store.fresh "b" (.ofList classes [⟨1⟩])).2
  ⟨classes, (store.fresh "c" (.ofList classes [⟨2⟩])).2⟩

theorem lowerSession_arises : lowerSession.Arises := by
  let a : ClassTable := ⟨#[⟨⟨"A", by decide⟩, [], [], []⟩]⟩
  let b : ClassTable :=
    ⟨#[⟨⟨"A", by decide⟩, [], [], []⟩, ⟨⟨"B", by decide⟩, [], [], []⟩]⟩
  have ha : empty.classes.add? ⟨"A", by decide⟩ [] = some a := by
    simp [a, empty, ClassTable.add?, ClassTable.find?, ClassTable.empty]
  have hb : a.add? ⟨"B", by decide⟩ [] = some b := by
    simp [a, b, ClassTable.add?, ClassTable.find?]
  have hc : b.add? ⟨"C", by decide⟩ [⟨0⟩, ⟨1⟩] =
      some lowerSession.classes := by
    simp [b, lowerSession, ClassTable.add?, ClassTable.find?]
  have hclasses : Reachable ⟨lowerSession.classes, .empty⟩ :=
    .tail (.tail (.single (.addClass (by simp) ha)) (.addClass (by simp) hb))
      (.addClass (by decide) hc)
  have hreachable : lowerSession.Reachable :=
    .tail (.tail (.tail hclasses
      (.fresh _ "a" (.ofList lowerSession.classes [⟨0⟩])))
      (.fresh _ "b" (.ofList lowerSession.classes [⟨1⟩])))
      (.fresh _ "c" (.ofList lowerSession.classes [⟨2⟩]))
  exact hreachable.arises

/-- Both ways in which a change of order makes unifications fail. -/
theorem unify_order_failures :
    (listSession.Arises ∧
      (listSession.unifyAll [(.var ⟨1⟩, .con .list),
        (.var ⟨0⟩, .app (.var ⟨1⟩) (.con .char))]).1 = .ok () ∧
      (listSession.unifyAll [(.var ⟨0⟩, .app (.var ⟨1⟩) (.con .char)),
        (.var ⟨1⟩, .con .list)]).1 =
          .error ⟨.constraint ⟨0⟩ ⟨0⟩ (.app (.var ⟨1⟩) (.con .char)), []⟩) ∧
    lowerSession.Arises ∧
      (lowerSession.unifyAll [(.var ⟨1⟩, .var ⟨2⟩),
        (.var ⟨0⟩, .var ⟨1⟩)]).1 = .ok () ∧
      (lowerSession.unifyAll [(.var ⟨0⟩, .var ⟨1⟩),
        (.var ⟨1⟩, .var ⟨2⟩)]).1 = .error ⟨.unsatisfiable ⟨0⟩ ⟨1⟩, []⟩ :=
  ⟨⟨listSession_reachable.arises, rfl, rfl⟩, lowerSession_arises, rfl, rfl⟩

theorem unify_order_head :
    ∃ e st', listSession.unifyAll [(.var ⟨0⟩, .app (.var ⟨1⟩) (.con .char)),
        (.var ⟨1⟩, .con .list)] = (.error e, st') ∧
      (e.Stuck st'.store ∨ (∃ p q, e.cause = .unsatisfiable p q) ∧
        ∃ t ∈ [Ty.var ⟨1⟩, .con .list, .var ⟨0⟩,
            .app (.var ⟨1⟩) (.con .char)],
          ∃ v ∈ (listSession.store.zonk t).vars, ∃ classes,
            listSession.store.unsolvedClasses? v = some classes ∧
              ¬ classes.Inhabited listSession.classes) := by
  refine (unify_order listSession_reachable.arises (by decide) (by decide)
    (by decide) (by decide) rfl).resolve_left ?_
  exact nofun

end TypeState

end HindleyMilner

import HindleyMilner.Proofs.InferenceMoves
import HindleyMilner.Proofs.Setting

/-
Sessions that go on elsewhere.  As long as what is unified, and what the
literals of inferred expressions stand for, has none of the variables of some
types, these types stay as they are: they stand for the same, and their
variables keep their classes.  This covers all that goes on in such a session,
since everything it makes itself is new.
-/

namespace HindleyMilner

/-! ### Instantiating -/

namespace Scope

variable {table : ClassTable} {permit : Permit}

theorem moves_copy (v : TyVar) (now : Scope × Store) :
    Store.Moves table permit now.2 ((copy v).run now).2.2 := by
  rcases now with ⟨scope, s⟩
  cases hlookup : scope.copies.lookup v with
  | some w =>
      rw [copy_run_of_some hlookup]
  | none =>
      rw [copy_run_of_none hlookup]
      exact .single (.fresh _ (s.hands_copy v))

theorem moves_mapVarsM_copy (t : Ty TyVar) (now : Scope × Store) :
    Store.Moves table permit now.2 ((t.mapVarsM copy).run now).2.2 := by
  induction t generalizing now with
  | var v => exact moves_copy v now
  | con name => exact .refl
  | app func arg ihFunc ihArg => exact (ihFunc now).trans (ihArg _)

/-- In any scope, instantiation only creates variables. -/
theorem moves_instantiate (t : Ty TyVar) (now : Scope × Store) :
    Store.Moves table permit now.2 ((instantiate t).run now).2.2 := by
  rcases now with ⟨scope, s⟩
  rw [instantiate_run]
  split
  · exact .refl
  · exact moves_mapVarsM_copy (s.zonk t) (scope, s)

end Scope

/-! ### Moves apart from generic variables -/

namespace Setting

variable {S : Setting} {view : View} {s s' : Store} {v : TyVar}
  {t : Ty TyVar}

/-- The variables apart from the generic ones may be used. -/
def permit (S : Setting) : Permit :=
  ⟨fun _ => True, S.Apart⟩

/-- What stands for a type without generic variables is made of variables that
lead to none. -/
theorem State.apart (h : S.State view s)
    (ht : ∀ w ∈ (s.zonk t).vars, ¬ S.Generic w) (hv : v ∈ t.vars) :
    S.Apart v := by
  intro w hw hgeneric
  refine ht w ?_ hgeneric
  rw [h.wellFormed.zonk_eq_bind, Ty.mem_vars_bind]
  refine ⟨v, hv, ?_⟩
  rw [← h.extends.bind_zonk, Ty.mem_vars_bind]
  refine ⟨w, hw, ?_⟩
  rw [h.wellFormed.zonk_var_unsolved (h.solution?_generic hgeneric)]
  exact Ty.mem_vars_var.2 rfl

/-- Shortening chains apart from the generic variables does not disturb an
inference. -/
theorem State.prune (h : S.State view s) (ht : ∀ v ∈ t.vars, S.Apart v) :
    S.State view (s.prune t).2 := by
  cases t with
  | con name => exact h
  | app func arg => exact h
  | var v =>
      have hv := ht v (Ty.mem_vars_var.2 rfl)
      have hpassed {w : TyVar} (hw : w ∈ s.passed v) : S.Apart w :=
        h.apart_of_reach hv (Store.reflTransGen_of_mem_passedWithin hw)
      refine
        { wellFormed := h.wellFormed.compress v
          size_le :=
            Nat.le_trans h.size_le (Nat.le_of_eq (s.size_compress v).symm)
          closed := fun w u hw hu x hx => ?_
          outside := fun w hw =>
            (Store.getElem?_cells_compress fun hmem => hw (hpassed hmem)).trans
              (h.outside hw)
          satisfied := fun a ha =>
            h.satisfied a ((Store.satisfiedBy_compress_iff v).1 ha)
          binders := fun id u hu =>
            (h.binders hu).mono (Nat.le_of_eq (s.size_compress v).symm) }
      rw [Store.prune, Store.solution?_compress] at hu
      split at hu
      · obtain rfl := Option.some.inj hu
        rw [Ty.mem_vars_var.1 hx]
        exact h.apart_of_reach hv (s.reflTransGen_rootWithin s.size v)
      · exact h.closed hw hu x hx

/-- A change apart from the generic variables leads from a state of an inference
to another. -/
theorem State.move (h : S.State view s)
    (hmove : Store.Move S.table S.permit s s') : S.State view s' := by
  cases hmove with
  | @fresh base classes _ => exact h.fresh base classes
  | prune ht => exact h.prune ht
  | unify hwant hgot =>
      exact h.unify hwant hgot (Store.evolves_unify S.ordered h.wellFormed
        hwant.inRange hgot.inRange)

theorem State.moves (h : S.State view s)
    (hmoves : Store.Moves S.table S.permit s s') : S.State view s' := by
  induction hmoves with
  | refl => exact h
  | tail _ hmove ih => exact ih.move hmove

/-- New variables are apart from the generic ones, so they may always be
used. -/
theorem State.suits (h : S.State view s) : S.permit.Suits S.table s where
  new _ hv := apart_of_new (Nat.le_trans h.size_le hv)
  ground s' hmoves t hground v hv := by
    refine (h.moves hmoves).apart (fun w hw => ?_) hv
    rw [← Store.mem_freeVars, hground] at hw
    exact absurd hw List.not_mem_nil

end Setting

/-! ### Sessions elsewhere -/

/-- Whether what a type stands for has none of the variables of the types that
are kept. -/
def Store.Avoids (s : Store) (kept : List (Ty TyVar)) (t : Ty TyVar) : Prop :=
  ∀ v ∈ (s.zonk t).vars, ∀ scheme ∈ kept, v ∉ (s.zonk scheme).vars

instance (s : Store) (kept : List (Ty TyVar)) (t : Ty TyVar) :
    Decidable (s.Avoids kept t) :=
  inferInstanceAs (Decidable (∀ v ∈ (s.zonk t).vars, ∀ scheme ∈ kept,
    v ∉ (s.zonk scheme).vars))

/-- Whether all types in a view exist and avoid the types that are kept. -/
structure View.Avoids (view : View) (s : Store) (kept : List (Ty TyVar)) :
    Prop where
  inRange : view.InRange s
  exps : ∀ ⦃id t⦄, view.exps.lookup id = some t → s.Avoids kept t
  binders : ∀ ⦃id t⦄, view.binders.lookup id = some t → s.Avoids kept t

theorem View.avoids_empty (s : Store) (kept : List (Ty TyVar)) :
    View.empty.Avoids s kept where
  inRange := ⟨nofun, nofun⟩
  exps := nofun
  binders := nofun

namespace TypeState

/-- Whether a session can go on from a state to another, and leave views
behind, by actions that avoid the types that are kept: it instantiates types,
reads signatures in scopes whose variables avoid them, unifies types that
avoid them, and infers expressions whose literals avoid them, in new views or
in those of earlier inferences.  The actions may fail. -/
inductive Elsewhere (kept : List (Ty TyVar)) (start : TypeState) :
    TypeState → List View → Prop
  | start : Elsewhere kept start start []
  | instantiate {st : TypeState} {views : List View}
      (h : Elsewhere kept start st views) (scope : Scope) (t : Ty TyVar) :
      Elsewhere kept start
        (st.withStore ((Scope.instantiate t).run (scope, st.store)).2.2) views
  | parse {st : TypeState} {views : List View}
      (h : Elsewhere kept start st views) {scope : Scope} (text : String)
      (hscope : scope.InRange st.store)
      (havoids : ∀ p ∈ scope.named, st.store.Avoids kept (.var p.2)) :
      Elsewhere kept start (st.parse scope text).2.2 views
  | unify {st : TypeState} {views : List View}
      (h : Elsewhere kept start st views) {want got : Ty TyVar}
      (hwant : want.InRange st.store) (hgot : got.InRange st.store)
      (hwantAvoids : st.store.Avoids kept want)
      (hgotAvoids : st.store.Avoids kept got) :
      Elsewhere kept start (st.unify want got).2 views
  | infer {st : TypeState} {views : List View}
      (h : Elsewhere kept start st views) {view : View} {e : Exp}
      (hview : view ∈ views ∨ view.Avoids st.store kept)
      (he : e.parts.InRange st.store)
      (hliterals : ∀ t ∈ e.parts.literals, st.store.Avoids kept t) :
      Elsewhere kept start
        (st.withStore
          (finalState ((e.infer st.classes).run (view, st.store))).2)
        ((finalState ((e.infer st.classes).run (view, st.store))).1 :: views)

end TypeState

namespace Setting

variable {S : Setting} {s s' : Store} {kept : List (Ty TyVar)}
  {t : Ty TyVar} {st : TypeState} {views : List View}

/-- A type that has no variable in common with the signatures that are kept is
apart from the generic ones. -/
theorem State.apart_of_avoids {view : View} (h : S.State view s)
    (hkept : ∀ scheme ∈ S.schemes, scheme ∈ kept) (ht : s.Avoids kept t) :
    ∀ v ∈ t.vars, S.Apart v := by
  refine fun v hv => h.apart (fun w hw => ?_) hv
  rintro ⟨scheme, hscheme, hgeneric⟩
  apply ht w hw scheme (hkept scheme hscheme)
  rwa [h.zonk_scheme hscheme]

theorem State.admits {view : View} (h : S.State view s)
    (hkept : ∀ scheme ∈ S.schemes, scheme ∈ kept) (ht : s.Avoids kept t)
    (hrange : t.InRange s) : S.permit.Admits s t :=
  fun v hv => ⟨hrange v hv, h.apart_of_avoids hkept ht v hv⟩

/-- What is known of a session that goes on elsewhere: it is in a state of an
inference that has not found anything yet, and its views keep types apart. -/
structure Meanwhile (S : Setting) (st : TypeState) (views : List View) :
    Prop where
  classes : st.classes = S.table
  state : S.State .empty st.store
  views : ∀ view ∈ views, S.permit.AdmitsView st.store view

theorem Meanwhile.ordered (h : S.Meanwhile st views) : st.classes.Ordered := by
  rw [h.classes]
  exact S.ordered

theorem Meanwhile.suits (h : S.Meanwhile st views) :
    S.permit.Suits st.classes st.store := by
  rw [h.classes]
  exact h.state.suits

/-- A session that goes on elsewhere stays elsewhere. -/
theorem Meanwhile.moves (h : S.Meanwhile st views)
    (hmoves : Store.Moves st.classes S.permit st.store s) :
    S.Meanwhile (st.withStore s) views := by
  rw [h.classes] at hmoves
  exact ⟨h.classes, h.state.moves hmoves, fun view hview =>
    (h.views view hview).of_size_le
      (hmoves.size_le S.ordered h.state.wellFormed)⟩

/-- The signatures and annotations of a setting stay as they are in a session
that goes on elsewhere. -/
theorem meanwhile (hkept : ∀ scheme ∈ S.schemes, scheme ∈ kept)
    (h : TypeState.Elsewhere kept ⟨S.table, S.start⟩ st views) :
    S.Meanwhile st views := by
  induction h with
  | start => exact ⟨rfl, S.state_start, fun _ hview => nomatch hview⟩
  | @instantiate st views _ scope t ih =>
      exact ih.moves (Scope.moves_instantiate t (scope, st.store))
  | @parse st views _ scope text hscope havoids ih =>
      rw [TypeState.parse_snd]
      refine ih.moves (TypeState.moves_of_parse text
        ⟨ih.ordered, ih.state.wellFormed, .refl, hscope, ih.suits, ?_⟩)
      intro p hp
      exact ih.state.apart_of_avoids hkept (havoids p hp) p.2
        (Ty.mem_vars_var.2 rfl)
  | unify _ hwant hgot hwantAvoids hgotAvoids ih =>
      rw [TypeState.unify_snd]
      exact ih.moves (.single (.unify
        (ih.state.admits hkept hwantAvoids hwant)
        (ih.state.admits hkept hgotAvoids hgot)))
  | @infer st views _ view e hview he hliterals ih =>
      have hadmits : S.permit.AdmitsView st.store view := by
        rcases hview with hold | hnew
        · exact ih.views view hold
        · exact ⟨fun _ _ ht => ih.state.admits hkept (hnew.exps ht)
              (hnew.inRange.exps ht),
            fun _ _ ht => ih.state.admits hkept (hnew.binders ht)
              (hnew.inRange.binders ht)⟩
      have hparts : S.permit.AdmitsParts st.store e.parts :=
        ⟨fun t ht => ih.state.admits hkept (hliterals t ht)
          (he.literals t ht), he.schemes⟩
      have hunder := Exp.under_infer ih.ordered ih.state.wellFormed ih.suits
        hadmits hparts
      have hmoved := ih.moves hunder.moves
      exact ⟨hmoved.classes, hmoved.state,
        List.forall_mem_cons.2 ⟨hunder.admitted, hmoved.views⟩⟩

end Setting

end HindleyMilner

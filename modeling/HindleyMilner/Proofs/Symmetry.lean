import HindleyMilner.Proofs.FairSession
import HindleyMilner.Proofs.Lockstep

/-
Unification is symmetric.  Run in both orders from one state, it succeeds in
both or fails in both, and the two states that it leaves behind differ only in
which of several variables that were joined stands for the others.
-/

namespace HindleyMilner

theorem Ty.Alike.map_eq {V W : Type} {rel : V → W → Prop} {f : V → W}
    {t : Ty V} {u : Ty W} (h : Ty.Alike rel t u)
    (hf : ∀ v w, rel v w → f v = w) : t.map f = u := by
  induction h with
  | var h => rw [map, hf _ _ h]
  | con name => rfl
  | app _ _ ihFunc ihArg => rw [map, ihFunc, ihArg]

theorem Ty.Alike.symm {V W : Type} {rel : V → W → Prop} {t : Ty V} {u : Ty W}
    (h : Ty.Alike rel t u) : Ty.Alike (fun w v => rel v w) u t := by
  induction h with
  | var h => exact .var h
  | con name => exact .con name
  | app _ _ ihFunc ihArg => exact .app ihFunc ihArg

/-! ### Stores that differ in their representatives -/

/-- Whether two stores differ only in which of several variables that were
joined is the root of the others. -/
structure Store.Twins (s s' : Store) : Prop where
  size_eq : s'.size = s.size
  joined : ∀ v w, s.root v = s.root w ↔ s'.root v = s'.root w
  solved : ∀ ⦃v : TyVar⦄, v.index < s.size →
    ((s.solution? (s.root v)).isSome ↔ (s'.solution? (s'.root v)).isSome)
  classes?_eq : ∀ ⦃v : TyVar⦄, v.index < s.size →
    s'.classes? v = s.classes? v
  zonk_eq : ∀ ⦃t : Ty TyVar⦄, t.InRange s →
    (s.zonk t).map s'.root = s'.zonk t ∧ (s'.zonk t).map s.root = s.zonk t

/-- Whether two types are one type in both of two stores. -/
def Store.SameIn (s s' : Store) (t u : Ty TyVar) : Prop :=
  s.zonk t = s.zonk u ∧ s'.zonk t = s'.zonk u

/-- How the results of unification in the two orders compare: both are
successes, or both are errors of one kind at one place, which name the same
classes, and the same types once solutions are looked through.  Only a
mismatch has its types turned round. -/
inductive Mirrored (s s' : Store) :
    Except UnifyError Unit → Except UnifyError Unit → Prop
  | ok : Mirrored s s' (.ok ()) (.ok ())
  | mismatch (path : List Nat) {want want' got got' : Ty TyVar}
      (hwant : s.SameIn s' want want') (hgot : s.SameIn s' got got') :
      Mirrored s s' (.error ⟨.mismatch want got, path⟩)
        (.error ⟨.mismatch got' want', path⟩)
  | constraint (path : List Nat) (c : ClassId) {v v' : TyVar}
      {t t' : Ty TyVar} (hv : s.SameIn s' (.var v) (.var v'))
      (ht : s.SameIn s' t t') :
      Mirrored s s' (.error ⟨.constraint v c t, path⟩)
        (.error ⟨.constraint v' c t', path⟩)
  | unsatisfiable (path : List Nat) (a b : ClassId) :
      Mirrored s s' (.error ⟨.unsatisfiable a b, path⟩)
        (.error ⟨.unsatisfiable a b, path⟩)
  | circularity (path : List Nat) {v v' : TyVar} {t t' : Ty TyVar}
      (hv : s.SameIn s' (.var v) (.var v')) (ht : s.SameIn s' t t') :
      Mirrored s s' (.error ⟨.circularity v t, path⟩)
        (.error ⟨.circularity v' t', path⟩)

namespace Pairing

variable {M N : Pairing} {table : ClassTable} {v v' : TyVar}
  {t t' : Ty TyVar} {s : Store}

def same (s : Store) : Pairing :=
  onSame s s fun v => s.isUnsolved v = true

theorem faithful_same (wf : s.WellFormed)
    (hreduced : s.AllClasses (ClassSet.Reduced table)) :
    (same s).Faithful table true where
  left := wf
  right := wf
  classes := by
    rintro v _ ⟨rfl, hv⟩
    obtain ⟨classes, hclasses⟩ := Option.isSome_iff_exists.1 hv
    exact ⟨classes, hclasses, hclasses⟩
  unique := biUnique_onSame
  crossed _ :=
    { reduced := fun _ _ _ _ hclasses => hreduced hclasses
      linked := by
        rintro v _ ⟨rfl, hv⟩
        obtain ⟨classes, hclasses⟩ := Option.isSome_iff_exists.1 hv
        exact Store.root_of_unsolved hclasses
      joined := fun _ _ => Iff.rfl }

theorem alike_same (wf : s.WellFormed) (ht : t.InRange s) :
    (same s).Alike t t :=
  .of_same fun _ hv => ⟨rfl, wf.isUnsolved_of_mem_zonk ht hv⟩

/-- The roots of a variable in both stores are paired, or solved. -/
theorem Faithful.rel_root_or_solved (h : M.Faithful table true)
    (hv : M.Alike (.var v) (.var v)) :
    M.rel (M.left.root v) (M.right.root v) ∨
      (M.left.solution? (M.left.root v)).isSome = true ∧
        (M.right.solution? (M.right.root v)).isSome = true := by
  have htops := h.tops (h.alike_resolve hv)
    (fun _ => h.left.solution?_of_resolve)
    (fun _ => h.right.solution?_of_resolve)
  simp only [Store.resolve, Store.rootTy] at htops
  cases hleft : M.left.solution? (M.left.root v) with
  | none =>
      cases hright : M.right.solution? (M.right.root v) with
      | none =>
          rw [hleft, hright] at htops
          cases htops with
          | var hrel => exact Or.inl hrel
      | some u =>
          rw [hleft, hright] at htops
          cases htops with
          | var _ => exact absurd hright (h.right.solution?_root v _)
  | some t =>
      cases hright : M.right.solution? (M.right.root v) with
      | none =>
          rw [hleft, hright] at htops
          cases htops with
          | var _ => exact absurd hleft (h.left.solution?_root v _)
      | some u => exact Or.inr ⟨rfl, rfl⟩

/-- Each of the two types becomes the other when variables are sent to their
roots in the other store. -/
theorem Faithful.zonk_map (h : M.Faithful table true) (ht : M.Alike t t') :
    (M.left.zonk t).map M.right.root = M.right.zonk t' ∧
      (M.right.zonk t').map M.left.root = M.left.zonk t := by
  have hcrossed := h.crossed rfl
  refine ⟨ht.map_eq fun _ _ hrel => hcrossed.linked hrel,
    ht.symm.map_eq ?_⟩
  intro w v hrel
  obtain ⟨classes, hleft, hright⟩ := h.classes hrel
  have hjoined : M.left.root w = M.left.root v := by
    rw [hcrossed.joined, Store.root_of_unsolved hright, hcrossed.linked hrel]
  rw [hjoined, Store.root_of_unsolved hleft]

section

variable (h : M.Faithful table true) (hsize : M.right.size = M.left.size)
  (hsame : ∀ t : Ty TyVar, t.InRange M.left → M.Alike t t)

include h hsize hsame

/-- Stores that are paired crosswise have the same groups of joined
variables. -/
theorem Faithful.twins : M.left.Twins M.right := by
  have hroots {v : TyVar} (hv : v.index < M.left.size) :=
    h.rel_root_or_solved (hsame (.var v) fun w hw => by
      rwa [Ty.mem_vars_var.1 hw])
  refine ⟨hsize, (h.crossed rfl).joined, fun v hv => ?_, fun v hv => ?_,
    fun t ht => h.zonk_map (hsame t ht)⟩
  · rcases hroots hv with hrel | ⟨hleft, hright⟩
    · rw [h.solution?_left hrel, h.solution?_right hrel]
    · rw [hleft, hright]
  · rw [Store.classes?, Store.classes?]
    rcases hroots hv with hrel | ⟨hleft, hright⟩
    · obtain ⟨classes, hleft, hright⟩ := h.classes hrel
      rw [hleft, hright]
    · rw [Store.unsolvedClasses?_eq_none_of_solved hleft,
        Store.unsolvedClasses?_eq_none_of_solved hright]

theorem Faithful.sameIn (ht : M.Alike t t') :
    M.left.SameIn M.right t t' := by
  obtain ⟨hrange, hrange'⟩ := h.inRange ht
  have hboth := h.zonk_map ht
  have hfirst := h.zonk_map (hsame t hrange)
  have hsecond := h.zonk_map
    (hsame t' (hrange'.of_size_le (Nat.le_of_eq hsize)))
  exact ⟨hboth.2.symm.trans hsecond.2, hfirst.1.symm.trans hboth.1⟩

/-- Errors that say the same of crossed stores are mirror images. -/
theorem Faithful.mirrored {cause cause' : UnifyError.Cause}
    (hcause : M.Mirrors true cause cause') (path : List Nat) :
    Mirrored M.left M.right (.error ⟨cause, path⟩)
      (.error ⟨cause', path⟩) := by
  have hsameIn {t t' : Ty TyVar} (ht : M.Alike t t') :=
    h.sameIn hsize hsame ht
  cases hcause with
  | mismatch hnot _ _ => contradiction
  | turned _ hwant hgot => exact .mismatch path (hsameIn hwant) (hsameIn hgot)
  | constraint c hv ht => exact .constraint path c (hsameIn hv) (hsameIn ht)
  | unsatisfiable a b => exact .unsatisfiable path a b
  | circularity hv ht => exact .circularity path (hsameIn hv) (hsameIn ht)

end

end Pairing

/-! ### Both orders -/

namespace TypeState

variable {st : TypeState} {a b : Ty TyVar}

/-- Unification is symmetric: from one state it succeeds in both orders or
fails in both for the same reason, and the states it leaves behind differ only
in which of several joined variables stands for the others.  A set of classes
can only be made by the functions that build one, which keep it reduced; that
is why the order in which sets are joined does not matter. -/
theorem unify_symmetric
    (h : st.ArisesGuarded fun table set => set.Built table)
    (ha : a.InRange st.store) (hb : b.InRange st.store) :
    (st.unify a b).2.store.Twins (st.unify b a).2.store ∧
      Mirrored (st.unify a b).2.store (st.unify b a).2.store
        (st.unify a b).1 (st.unify b a).1 := by
  obtain ⟨ordered, wf⟩ := h.arises.wellFormed
  have hreduced : st.store.AllClasses (ClassSet.Reduced st.classes) :=
    (h.proper fun _ _ => id).mono fun _ => ClassSet.Proper.reduced
  have hruns := (Pairing.faithful_same wf hreduced).runs_unify ordered
    (Pairing.alike_same wf ha) (Pairing.alike_same wf hb)
  have hleft := imposes_unify ordered wf ha hb
  have hright := imposes_unify ordered wf hb ha
  change Pairing.Ends _ _ _ _
    ((HindleyMilner.unify st.classes a b).run st.store)
    ((HindleyMilner.unify st.classes b a).run st.store) at hruns
  rw [unify_eq, unify_eq]
  generalize (HindleyMilner.unify st.classes a b).run st.store = first
    at hruns hleft ⊢
  generalize (HindleyMilner.unify st.classes b a).run st.store = second
    at hruns hright ⊢
  cases hruns with
  | @ok _ _ s s' _ hfaithful hleads _ =>
      have hsize : s'.size = s.size :=
        hright.evolves.size_eq.trans hleft.evolves.size_eq.symm
      refine ⟨hfaithful.twins hsize fun t ht => ?_, .ok⟩
      exact hleads.alike_ty (Pairing.alike_same wf
        (ht.of_size_le (Nat.le_of_eq hleft.evolves.size_eq)))
  | @error _ _ path s s' _ hfaithful hleads hcause =>
      have hsize : s'.size = s.size :=
        hright.evolves.size_eq.trans hleft.evolves.size_eq.symm
      have hsame (t : Ty TyVar) (ht : t.InRange s) :=
        hleads.alike_ty (Pairing.alike_same wf
          (ht.of_size_le (Nat.le_of_eq hleft.evolves.size_eq)))
      exact ⟨hfaithful.twins hsize hsame,
        hfaithful.mirrored hsize hsame hcause path⟩
  | leftFault => exact absurd rfl (hleft.not_fault _)
  | rightFault => exact absurd rfl (hright.not_fault _)

def twoSession : TypeState :=
  let store := (Store.empty.fresh "a" (.ofList .empty [])).2
  ⟨.empty, (store.fresh "b" (.ofList .empty [])).2⟩

theorem twoSession_arises :
    twoSession.ArisesGuarded fun table set => set.Built table := by
  have hempty : (ClassSet.ofList .empty []).Built .empty := .ofList (by simp)
  have hfirst : GuardedAction (fun table set => set.Built table) empty _ :=
    .fresh "a" hempty
  exact .tail (.single hfirst) (.fresh "b" hempty)

/-- Both orders join the variables, each in its way, before they fail. -/
theorem unify_symmetric_pair :
    let want : Ty TyVar :=
      .parens [.var ⟨0⟩, .app (.con .list) (.var ⟨0⟩)]
    let got : Ty TyVar :=
      .parens [.var ⟨1⟩, .app (.con .arrow) (.var ⟨1⟩)]
    (twoSession.unify want got).1 =
        .error ⟨.mismatch (.app (.con .list) (.var ⟨1⟩))
          (.app (.con .arrow) (.var ⟨1⟩)), [1]⟩ ∧
      (twoSession.unify got want).1 =
        .error ⟨.mismatch (.app (.con .arrow) (.var ⟨0⟩))
          (.app (.con .list) (.var ⟨0⟩)), [1]⟩ ∧
      (twoSession.unify want got).2.store.Twins
        (twoSession.unify got want).2.store ∧
      Mirrored (twoSession.unify want got).2.store
        (twoSession.unify got want).2.store (twoSession.unify want got).1
        (twoSession.unify got want).1 :=
  ⟨rfl, rfl, unify_symmetric twoSession_arises (by decide) (by decide)⟩

end TypeState

end HindleyMilner

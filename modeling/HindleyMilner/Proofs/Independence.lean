import HindleyMilner.Proofs.Elsewhere
import HindleyMilner.Proofs.InferenceLockstep
import HindleyMilner.Proofs.MostGeneral

/-
Inference does not depend on history.  Whatever a session did in between, as
long as it left the variables of signatures and annotations alone, an
expression gets a type that is written the same, or fails in the same place
for the same reason.
-/

namespace HindleyMilner

/-! ### The two stores -/

namespace Setting

variable {S : Setting} {st : TypeState} {views : List View} {s : Store}
  {e : Exp} {t : Ty TyVar}

/-- The store that a session started from next to a later one.  The generic
variables are the same in both. -/
def pairing (S : Setting) (s : Store) : Pairing :=
  .onSame S.start s S.Generic

theorem State.faithful (h : S.State .empty s) :
    (S.pairing s).Faithful S.table false where
  left := S.wellFormed
  right := h.wellFormed
  classes := by
    rintro v _ ⟨rfl, hv⟩
    obtain ⟨classes, hclasses⟩ :=
      Store.exists_unsolvedClasses? hv.lt_size hv.solution?
    exact ⟨classes, hclasses, (h.unsolvedClasses?_generic hv).trans hclasses⟩
  unique := Pairing.biUnique_onSame
  crossed := fun hcrossed => absurd hcrossed Bool.false_ne_true

theorem State.alike (h : S.State .empty s)
    (ht : ∀ v ∈ (S.start.zonk t).vars, S.Generic v) :
    (S.pairing s).Alike t t := by
  rw [Pairing.Alike, pairing, Pairing.onSame, h.zonk_generic ht]
  exact .of_same fun v hv => ⟨rfl, ht v hv⟩

theorem State.knows (h : S.State .empty s)
    (hliterals : ∀ t ∈ e.parts.literals, S.start.freeVars t = [])
    (hschemes : ∀ scheme ∈ e.parts.schemes, scheme ∈ S.schemes) :
    (S.pairing s).Knows e.parts := by
  constructor
  · intro t ht
    apply h.alike
    intro v hv
    rw [← Store.mem_freeVars, hliterals t ht] at hv
    exact absurd hv List.not_mem_nil
  · intro scheme hscheme
    exact h.alike fun v hv => ⟨scheme, hschemes scheme hscheme, hv⟩

end Setting

/-! ### What a reader sees -/

namespace TypeState

/-- Whether a reader sees no difference between two inferences: both find
types that are written the same in all styles, or both fail in the same
expression with the same message. -/
inductive LooksAlike (st st' : TypeState) :
    EStateM.Result InferError (View × Store) (Ty TyVar) →
      EStateM.Result InferError (View × Store) (Ty TyVar) → Prop
  | ok {t t' : Ty TyVar} {view view' : View} {s s' : Store}
      (h : ∀ style, (st.withStore s).display style t =
        (st'.withStore s').display style t') :
      LooksAlike st st' (.ok t (view, s)) (.ok t' (view', s'))
  | error {err err' : InferError} {view view' : View} {s s' : Store}
      (hexp : err.exp = err'.exp)
      (hmessage : err.message (st.withStore s) =
        err'.message (st'.withStore s')) :
      LooksAlike st st' (.error err (view, s)) (.error err' (view', s'))

theorem looksAlike_of_outcomes {M : Pairing} {table : ClassTable}
    {st st' : TypeState} (hst : st.classes = table)
    (hst' : st'.classes = table)
    {first second : EStateM.Result InferError (View × Store) (Ty TyVar)}
    (h : M.Outcomes table (fun N t t' => N.Alike t t') first second) :
    LooksAlike st st' first second := by
  have hleft (s : Store) : st.withStore s = ⟨table, s⟩ := by
    rw [withStore, hst]
  have hright (s : Store) : st'.withStore s = ⟨table, s⟩ := by
    rw [withStore, hst']
  cases h with
  | ok hfaithful _ _ ht =>
      refine .ok fun style => ?_
      rw [hleft, hright]
      exact hfaithful.display_eq ht style
  | @unify e _ _ path _ _ _ _ _ hfaithful he hcause =>
      refine .error rfl ?_
      rw [hleft, hright]
      exact congrArg₂ (· ++ " in `" ++ · ++ "`")
        (hfaithful.message_eq hcause path) (hfaithful.toHaskell_eq e he)
  | unbound => exact .error rfl rfl

/-- Inference does not depend on history.  The types that are kept include the
signatures and annotations of an expression, and may be all signatures of an
environment.  After any session that left their variables alone, a reader sees
no difference between the inference of the expression and one in the state
that the session started from. -/
theorem infer_independent {st st' : TypeState} {views : List View}
    {kept : List (Ty TyVar)} {e : Exp} (h : st.Arises)
    (he : e.parts.InRange st.store)
    (hliterals : ∀ t ∈ e.parts.literals, st.store.freeVars t = [])
    (hkept : ∀ scheme ∈ e.parts.schemes, scheme ∈ kept)
    (hmore : Elsewhere kept st st' views) :
    LooksAlike st st' ((e.infer st.classes).run (.empty, st.store))
      ((e.infer st'.classes).run (.empty, st'.store)) := by
  obtain ⟨ordered, wf⟩ := h.wellFormed
  let S : Setting :=
    ⟨st.classes, st.store, e.parts.schemes, ordered, wf, he.schemes⟩
  obtain ⟨hclasses, hstate, -⟩ := S.meanwhile hkept hmore
  have hknows := hstate.knows hliterals fun _ hscheme => hscheme
  have hruns := hstate.faithful.infers_infer ordered
    (Pairing.views_empty _) hknows
  have hlooks : LooksAlike st st'
      ((e.infer st.classes).run (.empty, st.store))
      ((e.infer st.classes).run (.empty, st'.store)) :=
    looksAlike_of_outcomes rfl hclasses hruns
  have hsame : st'.classes = st.classes := hclasses
  rwa [hsame]

def minimumSignature : Ty TyVar :=
  .arrow (.list (.var ⟨0⟩)) (.var ⟨0⟩)

def minimumExp : Exp :=
  .apply ⟨2⟩ (.function ⟨0⟩ ⟨⟨"minimum", by decide⟩, minimumSignature⟩)
    (.hole ⟨1⟩)

def usedSession : TypeState :=
  listSession.withStore (finalState
    ((minimumExp.infer listSession.classes).run
      (.empty, listSession.store))).2

/-- `usedSession` after a variable was found to be unit, and could not be made
a list. -/
def busySession : TypeState :=
  ((usedSession.unify (.var ⟨1⟩) (.con .unit)).2.unify (.var ⟨1⟩)
    (.list (.con .unit))).2

theorem inRange_minimumExp : minimumExp.parts.InRange listSession.store where
  literals _ ht := nomatch ht
  schemes := by
    change ∀ t ∈ [minimumSignature], t.InRange listSession.store
    decide

theorem busySession_elsewhere :
    ∃ views,
      Elsewhere [minimumSignature] listSession busySession views := by
  have hstart : Elsewhere [minimumSignature] listSession listSession [] :=
    .start
  have hused := hstart.infer (Or.inr (View.avoids_empty _ _))
    inRange_minimumExp nofun
  have hunit : Elsewhere [minimumSignature] listSession
      (usedSession.unify (.var ⟨1⟩) (.con .unit)).2 _ :=
    hused.unify (by decide) (by decide) (by decide) (by decide)
  exact ⟨_, hunit.unify (by decide) (by decide) (by decide) (by decide)⟩

theorem infer_independent_minimum :
    ∃ now now', (minimumExp.infer listSession.classes).run
        (.empty, listSession.store) = .ok (.var ⟨4⟩) now ∧
      (minimumExp.infer busySession.classes).run
        (.empty, busySession.store) = .ok (.var ⟨7⟩) now' ∧
      LooksAlike listSession busySession (.ok (.var ⟨4⟩) now)
        (.ok (.var ⟨7⟩) now') := by
  obtain ⟨views, hmore⟩ := busySession_elsewhere
  exact ⟨_, _, rfl, rfl, infer_independent listSession_reachable.arises
    inRange_minimumExp nofun (fun _ hscheme => hscheme) hmore⟩

end TypeState

end HindleyMilner

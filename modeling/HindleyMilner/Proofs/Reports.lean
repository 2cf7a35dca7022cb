import HindleyMilner.Proofs.Retrace
import HindleyMilner.Proofs.TypePieces

/-
The errors that requirements report.  A class that is required of a type is
passed on to its arguments, so the type that is found to be no instance may lie
inside of the whole type.  The place of the error is that of the whole type all
the same.
-/

namespace HindleyMilner

namespace UnifyM

variable {A B : Type} {I : Store → Prop} {P : UnifyError → Prop}
  {Q : A → Prop}

/-- Whether an action that is run where `I` holds fails only with errors of a
kind. -/
def Reports (I : Store → Prop) (action : UnifyM A) (P : UnifyError → Prop) :
    Prop :=
  ∀ ⦃s e s'⦄, I s → action.run s = .error e s' → P e

theorem Reports.pure (a : A) : Reports I (pure a : UnifyM A) P :=
  fun _ _ _ _ hrun => by contradiction

/-- A sequence reports what its parts report. -/
theorem Reports.bind {action : UnifyM A} {f : A → UnifyM B}
    (h : Reports I action P) (hkeeps : Keeps I action Q)
    (hf : ∀ a, Q a → Reports I (f a) P) : Reports I (action >>= f) P := by
  intro s e s' hs hrun
  have hfirst := hkeeps hs
  rw [EStateM.run_bind] at hrun
  cases haction : action.run s with
  | error e₁ s₁ =>
      rw [haction] at hrun
      cases hrun
      exact h hs haction
  | ok a s₁ =>
      rw [haction] at hrun hfirst
      exact hf a hfirst.2 hfirst.1 hrun

theorem Reports.forM {f : B → UnifyM PUnit} (xs : List B)
    (hkeeps : ∀ x ∈ xs, Keeps I (f x) fun _ => True)
    (h : ∀ x ∈ xs, Reports I (f x) P) : Reports I (xs.forM f) P := by
  induction xs with
  | nil => exact .pure _
  | cons head tail ih =>
      rw [List.forall_mem_cons] at hkeeps h
      exact h.1.bind hkeeps.1 fun _ _ => ih hkeeps.2 h.2

end UnifyM

/-- Whether an error is one that a requirement on a type reports: at the place
of the type it names a part of it that is no variable, or two classes. -/
def UnifyError.OfRequirement (v : TyVar) (t : Ty TyVar) (e : UnifyError) :
    Prop :=
  e.path = [] ∧
    match e.cause with
    | .constraint w _ part =>
        w = v ∧ t.Contains part ∧ ∀ u, part ≠ .var u
    | .unsatisfiable _ _ => True
    | .fault _ => True
    | _ => False

/-- What a requirement on an argument reports is inside the type as well. -/
theorem UnifyError.OfRequirement.of_mem_spine {v : TyVar} {t arg : Ty TyVar}
    {e : UnifyError} (h : e.OfRequirement v arg) (harg : arg ∈ t.spine.2) :
    e.OfRequirement v t := by
  obtain ⟨hpath, hcause⟩ := h
  refine ⟨hpath, ?_⟩
  rcases e with ⟨cause, path⟩
  cases cause with
  | constraint w c part =>
      obtain ⟨hvar, hpart, hne⟩ := hcause
      exact ⟨hvar, hpart.of_mem_spine harg, hne⟩
  | unsatisfiable a b => trivial
  | fault fault => trivial
  | mismatch want got => exact hcause.elim
  | circularity w ty => exact hcause.elim

section

open UnifyM

variable {table : ClassTable} {s s' : Store} {v w : TyVar} {c : ClassId}
  {t : Ty TyVar} {classes : ClassSet}

theorem reports_constrain {I : Store → Prop} (w : TyVar) (c : ClassId) :
    Reports I (constrain table w c) (·.OfRequirement v t) := by
  intro s e s' _ hrun
  cases hclasses : s.unsolvedClasses? w with
  | none =>
      simp only [constrain, unsolvedClasses, EStateM.run_bind, EStateM.run_get,
        hclasses] at hrun
      cases hrun
      exact ⟨rfl, trivial⟩
  | some classes =>
      rw [constrain_run table hclasses, Store.constrained] at hrun
      split at hrun
      · contradiction
      · split at hrun
        · cases hrun
          exact ⟨rfl, trivial⟩
        · contradiction

/-- What is required of an argument is required of what is looked up for
it. -/
theorem reports_requireArg (t : Ty TyVar) (c : ClassId)
    {f : Ty TyVar → UnifyM Unit}
    (h : ∀ inner, (∀ u, s.zonk inner ≠ .var u) →
      Reports (s.Tightened table) (f inner)
        (·.OfRequirement v (s.zonk inner))) :
    Reports (s.Tightened table)
      (prune t >>= fun
        | .var w => constrain table w c
        | inner => f inner) (·.OfRequirement v (s.zonk t)) := by
  intro s₁ e s₂ hs₁ hrun
  have wf₁ := hs₁.steady.wellFormed
  have hpruned : s.Tightened table (s₁.prune t).2 :=
    hs₁.trans (wf₁.shortened_prune t).tightened
  have hzonk : s.zonk (s₁.resolve t) = s.zonk t := by
    rw [← hs₁.steady.zonk_eq, wf₁.zonk_resolve, hs₁.steady.zonk_eq]
  rw [bind_run_of_ok (prune_run wf₁ t)] at hrun
  split at hrun
  · exact reports_constrain _ c hpruned hrun
  · rename_i hvar
    rw [← hzonk]
    refine h _ (fun u hu => hvar u ?_) hpruned hrun
    rw [hzonk, ← hs₁.steady.zonk_eq] at hu
    exact wf₁.resolve_of_zonk_var hu

/-- A requirement on a type blames a part of the type or two classes, at the
place of the type. -/
theorem reports_requireWithin (ordered : table.Ordered) (wf : s.WellFormed)
    (v : TyVar) (depth : Nat) (c : ClassId) {t : Ty TyVar}
    (ht : ∀ u, s.zonk t ≠ .var u) :
    Reports (s.Tightened table) (requireWithin table v depth c t)
      (·.OfRequirement v (s.zonk t)) := by
  induction depth generalizing c t with
  | zero =>
      intro s₁ e s₂ _ hrun
      cases hrun
      exact ⟨rfl, trivial⟩
  | succ depth ih =>
      -- Nothing that is met on the way changes what the type stands for.
      intro s₁ e s₂ hs₁ hrun
      rw [requireWithin_run, hs₁.steady.zonk_eq,
        wf.spine_congr hs₁.steady.wellFormed hs₁.resolve_eq] at hrun
      have hwhole (h : (UnifyM.fail (.constraint v c (s.zonk t)) :
          UnifyM Unit).run s₁ = .error e s₂) :
          e.OfRequirement v (s.zonk t) := by
        cases h
        exact ⟨rfl, rfl, Ty.contains_self _, ht⟩
      cases hspine : s.spine t with
      | mk head args =>
          rw [hspine] at hrun
          cases head with
          | var w => exact hwhole hrun
          | app func arg => exact hwhole hrun
          | con con =>
              rw [requireSpine] at hrun
              split at hrun
              · refine Reports.forM args (fun arg _ => .forM _ fun d _ =>
                  tightens_requireArg ordered arg d
                    (tightens_requireWithin ordered v depth d))
                  (fun arg harg => ?_) hs₁ hrun
                have hmem : s.zonk arg ∈ (s.zonk t).spine.2 := by
                  rw [wf.zonk_spine, hspine]
                  exact List.mem_map_of_mem harg
                refine Reports.forM _ (fun d _ =>
                  tightens_requireArg ordered arg d
                    (tightens_requireWithin ordered v depth d))
                  fun d _ => ?_
                intro s₃ e₃ s₄ hs₃ hrun₃
                exact (reports_requireArg arg d (fun _ => ih d) hs₃
                  hrun₃).of_mem_spine hmem
              · exact hwhole hrun

theorem reports_requireAll (ordered : table.Ordered) (wf : s.WellFormed)
    (v : TyVar) (ht : ∀ u, s.zonk t ≠ .var u) (cs : List ClassId) :
    Reports (s.Tightened table) (cs.forM fun c => require table v c t)
      (·.OfRequirement v (s.zonk t)) := by
  refine Reports.forM cs (fun c _ => tightens_require ordered v c t) ?_
  intro c _ s₁ e s₂ hs₁ hrun
  rw [require, get_bind_run] at hrun
  exact reports_requireWithin ordered wf v _ c ht hs₁ hrun

end

end HindleyMilner

import HindleyMilner.Infer
import HindleyMilner.Proofs.Lockstep
import HindleyMilner.Proofs.Typing

/-
Types that are alike are written alike.  The text of a type names its
variables by where they appear in it, so it depends on the shape of the type
and on the classes of its variables, and on nothing else in the store.  The
same holds of errors and of expressions.
-/

namespace HindleyMilner

open Display

/-! ### Lists of paired variables -/

theorem flatMap_eq_of_forall₂ {A B C : Type} {rel : A → B → Prop}
    {as : List A} {bs : List B} {f : A → List C} {g : B → List C}
    (h : List.Forall₂ rel as bs) (hfg : ∀ a b, rel a b → f a = g b) :
    as.flatMap f = bs.flatMap g := by
  induction h with
  | nil => rfl
  | cons hab _ ih => rw [List.flatMap_cons, List.flatMap_cons, hfg _ _ hab, ih]

theorem forall₂_zipIdx {A B : Type} {rel : A → B → Prop} {as : List A}
    {bs : List B} (h : List.Forall₂ rel as bs) (start : Nat) :
    List.Forall₂ (fun p q => rel p.1 q.1 ∧ p.2 = q.2) (as.zipIdx start)
      (bs.zipIdx start) := by
  induction h generalizing start with
  | nil => exact .nil
  | cons hab _ ih => exact .cons ⟨hab, rfl⟩ (ih (start + 1))

namespace Pairing

variable {M : Pairing} {table : ClassTable} {crossed : Bool}
  {v v' : TyVar} {t t' : Ty TyVar} {vs vs' : List TyVar}

theorem Faithful.mem_iff (h : M.Faithful table crossed)
    (hvs : List.Forall₂ M.rel vs vs') (hv : M.rel v v') :
    v ∈ vs ↔ v' ∈ vs' := by
  induction hvs with
  | nil => simp
  | @cons w w' _ _ hw _ ih =>
      have hsame : v = w ↔ v' = w' :=
        ⟨fun heq => h.unique.2 (heq ▸ hv) hw,
          fun heq => h.unique.1 (heq ▸ hv) hw⟩
      rw [List.mem_cons, List.mem_cons, ih, hsame]

theorem Faithful.idxOf?_eq (h : M.Faithful table crossed)
    (hvs : List.Forall₂ M.rel vs vs') (hv : M.rel v v') :
    vs.idxOf? v = vs'.idxOf? v' := by
  induction hvs with
  | nil => rfl
  | @cons w w' _ _ hw _ ih =>
      have hsame : (w == v) = (w' == v') := by
        rw [Bool.eq_iff_iff, beq_iff_eq, beq_iff_eq]
        exact ⟨fun heq => h.unique.2 (heq ▸ hw) hv,
          fun heq => h.unique.1 (heq ▸ hw) hv⟩
      rw [List.idxOf?_cons, List.idxOf?_cons, ih, hsame]

/-- Variables that are paired are listed at the same places. -/
theorem Faithful.foldl_note (h : M.Faithful table crossed)
    {seen seen' : List TyVar} (hseen : List.Forall₂ M.rel seen seen')
    (hvs : List.Forall₂ M.rel vs vs') :
    List.Forall₂ M.rel (vs.foldl Store.note seen)
      (vs'.foldl Store.note seen') := by
  induction hvs generalizing seen seen' with
  | nil => exact hseen
  | @cons v v' _ _ hv _ ih =>
      apply ih
      rw [Store.note, Store.note]
      by_cases hmem : v ∈ seen
      · rw [if_pos hmem, if_pos ((h.mem_iff hseen hv).1 hmem)]
        exact hseen
      · rw [if_neg hmem, if_neg (mt (h.mem_iff hseen hv).2 hmem)]
        exact List.rel_append hseen (.cons hv .nil)

end Pairing

/-- The free variables of types are those of what the types stand for. -/
theorem Store.mem_foldl_addFreeVars {s : Store} {seen : List TyVar}
    {ts : List (Ty TyVar)} {v : TyVar} :
    v ∈ ts.foldl s.addFreeVars seen ↔
      v ∈ seen ∨ ∃ t ∈ ts, v ∈ (s.zonk t).vars := by
  induction ts generalizing seen with
  | nil => simp
  | cons head tail ih =>
      rw [List.foldl_cons, ih, addFreeVars_eq, mem_foldl_note]
      simp [or_assoc]

namespace Pairing

variable {M : Pairing} {table : ClassTable} {crossed : Bool}
  {v v' : TyVar} {t t' : Ty TyVar} {ts ts' : List (Ty TyVar)}
  {w w' : Writer}

theorem Faithful.foldl_addFreeVars (h : M.Faithful table crossed)
    (hts : List.Forall₂ M.Alike ts ts') {seen seen' : List TyVar}
    (hseen : List.Forall₂ M.rel seen seen') :
    List.Forall₂ M.rel (ts.foldl M.left.addFreeVars seen)
      (ts'.foldl M.right.addFreeVars seen') := by
  induction hts generalizing seen seen' with
  | nil => exact hseen
  | cons ht _ ih =>
      apply ih
      rw [Store.addFreeVars_eq, Store.addFreeVars_eq]
      exact h.foldl_note hseen ht.forall₂_vars

/-! ### Writing types -/

def leftState (M : Pairing) (table : ClassTable) : TypeState :=
  ⟨table, M.left⟩

def rightState (M : Pairing) (table : ClassTable) : TypeState :=
  ⟨table, M.right⟩

/-- Whether two writers name paired variables alike. -/
structure Writers (M : Pairing) (table : ClassTable) (w w' : Writer) :
    Prop where
  left : w.st = M.leftState table
  right : w'.st = M.rightState table
  vars : List.Forall₂ M.rel w.vars w'.vars
  inline : w.inline = w'.inline

/-- Writers for types that are alike give paired variables the same letters. -/
theorem Faithful.writers (h : M.Faithful table crossed)
    (hts : List.Forall₂ M.Alike ts ts') :
    M.Writers table (.ofTypes (M.leftState table) ts)
      (.ofTypes (M.rightState table) ts') :=
  ⟨rfl, rfl, h.foldl_addFreeVars hts .nil, rfl⟩

theorem Writers.classNames_eq (hw : M.Writers table w w')
    (h : M.Faithful table crossed) (hv : M.rel v v') :
    w.classNames v = w'.classNames v' := by
  obtain ⟨classes, hleft, hright⟩ := h.classes hv
  rw [Writer.classNames, Writer.classNames, hw.left, hw.right, leftState,
    rightState, Store.classes?, Store.classes?, Store.root_of_unsolved hleft,
    Store.root_of_unsolved hright, hleft, hright]

theorem Writers.var_eq (hw : M.Writers table w w')
    (h : M.Faithful table crossed) (hv : M.rel v v') (hmem : v ∈ w.vars)
    (place : Place) : w.var v place = w'.var v' place := by
  obtain ⟨position, hposition⟩ : ∃ position, w.vars.idxOf? v = some position :=
    by
      rw [← Option.isSome_iff_exists, List.isSome_idxOf?]
      exact hmem
  have hposition' := hposition
  rw [h.idxOf?_eq hw.vars hv] at hposition'
  rw [Writer.var, Writer.var, hposition, hposition',
    hw.classNames_eq h hv, hw.inline]

theorem Writers.tyApplied_eq (hw : M.Writers table w w')
    (h : M.Faithful table crossed) (ht : Ty.Alike M.rel t t')
    (hmem : ∀ v ∈ t.vars, v ∈ w.vars) (args : List (Place → String)) :
    w.tyApplied t args = w'.tyApplied t' args := by
  induction ht generalizing args with
  | var hv =>
      have hvar := hw.var_eq h hv (hmem _ (Ty.mem_vars_var.2 rfl))
      cases args with
      | nil => exact funext hvar
      | cons head tail =>
          exact congrArg (Writer.applied · (head :: tail)) (hvar .argument)
  | con name => rfl
  | app _ _ ihFunc ihArg =>
      have hfunc := ihFunc fun v hv => hmem v (Ty.mem_vars_app.2 (Or.inl hv))
      have harg := ihArg fun v hv => hmem v (Ty.mem_vars_app.2 (Or.inr hv))
      rw [Writer.tyApplied, Writer.tyApplied, harg, hfunc]

/-- Types that are alike are written the same, in every place. -/
theorem Writers.ty_eq (hw : M.Writers table w w')
    (h : M.Faithful table crossed) (ht : M.Alike t t')
    (hmem : ∀ v ∈ (M.left.zonk t).vars, v ∈ w.vars) (place : Place) :
    w.ty t place = w'.ty t' place := by
  rw [Writer.ty, Writer.ty, hw.left, hw.right]
  exact congrFun (hw.tyApplied_eq h ht hmem []) place

/-- Contexts are written the same. -/
theorem Faithful.context_eq (h : M.Faithful table crossed)
    (hw : M.Writers table w w') : w.context = w'.context := by
  rw [Writer.context, Writer.context]
  generalize hleft : w.vars.zipIdx.flatMap _ = left
  generalize hright : w'.vars.zipIdx.flatMap _ = right
  obtain rfl : left = right := by
    rw [← hleft, ← hright]
    refine flatMap_eq_of_forall₂ (forall₂_zipIdx hw.vars 0) ?_
    rintro ⟨v, position⟩ ⟨v', _⟩ ⟨hv, rfl⟩
    exact congrArg _ (hw.classNames_eq h hv)
  rfl

/-- Types that are alike are written alike in both styles. -/
theorem Faithful.display_eq (h : M.Faithful table crossed)
    (ht : M.Alike t t') (style : DisplayStyle) :
    (M.leftState table).display style t =
      (M.rightState table).display style t' := by
  have hw := h.writers (.cons ht .nil)
  have hmem : ∀ v ∈ (M.left.zonk t).vars,
      v ∈ (Writer.ofTypes (M.leftState table) [t]).vars := fun v hv =>
    Store.mem_foldl_addFreeVars.2 (Or.inr ⟨t, List.mem_cons_self, hv⟩)
  cases style with
  | inline => exact hw.ty_eq h ht hmem .whole
  | context =>
      have hplain : M.Writers table
          { Writer.ofTypes (M.leftState table) [t] with inline := false }
          { Writer.ofTypes (M.rightState table) [t'] with inline := false } :=
        ⟨hw.left, hw.right, hw.vars, rfl⟩
      exact congrArg₂ (· ++ ·) (h.context_eq hw) (hplain.ty_eq h ht hmem .whole)

/-! ### Errors and expressions -/

theorem Faithful.quoted_eq (h : M.Faithful table crossed)
    (hts : List.Forall₂ M.Alike ts ts') (hmem : t ∈ ts)
    (ht : M.Alike t t') :
    (Writer.ofTypes (M.leftState table) ts).quoted t =
      (Writer.ofTypes (M.rightState table) ts').quoted t' := by
  have hvars : ∀ v ∈ (M.left.zonk t).vars,
      v ∈ (Writer.ofTypes (M.leftState table) ts).vars := fun v hv =>
    Store.mem_foldl_addFreeVars.2 (Or.inr ⟨t, hmem, hv⟩)
  rw [Writer.quoted, Writer.quoted,
    (h.writers hts).ty_eq h ht hvars .whole]

/-- Causes that say the same of two stores have the same message. -/
theorem Faithful.cause_message_eq (h : M.Faithful table false)
    {cause cause' : UnifyError.Cause}
    (hcause : M.Mirrors false cause cause') :
    cause.message (M.leftState table) =
      cause'.message (M.rightState table) := by
  cases hcause with
  | @mismatch want want' got got' _ hwant hgot =>
      have hboth : List.Forall₂ M.Alike [want, got] [want', got'] :=
        .cons hwant (.cons hgot .nil)
      have hfirst := h.quoted_eq hboth (by simp) hwant
      have hsecond := h.quoted_eq hboth (by simp) hgot
      exact congrArg₂ (· ++ " and " ++ · ++ " are incompatible types")
        hfirst hsecond
  | turned hcrossed _ _ => contradiction
  | @constraint _ _ c t t' _ ht =>
      have hone : List.Forall₂ M.Alike [t] [t'] := .cons ht .nil
      have hquoted := h.quoted_eq hone (by simp) ht
      exact congrArg (· ++ " is not an instance of `" ++ table.nameOf c ++ "`")
        hquoted
  | unsatisfiable a b => rfl
  | @circularity v v' t t' hv ht =>
      have hboth : List.Forall₂ M.Alike [.var v, t] [.var v', t'] :=
        .cons hv (.cons ht .nil)
      have hfirst := h.quoted_eq hboth (by simp) hv
      have hsecond := h.quoted_eq hboth (by simp) ht
      exact congrArg₂ ("circular type: " ++ · ++ " occurs in " ++ ·) hfirst
        hsecond

theorem Faithful.message_eq (h : M.Faithful table false)
    {cause cause' : UnifyError.Cause} (hcause : M.Mirrors false cause cause')
    (path : List Nat) :
    UnifyError.message (M.leftState table) ⟨cause, path⟩ =
      UnifyError.message (M.rightState table) ⟨cause', path⟩ := by
  rw [UnifyError.message, UnifyError.message, h.cause_message_eq hcause]

/-- Whether the types in a part of an expression are alike in both stores. -/
def Knows (M : Pairing) (p : Parts) : Prop :=
  (∀ t ∈ p.literals, M.Alike t t) ∧ ∀ t ∈ p.schemes, M.Alike t t

theorem knows_append {p q : Parts} :
    M.Knows (p ++ q) ↔ M.Knows p ∧ M.Knows q := by
  simp only [Knows, Parts.literals_append, Parts.schemes_append,
    List.forall_mem_append]
  exact and_and_and_comm

mutual

/-- The source of an expression is the same in both stores. -/
theorem Faithful.toHaskell_eq (h : M.Faithful table crossed) :
    ∀ e : Exp, M.Knows e.parts →
      e.toHaskell (M.leftState table) = e.toHaskell (M.rightState table)
  | .value _ _ _, _ => rfl
  | .localVar _ _, _ => rfl
  | .function _ _, _ => rfl
  | .hole _, _ => rfl
  | .apply id func arg, he => by
      rw [Exp.parts, knows_append, knows_append] at he
      rw [Exp.toHaskell, Exp.toHaskell, h.toHaskell_eq func he.2.1,
        h.toHaskell_eq arg he.2.2]
  | .lambda id params body, he => by
      rw [Exp.parts, knows_append, knows_append] at he
      rw [Exp.toHaskell, Exp.toHaskell, h.toHaskell_eq body he.2.2]
  | .letIn id bindings body, he => by
      rw [Exp.parts, knows_append, knows_append] at he
      rw [Exp.toHaskell, Exp.toHaskell, h.toHaskell_bindings_eq bindings he.2.1,
        h.toHaskell_eq body he.2.2]
  | .annotated id inner declared, he => by
      rw [Exp.parts, knows_append] at he
      have ht : M.Alike declared declared := he.1.2 declared (by simp)
      rw [Exp.toHaskell, Exp.toHaskell, h.toHaskell_eq inner he.2,
        h.display_eq ht]

theorem Faithful.toHaskell_bindings_eq (h : M.Faithful table crossed) :
    ∀ bindings : Bindings, M.Knows bindings.parts →
      bindings.toHaskell (M.leftState table) =
        bindings.toHaskell (M.rightState table)
  | .nil, _ => rfl
  | .cons binder bound rest, he => by
      rw [Bindings.parts, knows_append, knows_append] at he
      rw [Bindings.toHaskell, Bindings.toHaskell, h.toHaskell_eq bound he.1,
        h.toHaskell_bindings_eq rest he.2.2]

end

end Pairing

end HindleyMilner

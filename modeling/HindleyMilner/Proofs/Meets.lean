import HindleyMilner.Proofs.Superclass
import HindleyMilner.Proofs.TypeShape
import Mathlib.Tactic.ByContra

/-
Types as instances of classes.  A constructor with arguments meets a class if
it is an instance and the arguments meet what the instance asks of them.  What
a variable meets is left open: nothing is left open for types without
variables, and the classes of a store decide for its unsolved variables.
-/

namespace HindleyMilner

abbrev GroundTy := Ty Empty

namespace Ty

variable {V W : Type}

def conHead? : Ty V → Option Name
  | .var _ => none
  | .con name => some name
  | .app func _ => func.conHead?

theorem conHead?_map (f : V → W) (t : Ty V) :
    (t.map f).conHead? = t.conHead? := by
  induction t with
  | var v => rfl
  | con name => rfl
  | app func arg ih _ => exact ih

/-- Whether a type is an instance of a class, when it is known of which
classes its variables are.  The arguments of an instance must meet what the
table asks of them; an application of a variable is an instance of nothing. -/
def Meets (table : ClassTable) (holds : V → ClassId → Prop) :
    Ty V → ClassId → Prop
  | .var v, c => holds v c
  | .con name, c => table.hasInstance c name = true
  | .app func arg, c =>
      match func.conHead? with
      | none => False
      | some name =>
          func.Meets table holds c ∧
            ∀ d ∈ (table.argClasses c name).members, arg.Meets table holds d

section

variable {table : ClassTable} {holds : V → ClassId → Prop} {t : Ty V}
  {c d : ClassId} {name : Name}

theorem meets_app_iff {func arg : Ty V} (hhead : func.conHead? = some name) :
    (app func arg).Meets table holds c ↔ func.Meets table holds c ∧
      ∀ d ∈ (table.argClasses c name).members, arg.Meets table holds d := by
  simp only [Meets, hhead]

/-- A constructor applied to arguments meets a class exactly if it is an
instance and every argument meets all that the class asks of arguments. -/
theorem meets_applyTo_con_iff (args : List (Ty V)) :
    (applyTo (con name) args).Meets table holds c ↔
      table.hasInstance c name = true ∧
        ∀ arg ∈ args, ∀ d ∈ (table.argClasses c name).members,
          arg.Meets table holds d := by
  have hgeneral : ∀ (head : Ty V) (args : List (Ty V)),
      head.conHead? = some name →
      ((applyTo head args).Meets table holds c ↔
        head.Meets table holds c ∧
          ∀ arg ∈ args, ∀ d ∈ (table.argClasses c name).members,
            arg.Meets table holds d) := by
    intro head args
    induction args generalizing head with
    | nil => simp [applyTo]
    | cons arg args ih =>
        intro hhead
        rw [show applyTo head (arg :: args) = applyTo (app head arg) args from
          rfl, ih (app head arg) hhead, meets_app_iff hhead]
        simp only [List.forall_mem_cons, and_assoc]
  exact hgeneral (con name) args rfl

theorem meets_map_iff {holds : W → ClassId → Prop} (f : V → W) :
    (t.map f).Meets table holds c ↔
      t.Meets table (fun v => holds (f v)) c := by
  induction t generalizing c with
  | var v => exact Iff.rfl
  | con name => exact Iff.rfl
  | app func arg ihFunc ihArg =>
      simp only [map, Meets, conHead?_map, ihFunc, ihArg]

theorem hasInstance_of_meets (h : t.Meets table holds c)
    (hhead : t.conHead? = some name) : table.hasInstance c name = true := by
  induction t with
  | var v => simp [conHead?] at hhead
  | con other =>
      obtain rfl := Option.some.inj hhead
      exact h
  | app func arg ih _ =>
      have hfunc : func.conHead? = some name := hhead
      exact ih ((meets_app_iff hfunc).1 h).1 hfunc

end

end Ty

namespace ClassTable

variable {table : ClassTable} {c d : ClassId} {name : Name}

theorem hasInstance_iff : table.hasInstance c name = true ↔
    name ∈ table.instances c ∧
      ∀ d ∈ table.ancestors c, name ∈ table.instances d := by
  simp [hasInstance]

/-- An instance of a class is an instance of its superclasses. -/
theorem hasInstance_upward (ordered : table.Ordered) (name : Name) :
    table.Upward fun c => table.hasInstance c name = true := by
  intro c d hc hdc
  rw [hasInstance_iff] at hc ⊢
  have hmem : d ∈ table.ancestors c := by simpa [isAncestor] using hdc
  refine ⟨hc.2 d hmem, fun e hed => hc.2 e ?_⟩
  rw [mem_ancestors ordered] at hmem hed ⊢
  exact hmem.trans hed

/-- What passes to superclasses and holds of all that a class asks of
arguments holds of all that a superclass asks of them. -/
theorem forall_argClasses_upward (ordered : table.Ordered) {p : ClassId → Prop}
    (upward : table.Upward p) (hdc : table.isAncestor d c = true)
    (h : ∀ e ∈ (table.argClasses c name).members, p e) :
    ∀ e ∈ (table.argClasses d name).members, p e := by
  rw [argClasses, ClassSet.forall_mem_ofList_iff upward] at h ⊢
  intro e he
  apply h
  rw [List.mem_filter] at he ⊢
  refine ⟨List.mem_cons_of_mem c ?_, he.2⟩
  have hmem : d ∈ table.ancestors c := by simpa [isAncestor] using hdc
  rcases List.mem_cons.1 he.1 with rfl | hed
  · exact hmem
  · rw [mem_ancestors ordered] at hmem hed ⊢
    exact hmem.trans hed

end ClassTable

namespace Ty

variable {V : Type} {table : ClassTable} {holds : V → ClassId → Prop}

/-- A type that meets a class meets its superclasses, if its variables do. -/
theorem meets_upward (ordered : table.Ordered)
    (holds_upward : ∀ v, table.Upward (holds v)) (t : Ty V) :
    table.Upward (t.Meets table holds) := by
  induction t with
  | var v => exact holds_upward v
  | con name => exact ClassTable.hasInstance_upward ordered name
  | app func arg ihFunc ihArg =>
      intro c d hc hdc
      cases hhead : func.conHead? with
      | none => simp [Meets, hhead] at hc
      | some name =>
          rw [meets_app_iff hhead] at hc ⊢
          exact ⟨ihFunc hc.1 hdc,
            ClassTable.forall_argClasses_upward ordered ihArg hdc hc.2⟩

end Ty

namespace ClassTable

variable {table : ClassTable} {set : ClassSet} {a b : ClassId} {name : Name}

/-- A reported conflict is real: no constructor is an instance of all classes
of the set. -/
theorem exists_not_hasInstance_of_conflict?
    (h : table.conflict? set = some (a, b)) (name : Name) :
    ∃ c ∈ set.members, table.hasInstance c name = false := by
  unfold conflict? at h
  split at h
  · simp at h
  · rename_i first rest hmembers
    split at h
    · simp at h
    · rename_i hany
      by_contra hall
      simp only [not_exists, not_and, Bool.not_eq_false] at hall
      apply hany
      rw [hmembers] at hall
      simp only [List.any_eq_true, List.all_eq_true]
      exact ⟨name,
        mem_candidates.2 (by simpa using hall first List.mem_cons_self),
        fun c hc => by simpa using hall c (List.mem_cons_of_mem first hc)⟩

/-- No type with a constructor at its head meets all classes of a conflict. -/
theorem not_forall_meets_of_conflict? {V : Type}
    {holds : V → ClassId → Prop} {t : Ty V}
    (h : table.conflict? set = some (a, b)) (hhead : t.conHead? = some name) :
    ¬ ∀ c ∈ set.members, t.Meets table holds c := by
  intro hall
  obtain ⟨c, hc, hnot⟩ := exists_not_hasInstance_of_conflict? h name
  have hinstance := Ty.hasInstance_of_meets (hall c hc) hhead
  rw [hnot] at hinstance
  contradiction

/-- A type that meets all classes of a conflict is a variable. -/
theorem eq_var_of_conflict? {V : Type} {holds : V → ClassId → Prop}
    {t : Ty V} {pair : ClassId × ClassId}
    (h : table.conflict? set = some pair)
    (hall : ∀ c ∈ set.members, t.Meets table holds c) : ∃ x, t = .var x := by
  cases t with
  | var x => exact ⟨x, rfl⟩
  | con name => exact absurd hall (not_forall_meets_of_conflict? h rfl)
  | app func arg =>
      cases hhead : func.conHead? with
      | some name => exact absurd hall (not_forall_meets_of_conflict? h hhead)
      | none =>
          obtain ⟨c, hc, -⟩ := exists_not_hasInstance_of_conflict? h .unit
          have hmeets := hall c hc
          simp only [Ty.Meets, hhead] at hmeets

end ClassTable

end HindleyMilner

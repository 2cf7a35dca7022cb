import HindleyMilner.Ty
import Mathlib.Data.List.TakeWhile

/-
Shapes of types: which variables a type has, how high it is, and what its
spine is, before and after its variables are replaced.
-/

namespace HindleyMilner

/-! ### Names of tuples -/

namespace Name

theorem text_injective {name other : Name} (h : name.text = other.text) :
    name = other := by
  cases name
  cases other
  simpa using h

/-- The name of a tuple is one comma less than it has components, in
parentheses. -/
theorem toList_text_tuple (more : Nat) :
    (tuple (more + 2)).text.toList =
      '(' :: (List.replicate (more + 1) ',' ++ [')']) := by
  simp [tuple]

/-- The number of components can be read off the name of a tuple. -/
theorem tupleArity?_tuple (more : Nat) :
    (tuple (more + 2)).tupleArity? = some (more + 2) := by
  rw [tupleArity?, toList_text_tuple]
  simp

/-- A name that spells no tuple is not the name of one. -/
theorem tuple_ne {name : Name} (h : name.tupleArity? = none) (more : Nat) :
    tuple (more + 2) ≠ name := by
  intro heq
  rw [← heq, tupleArity?_tuple] at h
  contradiction

/-- Only names of tuples have a number of components. -/
theorem eq_tuple_of_tupleArity? {name : Name} {n : Nat}
    (h : name.tupleArity? = some n) :
    ∃ more, n = more + 2 ∧ name = tuple (more + 2) := by
  unfold tupleArity? at h
  split at h
  · rename_i rest htext
    simp only [Option.ite_none_right_eq_some, Option.some.injEq] at h
    obtain ⟨⟨hcommas, hclose⟩, rfl⟩ := h
    have hreplicate : rest.takeWhile (· == ',') =
        List.replicate (rest.takeWhile (· == ',')).length ',' := by
      refine List.eq_replicate_iff.2 ⟨rfl, fun c hc => ?_⟩
      simpa using List.mem_takeWhile_imp hc
    obtain ⟨more, hmore⟩ := Nat.exists_eq_succ_of_ne_zero
      (mt List.length_eq_zero_iff.1 hcommas)
    refine ⟨more, by rw [hmore], text_injective (String.toList_injective ?_)⟩
    rw [htext, toList_text_tuple, ← Nat.succ_eq_add_one more, ← hmore,
      ← hreplicate, ← hclose, List.takeWhile_append_dropWhile]
  · contradiction

end Name

namespace Ty

variable {V W : Type} {t : Ty V} {v : V} {f g : V → Ty W}

/-! ### Variables -/

@[simp] theorem mem_vars_var {w : V} : w ∈ (var v).vars ↔ w = v := by
  simp [vars]

@[simp] theorem vars_con (name : Name) : (con name : Ty V).vars = [] := rfl

@[simp] theorem mem_vars_app {func arg : Ty V} :
    v ∈ (app func arg).vars ↔ v ∈ func.vars ∨ v ∈ arg.vars := by
  simp [vars]

theorem mem_vars_arrow {param result : Ty V} :
    v ∈ (arrow param result).vars ↔ v ∈ param.vars ∨ v ∈ result.vars := by
  simp [arrow]

theorem mem_vars_arrows {params : List (Ty V)} {result : Ty V} :
    v ∈ (arrows params result).vars ↔
      (∃ param ∈ params, v ∈ param.vars) ∨ v ∈ result.vars := by
  induction params with
  | nil => simp [arrows]
  | cons head tail ih =>
      rw [arrows, List.foldr_cons, ← arrows, mem_vars_arrow, ih]
      simp [or_assoc]

theorem mem_vars_bind {w : W} :
    w ∈ (t.bind f).vars ↔ ∃ v ∈ t.vars, w ∈ (f v).vars := by
  induction t with
  | var v => simp [bind]
  | con name => simp [bind]
  | app func arg ihFunc ihArg =>
      simp only [bind, mem_vars_app, ihFunc, ihArg, or_and_right, exists_or]

theorem mem_vars_map {w : W} {f : V → W} :
    w ∈ (t.map f).vars ↔ ∃ v ∈ t.vars, w = f v := by
  rw [map_eq_bind, mem_vars_bind]
  simp only [mem_vars_var]

theorem vars_map (t : Ty V) (f : V → W) : (t.map f).vars = t.vars.map f := by
  induction t with
  | var v => rfl
  | con name => rfl
  | app func arg ihFunc ihArg => simp [map, vars, ihFunc, ihArg]

theorem map_map {X : Type} (t : Ty V) (f : V → W) (g : W → X) :
    (t.map f).map g = t.map fun v => g (f v) := by
  rw [map_eq_bind, map_eq_bind, map_eq_bind, bind_bind]
  rfl

/-- Only the values of the variables that occur matter. -/
theorem bind_congr (h : ∀ v ∈ t.vars, f v = g v) : t.bind f = t.bind g := by
  induction t with
  | var v => exact h v (mem_vars_var.2 rfl)
  | con name => rfl
  | app func arg ihFunc ihArg =>
      rw [bind, bind, ihFunc fun v hv => h v (mem_vars_app.2 (Or.inl hv)),
        ihArg fun v hv => h v (mem_vars_app.2 (Or.inr hv))]

theorem anyVar_eq_true_iff {p : V → Bool} :
    t.anyVar p = true ↔ ∃ v ∈ t.vars, p v = true := by
  induction t with
  | var v => simp [anyVar, vars]
  | con name => simp [anyVar, vars]
  | app func arg ihFunc ihArg =>
      simp only [anyVar, Bool.or_eq_true, ihFunc, ihArg, mem_vars_app,
        or_and_right, exists_or]

theorem anyVar_bind (p : W → Bool) :
    (t.bind f).anyVar p = t.anyVar fun v => (f v).anyVar p := by
  induction t with
  | var v => rfl
  | con name => rfl
  | app func arg ihFunc ihArg => simp only [bind, anyVar, ihFunc, ihArg]

theorem foldVars_bind {A : Type} (step : A → W → A) (acc : A) :
    (t.bind f).foldVars step acc =
      t.foldVars (fun acc v => (f v).foldVars step acc) acc := by
  induction t generalizing acc with
  | var v => rfl
  | con name => rfl
  | app func arg ihFunc ihArg => simp only [bind, foldVars, ihFunc, ihArg]

/-- Visiting the variables is going through their list. -/
theorem foldVars_eq_foldl {A : Type} (step : A → V → A) (acc : A) :
    t.foldVars step acc = t.vars.foldl step acc := by
  induction t generalizing acc with
  | var v => rfl
  | con name => rfl
  | app func arg ihFunc ihArg =>
      simp only [foldVars, vars, List.foldl_append, ihFunc, ihArg]

/-! ### Heights -/

/-- Putting types in for variables raises a type by at most their height. -/
theorem height_bind_le {n : Nat} (h : ∀ v ∈ t.vars, (f v).height ≤ n) :
    (t.bind f).height ≤ t.height + n := by
  induction t with
  | var v => simpa [bind, height] using h v (mem_vars_var.2 rfl)
  | con name => simp [bind, height]
  | app func arg ihFunc ihArg =>
      have hfunc := ihFunc fun v hv => h v (mem_vars_app.2 (Or.inl hv))
      have harg := ihArg fun v hv => h v (mem_vars_app.2 (Or.inr hv))
      simp only [bind, height]
      omega

theorem height_le_height_bind (h : v ∈ t.vars) :
    (f v).height ≤ (t.bind f).height := by
  induction t with
  | var w =>
      rw [mem_vars_var.1 h]
      exact Nat.le_refl _
  | con name => simp at h
  | app func arg ihFunc ihArg =>
      simp only [bind, height]
      rcases mem_vars_app.1 h with hfunc | harg
      · have := ihFunc hfunc
        omega
      · have := ihArg harg
        omega

/-- A value is lower than a type around it, so no variable has the value of a
type that contains it. -/
theorem ne_bind_app {func arg : Ty V} (h : v ∈ (app func arg).vars) :
    f v ≠ (app func arg).bind f := by
  intro heq
  have hheight := congrArg height heq
  simp only [bind, height] at hheight
  rcases mem_vars_app.1 h with hfunc | harg
  · have := height_le_height_bind (f := f) hfunc
    omega
  · have := height_le_height_bind (f := f) harg
    omega

/-! ### Spines -/

/-- Whether the type is applied to nothing itself. -/
def IsAtom : Ty V → Prop
  | .app _ _ => False
  | _ => True

/-- The head of a spine is never an application. -/
theorem isAtom_spineOnto (t : Ty V) (args : List (Ty V)) :
    (t.spineOnto args).1.IsAtom := by
  induction t generalizing args with
  | var v => trivial
  | con name => trivial
  | app func arg ihFunc _ => exact ihFunc (arg :: args)

theorem mem_vars_of_spineOnto {args : List (Ty V)}
    (h : (t.spineOnto args).1 = .var v) : v ∈ t.vars := by
  induction t generalizing args with
  | var w => exact mem_vars_var.2 (var.inj h).symm
  | con name => simp [spineOnto] at h
  | app func arg ihFunc _ => exact mem_vars_app.2 (Or.inl (ihFunc h))

/-- Unwinding a type loses nothing. -/
theorem applyTo_spineOnto (t : Ty V) (args : List (Ty V)) :
    applyTo (t.spineOnto args).1 (t.spineOnto args).2 = applyTo t args := by
  induction t generalizing args with
  | var v => rfl
  | con name => rfl
  | app func arg ihFunc _ => exact ihFunc (arg :: args)

theorem spineOnto_of_isAtom {head : Ty V} (hhead : head.IsAtom)
    (args : List (Ty V)) : head.spineOnto args = (head, args) := by
  cases head with
  | var v => rfl
  | con name => rfl
  | app func arg => exact hhead.elim

theorem spineOnto_applyTo (head : Ty V) (args more : List (Ty V)) :
    (applyTo head args).spineOnto more = head.spineOnto (args ++ more) := by
  induction args generalizing head with
  | nil => rfl
  | cons arg args ih => exact ih (app head arg)

/-- What was applied to an atom is what its spine has. -/
theorem spine_applyTo {head : Ty V} (hhead : head.IsAtom)
    (args : List (Ty V)) : (applyTo head args).spine = (head, args) := by
  rw [spine, spineOnto_applyTo, List.append_nil, spineOnto_of_isAtom hhead]

@[simp] theorem isAtom_con (name : Name) : (con name : Ty V).IsAtom := trivial

@[simp] theorem isAtom_var (v : V) : (var v).IsAtom := trivial

/-- Applications of constructors are equal only if the constructors and all
arguments are. -/
theorem applyTo_con_inj {c d : Name} {args more : List (Ty V)}
    (h : applyTo (con c) args = applyTo (con d) more) :
    c = d ∧ args = more := by
  have hspine := congrArg spine h
  rw [spine_applyTo (isAtom_con c), spine_applyTo (isAtom_con d)] at hspine
  simpa using hspine

theorem bind_applyTo (head : Ty V) (args : List (Ty V)) (f : V → Ty W) :
    (applyTo head args).bind f =
      applyTo (head.bind f) (args.map (·.bind f)) := by
  induction args generalizing head with
  | nil => rfl
  | cons arg args ih => exact ih (app head arg)

/-- A type keeps its arguments when its variables are replaced, unless its head
is a variable that becomes an application. -/
theorem spine_bind (hhead : (t.spine.1.bind f).IsAtom) :
    (t.bind f).spine = (t.spine.1.bind f, t.spine.2.map (·.bind f)) := by
  have hbind := bind_applyTo t.spine.1 t.spine.2 f
  rw [applyTo_spine] at hbind
  rw [hbind]
  exact spine_applyTo hhead _

/-- Renaming variables renames them in the head and in the arguments. -/
theorem spine_map (t : Ty V) (f : V → W) :
    (t.map f).spine = (t.spine.1.map f, t.spine.2.map (·.map f)) := by
  induction t with
  | var v => rfl
  | con name => rfl
  | app func arg ihFunc _ =>
      rw [map, spine_app, ihFunc, spine_app, List.map_append]
      rfl

theorem bind_arrows (params : List (Ty V)) (result : Ty V) (f : V → Ty W) :
    (arrows params result).bind f =
      arrows (params.map (·.bind f)) (result.bind f) := by
  induction params with
  | nil => rfl
  | cons head tail ih => exact congrArg (arrow (head.bind f)) ih

theorem mem_vars_applyTo {head : Ty V} {args : List (Ty V)} :
    v ∈ (applyTo head args).vars ↔
      v ∈ head.vars ∨ ∃ arg ∈ args, v ∈ arg.vars := by
  induction args generalizing head with
  | nil => simp [applyTo]
  | cons arg args ih =>
      rw [applyTo, List.foldl_cons]
      exact ih.trans (by simp [or_assoc])

theorem height_le_height_applyTo (head : Ty V) (args : List (Ty V)) :
    head.height ≤ (applyTo head args).height := by
  induction args generalizing head with
  | nil => exact Nat.le_refl _
  | cons arg args ih =>
      have happ : head.height ≤ (app head arg).height := by
        simp only [height]
        omega
      exact Nat.le_trans happ (ih (app head arg))

/-- Every argument is lower than the application, which is what walks into types
recurse on. -/
theorem height_lt_height_applyTo {head arg : Ty V} {args : List (Ty V)}
    (h : arg ∈ args) : arg.height < (applyTo head args).height := by
  induction args generalizing head with
  | nil => simp at h
  | cons first args ih =>
      rcases List.mem_cons.1 h with rfl | htail
      · have happ : arg.height < (app head arg).height := by
          simp only [height]
          omega
        exact Nat.lt_of_lt_of_le happ (height_le_height_applyTo _ args)
      · exact ih htail

end Ty

end HindleyMilner

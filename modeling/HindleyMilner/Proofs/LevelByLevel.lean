import HindleyMilner.Display
import HindleyMilner.Proofs.LookingThrough
import HindleyMilner.Proofs.ScopeUse
import HindleyMilner.Proofs.SecondRun

/-
Instantiating and writing a type level by level.  The type is not looked
through as a whole first; each of its parts is looked up when it is come to, as
a run on a machine would do it.  The copies and the texts are the same, and the
store that is left behind has its chains shortened and looks the same.
-/

namespace HindleyMilner

variable {s s' : Store} {t : Ty TyVar} {v : TyVar}
  {base : String} {classes : ClassSet} {fuel : Nat}

/-! ### Instantiation -/

namespace Scope

def prune (t : Ty TyVar) : StateT (Scope × Store) Option (Ty TyVar) :=
  fun (scope, s) =>
    let (top, s) := s.prune t
    some (top, scope, s)

/-- The copy of an unsolved variable.  A solved variable has none. -/
def copyUnsolved (v : TyVar) : StateT (Scope × Store) Option TyVar :=
  fun (scope, s) =>
    if (scope.copies.lookup v).isSome ∨ s.isUnsolved v = true then
      some ((copy v).run (scope, s))
    else none

/-- The type with every unsolved variable replaced by its copy, one level after
the other. -/
def copyLevels : Nat → Ty TyVar → StateT (Scope × Store) Option (Ty TyVar)
  | 0, _ => fun _ => none
  | fuel + 1, t => do
      match ← prune t with
      | .var v => return .var (← copyUnsolved v)
      | .con name => return .con name
      | .app func arg => do
          let func ← copyLevels fuel func
          let arg ← copyLevels fuel arg
          return .app func arg

/-- The type with every unsolved variable replaced by its copy; a type without
unsolved variables as it is. -/
def instantiateLevels (fuel : Nat) (t : Ty TyVar) :
    StateT (Scope × Store) Option (Ty TyVar) :=
  fun (scope, s) =>
    if s.freeVars t = [] then some (t, scope, s)
    else (copyLevels fuel t).run (scope, s)

end Scope

namespace Store

theorem WellFormed.root_fresh (wf : s.WellFormed) (v : TyVar) :
    (s.fresh base classes).2.root v = s.root v :=
  wf.root_congr (wf.fresh base classes)
    (fun a b => by rw [Links, solution?_fresh, Links]) v

/-- A new variable changes nothing about what types stand for: a variable that
does not exist yet stands for itself already. -/
theorem WellFormed.zonk_fresh (wf : s.WellFormed) (t : Ty TyVar) :
    (s.fresh base classes).2.zonk t = s.zonk t := by
  apply (extends_fresh wf base classes).zonk_eq
  intro v hv
  rw [solution?_fresh, wf.solution?_of_mem_zonk hv]

theorem WellFormed.resolve_fresh (wf : s.WellFormed) (t : Ty TyVar) :
    (s.fresh base classes).2.resolve t = s.resolve t :=
  resolve_congr wf.root_fresh (fun _ => solution?_fresh _) t

/-- Whether a store is another with chains shortened, down to the names that
its variables were created with. -/
structure Recalls (s s' : Store) : Prop where
  shortened : s.Shortened s'
  baseOf_eq : ∀ v, s'.baseOf v = s.baseOf v

theorem Recalls.refl (wf : s.WellFormed) : s.Recalls s :=
  ⟨.refl wf, fun _ => rfl⟩

theorem Recalls.prune (h : s.Recalls s') (t : Ty TyVar) :
    s.Recalls (s'.prune t).2 where
  shortened :=
    h.shortened.trans (h.shortened.steady.wellFormed.shortened_prune t)
  baseOf_eq v := (carries_baseOf v _).prune t (h.baseOf_eq v)

/-- The same variable can be added on both sides. -/
theorem Recalls.fresh (h : s.Recalls s') (wf : s.WellFormed) :
    (s.fresh base classes).2.Recalls (s'.fresh base classes).2 := by
  have hsteady := h.shortened.steady
  have wf' := hsteady.wellFormed
  have hclasses (v : TyVar) :
      (s'.fresh base classes).2.unsolvedClasses? v =
        (s.fresh base classes).2.unsolvedClasses? v := by
    rw [unsolvedClasses?_fresh, unsolvedClasses?_fresh, hsteady.size_eq,
      h.shortened.unsolvedClasses?_eq]
  refine ⟨⟨⟨wf'.fresh base classes, ?_, fun v => ?_, fun v => ?_,
    fun t => ?_⟩, fun t => ?_, hclasses⟩, fun v => ?_⟩
  · rw [size_fresh, size_fresh, hsteady.size_eq]
  · rw [isUnsolved, isUnsolved, hclasses]
  · rw [wf'.root_fresh, wf.root_fresh, hsteady.root_eq]
  · rw [wf'.zonk_fresh, wf.zonk_fresh, hsteady.zonk_eq]
  · rw [wf'.resolve_fresh, wf.resolve_fresh, h.shortened.resolve_eq]
  · by_cases hv : v.index = s.size
    · obtain rfl : v = ⟨s.size⟩ := by rw [← hv]
      rw [baseOf_fresh_self, ← hsteady.size_eq, baseOf_fresh_self]
    · have hv' : v.index ≠ s'.size := by rwa [hsteady.size_eq]
      rw [baseOf_fresh hv, baseOf_fresh hv', h.baseOf_eq]

end Store

namespace Scope

theorem run_bind_of_some {A B S : Type} {f : StateT S Option A}
    {g : A → StateT S Option B} {now next : S} {a : A}
    (h : f.run now = some (a, next)) :
    (f >>= g).run now = (g a).run next := by
  rw [StateT.run_bind, h]
  rfl

/-- Looking up a type finds the same in a store whose chains were shortened on
the way. -/
theorem prune_run (h : s.Recalls s') (scope : Scope) (t : Ty TyVar) :
    (prune t).run (scope, s') =
      some (s.resolve t, (scope, (s'.prune t).2)) := by
  rw [← h.shortened.resolve_eq, ← h.shortened.steady.wellFormed.prune_fst]
  rfl

/-- The copy of an unsolved variable is the same in both stores, down to its
name. -/
theorem copyUnsolved_run (h : s.Recalls s') (wf : s.WellFormed)
    (scope : Scope) (hv : s.isUnsolved v = true) :
    ∃ w scope₁ s₁ s₁', (copy v).run (scope, s) = (w, (scope₁, s₁)) ∧
      (copyUnsolved v).run (scope, s') = some (w, (scope₁, s₁')) ∧
        s₁.Recalls s₁' := by
  have hopen : (copyUnsolved v).run (scope, s') =
      some ((copy v).run (scope, s')) := by
    apply if_pos
    rw [h.shortened.steady.isUnsolved_eq, hv]
    exact .inr rfl
  rw [hopen]
  cases hlookup : scope.copies.lookup v with
  | some w =>
      rw [copy_run_of_some hlookup, copy_run_of_some hlookup]
      exact ⟨w, scope, s, s', rfl, rfl, h⟩
  | none =>
      rw [copy_run_of_none hlookup, copy_run_of_none hlookup,
        h.shortened.steady.size_eq, h.baseOf_eq,
        h.shortened.unsolvedClasses?_eq]
      exact ⟨_, _, _, _, rfl, rfl, h.fresh wf⟩

/-- Copying level by level makes the same copies, in the same order, as copying
the variables of what the type stands for. -/
theorem copyLevels_run (wf : s.WellFormed) (scope : Scope)
    (ht : t.InRange s) (h : s.Recalls s') (hfuel : (s.zonk t).height < fuel) :
    ∃ copied scope₁ s₁ s₁',
      ((s.zonk t).mapVarsM copy).run (scope, s) = (copied, (scope₁, s₁)) ∧
        (copyLevels fuel t).run (scope, s') = some (copied, (scope₁, s₁')) ∧
          s₁.Recalls s₁' := by
  induction fuel generalizing t scope s s' with
  | zero => exact absurd hfuel (Nat.not_lt_zero _)
  | succ fuel ih =>
      rw [copyLevels, run_bind_of_some (prune_run h scope t)]
      replace h := h.prune t
      cases hresolve : s.resolve t with
      | con name =>
          rw [wf.zonk_of_resolve_con hresolve]
          exact ⟨_, _, _, _, rfl, rfl, h⟩
      | var v =>
          have hzonk := wf.zonk_of_resolve_var hresolve
          have hv : s.isUnsolved v = true :=
            wf.isUnsolved_of_mem_zonk ht (hzonk ▸ Ty.mem_vars_var.2 rfl)
          obtain ⟨w, scope₁, s₁, s₁', hcopy, hrun, hrecalls⟩ :=
            copyUnsolved_run h wf scope hv
          rw [hzonk, mapVarsM_var_run, hcopy, run_bind_of_some hrun]
          exact ⟨_, _, _, _, rfl, rfl, hrecalls⟩
      | app func arg =>
          have hparts := wf.inRange_resolve ht
          rw [hresolve] at hparts
          have hfuncRange : func.InRange s :=
            fun v hv => hparts v (Ty.mem_vars_app.2 (.inl hv))
          have hargRange : arg.InRange s :=
            fun v hv => hparts v (Ty.mem_vars_app.2 (.inr hv))
          have hzonk := wf.zonk_of_resolve_app hresolve
          rw [hzonk, Ty.height] at hfuel
          obtain ⟨func', scope₁, s₁, s₁', hfunc, hfuncRun, hrecalls₁⟩ :=
            ih wf scope hfuncRange h (by omega)
          -- the copies of the function part change nothing for the argument
          have hpart : s.PartOf s₁ := by
            have hpart := Store.partOf_mapVarsM_copy wf scope (s.zonk func)
            rwa [hfunc] at hpart
          have harg := hpart.zonk_eq wf hargRange
          obtain ⟨arg', scope₂, s₂, s₂', harg', hargRun, hrecalls₂⟩ :=
            ih hpart.wellFormed scope₁
              (fun v hv => Nat.lt_of_lt_of_le (hargRange v hv) hpart.size_le)
              hrecalls₁ (by rw [harg]; omega)
          rw [harg] at harg'
          rw [hzonk, mapVarsM_app_run, hfunc, run_bind_of_some hfuncRun,
            run_bind_of_some hargRun]
          dsimp only
          rw [harg']
          exact ⟨_, _, _, _, rfl, rfl, hrecalls₂⟩

/-- Instantiating level by level gives the same type and the same scope, and a
store that looks the same. -/
theorem instantiateLevels_run (wf : s.WellFormed) (scope : Scope)
    (ht : t.InRange s) (hfuel : (s.zonk t).height < fuel) :
    ∃ copied scope₁ s₁ s₁',
      (instantiate t).run (scope, s) = (copied, (scope₁, s₁)) ∧
        (instantiateLevels fuel t).run (scope, s) =
          some (copied, (scope₁, s₁')) ∧
          s₁.LooksSame s₁' := by
  rw [instantiate_run]
  by_cases hfree : s.freeVars t = []
  · rw [if_pos hfree]
    exact ⟨t, scope, s, s, rfl, if_pos hfree,
      (Store.Shortened.refl wf).looksSame⟩
  · rw [if_neg hfree]
    obtain ⟨copied, scope₁, s₁, s₁', hrun, hrun', hrecalls⟩ :=
      copyLevels_run wf scope ht (.refl wf) hfuel
    exact ⟨copied, scope₁, s₁, s₁', hrun, (if_neg hfree).trans hrun',
      hrecalls.shortened.looksSame⟩

end Scope

/-! ### Writing -/

theorem Ty.IsAtom.height_eq {V : Type} {t : Ty V} (h : t.IsAtom) :
    t.height = 0 := by
  cases t with
  | app func arg => exact h.elim
  | _ => rfl

namespace Display.Writer

variable {w : Writer} {name : Name} {head : Ty TyVar} {args : List (Ty TyVar)}
  {place : Place} {write : Ty TyVar → Place → Option String}
  {text : Ty TyVar → Place → String}

/-- A head and its arguments, all written as arguments. -/
def plainBy (write : Ty TyVar → Place → Option String) (head : Ty TyVar)
    (args : List (Ty TyVar)) (place : Place) : Option String := do
  let head ← write head .argument
  let args ← args.mapM (write · .argument)
  return parenIf (place = .argument) (" ".intercalate (head :: args))

/-- A constructor with its arguments that is neither a function nor a list. -/
def tupleBy (write : Ty TyVar → Place → Option String) (name : Name)
    (args : List (Ty TyVar)) (place : Place) : Option String :=
  if name.tupleArity? = some args.length then do
    return "(" ++ commas (← args.mapM (write · .whole)) ++ ")"
  else plainBy write (.con name) args place

/-- A constructor with its arguments, in the form that it has for so many. -/
def conBy (write : Ty TyVar → Place → Option String) (name : Name)
    (args : List (Ty TyVar)) (place : Place) : Option String :=
  match args with
  | [] => con name
  | [elem] =>
      if name = .list then do
        return "[" ++ (← write elem .whole) ++ "]"
      else tupleBy write name args place
  | [param, result] =>
      if name = .arrow then do
        let param ← write param .param
        let result ← write result .whole
        return parenIf (place ≠ .whole) (param ++ " -> " ++ result)
      else tupleBy write name args place
  | _ => tupleBy write name args place

/-- A type, with its head looked up at each level. -/
def tyLevels (w : Writer) : Nat → Ty TyVar → Place → Option String
  | 0, _, _ => none
  | fuel + 1, t, place =>
      match w.st.store.spine t with
      | (.var v, []) => w.var v place
      | (.con name, args) => conBy (w.tyLevels fuel) name args place
      | (head, args) => plainBy (w.tyLevels fuel) head args place

theorem mapM_eq_some (h : ∀ t ∈ args, write t place = some (text t place)) :
    args.mapM (write · place) = some (args.map (text · place)) := by
  induction args with
  | nil => rfl
  | cons t args ih =>
      rw [List.forall_mem_cons] at h
      rw [List.mapM_cons, h.1, ih h.2]
      rfl

theorem plainBy_eq {headText : String}
    (hhead : write head .argument = some headText) (hargs : args ≠ [])
    (h : ∀ t ∈ args, ∀ place, write t place = some (text t place)) :
    plainBy write head args place =
      some (applied headText (args.map text) place) := by
  rw [plainBy, hhead, mapM_eq_some fun t ht => h t ht _]
  cases args with
  | nil => contradiction
  | cons t args =>
      simp only [applied, List.map_cons, List.map_map]
      rfl

theorem tupleBy_eq (hhead : write (.con name) .argument = some (con name))
    (hargs : args ≠ [])
    (h : ∀ t ∈ args, ∀ place, write t place = some (text t place)) :
    tupleBy write name args place =
      some (tupleApplied name (args.map text) place) := by
  rw [tupleBy, tupleApplied, List.length_map]
  split
  · rw [mapM_eq_some fun t ht => h t ht _, List.map_map]
    rfl
  · exact plainBy_eq hhead hargs h

theorem conApplied_nil (name : Name) (place : Place) :
    conApplied name [] place = con name := by
  have harity : name.tupleArity? ≠ some 0 := by
    intro h
    obtain ⟨more, hmore, -⟩ := Name.eq_tuple_of_tupleArity? h
    contradiction
  exact if_neg harity

theorem conBy_eq
    (hhead : args ≠ [] → write (.con name) .argument = some (con name))
    (h : ∀ t ∈ args, ∀ place, write t place = some (text t place)) :
    conBy write name args place =
      some (conApplied name (args.map text) place) := by
  have htuple (hne : args ≠ []) :
      tupleBy write name args place =
        some (tupleApplied name (args.map text) place) :=
    tupleBy_eq (hhead hne) hne h
  rcases args with _ | ⟨first, _ | ⟨second, _ | ⟨third, rest⟩⟩⟩
  · exact congrArg some (conApplied_nil name place).symm
  · rw [conBy, htuple (List.cons_ne_nil _ _), h first List.mem_cons_self]
    simp only [List.map_cons, List.map_nil, conApplied]
    split <;> rfl
  · rw [conBy, htuple (List.cons_ne_nil _ _), h first List.mem_cons_self,
      h second (List.mem_cons_of_mem _ List.mem_cons_self)]
    simp only [List.map_cons, List.map_nil, conApplied]
    split <;> rfl
  · exact htuple (List.cons_ne_nil _ _)

/-- A type that is applied may have its arguments written beforehand. -/
theorem tyApplied_applyTo (w : Writer) (head : Ty TyVar)
    (ts : List (Ty TyVar)) (args : List (Place → String)) :
    w.tyApplied (.applyTo head ts) args =
      w.tyApplied head (ts.map (w.tyApplied · []) ++ args) := by
  induction ts generalizing head with
  | nil => rfl
  | cons t ts ih =>
      have hopen : Ty.applyTo head (t :: ts) = .applyTo (.app head t) ts := rfl
      rw [hopen, ih]
      rfl

/-- One level of writing: the head of the spine, with the arguments as types of
their own. -/
theorem ty_eq_tyApplied_spine (w : Writer) (wf : w.st.store.WellFormed)
    (t : Ty TyVar) :
    w.ty t = w.tyApplied (w.st.store.spine t).1
      ((w.st.store.spine t).2.map w.ty) := by
  have hzonk : w.st.store.zonk t = .applyTo (w.st.store.spine t).1
      ((w.st.store.spine t).2.map w.st.store.zonk) := by
    rw [← Ty.applyTo_spine (w.st.store.zonk t), wf.zonk_spine]
  have hargs : (w.st.store.spine t).2.map w.ty =
      ((w.st.store.spine t).2.map w.st.store.zonk).map
        (w.tyApplied · []) := by
    rw [List.map_map]
    rfl
  funext place
  rw [ty, hzonk, tyApplied_applyTo, List.append_nil, hargs]

/-- Writing a type level by level gives the text of what it stands for. -/
theorem tyLevels_eq (wf : w.st.store.WellFormed)
    (hfuel : (w.st.store.zonk t).height < fuel) :
    w.tyLevels fuel t place = some (w.ty t place) := by
  induction fuel generalizing t place with
  | zero => exact absurd hfuel (Nat.not_lt_zero _)
  | succ fuel ih =>
      have hlower {arg : Ty TyVar} (harg : arg ∈ (w.st.store.spine t).2) :
          (w.st.store.zonk arg).height < fuel :=
        Nat.lt_of_lt_of_le (wf.height_zonk_lt_of_mem_spine harg)
          (Nat.le_of_lt_succ hfuel)
      have hatom := w.st.store.spine_isAtom t
      have hhead := wf.zonk_spine_head t
      rw [ty_eq_tyApplied_spine w wf, tyLevels]
      rcases hspine : w.st.store.spine t with ⟨head, args⟩
      rw [hspine] at hlower hatom hhead
      dsimp only at hlower hatom hhead ⊢
      have hargs : ∀ arg ∈ args, ∀ place,
          w.tyLevels fuel arg place = some (w.ty arg place) :=
        fun arg harg place => ih (hlower harg)
      -- where there are arguments, there is fuel left for the head
      have hheadText (hne : args ≠ []) :
          w.tyLevels fuel head .argument =
            some (w.tyApplied head [] .argument) := by
        obtain ⟨arg, harg⟩ := List.exists_mem_of_ne_nil args hne
        have hheight : (w.st.store.zonk head).height < fuel := by
          rw [hhead, hatom.height_eq]
          exact Nat.zero_lt_of_lt (hlower harg)
        rw [ih hheight, ty, hhead]
      cases head with
      | app func arg => exact hatom.elim
      | var v =>
          cases args with
          | nil => rfl
          | cons arg args =>
              exact plainBy_eq (hheadText (List.cons_ne_nil _ _))
                (List.cons_ne_nil _ _) hargs
      | con name =>
          exact conBy_eq
            (fun hne => (hheadText hne).trans <|
              congrArg some (conApplied_nil name .argument)) hargs

end Display.Writer

end HindleyMilner

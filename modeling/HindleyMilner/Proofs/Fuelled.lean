import HindleyMilner.Proofs.Lookup

/-
The loops and recursions of unification as they would run on a machine.  There
no bound is known in advance: a run that has used up its fuel is not finished
and has no outcome.  It stops with a failed assertion where a solved variable
is used as an unsolved one, or where the walk along a chain leaves the chain.
Walks through a store without circular solutions end with the results of the
bounded walks.
-/

namespace HindleyMilner

/-- An assertion that does not hold. -/
inductive FailedAssertion where
  /-- A variable that should be unsolved is solved. -/
  | solved (v : TyVar)
  /-- A variable is not on a chain that leads to the root. -/
  | offChain (v : TyVar)
  deriving DecidableEq, Repr

/-- Actions on a store that run out of fuel, stop with a failed assertion, or
fail with an error and keep the store. -/
abbrev FuelledM :=
  ExceptT UnifyError (StateT Store (ExceptT FailedAssertion Option))

namespace Fuelled

/-! ### Walks -/

def find (s : Store) : Nat → TyVar → Option TyVar
  | 0, _ => none
  | fuel + 1, v =>
      match s.solution? v with
      | some (.var next) => find s fuel next
      | _ => some v

def compress (root : TyVar) :
    Nat → TyVar → Store → ExceptT FailedAssertion Option Store
  | 0, _, _ => ExceptT.lift none
  | fuel + 1, v, s =>
      if v = root then return s
      else
        match s.solution? v with
        | some (.var next) =>
            compress root fuel next
              (if next = root then s
                else s.setBinding v (.solved (.var root)))
        | _ => throw (.offChain v)

def resolve (s : Store) (fuel : Nat) : Ty TyVar → Option (Ty TyVar)
  | .var v => do return s.rootTy (← find s fuel v)
  | ty => return ty

def zonk (s : Store) : Nat → Ty TyVar → Option (Ty TyVar)
  | 0, _ => none
  | fuel + 1, ty => do
      match ← resolve s (fuel + 1) ty with
      | .app func arg => return .app (← zonk s fuel func) (← zonk s fuel arg)
      | ty => return ty

def spineOnto (s : Store) :
    Nat → Ty TyVar → List (Ty TyVar) → Option (Ty TyVar × List (Ty TyVar))
  | 0, _, _ => none
  | fuel + 1, ty, args => do
      match ← resolve s (fuel + 1) ty with
      | .app func arg => spineOnto s fuel func (arg :: args)
      | head => return (head, args)

def spine (s : Store) (fuel : Nat) (ty : Ty TyVar) :
    Option (Ty TyVar × List (Ty TyVar)) :=
  spineOnto s fuel ty []

def occurs (s : Store) (v : TyVar) : Nat → Ty TyVar → Option Bool
  | 0, _ => none
  | fuel + 1, ty => do
      match ← resolve s (fuel + 1) ty with
      | .var w => return decide (v = w)
      | .con _ => return false
      | .app func arg => do
          if ← occurs s v fuel func then return true
          occurs s v fuel arg

def addFreeVars (s : Store) :
    Nat → List TyVar → Ty TyVar → Option (List TyVar)
  | 0, _, _ => none
  | fuel + 1, seen, ty => do
      match ← resolve s (fuel + 1) ty with
      | .var w => return Store.note seen w
      | .con _ => return seen
      | .app func arg => do
          addFreeVars s fuel (← addFreeVars s fuel seen func) arg

/-! ### Unification -/

def stop {A : Type} (assertion : FailedAssertion) : FuelledM A :=
  fun _ => throw assertion

def walk {A : Type} (f : Store → Option A) : FuelledM A :=
  fun s => ExceptT.lift do return (.ok (← f s), s)

def fail {A : Type} (cause : UnifyError.Cause) : FuelledM A :=
  throw ⟨cause, []⟩

def within {A : Type} (pos : Nat) (action : FuelledM A) : FuelledM A :=
  ExceptT.adapt (UnifyError.within pos) action

def prune (fuel : Nat) : Ty TyVar → FuelledM (Ty TyVar)
  | .var v => do
      let root ← walk (find · fuel v)
      fun s => do
        let s ← compress root fuel v s
        return (.ok (s.rootTy root), s)
  | ty => return ty

def unsolvedClasses (v : TyVar) : FuelledM ClassSet := do
  match (← get).unsolvedClasses? v with
  | some classes => return classes
  | none => stop (.solved v)

def rebind (v : TyVar) (binding : Binding) : FuelledM Unit := do
  let _ ← unsolvedClasses v
  modify (·.setBinding v binding)

def constrain (table : ClassTable) (v : TyVar) (c : ClassId) :
    FuelledM Unit := do
  match (← unsolvedClasses v).insert? table c with
  | none => return
  | some classes =>
      match table.conflict? classes with
      | some (a, b) => fail (.unsatisfiable a b)
      | none => rebind v (.unsolved classes)

def checkInstance (table : ClassTable) (v : TyVar) :
    Nat → ClassId → Ty TyVar → FuelledM Unit
  | 0, _, _ => walk fun _ => none
  | fuel + 1, c, ty => do
      match ← walk (spine · (fuel + 1) ty) with
      | (.con con, args) =>
          if table.hasInstance c con then
            args.forM fun arg =>
              (table.argClasses c con).members.forM fun d => do
                match ← prune (fuel + 1) arg with
                | .var w => constrain table w d
                | inner => checkInstance table v fuel d inner
          else fail (.constraint v c (← walk (zonk · (fuel + 1) ty)))
      | _ => fail (.constraint v c (← walk (zonk · (fuel + 1) ty)))

def joinVars (table : ClassTable) (want got : TyVar) : FuelledM Unit := do
  let merged := (← unsolvedClasses want).union table (← unsolvedClasses got)
  match table.conflict? merged with
  | some (a, b) => fail (.unsatisfiable a b)
  | none =>
      rebind got (.unsolved merged)
      rebind want (.solved (.var got))

def solveVar (table : ClassTable) (fuel : Nat) (v : TyVar) (ty : Ty TyVar) :
    FuelledM Unit := do
  if ← walk (occurs · v fuel ty) then fail (.circularity v ty)
  (← unsolvedClasses v).members.forM fun c => checkInstance table v fuel c ty
  rebind v (.solved ty)

/-- The constructor at the head of a type and the number of its arguments. -/
def conHead (s : Store) (fuel : Nat) (ty : Ty TyVar) :
    Option (Option (Name × Nat)) := do
  match ← spine s fuel ty with
  | (.con name, args) => return some (name, args.length)
  | _ => return none

/-- Fails with the whole types where their heads differ. -/
def checkHeads (fuel : Nat) (want got : Ty TyVar) : FuelledM Unit := do
  match ← walk (conHead · fuel want), ← walk (conHead · fuel got) with
  | some wantHead, some gotHead =>
      if wantHead ≠ gotHead then
        fail (.mismatch (← walk (zonk · fuel want)) (← walk (zonk · fuel got)))
  | _, _ => return

def unify (table : ClassTable) :
    Nat → Ty TyVar → Ty TyVar → FuelledM Unit
  | 0, _, _ => walk fun _ => none
  | fuel + 1, want, got => do
      let want ← prune (fuel + 1) want
      let got ← prune (fuel + 1) got
      match want, got with
      | .var v, .var w => if v = w then return else joinVars table v w
      | .var v, ty => solveVar table (fuel + 1) v ty
      | ty, .var v => solveVar table (fuel + 1) v ty
      | .con c, .con d =>
          if c = d then return else fail (.mismatch want got)
      | .app wantFunc wantArg, .app gotFunc gotArg => do
          checkHeads (fuel + 1) want got
          unify table fuel wantFunc gotFunc
          let pos := (← walk (spine · (fuel + 1) wantFunc)).2.length
          within pos (unify table fuel wantArg gotArg)
      | _, _ => fail (.mismatch want got)

/-! ### Walks that finish -/

section

variable {s : Store} {v w : TyVar} {t : Ty TyVar} {fuel : Nat}

theorem find_eq_rootWithin (wf : s.WellFormed) {n : Nat}
    (hlevel : s.level v ≤ n) (hfuel : n < fuel) :
    find s fuel v = some (s.rootWithin n v) := by
  induction fuel generalizing n v with
  | zero => exact absurd hfuel (Nat.not_lt_zero _)
  | succ fuel ih =>
      cases n with
      | zero =>
          rw [find, Store.solution?_eq_none_of_level_eq_zero
            (Nat.le_zero.1 hlevel)]
          rfl
      | succ n =>
          rw [find, Store.rootWithin]
          cases hsolution : s.solution? v with
          | none => rfl
          | some solution =>
              cases solution with
              | con name => rfl
              | app func arg => rfl
              | var next =>
                  have hnext := wf.levelLe_solution hlevel hsolution next
                    (Ty.mem_vars_var.2 rfl)
                  exact ih hnext (Nat.lt_of_succ_lt_succ hfuel)

/-- A chain is followed to its end with fuel for as many hops as there are
variables. -/
theorem find_eq (wf : s.WellFormed) (hfuel : s.size < fuel) (v : TyVar) :
    find s fuel v = some (s.root v) :=
  find_eq_rootWithin wf (s.level_le_size v) hfuel

theorem resolve_eq (wf : s.WellFormed) (hfuel : s.size < fuel)
    (t : Ty TyVar) : resolve s fuel t = some (s.resolve t) := by
  cases t with
  | con name => rfl
  | app func arg => rfl
  | var v =>
      rw [resolve, find_eq wf hfuel]
      rfl

/-- Fuel for the hops and for the levels of the outcome is enough to replace all
solved variables. -/
theorem zonk_eq (wf : s.WellFormed)
    (hfuel : s.size + (s.zonk t).height < fuel) :
    zonk s fuel t = some (s.zonk t) := by
  induction fuel generalizing t with
  | zero => exact absurd hfuel (Nat.not_lt_zero _)
  | succ fuel ih =>
      rw [zonk, resolve_eq wf (by omega), Option.bind_eq_bind,
        Option.bind_some]
      cases hresolve : s.resolve t with
      | var v =>
          rw [wf.zonk_of_resolve_var hresolve]
          rfl
      | con name =>
          rw [wf.zonk_of_resolve_con hresolve]
          rfl
      | app func arg =>
          rw [wf.zonk_of_resolve_app hresolve, Ty.height] at hfuel
          dsimp only
          rw [wf.zonk_of_resolve_app hresolve, ih (by omega), ih (by omega)]
          rfl

theorem spineOnto_eq (wf : s.WellFormed) (args : List (Ty TyVar))
    (hfuel : s.size + (s.zonk t).height < fuel) :
    spineOnto s fuel t args =
      some ((s.spine t).1, (s.spine t).2 ++ args) := by
  induction fuel generalizing t args with
  | zero => exact absurd hfuel (Nat.not_lt_zero _)
  | succ fuel ih =>
      rw [spineOnto, resolve_eq wf (by omega), Option.bind_eq_bind,
        Option.bind_some, ← wf.spine_resolve]
      cases hresolve : s.resolve t with
      | var v =>
          rw [Store.spine_var_unsolved (wf.solution?_of_resolve hresolve)]
          rfl
      | con name =>
          rw [Store.spine_con]
          rfl
      | app func arg =>
          rw [wf.zonk_of_resolve_app hresolve, Ty.height] at hfuel
          dsimp only
          rw [ih _ (by omega), Store.spine_app, List.append_assoc]
          rfl

theorem spine_eq (wf : s.WellFormed)
    (hfuel : s.size + (s.zonk t).height < fuel) :
    spine s fuel t = some (s.spine t) := by
  rw [spine, spineOnto_eq wf [] hfuel, List.append_nil]

theorem occurs_eq (wf : s.WellFormed) (v : TyVar)
    (hfuel : s.size + (s.zonk t).height < fuel) :
    occurs s v fuel t = some (s.occurs v t) := by
  rw [Store.occurs, Store.occursWithin_eq, ← Store.zonk]
  induction fuel generalizing t with
  | zero => exact absurd hfuel (Nat.not_lt_zero _)
  | succ fuel ih =>
      rw [occurs, resolve_eq wf (by omega), Option.bind_eq_bind,
        Option.bind_some]
      cases hresolve : s.resolve t with
      | var w =>
          rw [wf.zonk_of_resolve_var hresolve]
          rfl
      | con name =>
          rw [wf.zonk_of_resolve_con hresolve]
          rfl
      | app func arg =>
          rw [wf.zonk_of_resolve_app hresolve, Ty.height] at hfuel
          dsimp only
          rw [wf.zonk_of_resolve_app hresolve, Ty.anyVar, ih (by omega),
            ih (by omega), Option.bind_eq_bind, Option.bind_some]
          cases (s.zonk func).anyVar fun w => decide (v = w) <;> rfl

theorem addFreeVars_eq (wf : s.WellFormed) (seen : List TyVar)
    (hfuel : s.size + (s.zonk t).height < fuel) :
    addFreeVars s fuel seen t = some (s.addFreeVars seen t) := by
  rw [Store.addFreeVars, Store.addFreeVarsWithin_eq, ← Store.zonk]
  induction fuel generalizing t seen with
  | zero => exact absurd hfuel (Nat.not_lt_zero _)
  | succ fuel ih =>
      rw [addFreeVars, resolve_eq wf (by omega), Option.bind_eq_bind,
        Option.bind_some]
      cases hresolve : s.resolve t with
      | var w =>
          rw [wf.zonk_of_resolve_var hresolve]
          rfl
      | con name =>
          rw [wf.zonk_of_resolve_con hresolve]
          rfl
      | app func arg =>
          rw [wf.zonk_of_resolve_app hresolve, Ty.height] at hfuel
          dsimp only
          rw [wf.zonk_of_resolve_app hresolve, Ty.foldVars, ih _ (by omega),
            Option.bind_eq_bind, Option.bind_some, ih _ (by omega)]

/-! ### Compression -/

/-- Writing what is there already changes nothing. -/
theorem setBinding_self (h : s.solution? v = some t) :
    s.setBinding v (.solved t) = s := by
  obtain ⟨base, hcell⟩ := Store.solution?_eq_some_iff.1 h
  have hcells : s.cells.modify v.index
      (fun cell => { cell with binding := .solved t }) = s.cells := by
    apply Array.ext_getElem?
    intro i
    rw [Array.getElem?_modify]
    split
    · rename_i hindex
      rw [← hindex, hcell]
      rfl
    · rfl
  rw [Store.setBinding, hcells]

theorem write_eq {next root : TyVar} (h : s.solution? v = some (.var next)) :
    (if next = root then s else s.setBinding v (.solved (.var root))) =
      s.setBinding v (.solved (.var root)) := by
  split
  · rename_i heq
    rw [← heq, setBinding_self h]
  · rfl

/-- A variable that is solved to another is not the end of its own chain. -/
theorem rootWithin_ne_of_links (wf : s.WellFormed) {n : Nat}
    {next : TyVar} (hlevel : s.level next ≤ n)
    (h : s.solution? v = some (.var next)) : v ≠ s.rootWithin n next := by
  intro heq
  exact wf.solution?_rootWithin hlevel (heq ▸ h)

/-- The loop that shortens a chain stays on the chain, although it changes the
store as it goes: what it has passed does not come again. -/
theorem compress_eq_foldl (wf : s.WellFormed) {n : Nat} {now : Store}
    (hlevel : s.level v ≤ n) (hfuel : n < fuel)
    (hnow : ∀ u, Relation.ReflTransGen s.Mentions v u →
      now.solution? u = s.solution? u) :
    compress (s.rootWithin n v) fuel v now =
      pure ((s.passedWithin n v).foldl (fun store passed =>
        store.setBinding passed (.solved (.var (s.rootWithin n v)))) now) := by
  induction fuel generalizing n v now with
  | zero => exact absurd hfuel (Nat.not_lt_zero _)
  | succ fuel ih =>
      cases n with
      | zero => exact if_pos rfl
      | succ n =>
          rw [compress, Store.rootWithin, Store.passedWithin,
            hnow v .refl]
          cases hsolution : s.solution? v with
          | none => exact if_pos rfl
          | some solution =>
              cases solution with
              | con name => exact if_pos rfl
              | app func arg => exact if_pos rfl
              | var next =>
                  have hlink : s.Mentions v next :=
                    ⟨_, hsolution, Ty.mem_vars_var.2 rfl⟩
                  have hnext := wf.levelLe_solution hlevel hsolution next
                    (Ty.mem_vars_var.2 rfl)
                  have hv : now.solution? v = some (.var next) :=
                    (hnow v .refl).trans hsolution
                  dsimp only
                  rw [if_neg (rootWithin_ne_of_links wf hnext hsolution),
                    write_eq hv, List.foldl_cons]
                  apply ih hnext (Nat.lt_of_succ_lt_succ hfuel)
                  intro u hu
                  have hne : u ≠ v := by
                    rintro rfl
                    exact wf.acyclic u (.head' hlink hu)
                  rw [Store.solution?_setBinding_solved
                    (Store.lt_size_of_solution? hv), if_neg hne]
                  exact hnow u (.head hlink hu)

/-- The loop that shortens a chain points all variables passed at the root, and
nothing else. -/
theorem compress_eq (wf : s.WellFormed) (hfuel : s.size < fuel)
    (v : TyVar) : compress (s.root v) fuel v s = pure (s.compress v) :=
  compress_eq_foldl wf (s.level_le_size v) hfuel fun _ _ => rfl

end

end Fuelled

end HindleyMilner

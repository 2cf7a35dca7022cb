import HindleyMilner.Env
import HindleyMilner.Proofs.DeclaredClasses
import HindleyMilner.Proofs.Requirement

/-
Loading the classes of a catalog.  They are checked and added one by one, so
the first that does not fit leaves the ones before it, and if only the names of
its instances are to blame, it leaves itself with those listed before the empty
name.
-/

namespace HindleyMilner

namespace Env

variable {env : Env} {st : TypeState} {now : Env × TypeState}
  {name : Name} {decl : Catalog.Class} {text : String} {texts : List String}
  {f : ClassTable → Name → ClassTable}

theorem nameOf_run_of_some (h : Name.ofString? text = some name) :
    (nameOf text).run now = .ok name now := by
  rw [nameOf, h]
  rfl

theorem nameOf_run_empty : (nameOf "").run now = .error .emptyName now :=
  rfl

theorem superOf_run (text : String) (now : Env × TypeState) :
    (∃ c, now.2.classes.find? text = some c ∧
        (superOf text).run now = .ok c now) ∨
      now.2.classes.find? text = none ∧
        ∃ e, (superOf text).run now = .error e now := by
  rw [superOf, get_bind_run]
  cases now.2.classes.find? text with
  | some c => exact .inl ⟨c, rfl, rfl⟩
  | none =>
      refine .inr ⟨rfl, ?_⟩
      by_cases htext : text = ""
      · subst htext
        exact ⟨_, rfl⟩
      · obtain ⟨name, hname⟩ := Name.exists_ofString? htext
        dsimp only
        rw [bind_run_of_ok (nameOf_run_of_some hname)]
        exact ⟨_, rfl⟩

/-- Superclasses are looked up one by one, and all have to be there. -/
theorem mapM_superOf_run (texts : List String) (now : Env × TypeState) :
    ((∀ text ∈ texts, (now.2.classes.find? text).isSome = true) ∧
        (texts.mapM superOf).run now =
          .ok (texts.filterMap now.2.classes.find?) now) ∨
      (¬ ∀ text ∈ texts, (now.2.classes.find? text).isSome = true) ∧
        ∃ e, (texts.mapM superOf).run now = .error e now := by
  induction texts with
  | nil => exact .inl ⟨by simp, rfl⟩
  | cons text texts ih =>
      rw [List.mapM_cons, List.forall_mem_cons]
      rcases superOf_run text now with ⟨c, hc, hrun⟩ | ⟨hnone, e, hrun⟩
      · rw [bind_run_of_ok hrun]
        rcases ih with ⟨hall, hrest⟩ | ⟨hall, e, hrest⟩
        · rw [bind_run_of_ok hrest, List.filterMap_cons_some hc]
          exact .inl ⟨⟨by rw [hc, Option.isSome_some], hall⟩, rfl⟩
        · rw [EStateM.run_bind, hrest]
          exact .inr ⟨fun h => hall h.2, e, rfl⟩
      · rw [EStateM.run_bind, hrun, hnone]
        exact .inr ⟨by simp, e, rfl⟩

/-- Changes a table for a name; the empty text is no name. -/
def addNamed (f : ClassTable → Name → ClassTable) (table : ClassTable)
    (text : String) : ClassTable :=
  match Name.ofString? text with
  | some con => f table con
  | none => table

def loadNames (f : ClassTable → Name → ClassTable) (texts : List String) :
    LoadM Unit :=
  texts.forM fun con => do
    let con ← nameOf con
    modifyClasses (f · con)

theorem stepwise_names (f : ClassTable → Name → ClassTable) (env : Env)
    (st : TypeState) (texts : List String) :
    let added (done : List String) (next : Env × TypeState) :=
      next = (env, { st with classes := done.foldl (addNamed f) st.classes })
    Stepwise (fun _ text => text ≠ "") added (fun done _ => added done) texts
      ((loadNames f texts).run (env, st)) := by
  intro added
  have hstart : added [] (env, st) := rfl
  apply stepwise_forM _ hstart
  rintro done _ text - rfl
  by_cases htext : text = ""
  · subst htext
    exact ⟨by simp, rfl⟩
  · obtain ⟨name, hname⟩ := Name.exists_ofString? htext
    rw [bind_run_of_ok (nameOf_run_of_some hname)]
    refine ⟨htext, ?_⟩
    simp only [added, List.foldl_append, List.foldl_cons, List.foldl_nil]
    rw [addNamed, hname]

/-- Names are gone through up to the first that is none. -/
theorem loadNames_step (f : ClassTable → Name → ClassTable) (env : Env)
    (st : TypeState) (texts : List String) :
    match (loadNames f texts).run (env, st) with
    | .ok _ next => (∀ text ∈ texts, text ≠ "") ∧ next =
        (env, { st with classes := texts.foldl (addNamed f) st.classes })
    | .error _ next => "" ∈ texts ∧ next = (env, { st with
        classes :=
          (texts.takeWhile (· ≠ "")).foldl (addNamed f) st.classes }) := by
  have hsteps := stepwise_names f env st texts
  dsimp only at hsteps
  generalize (loadNames f texts).run (env, st) = result at hsteps ⊢
  cases hsteps with
  | all hfits hadded => exact ⟨eachFits_iff.1 hfits, hadded⟩
  | first hitems hbefore htext hstopped =>
      obtain rfl := not_not.1 htext
      rw [hitems, takeWhile_named (eachFits_iff.1 hbefore)]
      exact ⟨by simp, hstopped⟩

def loadInstances (c : ClassId) (decl : Catalog.Class) : LoadM Unit := do
  loadNames (·.addInstance c ·) decl.instances
  loadNames (·.addUnconstrainedInstance c ·) decl.unconstrained

/-- What is changed at the last class of a table. -/
theorem modify_push (decls : Array ClassDecl) (entry : ClassDecl)
    (f : ClassDecl → ClassDecl) :
    (decls.push entry).modify decls.size f = decls.push (f entry) := by
  apply Array.ext_getElem?
  intro i
  rw [Array.getElem?_modify, Array.getElem?_push, Array.getElem?_push]
  by_cases hi : i = decls.size
  · simp [hi]
  · rw [if_neg hi, if_neg hi, if_neg fun heq => hi heq.symm]

/-- Names are listed at the last class of a table one after the other.  Where
they are listed is told by what becomes of an entry when its lists change. -/
theorem foldl_addNamed
    (change : (List Name → List Name) → ClassDecl → ClassDecl)
    (hid : ∀ entry, change id entry = entry)
    (hcomp : ∀ f g entry, change f (change g entry) = change (f ∘ g) entry)
    (decls : Array ClassDecl) (entry : ClassDecl) (texts : List String) :
    texts.foldl (addNamed fun table con =>
        ⟨table.decls.modify decls.size (change (·.insert con))⟩)
        ⟨decls.push entry⟩ =
      ⟨decls.push (change (texts.foldl noteName) entry)⟩ := by
  induction texts generalizing entry with
  | nil => exact (congrArg (ClassTable.mk <| decls.push ·) (hid entry)).symm
  | cons text texts ih =>
      have hfirst : addNamed (fun table con =>
          ⟨table.decls.modify decls.size (change (·.insert con))⟩)
          ⟨decls.push entry⟩ text =
            ⟨decls.push (change (noteName · text) entry)⟩ := by
        unfold addNamed noteName
        cases Name.ofString? text with
        | none =>
            exact (congrArg (ClassTable.mk <| decls.push ·) (hid entry)).symm
        | some con => exact congrArg _ (modify_push decls entry _)
      rw [List.foldl_cons, hfirst, ih, hcomp]
      rfl

theorem foldl_addInstance (decls : Array ClassDecl) (entry : ClassDecl)
    (texts : List String) :
    texts.foldl (addNamed (·.addInstance ⟨decls.size⟩ ·))
        ⟨decls.push entry⟩ =
      ⟨decls.push { entry with
        instances := texts.foldl noteName entry.instances }⟩ :=
  foldl_addNamed
    (fun f entry => { entry with instances := f entry.instances })
    (fun _ => rfl) (fun _ _ _ => rfl) decls entry texts

theorem foldl_addUnconstrainedInstance (decls : Array ClassDecl)
    (entry : ClassDecl) (texts : List String) :
    texts.foldl (addNamed (·.addUnconstrainedInstance ⟨decls.size⟩ ·))
        ⟨decls.push entry⟩ =
      ⟨decls.push { entry with
        instances := texts.foldl noteName entry.instances
        unconstrained := texts.foldl noteName entry.unconstrained }⟩ :=
  foldl_addNamed
    (fun f entry => { entry with
      instances := f entry.instances
      unconstrained := f entry.unconstrained })
    (fun _ => rfl) (fun _ _ _ => rfl) decls entry texts

/-- A class that cannot be added changes nothing. -/
theorem loadClass_run_of_not_enters (env : Env)
    (h : ¬ decl.Enters st.classes []) :
    ∃ e, (loadClass decl).run (env, st) = .error e (env, st) := by
  by_cases hnamed : decl.name = ""
  · rw [loadClass, hnamed, EStateM.run_bind, nameOf_run_empty]
    exact ⟨_, rfl⟩
  obtain ⟨name, hname⟩ := Name.exists_ofString? hnamed
  rw [loadClass, bind_run_of_ok (nameOf_run_of_some hname)]
  rcases mapM_superOf_run decl.supers (env, st) with
    ⟨hall, hrun⟩ | ⟨hall, e, hrun⟩
  · rw [bind_run_of_ok hrun]
    have hfound : (st.classes.find? name.text).isSome = true := by
      by_contra hnone
      rw [Name.ofString?_eq_some_iff.1 hname] at hnone
      exact h ⟨hnamed, by simpa using hnone, by simp,
        fun text htext => .inl (hall text htext)⟩
    have hadd : st.classes.add? name
        (decl.supers.filterMap st.classes.find?) = none := if_pos hfound
    rw [get_bind_run]
    simp only [hadd]
    exact ⟨_, rfl⟩
  · rw [EStateM.run_bind, hrun]
    exact ⟨e, rfl⟩

theorem add?_of_enters {table : ClassTable} (h : decl.Enters table [])
    (hname : Name.ofString? decl.name = some name) :
    table.add? name (decl.supers.filterMap table.find?) =
      some ⟨table.decls.push (decl.bare table name)⟩ := by
  apply if_neg
  rw [Name.ofString?_eq_some_iff.1 hname, h.new]
  exact Bool.false_ne_true

/-- A class that can be added is added before its instances are. -/
theorem loadClass_run_of_enters (h : decl.Enters st.classes [])
    (hname : Name.ofString? decl.name = some name) :
    (loadClass decl).run (env, st) =
      (loadInstances ⟨st.classes.size⟩ decl).run (env, { st with
        classes := ⟨st.classes.decls.push (decl.bare st.classes name)⟩ }) := by
  have hsupers : (decl.supers.mapM superOf).run (env, st) =
      .ok (decl.supers.filterMap st.classes.find?) (env, st) := by
    rcases mapM_superOf_run decl.supers (env, st) with ⟨-, hrun⟩ | ⟨hall, -⟩
    · exact hrun
    · refine absurd (fun text htext => ?_) hall
      exact (h.supers text htext).resolve_right (by simp)
  rw [loadClass, bind_run_of_ok (nameOf_run_of_some hname),
    bind_run_of_ok hsupers, get_bind_run]
  simp only [add?_of_enters h hname]
  rfl

theorem entry_eq (table : ClassTable) (decl : Catalog.Class) (name : Name) :
    decl.entry table name = { decl.bare table name with
      instances :=
        decl.unconstrained.foldl noteName (decl.instances.foldl noteName [])
      unconstrained := decl.unconstrained.foldl noteName [] } := by
  rw [Catalog.Class.entry, List.foldl_append]
  rfl

/-- The instances of a class that was just added are added to it, up to the
first empty name. -/
theorem loadInstances_step (env : Env) (st : TypeState)
    (decl : Catalog.Class) (name : Name) :
    match (loadInstances ⟨st.classes.size⟩ decl).run (env, { st with
        classes := ⟨st.classes.decls.push (decl.bare st.classes name)⟩ }) with
    | .ok _ next =>
        (∀ text ∈ decl.instances ++ decl.unconstrained, text ≠ "") ∧
          next = (env, { st with
            classes := ⟨st.classes.decls.push
              (decl.entry st.classes name)⟩ })
    | .error _ next => "" ∈ decl.instances ++ decl.unconstrained ∧
        next = (env, { st with
          classes := ⟨st.classes.decls.push
            (decl.truncate.entry st.classes name)⟩ }) := by
  have hinstances := loadNames_step (·.addInstance ⟨st.classes.size⟩ ·) env
    { st with classes := ⟨st.classes.decls.push (decl.bare st.classes name)⟩ }
    decl.instances
  rw [loadInstances, EStateM.run_bind]
  simp only [ClassTable.size, foldl_addInstance] at hinstances ⊢
  generalize EStateM.run (loadNames _ decl.instances) _ = result
    at hinstances ⊢
  cases result with
  | error e next =>
      obtain ⟨hempty, rfl⟩ := hinstances
      dsimp only
      rw [decl.truncate_of_mem hempty, entry_eq]
      exact ⟨List.mem_append_left _ hempty, rfl⟩
  | ok u next =>
      obtain ⟨hnamed, rfl⟩ := hinstances
      have hunconstrained := loadNames_step
        (·.addUnconstrainedInstance ⟨st.classes.size⟩ ·) env
        { st with classes := ⟨st.classes.decls.push
          { decl.bare st.classes name with
            instances := decl.instances.foldl noteName
              (decl.bare st.classes name).instances }⟩ }
        decl.unconstrained
      simp only [ClassTable.size, foldl_addUnconstrainedInstance]
        at hunconstrained ⊢
      generalize EStateM.run (loadNames _ decl.unconstrained) _ = result
        at hunconstrained ⊢
      cases result with
      | error e next =>
          obtain ⟨hempty, rfl⟩ := hunconstrained
          dsimp only
          rw [decl.truncate_of_named hnamed, entry_eq]
          exact ⟨List.mem_append_right _ hempty, rfl⟩
      | ok u next =>
          obtain ⟨hnamed', rfl⟩ := hunconstrained
          dsimp only
          rw [entry_eq]
          exact ⟨List.forall_mem_append.2 ⟨hnamed, hnamed'⟩, rfl⟩

/-- What is left in a table if a class does not fit after others that were
added: these alone, or also the class without the instances from an empty name
on. -/
inductive Leaves (table : ClassTable) (before : List Catalog.Class)
    (decl : Catalog.Class) : ClassTable → Prop
  | refused (h : ¬ decl.Enters table before) :
      Leaves table before decl (table.declareAll before)
  | truncated (h : decl.Enters table before)
      (hempty : "" ∈ decl.instances ++ decl.unconstrained) :
      Leaves table before decl
        ((table.declareAll before).declare decl.truncate)

theorem loadClass_step (env : Env) (st : TypeState) (decl : Catalog.Class) :
    match (loadClass decl).run (env, st) with
    | .ok _ next => decl.Fits st.classes [] ∧
        next = (env, { st with classes := st.classes.declare decl })
    | .error _ next => ¬ decl.Fits st.classes [] ∧ ∃ table,
        Leaves st.classes [] decl table ∧
          next = (env, { st with classes := table }) := by
  by_cases henters : decl.Enters st.classes []
  · obtain ⟨name, hname⟩ := Name.exists_ofString? henters.named
    have hdeclare (decl' : Catalog.Class) (hsame : decl'.name = decl.name) :
        st.classes.declare decl' =
          ⟨st.classes.decls.push (decl'.entry st.classes name)⟩ := by
      rw [ClassTable.declare, hsame, hname]
    have hstep := loadInstances_step env st decl name
    rw [loadClass_run_of_enters henters hname]
    generalize EStateM.run _ _ = result at hstep ⊢
    cases result with
    | ok u next =>
        rw [hdeclare decl rfl]
        exact ⟨⟨henters, hstep.1⟩, hstep.2⟩
    | error e next =>
        have hleaves := Leaves.truncated henters hstep.1
        rw [ClassTable.declareAll_nil, hdeclare decl.truncate rfl] at hleaves
        exact ⟨fun h => h.instances "" hstep.1 rfl, _, hleaves, hstep.2⟩
  · obtain ⟨e, hrun⟩ := loadClass_run_of_not_enters env henters
    rw [hrun]
    exact ⟨fun h => henters h.toEnters, _, .refused henters, rfl⟩

theorem Leaves.of_declareAll {table larger : ClassTable}
    {before : List Catalog.Class}
    (hnames : ∀ other ∈ before, other.name ≠ "")
    (h : Leaves (table.declareAll before) [] decl larger) :
    Leaves table before decl larger := by
  cases h with
  | refused h =>
      rw [Catalog.Class.enters_declareAll_iff hnames] at h
      exact .refused h
  | truncated h hempty =>
      rw [Catalog.Class.enters_declareAll_iff hnames] at h
      exact .truncated h hempty

/-- Classes are loaded up to the first that does not fit. -/
theorem stepwise_classes (env : Env) (st : TypeState)
    (classes : List Catalog.Class) :
    Stepwise (fun before decl => decl.Fits st.classes before)
      (fun done next =>
        next = (env, { st with classes := st.classes.declareAll done }))
      (fun before decl next => ∃ table, Leaves st.classes before decl table ∧
        next = (env, { st with classes := table }))
      classes ((classes.forM loadClass).run (env, st)) := by
  refine stepwise_forM ?_ ?_ classes
  swap
  · rfl
  rintro done _ decl hdone rfl
  have hnames := names_of_eachFits hdone
  have hstep := loadClass_step env
    { st with classes := st.classes.declareAll done } decl
  rw [Catalog.Class.fits_declareAll_iff hnames] at hstep
  rw [ClassTable.declareAll_snoc]
  generalize EStateM.run _ _ = result at hstep ⊢
  cases result with
  | ok u next => exact hstep
  | error e next =>
      obtain ⟨hfits, table, htable, hnext⟩ := hstep
      exact ⟨hfits, table, htable.of_declareAll hnames, hnext⟩

/-! ### Loading as a part of a session -/

theorem changes_addNamed (f : ClassTable → Name → ClassTable)
    (hf : ∀ (table : ClassTable) con, table.Change (f table con))
    (table : ClassTable) (texts : List String) :
    table.Changes (texts.foldl (addNamed f) table) := by
  induction texts generalizing table with
  | nil => exact .refl
  | cons text texts ih =>
      have hstep : table.Changes (addNamed f table text) := by
        rw [addNamed]
        split
        · exact .single (hf table _)
        · exact .refl
      exact hstep.trans (ih _)

/-- A class is declared by adding it and then its instances. -/
theorem changes_declare {table : ClassTable} (h : decl.Enters table []) :
    table.Changes (table.declare decl) := by
  obtain ⟨name, hname⟩ := Name.exists_ofString? h.named
  have hadd : table.Change ⟨table.decls.push (decl.bare table name)⟩ := by
    refine .addClass (fun d hd => ?_) (add?_of_enters h hname)
    obtain ⟨text, -, hfound⟩ := List.mem_filterMap.1 hd
    exact (ClassTable.find?_eq_some_iff.1 hfound).1
  have hinstances := changes_addNamed (·.addInstance ⟨table.decls.size⟩ ·)
    (fun table con => .addInstance _ con)
    ⟨table.decls.push (decl.bare table name)⟩ decl.instances
  rw [foldl_addInstance] at hinstances
  have hunconstrained := changes_addNamed
    (·.addUnconstrainedInstance ⟨table.decls.size⟩ ·)
    (fun table con => .addUnconstrainedInstance _ con)
    ⟨table.decls.push { decl.bare table name with
      instances := decl.instances.foldl noteName
        (decl.bare table name).instances }⟩ decl.unconstrained
  rw [foldl_addUnconstrainedInstance] at hunconstrained
  simp only [ClassTable.declare, hname, entry_eq]
  exact (hinstances.head hadd).trans hunconstrained

theorem changes_declareAll {table : ClassTable} {decls : List Catalog.Class}
    (h : EachFits (fun before decl => decl.Fits table before) decls) :
    table.Changes (table.declareAll decls) := by
  induction decls using List.reverseRecOn with
  | nil => exact .refl
  | append_singleton before decl ih =>
      obtain ⟨hbefore, hdecl⟩ := eachFits_snoc.1 h
      have henters := (Catalog.Class.enters_declareAll_iff
        (names_of_eachFits hbefore)).2 hdecl.toEnters
      rw [ClassTable.declareAll_snoc]
      exact (ih hbefore).trans (changes_declare henters)

theorem Leaves.changes {table larger : ClassTable}
    {before : List Catalog.Class}
    (hbefore : EachFits (fun before decl => decl.Fits table before) before)
    (h : Leaves table before decl larger) : table.Changes larger := by
  cases h with
  | refused _ => exact changes_declareAll hbefore
  | truncated h _ =>
      have henters : decl.truncate.Enters (table.declareAll before) [] :=
        (Catalog.Class.enters_declareAll_iff
          (names_of_eachFits hbefore)).2 { h with }
      exact (changes_declareAll hbefore).trans (changes_declare henters)

theorem Leaves.conserves {table larger : ClassTable}
    {before : List Catalog.Class} (h : Leaves table before decl larger) :
    table.Conserves larger := by
  cases h with
  | refused _ => exact table.conserves_declareAll before
  | truncated _ _ =>
      exact (table.conserves_declareAll before).trans
        (ClassTable.conserves_declare _ _)

end Env

end HindleyMilner

import HindleyMilner.Proofs.ClassLoad
import HindleyMilner.Proofs.NewScope

/-
Loading a catalog.  It succeeds exactly if all classes and then all functions
fit, each after those before it.  There is no way back from a failure, so what
was added before it stays.  Whatever happens, the classes and functions that
were there before are left as they are.
-/

namespace HindleyMilner

/-- Whether a declared function can be added to an environment after those
declared before it: it has a name of its own and a signature. -/
structure Catalog.Function.Fits (env : Env) (table : ClassTable)
    (before : List Catalog.Function) (decl : Catalog.Function) : Prop where
  named : decl.name ≠ ""
  new : env.lookup? decl.name = none
  distinct : ∀ other ∈ before, other.name ≠ decl.name
  reads : table.Reads decl.signature

/-- Whether a function is as it was declared.  Its signature was read in some
state of a session, in a scope of its own, and stands for the same since. -/
structure FunctionInfo.Follows (table : ClassTable) (now : Store)
    (info : FunctionInfo) (decl : Catalog.Function) : Prop where
  name : info.name.text = decl.name
  category : info.category = decl.category
  documentation : info.documentation = decl.documentation
  signature : ∃ s : Store, TypeState.Arises ⟨table, s⟩ ∧
    let read := (⟨table, s⟩ : TypeState).parse .empty decl.signature
    read.1 = .ok info.signature ∧
      info.signature.Stays read.2.2.store now

theorem FunctionInfo.Follows.later {table : ClassTable} {s s' : Store}
    {info : FunctionInfo} {decl : Catalog.Function}
    (h : info.Follows table s decl) (hstays : info.signature.Stays s s') :
    info.Follows table s' decl := by
  obtain ⟨start, harises, hread, hsame⟩ := h.signature
  exact { h with signature := ⟨start, harises, hread, hsame.trans hstays⟩ }

namespace Env

variable {env : Env} {st st' : TypeState} {next : Env × TypeState}
  {info : FunctionInfo} {infos : List FunctionInfo} {name : String}
  {decl : Catalog.Function} {decls done : List Catalog.Function}

theorem lookup?_eq_none_iff :
    env.lookup? name = none ↔
      ∀ info ∈ env.functions, info.name.text ≠ name := by
  simp [lookup?]

/-- Functions that are added at the end hide none. -/
theorem lookup?_append (infos : List FunctionInfo)
    (h : env.lookup? name = some info) :
    lookup? ⟨env.functions ++ infos⟩ name = some info := by
  rw [lookup?] at h
  rw [lookup?, List.find?_append, h, Option.some_or]

/-- What has been done when functions were loaded: they were added at the end,
as they were declared, and types were left alone. -/
structure Loaded (env : Env) (st : TypeState) (decls : List Catalog.Function)
    (next : Env × TypeState) : Prop where
  run : TypeState.Run st next.2
  classes : next.2.classes = st.classes
  size_le : st.store.size ≤ next.2.store.size
  added : ∃ infos, next.1.functions = env.functions ++ infos ∧
    List.Forall₂ (FunctionInfo.Follows st.classes next.2.store) infos decls
  stays : ∀ t : Ty TyVar, t.InRange st.store →
    t.Stays st.store next.2.store
  inRange : ∀ info ∈ next.1.functions,
    info.signature.InRange next.2.store

namespace Loaded

theorem start (hsignatures : ∀ info ∈ env.functions,
      info.signature.InRange st.store) : Loaded env st [] (env, st) where
  run := .refl
  classes := rfl
  size_le := Nat.le_refl _
  added := ⟨[], by simp, .nil⟩
  stays t _ := .refl t st.store
  inRange := hsignatures

theorem names_eq {table : ClassTable} {s : Store}
    (h : List.Forall₂ (FunctionInfo.Follows table s) infos decls) :
    infos.map (·.name.text) = decls.map (·.name) := by
  induction h with
  | nil => rfl
  | cons hinfo _ ih => rw [List.map_cons, List.map_cons, hinfo.name, ih]

/-- A name is free if no function had it and none was declared with it. -/
theorem lookup?_eq_none_iff (h : Loaded env st done next) :
    next.1.lookup? name = none ↔
      env.lookup? name = none ∧ ∀ other ∈ done, other.name ≠ name := by
  obtain ⟨infos, hfunctions, hinfos⟩ := h.added
  have hnames : (∀ info ∈ infos, info.name.text ≠ name) ↔
      ∀ other ∈ done, other.name ≠ name := by
    rw [← List.forall_mem_map (f := fun info : FunctionInfo => info.name.text)
      (P := (· ≠ name)), names_eq hinfos, List.forall_mem_map]
  rw [Env.lookup?_eq_none_iff, Env.lookup?_eq_none_iff, hfunctions,
    List.forall_mem_append, hnames]

/-- Reading another signature leaves everything as it is. -/
theorem read (h : Loaded env st done next) (hst : st.Arises)
    (text : String) :
    Loaded env st done (next.1, (next.2.parse .empty text).2.2) := by
  have hnext : next.2.Arises := hst.trans h.run
  have wf := hnext.wellFormed
  have hscope : Scope.empty.InRange next.2.store := nofun
  have hsize : next.2.store.size ≤
      (next.2.parse .empty text).2.2.store.size := by
    rw [TypeState.parse_snd]
    exact (TypeState.moves_of_parse text
      (wf.handing (fun _ => True) hscope)).size_le wf.ordered wf.wellFormed
  obtain ⟨infos, hfunctions, hinfos⟩ := h.added
  refine
    { run := h.run.tail (.step (.parse text hscope))
      classes := ?_
      size_le := Nat.le_trans h.size_le hsize
      added := ⟨infos, hfunctions, ?_⟩
      stays := fun t ht => ?_
      inRange := fun info hinfo => (h.inRange info hinfo).of_size_le hsize }
  · rw [TypeState.parse_snd]
    exact h.classes
  · have hinrange : ∀ info ∈ infos,
        info.signature.InRange next.2.store := by
      intro info hinfo
      apply h.inRange
      rw [hfunctions]
      exact List.mem_append_right _ hinfo
    apply ((List.forall₂_and_left _ _).2 ⟨hinrange, hinfos⟩).imp
    exact fun info decl hboth =>
      hboth.2.later (wf.stays_parse hboth.1 text)
  · exact (h.stays t ht).trans
      (wf.stays_parse (ht.of_size_le h.size_le) text)

theorem snoc (h : Loaded env st done next)
    (hinfo : info.Follows st.classes next.2.store decl)
    (hrange : info.signature.InRange next.2.store) :
    Loaded env st (done ++ [decl])
      (⟨next.1.functions ++ [info]⟩, next.2) := by
  obtain ⟨infos, hfunctions, hinfos⟩ := h.added
  refine { h with added := ⟨infos ++ [info], ?_, ?_⟩, inRange := ?_ }
  · rw [hfunctions, List.append_assoc]
  · exact List.rel_append hinfos (.cons hinfo .nil)
  · exact List.forall_mem_append.2
      ⟨h.inRange, List.forall_mem_singleton.2 hrange⟩

end Loaded

theorem loadFunction_run {name : Name}
    (hname : Name.ofString? decl.name = some name) (next : Env × TypeState) :
    let read := next.2.parse .empty decl.signature
    (loadFunction decl).run next =
      match read.1 with
      | .error e => .error (.signature name e) (next.1, read.2.2)
      | .ok signature =>
          let info : FunctionInfo :=
            ⟨name, signature, decl.category, decl.documentation⟩
          match next.1.lookup? name.text with
          | some _ => .error (.duplicateFunction name) (next.1, read.2.2)
          | none => .ok () (⟨next.1.functions ++ [info]⟩, read.2.2) := by
  intro read
  rw [loadFunction, bind_run_of_ok (nameOf_run_of_some hname), get_bind_run]
  have hread : next.2.parse .empty decl.signature = read := rfl
  rcases next with ⟨env, st⟩
  rcases read with ⟨result, scope, st'⟩
  dsimp only at hread ⊢
  rw [hread]
  cases result with
  | error e => rfl
  | ok signature =>
      cases hlookup : env.lookup? name.text <;>
        simp only [insert, hlookup] <;> rfl

theorem loadFunction_step (hst : st.Arises) (h : Loaded env st done next)
    (decl : Catalog.Function) :
    match (loadFunction decl).run next with
    | .ok _ last => decl.Fits env st.classes done ∧
        Loaded env st (done ++ [decl]) last
    | .error _ last => ¬ decl.Fits env st.classes done ∧
        Loaded env st done last := by
  by_cases hnamed : decl.name = ""
  · rw [loadFunction, hnamed, EStateM.run_bind, nameOf_run_empty]
    exact ⟨fun hfits => hfits.named hnamed, h⟩
  obtain ⟨name, hname⟩ := Name.exists_ofString? hnamed
  have htext := Name.ofString?_eq_some_iff.1 hname
  have harises : next.2.Arises := hst.trans h.run
  have hreads : (∃ ty, (next.2.parse .empty decl.signature).1 = .ok ty) ↔
      next.2.classes.Reads decl.signature :=
    TypeState.reads_iff harises.wellFormed.ordered
  have hnext := h.read hst decl.signature
  rw [loadFunction_run hname]
  dsimp only
  rw [h.classes] at hreads
  cases hread : (next.2.parse .empty decl.signature).1 with
  | error e =>
      refine ⟨fun hfits => ?_, hnext⟩
      obtain ⟨ty, hty⟩ := hreads.2 hfits.reads
      rw [hread] at hty
      cases hty
  | ok signature =>
      dsimp only
      rw [htext]
      cases hlookup : next.1.lookup? decl.name with
      | some other =>
          refine ⟨fun hfits => ?_, hnext⟩
          have hfree := h.lookup?_eq_none_iff.2 ⟨hfits.new, hfits.distinct⟩
          rw [hlookup] at hfree
          cases hfree
      | none =>
          obtain ⟨hnew, hdistinct⟩ := h.lookup?_eq_none_iff.1 hlookup
          have hstate : (⟨st.classes, next.2.store⟩ : TypeState) = next.2 := by
            rw [← h.classes]
          refine ⟨⟨hnamed, hnew, hdistinct, hreads.1 ⟨_, hread⟩⟩, hnext.snoc
            ⟨htext, rfl, rfl, next.2.store, ?_⟩ ?_⟩
          · rw [hstate]
            exact ⟨harises, hread, .refl _ _⟩
          · exact harises.wellFormed.inRange_parse nofun hread

/-- Functions are loaded up to the first that does not fit. -/
theorem stepwise_functions (hst : st.Arises)
    (hsignatures : ∀ info ∈ env.functions, info.signature.InRange st.store)
    (functions : List Catalog.Function) :
    Stepwise (Catalog.Function.Fits env st.classes) (Loaded env st)
      (fun before _ next => Loaded env st before next)
      functions ((functions.forM loadFunction).run (env, st)) := by
  apply stepwise_forM _ (Loaded.start hsignatures)
  intro done next decl _ hdone
  have hstep := loadFunction_step hst hdone decl
  generalize EStateM.run _ _ = result at hstep ⊢
  cases result with
  | ok u last => exact hstep
  | error e last => exact hstep

end Env

/-! ### Loading a catalog -/

theorem TypeState.Step.of_change {st : TypeState} {larger : ClassTable}
    (h : st.classes.Change larger) :
    TypeState.Step st { st with classes := larger } := by
  cases h with
  | addClass hsupers hadd => exact .addClass hsupers hadd
  | addInstance c con => exact .addInstance st c con
  | addUnconstrainedInstance c con =>
      exact .addUnconstrainedInstance st c con

theorem TypeState.run_of_changes {st : TypeState} {larger : ClassTable}
    (h : st.classes.Changes larger) :
    TypeState.Run st { st with classes := larger } := by
  induction h with
  | refl => exact .refl
  | tail _ hchange ih => exact ih.tail (.step (.of_change hchange))

/-- Whether everything in a catalog can be added. -/
structure Catalog.Loadable (env : Env) (table : ClassTable)
    (catalog : Catalog) : Prop where
  version : catalog.version = supportedVersion
  classes : EachFits (Class.Fits table) catalog.classes
  functions : EachFits
    (Function.Fits env (table.declareAll catalog.classes)) catalog.functions

namespace Env

variable {env : Env} {st : TypeState} {next : Env × TypeState}
  {catalog : Catalog} {decls : List Catalog.Function}

/-- What is left of a catalog that cannot be loaded as a whole: nothing if it
has another version, and what comes before the first item that does not fit
otherwise. -/
inductive Leftover (env : Env) (st : TypeState) (catalog : Catalog) :
    Env × TypeState → Prop
  | ofVersion (hversion : catalog.version ≠ Catalog.supportedVersion) :
      Leftover env st catalog (env, st)
  | ofClasses {before after : List Catalog.Class} {decl : Catalog.Class}
      {table : ClassTable}
      (hversion : catalog.version = Catalog.supportedVersion)
      (hclasses : catalog.classes = before ++ decl :: after)
      (hbefore : EachFits (Catalog.Class.Fits st.classes) before)
      (hdecl : ¬ decl.Fits st.classes before)
      (hleaves : Leaves st.classes before decl table) :
      Leftover env st catalog (env, { st with classes := table })
  | ofFunctions {before after : List Catalog.Function}
      {decl : Catalog.Function} {next : Env × TypeState}
      (hversion : catalog.version = Catalog.supportedVersion)
      (hclasses : EachFits (Catalog.Class.Fits st.classes) catalog.classes)
      (hfunctions : catalog.functions = before ++ decl :: after)
      (hbefore : EachFits (Catalog.Function.Fits env
        (st.classes.declareAll catalog.classes)) before)
      (hdecl : ¬ decl.Fits env (st.classes.declareAll catalog.classes) before)
      (hloaded : Loaded env
        { st with classes := st.classes.declareAll catalog.classes }
        before next) :
      Leftover env st catalog next

theorem Leftover.not_loadable (h : Leftover env st catalog next) :
    ¬ catalog.Loadable env st.classes := by
  intro hloadable
  cases h with
  | ofVersion hversion => exact hversion hloadable.version
  | ofClasses _ hclasses _ hdecl _ =>
      exact hdecl (hloadable.classes _ _ _ hclasses)
  | ofFunctions _ _ hfunctions _ hdecl _ =>
      exact hdecl (hloadable.functions _ _ _ hfunctions)

/-- Whether all that an environment and a state had is still there as it
was. -/
structure Conserves (env : Env) (st : TypeState) (next : Env × TypeState) :
    Prop where
  run : TypeState.Run st next.2
  classes : st.classes.Conserves next.2.classes
  functions : ∀ ⦃name info⦄, env.lookup? name = some info →
    next.1.lookup? name = some info
  stays : ∀ info ∈ env.functions,
    info.signature.Stays st.store next.2.store
  inRange : ∀ info ∈ next.1.functions,
    info.signature.InRange next.2.store

/-- A table may change if it has what it had. -/
theorem conserves_withClasses {table : ClassTable}
    (hsignatures : ∀ info ∈ env.functions, info.signature.InRange st.store)
    (hchanges : st.classes.Changes table)
    (hconserves : st.classes.Conserves table) :
    Conserves env st (env, { st with classes := table }) where
  run := TypeState.run_of_changes hchanges
  classes := hconserves
  functions _ _ := id
  stays info _ := .refl info.signature st.store
  inRange := hsignatures

theorem Loaded.conserves {classes : List Catalog.Class}
    (hsignatures : ∀ info ∈ env.functions, info.signature.InRange st.store)
    (hclasses : EachFits (Catalog.Class.Fits st.classes) classes)
    (h : Loaded env { st with classes := st.classes.declareAll classes }
      decls next) : Conserves env st next where
  run := (TypeState.run_of_changes (changes_declareAll hclasses)).trans h.run
  classes := by
    rw [h.classes]
    exact st.classes.conserves_declareAll classes
  functions name info hinfo := by
    obtain ⟨infos, hfunctions, -⟩ := h.added
    have hlookup := lookup?_append infos hinfo
    rwa [← hfunctions] at hlookup
  stays info hinfo := h.stays info.signature (hsignatures info hinfo)
  inRange := h.inRange

theorem Leftover.conserves
    (hsignatures : ∀ info ∈ env.functions, info.signature.InRange st.store)
    (h : Leftover env st catalog next) : Conserves env st next := by
  cases h with
  | ofVersion _ =>
      exact conserves_withClasses hsignatures .refl (.refl st.classes)
  | ofClasses _ _ hbefore _ hleaves =>
      exact conserves_withClasses hsignatures (hleaves.changes hbefore)
        hleaves.conserves
  | ofFunctions _ hclasses _ _ _ hloaded =>
      exact hloaded.conserves hsignatures hclasses

theorem load_run_of_version (h : catalog.version = Catalog.supportedVersion)
    (now : Env × TypeState) :
    (load catalog).run now = (catalog.classes.forM loadClass >>= fun _ =>
      catalog.functions.forM loadFunction).run now := by
  rw [load, if_neg (not_not_intro h)]

theorem load_run_of_not_version
    (h : catalog.version ≠ Catalog.supportedVersion)
    (now : Env × TypeState) :
    (load catalog).run now = .error (.version catalog.version) now := by
  rw [load, if_pos h]
  rfl

theorem load_outcome (hst : st.Arises)
    (hsignatures : ∀ info ∈ env.functions, info.signature.InRange st.store)
    (catalog : Catalog) :
    match (load catalog).run (env, st) with
    | .ok _ next => catalog.Loadable env st.classes ∧ Loaded env
        { st with classes := st.classes.declareAll catalog.classes }
        catalog.functions next
    | .error _ next => Leftover env st catalog next := by
  by_cases hversion : catalog.version = Catalog.supportedVersion
  swap
  · rw [load_run_of_not_version hversion]
    exact .ofVersion hversion
  rw [load_run_of_version hversion, EStateM.run_bind]
  have hclasses := stepwise_classes env st catalog.classes
  generalize EStateM.run (List.forM catalog.classes _) _ = result
    at hclasses ⊢
  cases hclasses with
  | first hitems hbefore hdecl hstopped =>
      obtain ⟨table, hleaves, rfl⟩ := hstopped
      exact .ofClasses hversion hitems hbefore hdecl hleaves
  | all hfits hadded =>
      subst hadded
      have hrun := TypeState.run_of_changes (changes_declareAll hfits)
      have hfunctions :=
        stepwise_functions (hst.trans hrun) hsignatures catalog.functions
      dsimp only
      generalize EStateM.run _ _ = result at hfunctions ⊢
      cases hfunctions with
      | first hitems hbefore hdecl hstopped =>
          exact .ofFunctions hversion hfits hitems hbefore hdecl hstopped
      | all hfits' hadded => exact ⟨⟨hversion, hfits, hfits'⟩, hadded⟩

/-- A catalog is loaded exactly if it has the right version and all of it
fits.  If it does not, what comes before the first item that does not fit has
been added.  Either way all that was there is left as it was, and signatures
are over the variables of the state again. -/
theorem load_conservative (hst : st.Arises)
    (hsignatures : ∀ info ∈ env.functions, info.signature.InRange st.store)
    (catalog : Catalog) :
    ((∃ u next, (load catalog).run (env, st) = .ok u next) ↔
        catalog.Loadable env st.classes) ∧
      (∀ u next, (load catalog).run (env, st) = .ok u next → Loaded env
        { st with classes := st.classes.declareAll catalog.classes }
        catalog.functions next) ∧
      (∀ e next, (load catalog).run (env, st) = .error e next →
        Leftover env st catalog next) ∧
      Conserves env st (finalState ((load catalog).run (env, st))) := by
  have houtcome := load_outcome hst hsignatures catalog
  generalize (load catalog).run (env, st) = result at houtcome ⊢
  cases result with
  | ok u next =>
      obtain ⟨hloadable, hloaded⟩ := houtcome
      refine ⟨iff_of_true ⟨u, next, rfl⟩ hloadable, ?_, nofun,
        hloaded.conserves hsignatures hloadable.classes⟩
      rintro _ _ ⟨⟩
      exact hloaded
  | error e next =>
      refine ⟨iff_of_false nofun houtcome.not_loadable, nofun, ?_,
        houtcome.conserves hsignatures⟩
      rintro _ _ ⟨⟩
      exact houtcome

def equalities : Catalog where
  version := Catalog.supportedVersion
  classes := [⟨"Eq", [], ["Int"], []⟩]
  functions := [⟨"(==)", "Eq a => a -> a -> Bool", "", ""⟩]

def orderings : Catalog where
  version := Catalog.supportedVersion
  classes := [⟨"Ord", ["Eq"], ["Int", "", "Bool"], ["()"]⟩]
  functions := [⟨"(<)", "Ord a => a -> a -> Bool", "", ""⟩]

def withEqualities : Env × TypeState :=
  finalState ((load equalities).run (.empty, .empty))

def instanceTexts (table : ClassTable) : List (String × List String) :=
  table.decls.toList.map fun entry =>
    (entry.name.text, entry.instances.map (·.text))

theorem load_conservative_orderings :
    withEqualities.1.size = 1 ∧
      ¬ orderings.Loadable withEqualities.1 withEqualities.2.classes ∧
      ∃ e next, (load orderings).run withEqualities = .error e next ∧
        instanceTexts next.2.classes = [("Eq", ["Int"]), ("Ord", ["Int"])] ∧
        Leftover withEqualities.1 withEqualities.2 orderings next ∧
        Conserves withEqualities.1 withEqualities.2 next := by
  have hempty : ∀ info ∈ empty.functions,
      info.signature.InRange TypeState.empty.store := nofun
  have hfirst : Conserves empty .empty withEqualities :=
    (load_conservative .refl hempty equalities).2.2.2
  obtain ⟨hloads, -, hleft, hconserves⟩ :=
    load_conservative hfirst.run hfirst.inRange orderings
  have hnot : ¬ orderings.Loadable withEqualities.1
      withEqualities.2.classes := fun h =>
    (h.classes [] _ [] rfl).instances "" (by decide) rfl
  have htexts : instanceTexts (finalState
      ((load orderings).run withEqualities)).2.classes =
        [("Eq", ["Int"]), ("Ord", ["Int"])] := by decide +kernel
  refine ⟨by decide +kernel, hnot, ?_⟩
  cases hrun : (load orderings).run withEqualities with
  | ok u next => exact absurd (hloads.1 ⟨u, next, hrun⟩) hnot
  | error e next =>
      have hnext : finalState ((load orderings).run withEqualities) = next :=
        congrArg finalState hrun
      rw [hnext] at htexts
      exact ⟨e, next, rfl, htexts, hleft e next hrun, hnext ▸ hconserves⟩

end Env

end HindleyMilner

import HindleyMilner.Catalog
import HindleyMilner.Proofs.TableGrowth

/-
What a catalog adds to a class table.  Classes are declared one after the
other, and each has to fit after those before it: it has a name of its own, and
its superclasses are there already.
-/

namespace HindleyMilner

/-! ### Items that fit one after the other -/

section

variable {B E S : Type} {fits : List B → B → Prop} {items before : List B}
  {item : B}

/-- Whether every item of a list fits after the ones before it. -/
def EachFits (fits : List B → B → Prop) (items : List B) : Prop :=
  ∀ before item after, items = before ++ item :: after → fits before item

theorem eachFits_nil : EachFits fits [] := by
  simp [EachFits]

theorem eachFits_snoc :
    EachFits fits (before ++ [item]) ↔
      EachFits fits before ∧ fits before item := by
  constructor
  · intro h
    refine ⟨fun front other after hitems => ?_, h before item [] rfl⟩
    exact h front other (after ++ [item]) (by simp [hitems])
  · rintro ⟨hbefore, hitem⟩ front other after hitems
    rcases List.eq_nil_or_concat after with rfl | ⟨others, last, rfl⟩
    · obtain ⟨rfl, rfl⟩ : before = front ∧ item = other := by
        simpa using hitems
      exact hitem
    · rw [List.concat_eq_append, ← List.cons_append, ← List.append_assoc]
        at hitems
      exact hbefore front other others (List.append_inj_left' hitems rfl)

/-- Where fitting has nothing to do with the items before. -/
theorem eachFits_iff {p : B → Prop} :
    EachFits (fun _ item => p item) items ↔ ∀ item ∈ items, p item := by
  constructor
  · intro h item hitem
    obtain ⟨before, after, hitems⟩ := List.append_of_mem hitem
    exact h before item after hitems
  · rintro h before item after rfl
    exact h item (by simp)

theorem EachFits.exists_fits (h : EachFits fits items) (hitem : item ∈ items) :
    ∃ before, fits before item := by
  obtain ⟨before, after, hitems⟩ := List.append_of_mem hitem
  exact ⟨before, h before item after hitems⟩

/-- What comes of adding items one after the other: all fit and were added, or
those before the first that does not fit were. -/
inductive Stepwise (fits : List B → B → Prop) (added : List B → S → Prop)
    (stopped : List B → B → S → Prop) (items : List B) :
    EStateM.Result E S PUnit → Prop
  | all {u : PUnit} {s : S} (hfits : EachFits fits items)
      (hadded : added items s) : Stepwise fits added stopped items (.ok u s)
  | first {e : E} {s : S} {before after : List B} {item : B}
      (hitems : items = before ++ item :: after)
      (hbefore : EachFits fits before) (hitem : ¬ fits before item)
      (hstopped : stopped before item s) :
      Stepwise fits added stopped items (.error e s)

/-- A loop over items is as good as its steps. -/
theorem stepwise_forM {added : List B → S → Prop}
    {stopped : List B → B → S → Prop} {f : B → EStateM E S PUnit} {s : S}
    (hstep : ∀ ⦃done s⦄ item, EachFits fits done → added done s →
      match (f item).run s with
      | .ok _ s' => fits done item ∧ added (done ++ [item]) s'
      | .error _ s' => ¬ fits done item ∧ stopped done item s')
    (hs : added [] s) (items : List B) :
    Stepwise fits added stopped items ((items.forM f).run s) := by
  have hrest (rest : List B) {done : List B} {s : S}
      (hdone : EachFits fits done) (hs : added done s) :
      Stepwise fits added stopped (done ++ rest) ((rest.forM f).run s) := by
    induction rest generalizing done s with
    | nil =>
        rw [List.append_nil]
        exact .all hdone hs
    | cons item rest ih =>
        have hitem := hstep item hdone hs
        change Stepwise _ _ _ _ ((f item >>= fun _ => rest.forM f).run s)
        rw [EStateM.run_bind]
        split at hitem
        · rename_i u s' hrun
          rw [hrun]
          have hnext := ih (eachFits_snoc.2 ⟨hdone, hitem.1⟩) hitem.2
          rwa [List.append_assoc] at hnext
        · rename_i e s' hrun
          rw [hrun]
          exact .first rfl hdone hitem.1 hitem.2
  exact hrest items eachFits_nil hs

end

/-! ### What declarations say -/

/-- Lists the name with a text once; the empty text is no name. -/
def noteName (names : List Name) (text : String) : List Name :=
  match Name.ofString? text with
  | some name => names.insert name
  | none => names

/-- What a declared class is listed as before it has instances. -/
def Catalog.Class.bare (table : ClassTable) (decl : Catalog.Class)
    (name : Name) : ClassDecl :=
  ⟨name, decl.supers.filterMap table.find?, [], []⟩

/-- What a declared class is listed as after the classes of a table. -/
def Catalog.Class.entry (table : ClassTable) (decl : Catalog.Class)
    (name : Name) : ClassDecl where
  name
  supers := decl.supers.filterMap table.find?
  instances := (decl.instances ++ decl.unconstrained).foldl noteName []
  unconstrained := decl.unconstrained.foldl noteName []

def ClassTable.declare (table : ClassTable) (decl : Catalog.Class) :
    ClassTable :=
  match Name.ofString? decl.name with
  | some name => ⟨table.decls.push (decl.entry table name)⟩
  | none => table

def ClassTable.declareAll (table : ClassTable) (decls : List Catalog.Class) :
    ClassTable :=
  decls.foldl declare table

/-- A declaration without the instances from the first empty name on. -/
def Catalog.Class.truncate (decl : Catalog.Class) : Catalog.Class where
  name := decl.name
  supers := decl.supers
  instances := decl.instances.takeWhile (· ≠ "")
  unconstrained :=
    if "" ∈ decl.instances then []
    else decl.unconstrained.takeWhile (· ≠ "")

theorem takeWhile_named {before after : List String}
    (h : ∀ text ∈ before, text ≠ "") :
    (before ++ "" :: after).takeWhile (· ≠ "") = before := by
  rw [List.takeWhile_append_of_pos (by simpa using h)]
  simp

theorem Catalog.Class.truncate_of_mem {decl : Catalog.Class}
    (h : "" ∈ decl.instances) :
    decl.truncate = { decl with
      instances := decl.instances.takeWhile (· ≠ "")
      unconstrained := [] } := by
  rw [truncate, if_pos h]

theorem Catalog.Class.truncate_of_named {decl : Catalog.Class}
    (h : ∀ text ∈ decl.instances, text ≠ "") :
    decl.truncate = { decl with
      unconstrained := decl.unconstrained.takeWhile (· ≠ "") } := by
  rw [truncate, if_neg fun hmem => h "" hmem rfl,
    List.takeWhile_eq_self_iff.2 (by simpa using h)]

/-- Whether a declared class can be added after the classes of a table and
those declared before it: it has a name of its own, and its superclasses are
among them. -/
structure Catalog.Class.Enters (table : ClassTable)
    (before : List Catalog.Class) (decl : Catalog.Class) : Prop where
  named : decl.name ≠ ""
  new : table.find? decl.name = none
  distinct : ∀ other ∈ before, other.name ≠ decl.name
  supers : ∀ text ∈ decl.supers,
    (table.find? text).isSome = true ∨ ∃ other ∈ before, other.name = text

/-- Whether a declared class can be added with all its instances. -/
structure Catalog.Class.Fits (table : ClassTable)
    (before : List Catalog.Class) (decl : Catalog.Class) : Prop
    extends Enters table before decl where
  instances : ∀ text ∈ decl.instances ++ decl.unconstrained, text ≠ ""

/-! ### Names -/

section

variable {table : ClassTable} {text : String} {name : Name}
  {decl : Catalog.Class} {before : List Catalog.Class}

theorem Name.ofString?_eq_some_iff :
    Name.ofString? text = some name ↔ name.text = text := by
  constructor
  · intro h
    unfold Name.ofString? at h
    split at h
    · contradiction
    · cases h
      rfl
  · rintro rfl
    exact name.ofString?_text

theorem Name.exists_ofString? (h : text ≠ "") :
    ∃ name, Name.ofString? text = some name :=
  ⟨⟨text, h⟩, Name.ofString?_eq_some_iff.2 rfl⟩

/-! ### Tables with declared classes -/

namespace ClassTable

theorem find?_push (decls : Array ClassDecl) (entry : ClassDecl)
    (text : String) :
    find? ⟨decls.push entry⟩ text =
      (find? ⟨decls⟩ text).or
        (if entry.name.text = text then some ⟨decls.size⟩ else none) := by
  rw [find?, find?, Array.findIdx?_push]
  cases decls.findIdx? (·.name.text == text) with
  | some i => rfl
  | none =>
      by_cases htext : entry.name.text = text <;> simp [htext]

theorem isSome_find?_declare (hname : decl.name ≠ "") :
    ((table.declare decl).find? text).isSome = true ↔
      (table.find? text).isSome = true ∨ decl.name = text := by
  obtain ⟨name, hname⟩ := Name.exists_ofString? hname
  rw [declare, hname, find?_push, Option.isSome_or, Bool.or_eq_true,
    ← Name.ofString?_eq_some_iff.1 hname]
  by_cases htext : name.text = text <;>
    simp [Catalog.Class.entry, htext]

/-- A class is found after others were declared if it was there or is one of
them. -/
theorem isSome_find?_declareAll (hnames : ∀ decl ∈ before, decl.name ≠ "") :
    ((table.declareAll before).find? text).isSome = true ↔
      (table.find? text).isSome = true ∨
        ∃ decl ∈ before, decl.name = text := by
  induction before generalizing table with
  | nil => simp [declareAll]
  | cons decl before ih =>
      rw [List.forall_mem_cons] at hnames
      rw [declareAll, List.foldl_cons, ← declareAll, ih hnames.2,
        isSome_find?_declare hnames.1, or_assoc]
      simp

/-- Whether a table has the classes of another as they are, under their
names. -/
structure Conserves (table larger : ClassTable) : Prop where
  decl?_eq : ∀ ⦃c⦄, c.index < table.size → larger.decl? c = table.decl? c
  find?_eq : ∀ ⦃text c⦄, table.find? text = some c →
    larger.find? text = some c

theorem Conserves.refl (table : ClassTable) : table.Conserves table :=
  ⟨fun _ _ => rfl, fun _ _ => id⟩

theorem Conserves.trans {larger largest : ClassTable}
    (h : table.Conserves larger) (h' : larger.Conserves largest) :
    table.Conserves largest where
  decl?_eq c hc := by
    have hlarger : c.index < larger.size := by
      by_contra hout
      have hdecl := h.decl?_eq hc
      rw [decl?_eq_none hout, decl?, Array.getElem?_eq_getElem hc] at hdecl
      cases hdecl
    exact (h'.decl?_eq hlarger).trans (h.decl?_eq hc)
  find?_eq text c hc := h'.find?_eq (h.find?_eq hc)

theorem conserves_declare (table : ClassTable) (decl : Catalog.Class) :
    table.Conserves (table.declare decl) := by
  rw [declare]
  split
  · refine ⟨fun c hc => ?_, fun text c hc => ?_⟩
    · have hne : c.index ≠ table.decls.size := Nat.ne_of_lt hc
      rw [decl?, decl?, Array.getElem?_push, if_neg hne]
    · rw [find?_push, hc, Option.some_or]
  · exact .refl table

/-- Declared classes change nothing about those before. -/
theorem conserves_declareAll (table : ClassTable)
    (decls : List Catalog.Class) :
    table.Conserves (table.declareAll decls) := by
  induction decls generalizing table with
  | nil => exact .refl table
  | cons decl decls ih => exact (conserves_declare table decl).trans (ih _)

@[simp] theorem declareAll_nil (table : ClassTable) :
    table.declareAll [] = table :=
  rfl

theorem declareAll_snoc (table : ClassTable) (before : List Catalog.Class)
    (decl : Catalog.Class) :
    table.declareAll (before ++ [decl]) =
      (table.declareAll before).declare decl := by
  rw [declareAll, List.foldl_append]
  rfl

end ClassTable

/-- A class enters after declared ones if it enters the table that has
them. -/
theorem Catalog.Class.enters_declareAll_iff
    (hnames : ∀ other ∈ before, other.name ≠ "") :
    decl.Enters (table.declareAll before) [] ↔ decl.Enters table before := by
  have hnone : (table.declareAll before).find? decl.name = none ↔
      table.find? decl.name = none ∧
        ∀ other ∈ before, other.name ≠ decl.name := by
    rw [← Option.not_isSome_iff_eq_none,
      ClassTable.isSome_find?_declareAll hnames]
    simp
  constructor
  · rintro ⟨hnamed, hnew, -, hsupers⟩
    rw [hnone] at hnew
    refine ⟨hnamed, hnew.1, hnew.2, fun text htext => ?_⟩
    rw [← ClassTable.isSome_find?_declareAll hnames]
    exact (hsupers text htext).resolve_right (by simp)
  · rintro ⟨hnamed, hnew, hdistinct, hsupers⟩
    refine ⟨hnamed, hnone.2 ⟨hnew, hdistinct⟩, by simp, fun text htext => ?_⟩
    exact .inl ((ClassTable.isSome_find?_declareAll hnames).2
      (hsupers text htext))

theorem names_of_eachFits
    (h : EachFits (fun before decl => decl.Fits table before) before) :
    ∀ other ∈ before, other.name ≠ "" := by
  intro other hother
  obtain ⟨_, hfits⟩ := h.exists_fits hother
  exact hfits.named

theorem Catalog.Class.fits_declareAll_iff
    (hnames : ∀ other ∈ before, other.name ≠ "") :
    decl.Fits (table.declareAll before) [] ↔ decl.Fits table before := by
  constructor <;> rintro ⟨henters, hinstances⟩
  · exact ⟨(enters_declareAll_iff hnames).1 henters, hinstances⟩
  · exact ⟨(enters_declareAll_iff hnames).2 henters, hinstances⟩

end

end HindleyMilner

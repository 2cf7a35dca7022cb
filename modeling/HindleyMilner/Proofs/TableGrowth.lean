import HindleyMilner.Proofs.Meets

/-
Class tables that grow.  Classes and instances are added and never taken back,
and the superclasses of a class are fixed when it is added.  So whatever type
meets a class goes on to meet it: what is asked of arguments only becomes
less, as more instances are unconstrained.
-/

namespace HindleyMilner

namespace ClassTable

variable {table larger : ClassTable} {c d : ClassId} {con : Name}

/-- Whether a table has the classes and instances of another, and maybe
more. -/
structure Grows (table larger : ClassTable) : Prop where
  supers_eq : ∀ ⦃c⦄, c.index < table.size → larger.supers c = table.supers c
  instances : ∀ c, table.instances c ⊆ larger.instances c
  unconstrained : ∀ c, table.unconstrained c ⊆ larger.unconstrained c

/-- A class that the table does not have has no declaration. -/
theorem decl?_eq_none (h : ¬ c.index < table.size) : table.decl? c = none :=
  Array.getElem?_eq_none (Nat.le_of_not_lt h)

theorem lt_size_of_super (h : table.Super c d) : c.index < table.size := by
  by_contra hout
  simp [Super, supers, decl?_eq_none hout] at h

theorem lt_size_of_hasInstance (h : table.hasInstance c con = true) :
    c.index < table.size := by
  by_contra hout
  have hmem := (hasInstance_iff.1 h).1
  simp [instances, decl?_eq_none hout] at hmem

/-! ### Additions -/

theorem getElem?_decls_add? {name : Name} {supers : List ClassId}
    (hadd : table.add? name supers = some larger) (hc : c.index < table.size) :
    larger.decl? c = table.decl? c := by
  simp only [add?, Option.ite_none_left_eq_some, Option.some.injEq] at hadd
  rcases hadd with ⟨-, rfl⟩
  simp only [decl?, Array.getElem?_push]
  exact if_neg (Nat.ne_of_lt hc)

theorem grows_add? {name : Name} {supers : List ClassId}
    (hadd : table.add? name supers = some larger) : table.Grows larger where
  supers_eq c hc := by
    rw [ClassTable.supers, ClassTable.supers, getElem?_decls_add? hadd hc]
  instances c := by
    by_cases hc : c.index < table.size
    · rw [ClassTable.instances, ClassTable.instances,
        getElem?_decls_add? hadd hc]
      exact List.Subset.refl _
    · simp [ClassTable.instances, decl?_eq_none hc]
  unconstrained c := by
    by_cases hc : c.index < table.size
    · rw [ClassTable.unconstrained, ClassTable.unconstrained,
        getElem?_decls_add? hadd hc]
      exact List.Subset.refl _
    · simp [ClassTable.unconstrained, decl?_eq_none hc]

/-- A declaration that is changed without taking anything back. -/
theorem grows_modify {f : ClassDecl → ClassDecl}
    (hsupers : ∀ decl, (f decl).supers = decl.supers)
    (hinstances : ∀ decl, decl.instances ⊆ (f decl).instances)
    (hunconstrained : ∀ decl, decl.unconstrained ⊆ (f decl).unconstrained)
    (changed : ClassId) :
    table.Grows ⟨table.decls.modify changed.index f⟩ where
  supers_eq c _ := supers_modify_of_supers_eq hsupers changed
  instances c := by
    simp only [instances, decl?, Array.getElem?_modify]
    split
    · cases table.decls[c.index]? with
      | none => exact List.Subset.refl _
      | some decl => exact hinstances decl
    · exact List.Subset.refl _
  unconstrained c := by
    simp only [unconstrained, decl?, Array.getElem?_modify]
    split
    · cases table.decls[c.index]? with
      | none => exact List.Subset.refl _
      | some decl => exact hunconstrained decl
    · exact List.Subset.refl _

theorem grows_addInstance (c : ClassId) (con : Name) :
    table.Grows (table.addInstance c con) := by
  apply grows_modify
  · exact fun _ => rfl
  · exact fun _ _ => List.mem_insert_of_mem
  · exact fun _ => List.Subset.refl _

theorem grows_addUnconstrainedInstance (c : ClassId) (con : Name) :
    table.Grows (table.addUnconstrainedInstance c con) := by
  apply grows_modify
  · exact fun _ => rfl
  · exact fun _ _ => List.mem_insert_of_mem
  · exact fun _ _ => List.mem_insert_of_mem

/-- One change of a class table. -/
inductive Change (table : ClassTable) : ClassTable → Prop
  | addClass {name : Name} {supers : List ClassId} {larger : ClassTable}
      (hsupers : ∀ d ∈ supers, d.index < table.size)
      (hadd : table.add? name supers = some larger) : Change table larger
  | addInstance (c : ClassId) (con : Name) :
      Change table (table.addInstance c con)
  | addUnconstrainedInstance (c : ClassId) (con : Name) :
      Change table (table.addUnconstrainedInstance c con)

theorem Change.ordered (h : table.Change larger) (ordered : table.Ordered) :
    larger.Ordered := by
  cases h with
  | addClass hsupers hadd => exact ordered.add? hsupers hadd
  | addInstance c con => exact ordered.addInstance c con
  | addUnconstrainedInstance c con =>
      exact ordered.addUnconstrainedInstance c con

theorem Change.grows (h : table.Change larger) : table.Grows larger := by
  cases h with
  | addClass hsupers hadd => exact grows_add? hadd
  | addInstance c con => exact grows_addInstance c con
  | addUnconstrainedInstance c con =>
      exact grows_addUnconstrainedInstance c con

/-- A change of the table keeps the classes that it has. -/
theorem Change.size_le (h : table.Change larger) :
    table.size ≤ larger.size := by
  cases h with
  | addClass _ hadd =>
      simp only [add?, Option.ite_none_left_eq_some, Option.some.injEq] at hadd
      rcases hadd with ⟨-, rfl⟩
      simp [size]
  | addInstance c con => simp [ClassTable.addInstance, size]
  | addUnconstrainedInstance c con =>
      simp [ClassTable.addUnconstrainedInstance, size]

abbrev Changes : ClassTable → ClassTable → Prop :=
  Relation.ReflTransGen Change

theorem Changes.ordered (h : table.Changes larger)
    (ordered : table.Ordered) : larger.Ordered := by
  induction h with
  | refl => exact ordered
  | tail _ hchange ih => exact hchange.ordered ih

theorem Changes.size_le (h : table.Changes larger) :
    table.size ≤ larger.size := by
  induction h with
  | refl => exact Nat.le_refl _
  | tail _ hchange ih => exact Nat.le_trans ih hchange.size_le

/-- Whether a table is made by changes from the one without classes. -/
def Built (table : ClassTable) : Prop :=
  empty.Changes table

theorem Built.ordered (h : table.Built) : table.Ordered :=
  Changes.ordered h ordered_empty

theorem Built.push {decls : Array ClassDecl} (h : Built ⟨decls⟩) {name : Name}
    {supers : List ClassId} (hname : find? ⟨decls⟩ name.text = none)
    (hsupers : ∀ d ∈ supers, d.index < decls.size) :
    Built ⟨decls.push ⟨name, supers, [], []⟩⟩ := by
  have hadd : add? ⟨decls⟩ name supers =
      some ⟨decls.push ⟨name, supers, [], []⟩⟩ := by
    rw [add?, hname]
    rfl
  exact .tail h (.addClass hsupers hadd)

theorem Built.addInstance (h : table.Built) (c : ClassId) (con : Name) :
    (table.addInstance c con).Built :=
  .tail h (.addInstance c con)

theorem Built.addUnconstrainedInstance (h : table.Built) (c : ClassId)
    (con : Name) : (table.addUnconstrainedInstance c con).Built :=
  .tail h (.addUnconstrainedInstance c con)

/-- Four classes, two of them below the first and above the last. -/
def numericClasses : ClassTable :=
  ⟨(((#[].push ⟨⟨"Equal", by decide⟩, [], [], []⟩).push
    ⟨⟨"Ordered", by decide⟩, [⟨0⟩], [], []⟩).push
    ⟨⟨"Number", by decide⟩, [⟨0⟩], [], []⟩).push
    ⟨⟨"Real", by decide⟩, [⟨2⟩, ⟨1⟩], [], []⟩⟩

theorem numericClasses_built : numericClasses.Built := by
  have hempty : empty.Built := .refl
  refine .push (.push (.push (.push hempty ?_ ?_) ?_ ?_) ?_ ?_) ?_ ?_
  all_goals decide +kernel

def int : Name := ⟨"Int", by decide⟩

def ratio : Name := ⟨"Ratio", by decide⟩

/-- The constructors of whole numbers and of fractions are instances of all
four classes.  Fractions are compared by their parts, and they are numbers
whatever their parts are. -/
def rationals : ClassTable :=
  (((((((numericClasses.addInstance ⟨0⟩ int).addInstance ⟨1⟩ int).addInstance
    ⟨2⟩ int).addInstance ⟨3⟩ int).addInstance ⟨0⟩ ratio).addInstance
    ⟨1⟩ ratio).addUnconstrainedInstance ⟨2⟩ ratio).addUnconstrainedInstance
    ⟨3⟩ ratio

theorem rationals_built : rationals.Built :=
  (((((((numericClasses_built.addInstance _ _).addInstance _ _).addInstance
    _ _).addInstance _ _).addInstance _ _).addInstance
    _ _).addUnconstrainedInstance _ _).addUnconstrainedInstance _ _

/-! ### Names of classes -/

/-- Whether every class of the table is found by its name. -/
def Found (table : ClassTable) : Prop :=
  ∀ ⦃c : ClassId⦄, c.index < table.size →
    table.find? (table.nameOf c) = some c

theorem nameOf_eq (hc : c.index < table.size) :
    table.nameOf c = table.decls[c.index].name.text := by
  rw [nameOf, decl?, Array.getElem?_eq_getElem hc]
  rfl

/-- The first class of a name is found. -/
theorem find?_eq_some_iff {text : String} :
    table.find? text = some c ↔
      c.index < table.size ∧ table.nameOf c = text ∧
        ∀ d : ClassId, d.index < c.index → table.nameOf d ≠ text := by
  rw [find?, Option.map_eq_some_iff]
  constructor
  · rintro ⟨i, hi, rfl⟩
    obtain ⟨hlt, hname, hbefore⟩ := Array.findIdx?_eq_some_iff_getElem.1 hi
    refine ⟨hlt, ?_, fun d hd => ?_⟩
    · rw [nameOf_eq hlt]
      simpa using hname
    · rw [nameOf_eq (Nat.lt_trans hd hlt)]
      exact fun heq => hbefore d.index hd (beq_iff_eq.2 heq)
  · rintro ⟨hlt, hname, hbefore⟩
    refine ⟨c.index, Array.findIdx?_eq_some_iff_getElem.2 ⟨hlt, ?_, ?_⟩, rfl⟩
    · rw [nameOf_eq hlt] at hname
      simpa using hname
    · intro i hi
      have hother := hbefore ⟨i⟩ hi
      rw [nameOf_eq (Nat.lt_trans hi hlt)] at hother
      exact fun heq => hother (beq_iff_eq.1 heq)

theorem found_empty : empty.Found :=
  fun c hc => absurd hc (Nat.not_lt_zero c.index)

theorem Found.add? (found : table.Found) {name : Name}
    {supers : List ClassId} (hadd : table.add? name supers = some larger) :
    larger.Found := by
  have hold (d : ClassId) (hd : d.index < table.size) :
      larger.nameOf d = table.nameOf d := by
    rw [nameOf, nameOf, getElem?_decls_add? hadd hd]
  simp only [ClassTable.add?, Option.ite_none_left_eq_some,
    Option.some.injEq] at hadd
  obtain ⟨hnew, hlarger⟩ := hadd
  have hsize : larger.size = table.size + 1 := by
    rw [← hlarger]
    exact Array.size_push _
  have hlast : larger.nameOf ⟨table.size⟩ = name.text := by
    rw [← hlarger]
    simp [nameOf, decl?, size]
  have hnone : table.find? name.text = none := by simpa using hnew
  intro c hc
  rw [hsize] at hc
  rw [find?_eq_some_iff, hsize]
  refine ⟨hc, rfl, fun d hd heq => ?_⟩
  have hdlt : d.index < table.size :=
    Nat.lt_of_lt_of_le hd (Nat.le_of_lt_succ hc)
  rw [hold d hdlt] at heq
  have hfound := found hdlt
  by_cases hclt : c.index < table.size
  · rw [heq, hold c hclt, found hclt] at hfound
    cases hfound
    exact Nat.lt_irrefl _ hd
  · have hceq : c = ⟨table.size⟩ := by
      cases c
      exact congrArg ClassId.mk
        (Nat.le_antisymm (Nat.le_of_lt_succ hc) (Nat.le_of_not_lt hclt))
    rw [heq, hceq, hlast, hnone] at hfound
    contradiction

theorem Found.modify (found : table.Found) {f : ClassDecl → ClassDecl}
    (hf : ∀ decl, (f decl).name = decl.name) (changed : ClassId) :
    Found ⟨table.decls.modify changed.index f⟩ := by
  have hsize : size ⟨table.decls.modify changed.index f⟩ = table.size :=
    Array.size_modify
  have hname (c : ClassId) :
      nameOf ⟨table.decls.modify changed.index f⟩ c = table.nameOf c := by
    simp only [nameOf, decl?, Array.getElem?_modify]
    split
    · cases table.decls[c.index]? <;> simp [hf]
    · rfl
  intro c hc
  rw [hsize] at hc
  have hfound := find?_eq_some_iff.1 (found hc)
  rw [find?_eq_some_iff, hsize]
  simp only [hname]
  exact ⟨hc, trivial, hfound.2.2⟩

theorem Change.found (h : table.Change larger) (found : table.Found) :
    larger.Found := by
  cases h with
  | addClass _ hadd => exact found.add? hadd
  | addInstance c con =>
      apply found.modify
      exact fun _ => rfl
  | addUnconstrainedInstance c con =>
      apply found.modify
      exact fun _ => rfl

/-! ### What stays -/

namespace Grows

theorem super (h : table.Grows larger) (hcd : table.Super c d) :
    larger.Super c d := by
  rw [Super, h.supers_eq (lt_size_of_super hcd)]
  exact hcd

theorem isAncestor (h : table.Grows larger) (ordered : table.Ordered)
    (ordered' : larger.Ordered) (hdc : table.isAncestor d c = true) :
    larger.isAncestor d c = true := by
  rw [isAncestor_iff ordered] at hdc
  rw [isAncestor_iff ordered']
  exact Relation.TransGen.mono (fun _ _ => h.super) _ _ hdc

/-- The superclasses of a class are fixed. -/
theorem mem_ancestors_iff (h : table.Grows larger) (ordered : table.Ordered)
    (ordered' : larger.Ordered) (hc : c.index < table.size) :
    d ∈ larger.ancestors c ↔ d ∈ table.ancestors c := by
  rw [mem_ancestors ordered, mem_ancestors ordered']
  constructor
  · intro hreach
    have hstep {e f : ClassId} (he : e.index < table.size)
        (hef : larger.Super e f) : table.Super e f ∧ f.index < table.size := by
      rw [Super, h.supers_eq he] at hef
      exact ⟨hef, Nat.lt_trans (ordered hef) he⟩
    have hboth : Relation.TransGen table.Super c d ∧ d.index < table.size := by
      induction hreach with
      | single hlast => exact (hstep hc hlast).imp_left .single
      | tail _ hlast ih => exact (hstep ih.2 hlast).imp_left ih.1.tail
    exact hboth.1
  · intro hreach
    exact Relation.TransGen.mono (fun _ _ => h.super) _ _ hreach

theorem hasInstance (h : table.Grows larger) (ordered : table.Ordered)
    (ordered' : larger.Ordered) (hc : table.hasInstance c con = true) :
    larger.hasInstance c con = true := by
  have hsize := lt_size_of_hasInstance hc
  rw [hasInstance_iff] at hc ⊢
  refine ⟨h.instances c hc.1, fun d hd => h.instances d (hc.2 d ?_)⟩
  rwa [h.mem_ancestors_iff ordered ordered' hsize] at hd

/-- What is asked of the arguments of an instance only becomes less. -/
theorem forall_argClasses (h : table.Grows larger) (ordered : table.Ordered)
    (ordered' : larger.Ordered) (hc : c.index < table.size)
    {p : ClassId → Prop} {q : ClassId → Prop} (upward : table.Upward p)
    (upward' : larger.Upward q) (hpq : ∀ d, p d → q d)
    (hall : ∀ d ∈ (table.argClasses c con).members, p d) :
    ∀ d ∈ (larger.argClasses c con).members, q d := by
  rw [argClasses, ClassSet.forall_mem_ofList_iff upward] at hall
  rw [argClasses, ClassSet.forall_mem_ofList_iff upward']
  intro d hd
  rw [List.mem_filter, List.mem_cons, decide_eq_true_eq] at hd
  refine hpq d (hall d (List.mem_filter.2 ⟨?_, ?_⟩))
  · rw [List.mem_cons, ← h.mem_ancestors_iff ordered ordered' hc]
    exact hd.1
  · rw [decide_eq_true_eq]
    exact fun hmem => hd.2 (h.unconstrained d hmem)

end Grows

end ClassTable

variable {table larger : ClassTable} {c d : ClassId}

theorem ClassSet.implies_of_grows (h : table.Grows larger)
    (ordered : table.Ordered) (ordered' : larger.Ordered) {set : ClassSet}
    (hc : set.implies table c = true) : set.implies larger c = true := by
  obtain ⟨d, hd, hcd⟩ := implies_iff.1 hc
  exact implies_iff.2
    ⟨d, hd, hcd.imp_right (h.isAncestor ordered ordered')⟩

namespace Ty

variable {V W : Type} {t : Ty V}

theorem conHead?_bind {name : Name} (f : V → Ty W)
    (h : t.conHead? = some name) : (t.bind f).conHead? = some name := by
  induction t with
  | var v => simp [conHead?] at h
  | con other => exact h
  | app func arg ih _ => exact ih h

/-- A type meets a class when its variables are replaced by types that meet
what the variables did. -/
theorem Meets.bind {holds : V → ClassId → Prop} {holds' : W → ClassId → Prop}
    {f : V → Ty W} (ht : t.Meets table holds c)
    (hf : ∀ v d, holds v d → (f v).Meets table holds' d) :
    (t.bind f).Meets table holds' c := by
  induction t generalizing c with
  | var v => exact hf v c ht
  | con name => exact ht
  | app func arg ihFunc ihArg =>
      cases hhead : func.conHead? with
      | none => simp [Ty.Meets, hhead] at ht
      | some name =>
          rw [meets_app_iff hhead] at ht
          rw [Ty.bind, meets_app_iff (conHead?_bind f hhead)]
          exact ⟨ihFunc ht.1, fun d hd => ihArg (ht.2 d hd)⟩

/-- A type meets a class when classes and instances have been added. -/
theorem Meets.of_grows {holds holds' : V → ClassId → Prop}
    (ht : t.Meets table holds c) (h : table.Grows larger)
    (ordered : table.Ordered) (ordered' : larger.Ordered)
    (upward : ∀ v, table.Upward (holds v))
    (upward' : ∀ v, larger.Upward (holds' v))
    (hholds : ∀ v d, holds v d → holds' v d) :
    t.Meets larger holds' c := by
  induction t generalizing c with
  | var v => exact hholds v c ht
  | con name => exact h.hasInstance ordered ordered' ht
  | app func arg ihFunc ihArg =>
      cases hhead : func.conHead? with
      | none => simp [Ty.Meets, hhead] at ht
      | some name =>
          rw [meets_app_iff hhead] at ht ⊢
          have hsize := ClassTable.lt_size_of_hasInstance
            (hasInstance_of_meets ht.1 hhead)
          exact ⟨ihFunc ht.1, h.forall_argClasses ordered ordered' hsize
            (meets_upward ordered upward arg)
            (meets_upward ordered' upward' arg) (fun d => ihArg) ht.2⟩

end Ty

end HindleyMilner

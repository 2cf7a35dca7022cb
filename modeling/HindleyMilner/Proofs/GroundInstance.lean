import HindleyMilner.Proofs.Satisfiability

/-
Types without variables as instances of classes.  Such a type is a constructor
with arguments, and the table alone decides of which classes it is an instance.
What a class asks of the arguments includes what its superclasses ask of them,
so an instance of the class is an instance of these too, and a reduced set asks
the same of a type as all the classes that it was made of.  And whatever is
added to a table, no instance is lost.
-/

namespace HindleyMilner

namespace Ty

variable {table larger : ClassTable} {t : GroundTy} {c d : ClassId}

/-- Whether a type without variables is an instance of a class: the constructor
at its head is, and every argument is an instance of all classes that are asked
of the arguments. -/
inductive IsInstance (table : ClassTable) : GroundTy → ClassId → Prop
  | intro {name : Name} {args : List GroundTy} {c : ClassId}
      (hname : table.hasInstance c name = true)
      (hargs : ∀ arg ∈ args, ∀ d ∈ (table.argClasses c name).members,
        IsInstance table arg d) :
      IsInstance table (applyTo (con name) args) c

theorem conHead?_applyTo {V : Type} (head : Ty V) (args : List (Ty V)) :
    (applyTo head args).conHead? = head.conHead? := by
  induction args generalizing head with
  | nil => rfl
  | cons arg args ih => exact ih (app head arg)

/-- A type without variables has a constructor at its head. -/
theorem exists_conHead? (t : GroundTy) : ∃ name, t.conHead? = some name := by
  induction t with
  | var v => exact v.elim
  | con name => exact ⟨name, rfl⟩
  | app func arg ih _ => exact ih

theorem isInstance_of_meets (h : t.Meets table Empty.elim c) :
    t.IsInstance table c := by
  induction t generalizing c with
  | var v => exact v.elim
  | con name => exact @IsInstance.intro table name [] c h nofun
  | app func arg ihFunc ihArg =>
      obtain ⟨name, hhead⟩ := exists_conHead? func
      rw [meets_app_iff hhead] at h
      cases ihFunc h.1 with
      | @intro other args _ hname hargs =>
          rw [conHead?_applyTo] at hhead
          obtain rfl : other = name := Option.some.inj hhead
          have happ : app (applyTo (con other) args) arg =
              applyTo (con other) (args ++ [arg]) := by simp [applyTo]
          rw [happ]
          refine .intro hname fun more hmore d hd => ?_
          rcases List.mem_append.1 hmore with hmore | hmore
          · exact hargs more hmore d hd
          · rw [List.mem_singleton.1 hmore]
            exact ihArg (h.2 d hd)

theorem isInstance_iff_meets :
    t.IsInstance table c ↔ t.Meets table Empty.elim c := by
  refine ⟨fun h => ?_, isInstance_of_meets⟩
  induction h with
  | intro hname _ ih => exact (meets_applyTo_con_iff _).2 ⟨hname, ih⟩

/-- Two classes have no instance among the constructors exactly if they have
none among all types. -/
theorem apart_iff_forall_isInstance {a b : ClassId} :
    table.Apart a b ↔
      ∀ t : GroundTy, ¬ (t.IsInstance table a ∧ t.IsInstance table b) := by
  simp only [isInstance_iff_meets]
  constructor
  · rintro hapart t ⟨ha, hb⟩
    obtain ⟨name, hhead⟩ := exists_conHead? t
    exact hapart name
      ⟨hasInstance_of_meets ha hhead, hasInstance_of_meets hb hhead⟩
  · exact fun hnone name => hnone (con name)

/-- An instance of a class is an instance of its superclasses. -/
theorem isInstance_upward (ordered : table.Ordered) (t : GroundTy) :
    table.Upward (t.IsInstance table) := by
  intro c d hc hdc
  rw [isInstance_iff_meets] at hc ⊢
  exact meets_upward ordered (fun v => v.elim) t hc hdc

/-- One change of the table takes no instance back. -/
theorem IsInstance.change (h : t.IsInstance table c)
    (hchange : table.Change larger) (ordered : table.Ordered) :
    t.IsInstance larger c := by
  rw [isInstance_iff_meets] at h ⊢
  exact h.of_grows hchange.grows ordered (hchange.ordered ordered)
    (fun v => v.elim) (fun v => v.elim) (fun v => v.elim)

theorem IsInstance.changes (h : t.IsInstance table c)
    (hchanges : table.Changes larger) (ordered : table.Ordered) :
    t.IsInstance larger c := by
  induction hchanges with
  | refl => exact h
  | tail hbefore hchange ih =>
      exact ih.change hchange (ClassTable.Changes.ordered hbefore ordered)

/-- Instances of a class are instances of all its superclasses, so a reduced
set asks for the same instances as the classes it was made of; and they stay
instances when the table grows. -/
theorem isInstance_closed (h : table.Built) (t : GroundTy) :
    (∀ c d, t.IsInstance table c → Relation.TransGen table.Super c d →
      t.IsInstance table d) ∧
    (∀ cs, (∀ c ∈ (ClassSet.ofList table cs).members, t.IsInstance table c) ↔
      ∀ c ∈ cs, t.IsInstance table c) ∧
    ∀ c larger, table.Changes larger → t.IsInstance table c →
      t.IsInstance larger c := by
  have hupward := isInstance_upward h.ordered t
  refine ⟨fun c d hc hcd => ?_, ClassSet.forall_mem_ofList_iff hupward,
    fun c larger hchanges hc => hc.changes hchanges h.ordered⟩
  exact hupward hc ((ClassTable.isAncestor_iff h.ordered).2 hcd)

def fraction : GroundTy :=
  app (con ClassTable.ratio) (con ClassTable.int)

theorem fraction_isInstance :
    fraction.IsInstance ClassTable.rationals ⟨3⟩ := by
  have hparts : ∀ d ∈ (ClassTable.rationals.argClasses ⟨3⟩
      ClassTable.ratio).members,
      ClassTable.rationals.hasInstance d ClassTable.int = true := by decide
  have hratio : ClassTable.rationals.hasInstance ⟨3⟩ ClassTable.ratio = true :=
    by decide
  exact isInstance_iff_meets.2 ((meets_app_iff rfl).2 ⟨hratio, hparts⟩)

theorem isInstance_closed_fraction :
    let larger :=
      ClassTable.rationals.addUnconstrainedInstance ⟨1⟩ ClassTable.ratio
    Relation.TransGen ClassTable.rationals.Super ⟨3⟩ ⟨0⟩ ∧
      fraction.IsInstance ClassTable.rationals ⟨0⟩ ∧
      (∀ c ∈ [(⟨0⟩ : ClassId), ⟨3⟩],
        fraction.IsInstance ClassTable.rationals c) ∧
      fraction.IsInstance larger ⟨3⟩ := by
  have habove : Relation.TransGen ClassTable.rationals.Super ⟨3⟩ ⟨0⟩ :=
    (ClassTable.isAncestor_iff ClassTable.rationals_built.ordered).1
      (by decide)
  have hmembers : (ClassSet.ofList ClassTable.rationals
      [⟨0⟩, ⟨3⟩]).members = [⟨3⟩] := by decide
  obtain ⟨hupward, hreduced, hgrowth⟩ :=
    isInstance_closed ClassTable.rationals_built fraction
  refine ⟨habove, hupward _ _ fraction_isInstance habove,
    (hreduced _).1 ?_, ?_⟩
  · rw [hmembers]
    exact List.forall_mem_singleton.2 fraction_isInstance
  · exact hgrowth _ _ (.single (.addUnconstrainedInstance _ _))
      fraction_isInstance

end Ty

end HindleyMilner

import HindleyMilner.Infer
import HindleyMilner.Proofs.Meets
import HindleyMilner.Proofs.Solutions

/-
The typing rules, stated without inference.  They read the types of
expressions and binders off a labelling.  The types may have variables or
none, so the same rules say what inference finds and what other typings there
are.
-/

namespace HindleyMilner

/-! ### What expressions are made of -/

/-- The numbers of the expressions and of the binders in a part of an
expression, the types of its literals, and its signatures and annotations. -/
structure Parts where
  exps : List ExpId
  binders : List BinderId
  literals : List (Ty TyVar)
  schemes : List (Ty TyVar)

namespace Parts

def append (p q : Parts) : Parts :=
  ⟨p.exps ++ q.exps, p.binders ++ q.binders, p.literals ++ q.literals,
    p.schemes ++ q.schemes⟩

instance : Append Parts := ⟨append⟩

@[simp] theorem exps_append (p q : Parts) :
    (p ++ q).exps = p.exps ++ q.exps := rfl

@[simp] theorem binders_append (p q : Parts) :
    (p ++ q).binders = p.binders ++ q.binders := rfl

@[simp] theorem literals_append (p q : Parts) :
    (p ++ q).literals = p.literals ++ q.literals := rfl

@[simp] theorem schemes_append (p q : Parts) :
    (p ++ q).schemes = p.schemes ++ q.schemes := rfl

theorem append_assoc (p q r : Parts) : p ++ q ++ r = p ++ (q ++ r) := by
  change Parts.mk _ _ _ _ = Parts.mk _ _ _ _
  simp only [exps_append, binders_append, literals_append, schemes_append,
    List.append_assoc]

def node (id : ExpId) : Parts := ⟨[id], [], [], []⟩

def ofBinders (binders : List Binder) : Parts :=
  ⟨[], binders.map (·.id), [], binders.filterMap (·.declared)⟩

end Parts

mutual

def Exp.parts : Exp → Parts
  | .value id ty _ => { Parts.node id with literals := [ty] }
  | .localVar id _ => .node id
  | .function id use => { Parts.node id with schemes := [use.signature] }
  | .hole id => .node id
  | .apply id func arg => .node id ++ (func.parts ++ arg.parts)
  | .lambda id params body => .node id ++ (.ofBinders params ++ body.parts)
  | .letIn id bindings body => .node id ++ (bindings.parts ++ body.parts)
  | .annotated id inner ty =>
      { Parts.node id with schemes := [ty] } ++ inner.parts

def Bindings.parts : Bindings → Parts
  | .nil => .ofBinders []
  | .cons binder bound rest =>
      bound.parts ++ (.ofBinders [binder] ++ rest.parts)

end

/-- Whether every expression has one parent, every binder is bound once, the
types are over a store, and literals share no unsolved variables with
signatures and annotations. -/
structure Exp.Proper (s : Store) (e : Exp) : Prop where
  exps_nodup : e.parts.exps.Nodup
  binders_nodup : e.parts.binders.Nodup
  literals_inRange : ∀ t ∈ e.parts.literals, t.InRange s
  schemes_inRange : ∀ t ∈ e.parts.schemes, t.InRange s
  separate : ∀ t ∈ e.parts.literals, ∀ scheme ∈ e.parts.schemes,
    ∀ v ∈ (s.zonk scheme).vars, v ∉ (s.zonk t).vars

/-! ### Typing rules -/

/-- Types for expressions and binders. -/
structure Labelling (V : Type) where
  exp : ExpId → Option (Ty V)
  binder : BinderId → Option (Ty V)

/-- What the typing rules depend on: the classes, the store that signatures,
annotations and literals have their variables in, the classes that the
variables of types are known to meet, the values of the variables in types of
literals, and the types of expressions and binders. -/
structure Typing (V : Type) where
  table : ClassTable
  store : Store
  holds : V → ClassId → Prop
  value : TyVar → Ty V
  label : Labelling V

namespace Typing

variable {V : Type}

/-- Whether a substitution gives the unsolved variables of a type values that
meet their classes. -/
def Respects (R : Typing V) (inst : TyVar → Ty V) (scheme : Ty TyVar) :
    Prop :=
  ∀ v ∈ (R.store.zonk scheme).vars, ∀ classes,
    R.store.unsolvedClasses? v = some classes →
      ∀ c ∈ classes.members, (inst v).Meets R.table R.holds c

/-- Whether a type is the instance of a signature or an annotation under a
substitution that respects classes. -/
def Instance (R : Typing V) (inst : TyVar → Ty V) (scheme : Ty TyVar)
    (t : Ty V) : Prop :=
  R.Respects inst scheme ∧ t = (R.store.zonk scheme).bind inst

/-- Whether a binder has a type, which is an instance of its annotation if it
has one. -/
def Binds (R : Typing V) (inst : TyVar → Ty V) (binder : Binder) (t : Ty V) :
    Prop :=
  R.label.binder binder.id = some t ∧
    ∀ declared, binder.declared = some declared → R.Instance inst declared t

mutual

/-- Whether an expression has a type and all rules are followed in it. -/
def HasType (R : Typing V) : Exp → Ty V → Prop
  | .value id ty _, t => R.label.exp id = some t ∧ t = ty.bind R.value
  | .localVar id binder, t =>
      R.label.exp id = some t ∧ R.label.binder binder.id = some t
  | .function id use, t =>
      R.label.exp id = some t ∧ ∃ inst, R.Instance inst use.signature t
  | .hole id, t => R.label.exp id = some t
  | .apply id func arg, t =>
      R.label.exp id = some t ∧
        ∃ param, R.HasType func (.arrow param t) ∧ R.HasType arg param
  | .lambda id params body, t =>
      R.label.exp id = some t ∧
        ∃ inst paramTys result, List.Forall₂ (R.Binds inst) params paramTys ∧
          R.HasType body result ∧ t = .arrows paramTys result
  | .letIn id bindings body, t =>
      R.label.exp id = some t ∧
        (∃ inst, R.BindsAll inst bindings) ∧ R.HasType body t
  | .annotated id inner declared, t =>
      R.label.exp id = some t ∧
        R.HasType inner t ∧ ∃ inst, R.Instance inst declared t

/-- Whether binders have the types of what is bound to them, with one
substitution for their annotations. -/
def BindsAll (R : Typing V) (inst : TyVar → Ty V) : Bindings → Prop
  | .nil => True
  | .cons binder bound rest =>
      (∃ t, R.HasType bound t ∧ R.Binds inst binder t) ∧
        R.BindsAll inst rest

end

end Typing

end HindleyMilner

import HindleyMilner.Proofs.TypeShape

/-
Pieces of types, and what is at the heads of applications.  A piece is found by
going from a type to one of its arguments, from there to one of its arguments,
and so on.  Where the head is a constructor, replacing variables keeps the
number of arguments, so positions of arguments stay what they are.
-/

namespace HindleyMilner

namespace Ty

variable {V W : Type} {t u func arg : Ty V} {f : V → Ty W} {path : List Nat}

/-! ### Pieces -/

/-- What is reached in a type by taking the arguments at some positions, one
inside of the other. -/
def piece? (t : Ty V) : List Nat → Option (Ty V)
  | [] => some t
  | pos :: path => t.spine.2[pos]?.bind fun arg => arg.piece? path

/-- Whether a type is another or lies inside of it as an argument, at some
depth. -/
def Contains (t u : Ty V) : Prop :=
  ∃ path, t.piece? path = some u

theorem contains_self (t : Ty V) : t.Contains t :=
  ⟨[], rfl⟩

theorem Contains.of_mem_spine (h : arg.Contains u) (harg : arg ∈ t.spine.2) :
    t.Contains u := by
  obtain ⟨path, hpath⟩ := h
  obtain ⟨pos, hpos⟩ := List.mem_iff_getElem?.1 harg
  exact ⟨pos :: path, by rw [piece?, hpos, Option.bind_some, hpath]⟩

/-- Below the top, the pieces of a function are pieces of its application. -/
theorem piece?_app_func (hne : path ≠ []) (h : func.piece? path = some u) :
    (app func arg).piece? path = some u := by
  cases path with
  | nil => exact absurd rfl hne
  | cons pos path =>
      rw [piece?, Option.bind_eq_some_iff] at h
      obtain ⟨inner, hpos, hinner⟩ := h
      have hlt := (List.getElem?_eq_some_iff.1 hpos).1
      rw [piece?, spine_app, List.getElem?_append_left hlt, hpos,
        Option.bind_some, hinner]

/-- The last argument comes after those of the function. -/
theorem piece?_app_arg (func arg : Ty V) (path : List Nat) :
    (app func arg).piece? (func.spine.2.length :: path) = arg.piece? path := by
  rw [piece?, spine_app, List.getElem?_concat_length, Option.bind_some]

/-! ### Heads -/

/-- Whether a type is a constructor, applied or not. -/
def HasConHead (t : Ty V) : Prop :=
  ∃ con, t.spine.1 = .con con

/-- Whether all applications in a type have constructors at their heads. -/
def ConHeaded : Ty V → Prop
  | .app func arg => func.HasConHead ∧ func.ConHeaded ∧ arg.ConHeaded
  | _ => True

instance (t : Ty V) : Decidable t.HasConHead :=
  match h : t.spine.1 with
  | .con name => isTrue ⟨name, h⟩
  | .var _ => isFalse fun ⟨_, hcon⟩ => by simp [h] at hcon
  | .app _ _ => isFalse fun ⟨_, hcon⟩ => by simp [h] at hcon

instance decidableConHeaded : (t : Ty V) → Decidable t.ConHeaded
  | .var _ => isTrue trivial
  | .con _ => isTrue trivial
  | .app func arg =>
      have := decidableConHeaded func
      have := decidableConHeaded arg
      inferInstanceAs (Decidable (_ ∧ _ ∧ _))

/-- Whether two types are the same constructor, applied to as many
arguments. -/
def SameHead (t u : Ty V) : Prop :=
  ∃ con, t.spine.1 = .con con ∧ u.spine.1 = .con con ∧
    t.spine.2.length = u.spine.2.length

/-- A constructor at the head stays there, with as many arguments. -/
theorem HasConHead.spine_bind (h : t.HasConHead) (f : V → Ty W) :
    (t.bind f).HasConHead ∧
      (t.bind f).spine.2.length = t.spine.2.length := by
  obtain ⟨con, hcon⟩ := h
  rw [HasConHead, Ty.spine_bind (by rw [hcon]; trivial), hcon]
  exact ⟨⟨con, rfl⟩, List.length_map _⟩

theorem ConHeaded.bind (h : t.ConHeaded)
    (hvars : ∀ v ∈ t.vars, (f v).ConHeaded) : (t.bind f).ConHeaded := by
  induction t with
  | var v => exact hvars v (mem_vars_var.2 rfl)
  | con name => trivial
  | app func arg ihFunc ihArg =>
      obtain ⟨hhead, hfunc, harg⟩ := h
      exact ⟨(hhead.spine_bind f).1,
        ihFunc hfunc fun v hv => hvars v (mem_vars_app.2 (Or.inl hv)),
        ihArg harg fun v hv => hvars v (mem_vars_app.2 (Or.inr hv))⟩

theorem sameHead_app {func' arg' : Ty V} :
    SameHead (app func arg) (app func' arg') ↔ SameHead func func' := by
  simp only [SameHead, spine_app, List.length_append, List.length_singleton,
    Nat.add_right_cancel_iff]

theorem not_sameHead_con_app (c : Name) (func arg : Ty V) :
    ¬ SameHead (con c) (app func arg) := by
  rintro ⟨con, -, -, hlength⟩
  rw [spine_app, List.length_append] at hlength
  exact absurd hlength (Nat.succ_ne_zero _).symm

theorem not_sameHead_con {c d : Name} (hne : c ≠ d) :
    ¬ SameHead (con c : Ty V) (con d) := by
  rintro ⟨con, hc, hd, -⟩
  exact hne (Ty.con.inj (hc.trans hd.symm))

theorem SameHead.symm (h : SameHead t u) : SameHead u t := by
  obtain ⟨con, ht, hu, hlength⟩ := h
  exact ⟨con, hu, ht, hlength.symm⟩

theorem not_sameHead_var (v : V) (t : Ty V) : ¬ SameHead (var v) t := by
  rintro ⟨con, hcon, -⟩
  contradiction

end Ty

end HindleyMilner

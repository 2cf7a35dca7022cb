import HindleyMilner.Proofs.Grammar

/-
How far tokens can be read as the start of a type.  From wherever the machine
has come to, a type can be completed by closing what is open, so all that was
shifted over begins some type.  A token that is not shifted over begins none in
that place.  The fat arrow is in no type.
-/

namespace HindleyMilner.Signature

namespace Machine

variable {m mid next last : Machine} {stack : List Frame} {tok : Token}
  {toks others more : List Token} {t u : NamedTy} {lexemes rest : List Lexeme}

/-! ### Runs of the machine -/

theorem Shifts.exists_mid (h : m.Shifts (toks ++ others) last) :
    ∃ mid, m.Shifts toks mid ∧ mid.Shifts others last := by
  induction toks generalizing m with
  | nil => exact ⟨m, .refl m, h⟩
  | cons tok toks ih =>
      cases h with
      | step hstep hrest =>
          obtain ⟨mid, hbefore, hafter⟩ := ih hrest
          exact ⟨mid, .step hstep hbefore, hafter⟩

theorem Shifts.unique (h : m.Shifts toks next) (h' : m.Shifts toks last) :
    next = last := by
  induction h with
  | refl m =>
      cases h'
      rfl
  | step hstep _ ih =>
      cases h' with
      | step hstep' hrest' =>
          rw [hstep] at hstep'
          cases hstep'
          exact ih hrest'

/-- What a machine that is closed reads to the end is a type. -/
theorem Shifts.isType (h : initial.Shifts toks m)
    (haccept : m.step none = .accept t) : IsType toks t := by
  obtain ⟨lexemes, rfl⟩ := exists_lexemes toks
  have hread : readType lexemes = ⟨.ok t, []⟩ := by
    have hrun : initial.read (lexemes ++ []) = m.read [] := h.read
    rw [List.append_nil, Machine.read, haccept] at hrun
    exact hrun
  obtain ⟨consumed, rfl, htype⟩ := isType_of_readType hread
  rwa [List.append_nil]

theorem exists_shifts_of_isType (h : IsType toks t) :
    ∃ m, initial.Shifts toks m ∧ m.HasRead [] t :=
  h.shifts (atOperand_typeStart [])

/-- Where the machine does not shift over a token, no type goes on with it. -/
theorem Shifts.not_isType (h : initial.Shifts toks m)
    (hstop : ∀ next, m.step (some tok) ≠ .shift next) :
    ¬ IsType (toks ++ tok :: more) t := by
  intro htype
  obtain ⟨last, hshifts, -⟩ := exists_shifts_of_isType htype
  obtain ⟨mid, hbefore, hafter⟩ := hshifts.exists_mid
  rw [h.unique hbefore] at hstop
  cases hafter with
  | step hstep _ => exact hstop _ hstep

/-! ### The fat arrow -/

theorem close_fatArrow_ne_shift (t : NamedTy) (stack : List Frame)
    (next : Machine) : close t stack (some .fatArrow) ≠ .shift next := by
  induction stack generalizing t with
  | nil => simp [close]
  | cons frame stack ih =>
      cases frame with
      | arrow param => exact ih _
      | square outer => simp [close]
      | round outer before => simp [close]

theorem step_fatArrow_ne_shift (m next : Machine) :
    m.step (some .fatArrow) ≠ .shift next := by
  rcases m with ⟨stack, cursor⟩
  cases cursor with
  | operand t => exact close_fatArrow_ne_shift t stack next
  | _ => simp [step, startType, startOperand?]

theorem Shifts.not_mem_fatArrow (h : m.Shifts toks next) :
    .fatArrow ∉ toks := by
  induction h with
  | refl => simp
  | step hstep _ ih =>
      rw [List.mem_cons, not_or]
      refine ⟨?_, ih⟩
      rintro rfl
      exact step_fatArrow_ne_shift _ _ hstep

/-! ### Completion -/

/-- Whether a token is one of those that types are completed with. -/
def Completes (tok : Token) : Prop :=
  tok = .var "a" ∨ tok = .closeRound ∨ tok = .closeSquare

/-- Whether a type can be completed from a machine on. -/
def Completable (m : Machine) : Prop :=
  ∃ more last t, m.Shifts more last ∧ last.step none = .accept t ∧
    ∀ tok ∈ more, Completes tok

theorem Completable.of_operand {outer : Option NamedTy}
    (hstep : m.step (some tok) = operand stack outer t) (htok : Completes tok)
    (h : ∀ t, Completable ⟨stack, .operand t⟩) : m.Completable := by
  rw [operand_eq] at hstep
  obtain ⟨more, last, u, hshifts, haccept, hmore⟩ := h (applied outer t)
  exact ⟨tok :: more, last, u, .step hstep hshifts, haccept,
    List.forall_mem_cons.2 ⟨htok, hmore⟩⟩

/-- After a type the brackets that are open can be closed. -/
theorem HasRead.completable (h : m.HasRead stack t) : m.Completable := by
  induction stack generalizing m t with
  | nil => exact ⟨[], m, t, .refl m, h.step none trivial, by simp⟩
  | cons frame stack ih =>
      cases frame with
      | arrow param => exact ih h.arrow
      | square outer =>
          exact .of_operand (h.step (some .closeSquare) trivial)
            (.inr (.inr rfl)) fun t => ih (.operand stack t)
      | round outer before =>
          exact .of_operand (h.step (some .closeRound) trivial)
            (.inr (.inl rfl)) fun t => ih (.operand stack t)

/-- Whatever was read, it is the start of a type. -/
theorem completable (m : Machine) : m.Completable := by
  rcases m with ⟨stack, cursor⟩
  have hread (t : NamedTy) : Completable ⟨stack, .operand t⟩ :=
    (HasRead.operand stack t).completable
  cases cursor with
  | operand t => exact hread t
  | typeStart =>
      have hstep : step ⟨stack, .typeStart⟩ (some (.var "a")) =
          operand stack none (.var "a") := rfl
      exact .of_operand hstep (.inl rfl) hread
  | square outer =>
      have hstep : step ⟨stack, .square outer⟩ (some .closeSquare) =
          operand stack outer (.con .list) := rfl
      exact .of_operand hstep (.inr (.inr rfl)) hread
  | round outer =>
      have hstep : step ⟨stack, .round outer⟩ (some .closeRound) =
          operand stack outer (.con .unit) := rfl
      exact .of_operand hstep (.inr (.inl rfl)) hread
  | roundArrow outer =>
      have hstep : step ⟨stack, .roundArrow outer⟩ (some .closeRound) =
          operand stack outer (.con .arrow) := rfl
      exact .of_operand hstep (.inr (.inl rfl)) hread
  | roundCommas outer arity =>
      have hstep : step ⟨stack, .roundCommas outer arity⟩
          (some .closeRound) = operand stack outer (.con (.tuple arity)) := rfl
      exact .of_operand hstep (.inr (.inl rfl)) hread

theorem Shifts.exists_isType (h : initial.Shifts toks m) :
    ∃ more t, IsType (toks ++ more) t ∧ ∀ tok ∈ more, Completes tok := by
  obtain ⟨more, last, t, hshifts, haccept, hmore⟩ := m.completable
  exact ⟨more, t, (h.append hshifts).isType haccept, hmore⟩

/-- Reading stops at the first token that is not shifted over. -/
theorem exists_stop (m : Machine) (lexemes : List Lexeme) :
    ∃ consumed last, lexemes = consumed ++ (m.read lexemes).rest ∧
      m.Shifts (consumed.map (·.token)) last ∧
        ∀ lexeme ∈ (m.read lexemes).rest.head?, ∀ next,
          last.step (some lexeme.token) ≠ .shift next := by
  induction lexemes generalizing m with
  | nil =>
      have hrest : (m.read []).rest = [] := by
        rw [Machine.read]
        split <;> rfl
      rw [hrest]
      exact ⟨[], m, rfl, .refl m, by simp⟩
  | cons lexeme lexemes ih =>
      cases hstep : m.step (some lexeme.token) with
      | shift next =>
          obtain ⟨consumed, last, hlexemes, hshifts, hstop⟩ := ih next
          rw [Machine.read, hstep]
          exact ⟨lexeme :: consumed, last, congrArg (lexeme :: ·) hlexemes,
            .step hstep hshifts, hstop⟩
      | accept t =>
          rw [Machine.read, hstep]
          refine ⟨[], m, rfl, .refl m, ?_⟩
          rintro first ⟨⟩ next
          rw [hstep]
          simp
      | reject what =>
          rw [Machine.read, hstep]
          refine ⟨[], m, rfl, .refl m, ?_⟩
          rintro first ⟨⟩ next
          rw [hstep]
          simp

end Machine

end HindleyMilner.Signature

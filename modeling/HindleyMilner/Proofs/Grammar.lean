import HindleyMilner.Proofs.TypeShape
import HindleyMilner.Signature.Machine

/-
The grammar of types, as derivations of token lists with the type that each
stands for, and the machine that reads types.  What the grammar derives the
machine shifts over, and what it has shifted over at any point is what its
stack and its cursor stand for; so it reads exactly the derivable types.
-/

namespace HindleyMilner.Signature

mutual

/-- `type := btype ["->" type]`.  Arrows associate to the right. -/
inductive IsType : List Token → NamedTy → Prop
  | btype {toks : List Token} {t : NamedTy} (h : IsBtype toks t) :
      IsType toks t
  | arrow {left right : List Token} {param result : NamedTy}
      (hparam : IsBtype left param) (hresult : IsType right result) :
      IsType (left ++ .arrow :: right) (.arrow param result)

/-- `btype := atype atype*`.  Application associates to the left. -/
inductive IsBtype : List Token → NamedTy → Prop
  | atype {toks : List Token} {t : NamedTy} (h : IsAtype toks t) :
      IsBtype toks t
  | app {left right : List Token} {func arg : NamedTy}
      (hfunc : IsBtype left func) (harg : IsAtype right arg) :
      IsBtype (left ++ right) (.app func arg)

/-- `atype := Con | var | "()" | "[]" | "(->)" | "(" ","+ ")"
| "[" type "]" | "(" type ")" | "(" type ("," type)+ ")"`. -/
inductive IsAtype : List Token → NamedTy → Prop
  | var (name : String) : IsAtype [.var name] (.var name)
  | con {name : Name} (hname : name ≠ .string) :
      IsAtype [.con name] (.con name)
  | string : IsAtype [.con .string] (.list (.con .char))
  | unit : IsAtype [.openRound, .closeRound] (.con .unit)
  | list : IsAtype [.openSquare, .closeSquare] (.con .list)
  | arrow : IsAtype [.openRound, .arrow, .closeRound] (.con .arrow)
  | tuple (more : Nat) :
      IsAtype
        (.openRound :: (List.replicate (more + 1) .comma ++ [.closeRound]))
        (.con (.tuple (more + 2)))
  | listOf {toks : List Token} {elem : NamedTy} (h : IsType toks elem) :
      IsAtype (.openSquare :: (toks ++ [.closeSquare])) (.list elem)
  | parens {toks : List Token} {t : NamedTy} (h : IsType toks t) :
      IsAtype (.openRound :: (toks ++ [.closeRound])) t
  | tupleOf {toks more : List Token} {t : NamedTy} {ts : List NamedTy}
      (h : IsType toks t) (hmore : AreTypes more ts) (hne : ts ≠ []) :
      IsAtype (.openRound :: (toks ++ more ++ [.closeRound]))
        (.applyTo (.con (.tuple (ts.length + 1))) (t :: ts))

/-- Components of a tuple after the first: `("," type)*`. -/
inductive AreTypes : List Token → List NamedTy → Prop
  | nil : AreTypes [] []
  | cons {toks more : List Token} {t : NamedTy} {ts : List NamedTy}
      (h : IsType toks t) (hmore : AreTypes more ts) :
      AreTypes (.comma :: (toks ++ more)) (t :: ts)

end

namespace Machine

variable {m next last : Machine} {stack : List Frame} {tok : Token}
  {toks others : List Token} {t param : NamedTy} {outer : Option NamedTy}
  {lexemes rest : List Lexeme}

/-! ### What is derived is read -/

/-- Whether a machine shifts over tokens to another. -/
inductive Shifts : Machine → List Token → Machine → Prop
  | refl (m : Machine) : Shifts m [] m
  | step {m next last : Machine} {tok : Token} {toks : List Token}
      (h : m.step (some tok) = .shift next) (hrest : Shifts next toks last) :
      Shifts m (tok :: toks) last

theorem Shifts.append (h : m.Shifts toks next)
    (hnext : next.Shifts others last) : m.Shifts (toks ++ others) last := by
  induction h with
  | refl => exact hnext
  | step hstep _ ih => exact .step hstep (ih hnext)

theorem Shifts.single (h : m.step (some tok) = .shift next) :
    m.Shifts [tok] next :=
  .step h (.refl next)

/-- Tokens that are shifted over are read in one go. -/
theorem Shifts.read (h : m.Shifts (lexemes.map (·.token)) next) :
    m.read (lexemes ++ rest) = next.read rest := by
  induction lexemes generalizing m with
  | nil =>
      cases h
      rfl
  | cons lexeme lexemes ih =>
      cases h with
      | step hstep hrest =>
          rw [List.cons_append, Machine.read, hstep]
          exact ih hrest

/-- Whether an operand of what stands before it may start here. -/
def AtOperand (m : Machine) (stack : List Frame) (outer : Option NamedTy) :
    Prop :=
  ∀ tok step, startOperand? stack outer (some tok) = some step →
    m.step (some tok) = step

theorem step_operand (stack : List Frame) (t : NamedTy) {tok? : Option Token}
    (h : tok? ≠ some .arrow) :
    step ⟨stack, .operand t⟩ tok? =
      (startOperand? stack (some t) tok?).getD (close t stack tok?) := by
  rcases tok? with _ | tok
  · rfl
  · cases tok <;> first | rfl | contradiction

theorem step_square (stack : List Frame) (outer : Option NamedTy)
    {tok? : Option Token} (h : tok? ≠ some .closeSquare) :
    step ⟨stack, .square outer⟩ tok? =
      startType (.square outer :: stack) tok? := by
  rcases tok? with _ | tok
  · rfl
  · cases tok <;> first | rfl | contradiction

/-- Whether a token after an opening bracket starts no type. -/
def RoundOpens (tok? : Option Token) : Prop :=
  tok? = some .closeRound ∨ tok? = some .arrow ∨ tok? = some .comma

theorem step_round (stack : List Frame) (outer : Option NamedTy)
    {tok? : Option Token} (h : ¬ RoundOpens tok?) :
    step ⟨stack, .round outer⟩ tok? =
      startType (.round outer [] :: stack) tok? := by
  simp only [RoundOpens, not_or] at h
  rcases tok? with _ | tok
  · rfl
  · cases tok <;> first | rfl | simp at h

theorem atOperand_typeStart (stack : List Frame) :
    AtOperand ⟨stack, .typeStart⟩ stack none := by
  intro tok step h
  simp [Machine.step, startType, h]

theorem atOperand_operand (stack : List Frame) (func : NamedTy) :
    AtOperand ⟨stack, .operand func⟩ stack (some func) := by
  intro tok step h
  cases tok <;> simp_all [Machine.step, startOperand?]

theorem atOperand_square (stack : List Frame) (outer : Option NamedTy) :
    AtOperand ⟨stack, .square outer⟩ (.square outer :: stack) none := by
  intro tok step h
  cases tok <;> simp_all [Machine.step, startOperand?, startType]

theorem atOperand_round (stack : List Frame) (outer : Option NamedTy) :
    AtOperand ⟨stack, .round outer⟩ (.round outer [] :: stack) none := by
  intro tok step h
  cases tok <;> simp_all [Machine.step, startOperand?, startType]

/-- Whether a type has been read that the frames on the stack wait for.  The
arrows inside of it are still on the machine's own stack. -/
inductive HasRead : Machine → List Frame → NamedTy → Prop
  | operand (stack : List Frame) (t : NamedTy) :
      HasRead ⟨stack, .operand t⟩ stack t
  | arrow {m : Machine} {stack : List Frame} {param result : NamedTy}
      (h : HasRead m (.arrow param :: stack) result) :
      HasRead m stack (.arrow param result)

/-- Whether a token cannot go on with a complete type. -/
def Stops : Option Token → Prop
  | some (.var _) | some (.con _) | some .openRound | some .openSquare
  | some .arrow => False
  | _ => True

/-- What comes after a complete type is the business of the brackets around
it. -/
theorem HasRead.step (h : m.HasRead stack t) (tok? : Option Token)
    (htok : Stops tok?) : m.step tok? = close t stack tok? := by
  induction h with
  | operand stack t =>
      cases tok? with
      | none => rfl
      | some tok => cases tok <;> first | exact htok.elim | rfl
  | arrow _ ih => exact ih

theorem HasRead.read (h : m.HasRead [] t)
    (hrest : Stops (rest.head?.map (·.token))) :
    m.read rest = ⟨.ok t, rest⟩ := by
  have hstep := h.step _ hrest
  cases rest with
  | nil => simp_all [Machine.read, close]
  | cons lexeme rest => simp_all [Machine.read, close]

def applied : Option NamedTy → NamedTy → NamedTy
  | none, t => t
  | some func, t => .app func t

theorem operand_eq (stack : List Frame) (outer : Option NamedTy)
    (t : NamedTy) :
    operand stack outer t = .shift ⟨stack, .operand (applied outer t)⟩ := by
  cases outer <;> rfl

theorem shifts_commas (stack : List Frame) (outer : Option NamedTy)
    (arity more : Nat) :
    Shifts ⟨stack, .roundCommas outer arity⟩ (List.replicate more .comma)
      ⟨stack, .roundCommas outer (arity + more)⟩ := by
  induction more generalizing arity with
  | zero => exact .refl _
  | succ more ih =>
      rw [List.replicate_succ, Nat.add_succ, ← Nat.succ_add]
      exact .step rfl (ih (arity + 1))

end Machine

open Machine

theorem parens_cons (t : NamedTy) {ts : List NamedTy} (h : ts ≠ []) :
    Ty.parens (t :: ts) =
      .applyTo (.con (.tuple (ts.length + 1))) (t :: ts) := by
  cases ts with
  | nil => contradiction
  | cons u ts => rfl

mutual

/-- A machine reads every type of the grammar to its end. -/
theorem IsType.shifts : ∀ {toks : List Token} {t : NamedTy}, IsType toks t →
    ∀ {m : Machine} {stack : List Frame}, m.AtOperand stack none →
      ∃ next, m.Shifts toks next ∧ next.HasRead stack t
  | _, _, .btype h, _, stack, hm => ⟨_, h.shifts hm, .operand stack _⟩
  | _, _, .arrow hparam hresult, _, stack, hm => by
      obtain ⟨next, hshifts, hread⟩ :=
        hresult.shifts (atOperand_typeStart (.arrow _ :: stack))
      exact ⟨next, (hparam.shifts hm).append (.step rfl hshifts), .arrow hread⟩

theorem IsBtype.shifts : ∀ {toks : List Token} {t : NamedTy}, IsBtype toks t →
    ∀ {m : Machine} {stack : List Frame}, m.AtOperand stack none →
      m.Shifts toks ⟨stack, .operand t⟩
  | _, _, .atype h, _, _, hm => h.shifts hm
  | _, _, .app hfunc harg, _, stack, hm =>
      (hfunc.shifts hm).append (harg.shifts (atOperand_operand stack _))

theorem IsAtype.shifts : ∀ {toks : List Token} {t : NamedTy}, IsAtype toks t →
    ∀ {m : Machine} {stack : List Frame} {outer : Option NamedTy},
      m.AtOperand stack outer →
      m.Shifts toks ⟨stack, .operand (applied outer t)⟩
  | _, _, .var _, _, _, _, hm =>
      .single ((hm _ _ rfl).trans (operand_eq _ _ _))
  | _, _, .con hname, _, _, _, hm => by
      refine .single ((hm _ _ rfl).trans ?_)
      rw [conTy, if_neg hname, operand_eq]
  | _, _, .string, _, _, _, hm =>
      .single ((hm _ _ rfl).trans (operand_eq _ _ _))
  | _, _, .unit, _, _, _, hm => .step (hm _ _ rfl) (.single (operand_eq _ _ _))
  | _, _, .list, _, _, _, hm => .step (hm _ _ rfl) (.single (operand_eq _ _ _))
  | _, _, .arrow, _, _, _, hm =>
      .step (hm _ _ rfl) (.step rfl (.single (operand_eq _ _ _)))
  | _, _, .tuple more, _, stack, outer, hm => by
      have hcommas := shifts_commas stack outer 2 more
      refine .step (hm _ _ rfl) (.step rfl (hcommas.append (.single ?_)))
      rw [Nat.add_comm 2 more]
      exact operand_eq _ _ _
  | _, _, .listOf h, _, stack, outer, hm => by
      obtain ⟨next, hshifts, hread⟩ := h.shifts (atOperand_square stack outer)
      have hclose := hread.step (some .closeSquare) trivial
      exact .step (hm _ _ rfl)
        (hshifts.append (.single (hclose.trans (operand_eq _ _ _))))
  | _, _, .parens h, _, stack, outer, hm => by
      obtain ⟨next, hshifts, hread⟩ := h.shifts (atOperand_round stack outer)
      have hclose := hread.step (some .closeRound) trivial
      exact .step (hm _ _ rfl)
        (hshifts.append (.single (hclose.trans (operand_eq _ _ _))))
  | _, _, .tupleOf (t := t) h hmore hne, _, stack, outer, hm => by
      obtain ⟨first, hfirst, hread⟩ := h.shifts (atOperand_round stack outer)
      obtain ⟨next, before, last, hshifts, hlast, heq⟩ := hmore.shifts hread
      have hclose := hlast.step (some .closeRound) trivial
      refine .step (hm _ _ rfl) ((hfirst.append hshifts).append (.single ?_))
      rw [← parens_cons t hne, ← List.singleton_append,
        ← List.reverse_singleton, ← heq]
      exact hclose.trans (operand_eq _ _ _)

theorem AreTypes.shifts : ∀ {toks : List Token} {ts : List NamedTy},
    AreTypes toks ts →
    ∀ {m : Machine} {stack : List Frame} {outer : Option NamedTy}
      {before : List NamedTy} {t : NamedTy},
      m.HasRead (.round outer before :: stack) t →
      ∃ next before' last, m.Shifts toks next ∧
        next.HasRead (.round outer before' :: stack) last ∧
        (last :: before').reverse = (t :: before).reverse ++ ts
  | _, _, .nil, m, _, _, before, t, hm =>
      ⟨m, before, t, .refl m, hm, by simp⟩
  | _, _, .cons h hmore, _, stack, outer, before, t, hm => by
      obtain ⟨first, hfirst, hread⟩ :=
        h.shifts (atOperand_typeStart (.round outer (t :: before) :: stack))
      obtain ⟨next, before', last, hshifts, hlast, heq⟩ := hmore.shifts hread
      have hcomma := hm.step (some .comma) trivial
      exact ⟨next, before', last, .step hcomma (hfirst.append hshifts), hlast,
        by simp [heq]⟩

end

/-- A derivable type is read to its end, before any token that cannot go on
with it. -/
theorem IsType.readType_eq {lexemes rest : List Lexeme} {t : NamedTy}
    (h : IsType (lexemes.map (·.token)) t)
    (hrest : Stops (rest.head?.map (·.token))) :
    readType (lexemes ++ rest) = ⟨.ok t, rest⟩ := by
  obtain ⟨next, hshifts, hread⟩ := h.shifts (atOperand_typeStart [])
  rw [readType, initial, hshifts.read, hread.read hrest]

theorem exists_lexemes (toks : List Token) :
    ∃ lexemes : List Lexeme, lexemes.map (·.token) = toks := by
  refine ⟨toks.map fun tok => ⟨tok, 0⟩, ?_⟩
  rw [List.map_map]
  exact List.map_id toks

theorem IsType.readType_eq_nil {lexemes : List Lexeme} {t : NamedTy}
    (h : IsType (lexemes.map (·.token)) t) :
    readType lexemes = ⟨.ok t, []⟩ := by
  have hread := @IsType.readType_eq lexemes [] t h trivial
  rwa [List.append_nil] at hread

/-- A token list is the type of at most one tree. -/
theorem IsType.unique {toks : List Token} {t u : NamedTy}
    (ht : IsType toks t) (hu : IsType toks u) : t = u := by
  obtain ⟨lexemes, rfl⟩ := exists_lexemes toks
  simpa using ht.readType_eq_nil.symm.trans hu.readType_eq_nil

mutual

/-- The variables of a type are among its tokens. -/
theorem IsType.mem_toks : ∀ {toks : List Token} {t : NamedTy},
    IsType toks t → ∀ x ∈ t.vars, .var x ∈ toks
  | _, _, .btype h => h.mem_toks
  | _, _, .arrow hparam hresult => fun x hx =>
      List.mem_append.2 ((Ty.mem_vars_arrow.1 hx).imp (hparam.mem_toks x)
        fun hx => List.mem_cons_of_mem _ (hresult.mem_toks x hx))

theorem IsBtype.mem_toks : ∀ {toks : List Token} {t : NamedTy},
    IsBtype toks t → ∀ x ∈ t.vars, .var x ∈ toks
  | _, _, .atype h => h.mem_toks
  | _, _, .app hfunc harg => fun x hx =>
      List.mem_append.2
        ((Ty.mem_vars_app.1 hx).imp (hfunc.mem_toks x) (harg.mem_toks x))

/-- The variables of an operand are among its tokens. -/
theorem IsAtype.mem_toks : ∀ {toks : List Token} {t : NamedTy},
    IsAtype toks t → ∀ x ∈ t.vars, .var x ∈ toks
  | _, _, .var _ => fun x hx => by
      rw [Ty.mem_vars_var.1 hx]
      exact List.mem_singleton.2 rfl
  | _, _, .con _ => fun _ hx => nomatch hx
  | _, _, .string => fun _ hx => nomatch hx
  | _, _, .unit => fun _ hx => nomatch hx
  | _, _, .list => fun _ hx => nomatch hx
  | _, _, .arrow => fun _ hx => nomatch hx
  | _, _, .tuple _ => fun _ hx => nomatch hx
  | _, _, .listOf h => fun x hx =>
      List.mem_cons_of_mem _ (List.mem_append_left _ (h.mem_toks x hx))
  | _, _, .parens h => fun x hx =>
      List.mem_cons_of_mem _ (List.mem_append_left _ (h.mem_toks x hx))
  | _, _, .tupleOf h hmore _ => by
      intro x hx
      simp only [Ty.mem_vars_applyTo, List.mem_cons, exists_eq_or_imp,
        Ty.vars_con, List.not_mem_nil, false_or] at hx
      exact List.mem_cons_of_mem _ (List.mem_append_left _
        (List.mem_append.2 (hx.imp (h.mem_toks x)
          fun ⟨t, ht, hx⟩ => hmore.mem_toks t ht x hx)))

theorem AreTypes.mem_toks : ∀ {toks : List Token} {ts : List NamedTy},
    AreTypes toks ts → ∀ t ∈ ts, ∀ x ∈ t.vars, .var x ∈ toks
  | _, _, .nil => fun _ ht => nomatch ht
  | _, _, .cons h hmore => by
      intro t ht x hx
      apply List.mem_cons_of_mem
      rcases List.mem_cons.1 ht with heq | ht
      · rw [heq] at hx
        exact List.mem_append_left _ (h.mem_toks x hx)
      · exact List.mem_append_right _ (hmore.mem_toks t ht x hx)

end

/-! ### What is read is derivable -/

/-- Whether tokens are what stands before a bracket, if anything does. -/
def IsOuter (toks : List Token) : Option NamedTy → Prop
  | none => toks = []
  | some func => IsBtype toks func

/-- Components with a comma after each, last first. -/
inductive AreBefore : List Token → List NamedTy → Prop
  | nil : AreBefore [] []
  | cons {left right : List Token} {before : List NamedTy} {t : NamedTy}
      (hbefore : AreBefore left before) (h : IsType right t) :
      AreBefore (left ++ right ++ [.comma]) (t :: before)

inductive Stacks : List Frame → List Token → Prop
  | nil : Stacks [] []
  | arrow {stack : List Frame} {left right : List Token} {param : NamedTy}
      (hstack : Stacks stack left) (hparam : IsBtype right param) :
      Stacks (.arrow param :: stack) (left ++ right ++ [.arrow])
  | square {stack : List Frame} {left right : List Token}
      {outer : Option NamedTy} (hstack : Stacks stack left)
      (houter : IsOuter right outer) :
      Stacks (.square outer :: stack) (left ++ right ++ [.openSquare])
  | round {stack : List Frame} {left right comps : List Token}
      {outer : Option NamedTy} {before : List NamedTy}
      (hstack : Stacks stack left) (houter : IsOuter right outer)
      (hbefore : AreBefore comps before) :
      Stacks (.round outer before :: stack)
        (left ++ right ++ .openRound :: comps)

inductive Points : Cursor → List Token → Prop
  | typeStart : Points .typeStart []
  | operand {toks : List Token} {t : NamedTy} (h : IsBtype toks t) :
      Points (.operand t) toks
  | square {toks : List Token} {outer : Option NamedTy}
      (h : IsOuter toks outer) : Points (.square outer) (toks ++ [.openSquare])
  | round {toks : List Token} {outer : Option NamedTy}
      (h : IsOuter toks outer) : Points (.round outer) (toks ++ [.openRound])
  | roundArrow {toks : List Token} {outer : Option NamedTy}
      (h : IsOuter toks outer) :
      Points (.roundArrow outer) (toks ++ [.openRound, .arrow])
  | roundCommas {toks : List Token} {outer : Option NamedTy}
      (h : IsOuter toks outer) (more : Nat) :
      Points (.roundCommas outer (more + 2))
        (toks ++ .openRound :: List.replicate (more + 1) .comma)

def Machine.Reads (m : Machine) (toks : List Token) : Prop :=
  ∃ left right, toks = left ++ right ∧ Stacks m.stack left ∧
    Points m.cursor right

/-- Whether a step after tokens that were read is right: what is shifted is
read, and what is accepted can be derived. -/
def Step.Right (toks : List Token) (tok? : Option Token) : Step → Prop
  | .shift next => ∃ tok, tok? = some tok ∧ next.Reads (toks ++ [tok])
  | .accept t => IsType toks t
  | .reject _ => True

section Soundness

variable {stack : List Frame} {left right toks : List Token} {tok : Token}
  {tok? : Option Token} {outer : Option NamedTy} {t : NamedTy}
  {before : List NamedTy} {m next : Machine}

theorem IsOuter.applied (h : IsOuter left outer) (ht : IsAtype right t) :
    IsBtype (left ++ right) (applied outer t) := by
  cases outer with
  | none =>
      rw [show left = [] from h]
      exact .atype ht
  | some func => exact .app h ht

/-- Components before, the one read last and components after are those of a
tuple, unless there is only one. -/
theorem AreBefore.isAtype (h : AreBefore toks before) {last more : List Token}
    {ts : List NamedTy} (ht : IsType last t) (hmore : AreTypes more ts) :
    IsAtype (.openRound :: (toks ++ (last ++ more) ++ [.closeRound]))
      (.parens (before.reverse ++ t :: ts)) := by
  induction h generalizing last t more ts with
  | nil =>
      cases hmore with
      | nil =>
          rw [List.append_nil]
          exact .parens ht
      | cons hnext hmore =>
          rw [List.nil_append]
          exact .tupleOf ht (.cons hnext hmore) (List.cons_ne_nil _ _)
  | cons _ hnext ih => simpa using ih hnext (.cons ht hmore)

/-- An operand is right where it ends one that the grammar has. -/
theorem right_operand (hstack : Stacks stack left)
    (houter : IsOuter right outer) (ht : IsAtype (toks ++ [tok]) t) :
    (operand stack outer t).Right (left ++ (right ++ toks)) (some tok) := by
  rw [operand_eq]
  refine ⟨tok, rfl, left, right ++ (toks ++ [tok]), by simp, hstack, ?_⟩
  exact .operand (houter.applied ht)

theorem right_startOperand? (hstack : Stacks stack left)
    (houter : IsOuter right outer) {step : Step}
    (h : startOperand? stack outer tok? = some step) :
    step.Right (left ++ right) tok? := by
  have hoperand {tok : Token} {t : NamedTy} (ht : IsAtype [tok] t) :
      (operand stack outer t).Right (left ++ right) (some tok) := by
    have hright := right_operand hstack houter
      (show IsAtype ([] ++ [tok]) t from ht)
    rwa [List.append_nil] at hright
  unfold startOperand? at h
  split at h
  · cases h
    exact hoperand (.var _)
  · rename_i name
    cases h
    by_cases hname : name = .string
    · rw [hname]
      exact hoperand .string
    · rw [conTy, if_neg hname]
      exact hoperand (.con hname)
  · cases h
    exact ⟨_, rfl, left, _, List.append_assoc _ _ _, hstack, .round houter⟩
  · cases h
    exact ⟨_, rfl, left, _, List.append_assoc _ _ _, hstack, .square houter⟩
  · contradiction

theorem right_startType (hstack : Stacks stack left) :
    (startType stack tok?).Right left tok? := by
  rw [startType]
  cases h : startOperand? stack none tok? with
  | none => trivial
  | some step =>
      have houter : IsOuter [] none := rfl
      simpa using right_startOperand? hstack houter h

/-- A step after a complete type is right, whatever brackets it closes. -/
theorem right_close (hstack : Stacks stack left) (ht : IsType right t) :
    (close t stack tok?).Right (left ++ right) tok? := by
  induction hstack generalizing right t with
  | nil => exact ht
  | arrow _ hparam ih => simpa [close] using ih (.arrow hparam ht)
  | square hstack houter =>
      unfold close
      split
      · have hatype : IsAtype ((.openSquare :: right) ++ [.closeSquare])
            (.list t) := .listOf ht
        simpa using right_operand hstack houter hatype
      · trivial
  | @round stack left outside comps outer before hstack houter hbefore =>
      unfold close
      split
      · refine ⟨_, rfl, left ++ outside ++ .openRound :: (comps ++ right ++
          [.comma]), [], by simp, ?_, .typeStart⟩
        exact .round hstack houter (.cons hbefore ht)
      · have hatype : IsAtype
            ((.openRound :: (comps ++ right)) ++ [.closeRound])
            (.parens (t :: before).reverse) := by
          simpa using hbefore.isAtype ht .nil
        simpa using right_operand hstack houter hatype
      · trivial

/-- Every step after tokens that were read is right. -/
theorem Machine.Reads.step (h : m.Reads toks) (tok? : Option Token) :
    (m.step tok?).Right toks tok? := by
  obtain ⟨stack, cursor⟩ := m
  obtain ⟨left, right, rfl, hstack, hcursor⟩ := h
  dsimp only at hstack hcursor
  cases hcursor with
  | typeStart =>
      rw [List.append_nil]
      exact right_startType hstack
  | @operand right t ht =>
      by_cases harrow : tok? = some .arrow
      · subst harrow
        exact ⟨_, rfl, left ++ right ++ [.arrow], [], by simp,
          .arrow hstack ht, .typeStart⟩
      · rw [step_operand stack t harrow]
        have houter : IsOuter right (some t) := ht
        cases hstart : startOperand? stack (some t) tok? with
        | none => exact right_close hstack (.btype ht)
        | some step => exact right_startOperand? hstack houter hstart
  | @square right outer houter =>
      by_cases hclose : tok? = some .closeSquare
      · subst hclose
        exact right_operand hstack houter .list
      · rw [step_square stack outer hclose, ← List.append_assoc]
        exact right_startType (.square hstack houter)
  | @round right outer houter =>
      by_cases hopens : RoundOpens tok?
      · rcases hopens with rfl | rfl | rfl
        · exact right_operand hstack houter .unit
        · exact ⟨_, rfl, left, right ++ [.openRound, .arrow], by simp, hstack,
            .roundArrow houter⟩
        · exact ⟨_, rfl, left, right ++ [.openRound, .comma], by simp, hstack,
            .roundCommas houter 0⟩
      · rw [step_round stack outer hopens, ← List.append_assoc]
        exact right_startType (.round hstack houter .nil)
  | @roundArrow right outer houter =>
      rcases tok? with _ | tok
      · trivial
      · cases tok with
        | closeRound => exact right_operand hstack houter .arrow
        | _ => trivial
  | @roundCommas right outer houter more =>
      rcases tok? with _ | tok
      · trivial
      · cases tok with
        | closeRound => exact right_operand hstack houter (.tuple more)
        | comma =>
            refine ⟨_, rfl, left, right ++ .openRound ::
              List.replicate (more + 2) .comma, ?_, hstack,
              .roundCommas houter (more + 1)⟩
            simp [List.replicate_succ']
        | _ => trivial

/-- What is read can be derived. -/
theorem Machine.Reads.read {lexemes rest : List Lexeme} (h : m.Reads toks)
    (hread : m.read lexemes = ⟨.ok t, rest⟩) :
    ∃ consumed, lexemes = consumed ++ rest ∧
      IsType (toks ++ consumed.map (·.token)) t := by
  induction lexemes generalizing m toks with
  | nil =>
      have hstep := h.step none
      rw [Machine.read] at hread
      split at hread
      · rename_i haccept
        rw [haccept] at hstep
        cases hread
        exact ⟨[], rfl, by rwa [List.map_nil, List.append_nil]⟩
      · cases hread
      · cases hread
  | cons lexeme lexemes ih =>
      have hstep := h.step (some lexeme.token)
      rw [Machine.read] at hread
      split at hread
      · rename_i next hshift
        rw [hshift] at hstep
        obtain ⟨tok, htok, hnext⟩ := hstep
        cases htok
        obtain ⟨consumed, rfl, htype⟩ := ih hnext hread
        exact ⟨lexeme :: consumed, rfl, by simpa using htype⟩
      · rename_i haccept
        rw [haccept] at hstep
        cases hread
        exact ⟨[], rfl, by rwa [List.map_nil, List.append_nil]⟩
      · cases hread

/-- What is read as a type can be derived as it. -/
theorem isType_of_readType {lexemes rest : List Lexeme}
    (h : readType lexemes = ⟨.ok t, rest⟩) :
    ∃ consumed, lexemes = consumed ++ rest ∧
      IsType (consumed.map (·.token)) t := by
  have hinitial : initial.Reads [] := ⟨[], [], rfl, .nil, .typeStart⟩
  exact hinitial.read h

end Soundness

end HindleyMilner.Signature

import HindleyMilner.Proofs.Extension
import HindleyMilner.Proofs.RoundTrip
import Mathlib.Data.String.Basic

/-
The text of a type.  A type is written by numbering its unsolved variables in
the order in which they appear, and each is called by the letters of its
number.  So the text is a function of the numbered type and of the names of
the classes at each number, and nothing else of the state can show in it.
-/

namespace HindleyMilner

open Signature Display Writer

/-! ### Texts in ascending order -/

theorem pairwise_insertText (text : String) {texts : List String}
    (h : texts.Pairwise (· ≤ ·)) :
    (insertText text texts).Pairwise (· ≤ ·) := by
  induction texts with
  | nil => simp [insertText]
  | cons head tail ih =>
      obtain ⟨hhead, htail⟩ := List.pairwise_cons.1 h
      by_cases hle : text ≤ head
      · have hall : ∀ other ∈ head :: tail, text ≤ other := by
          simp only [List.forall_mem_cons]
          exact ⟨hle, fun other hother => hle.trans (hhead other hother)⟩
        simp only [insertText, if_pos hle]
        exact List.pairwise_cons.2 ⟨hall, h⟩
      · have hlt : head ≤ text := (not_le.1 hle).le
        have hall : ∀ other ∈ insertText text tail, head ≤ other := by
          intro other hother
          rcases List.mem_cons.1 ((insertText_perm text tail).mem_iff.1 hother)
            with rfl | hother
          · exact hlt
          · exact hhead other hother
        simp only [insertText, if_neg hle]
        exact List.pairwise_cons.2 ⟨hall, ih htail⟩

theorem pairwise_sortTexts (texts : List String) :
    (sortTexts texts).Pairwise (· ≤ ·) := by
  induction texts with
  | nil => exact List.Pairwise.nil
  | cons head tail ih => exact pairwise_insertText head ih

/-- The order in which texts are given does not show after sorting. -/
theorem sortTexts_congr {texts others : List String}
    (h : texts.Perm others) : sortTexts texts = sortTexts others := by
  have hperm : (sortTexts texts).Perm (sortTexts others) :=
    ((sortTexts_perm texts).trans h).trans (sortTexts_perm others).symm
  exact hperm.eq_of_pairwise (fun _ _ _ _ => le_antisymm)
    (pairwise_sortTexts texts) (pairwise_sortTexts others)

namespace ClassSet

/-- Whether two sets of classes, each of its own table, have the same names. -/
def SameNames (table : ClassTable) (set : ClassSet) (table' : ClassTable)
    (set' : ClassSet) : Prop :=
  (set.members.map table.nameOf).Perm (set'.members.map table'.nameOf)

variable {table table' : ClassTable} {set set' : ClassSet}

theorem SameNames.names_eq (h : SameNames table set table' set') :
    set.names table = set'.names table' :=
  sortTexts_congr h

/-- Classes that are found by their names are told apart by them. -/
theorem nodup_names (found : table.Found)
    (hset : ∀ c ∈ set.members, c.index < table.size) :
    (set.members.map table.nameOf).Nodup := by
  apply set.nodup.map_on
  intro c hc d hd hname
  have hfind := found (hset c hc)
  rw [hname, found (hset d hd)] at hfind
  exact (Option.some.inj hfind).symm

/-- Sets of classes that are found by their names have the same names if each
name in one is in the other. -/
theorem sameNames_of_mem_iff (found : table.Found) (found' : table'.Found)
    (hset : ∀ c ∈ set.members, c.index < table.size)
    (hset' : ∀ c ∈ set'.members, c.index < table'.size)
    (h : ∀ text, text ∈ set.names table ↔ text ∈ set'.names table') :
    SameNames table set table' set' := by
  apply (List.perm_ext_iff_of_nodup (nodup_names found hset)
    (nodup_names found' hset')).2
  intro text
  simpa only [mem_names, List.mem_map] using h text

end ClassSet

/-! ### Types whose variables are numbers -/

namespace Display

variable {V W : Type}

/-- A type with each variable written as told, applied to arguments. -/
def spelled (var : V → Place → String) :
    Ty V → List (Place → String) → Place → String
  | .app func arg, args => spelled var func (spelled var arg [] :: args)
  | .con name, args => conApplied name args
  | .var v, [] => var v
  | .var v, args => applied (var v .argument) args

/-- The letters of a number with the names of classes in front. -/
def lettered (classes : List String) (position : Nat) (place : Place) :
    String :=
  match classes with
  | [] => letters position
  | [cls] => parenIf (place = .argument) (cls ++ " " ++ letters position)
  | classes =>
      parenIf (place = .argument)
        ("(" ++ commas classes ++ ") " ++ letters position)

/-- The text of a type whose variables are numbers.  The classes of each
number are given by their names, and every variable is written with letters. -/
def numberedText (style : DisplayStyle) (classes : List (List String))
    (t : Ty Nat) : String :=
  match style with
  | .inline =>
      spelled (fun i => lettered (classes[i]?.getD []) i) t [] .whole
  | .context =>
      contextText (classes.zipIdx.flatMap fun (names, i) =>
        names.map fun cls => cls ++ " " ++ letters i) ++
      spelled (fun i _ => letters i) t [] .whole

theorem spelled_map (f : V → W) (var : W → Place → String) (t : Ty V)
    (args : List (Place → String)) :
    spelled var (t.map f) args = spelled (fun v => var (f v)) t args := by
  induction t generalizing args with
  | var v => cases args <;> rfl
  | con name => rfl
  | app func arg ihFunc ihArg => simp only [Ty.map, spelled, ihFunc, ihArg]

theorem spelled_congr {var var' : V → Place → String} {t : Ty V}
    (h : ∀ v ∈ t.vars, var v = var' v) (args : List (Place → String)) :
    spelled var t args = spelled var' t args := by
  induction t generalizing args with
  | var v =>
      have hv : var v = var' v := h v (Ty.mem_vars_var.2 rfl)
      cases args <;> simp only [spelled, hv]
  | con name => rfl
  | app func arg ihFunc ihArg =>
      have hfunc := ihFunc fun v hv => h v (Ty.mem_vars_app.2 (.inl hv))
      have harg := ihArg fun v hv => h v (Ty.mem_vars_app.2 (.inr hv))
      simp only [spelled, hfunc, harg]

theorem tyApplied_eq_spelled (w : Writer) (t : Ty TyVar)
    (args : List (Place → String)) :
    w.tyApplied t args = spelled w.var t args := by
  induction t generalizing args with
  | var v => cases args <;> rfl
  | con name => rfl
  | app func arg ihFunc ihArg =>
      simp only [Writer.tyApplied, spelled, ihFunc, ihArg]

theorem var_eq_lettered {w : Writer} {v : TyVar} (hv : v ∈ w.vars) :
    w.var v = lettered (if w.inline then w.classNames v else [])
      (w.vars.idxOf v) := by
  have hidx : w.vars.idxOf? v = some (w.vars.idxOf v) :=
    List.findIdx?_eq_some_iff_findIdx_eq.2
      ⟨List.idxOf_lt_length_iff.2 hv, rfl⟩
  funext place
  simp only [Writer.var, hidx]
  rcases (if w.inline then w.classNames v else []) with _ | ⟨_, _ | _⟩ <;> rfl

end Display

/-! ### Letters and the names of variables in a store -/

theorem isAlpha_of_isDigit {c : Char} (h : c.isDigit = true) :
    c.isAlpha = false := by
  delta Char.isAlpha Char.isUpper Char.isLower
  simp only [Char.isDigit, Bool.and_eq_true, decide_eq_true_eq,
    Bool.or_eq_false_iff, Bool.and_eq_false_iff, decide_eq_false_iff_not] at h ⊢
  grind

theorem isAlpha_greekLetter :
    ∀ c ∈ Store.greekLetters, c.isAlpha = false := by
  have hall : Store.greekLetters.all (!·.isAlpha) = true := by decide
  simpa using hall

/-- A text with a character that is no letter from `a` to `z`. -/
theorem letters_ne_of_mem {position : Nat} {text : String} {c : Char}
    (hc : c ∈ text.toList) (halpha : c.isAlpha = false) :
    letters position ≠ text := by
  rintro rfl
  have hletter := letter_isIdent _ (Nat.mod_lt position (by decide))
  have hall : ∀ n < 26, (Char.ofNat (97 + n)).isAlpha = true := by decide
  simp only [letters, String.toList_ofList, List.mem_replicate] at hc
  rw [hc.2, hall _ (Nat.mod_lt position (by decide))] at halpha
  contradiction

/-- No variable of a store is called by letters there: its name ends in a
number or begins with a letter of another alphabet. -/
theorem letters_ne_varName (position : Nat) (s : Store) (v : TyVar) :
    letters position ≠ s.varName v := by
  by_cases hbase : s.baseOf v = ""
  · have hlt : v.index % Store.greekLetters.length <
        Store.greekLetters.length := Nat.mod_lt _ (by decide)
    have halpha := isAlpha_greekLetter _ (List.getElem_mem hlt)
    refine letters_ne_of_mem ?_ halpha
    simp [Store.varName, hbase, List.getElem?_eq_getElem hlt]
  · obtain ⟨c, hc⟩ := List.exists_mem_of_ne_nil _
      (Nat.toDigits_ne_nil (n := v.index) (b := 10))
    have hdigit : c.isDigit = true :=
      Nat.isDigit_of_mem_toDigits (by decide) (by decide) hc
    refine letters_ne_of_mem ?_ (isAlpha_of_isDigit hdigit)
    simp [Store.varName, hbase, Nat.toString_eq_repr, Nat.toList_repr, hc]

/-! ### Numbering the variables of a type -/

namespace TypeState

variable {st st' : TypeState} {ty ty' : Ty TyVar} {v w : TyVar}
  {f : TyVar → TyVar}

/-- What a type stands for, with its unsolved variables numbered in the order
in which they appear. -/
def numbered (st : TypeState) (ty : Ty TyVar) : Ty Nat :=
  (st.store.zonk ty).map fun v => (st.store.freeVars ty).idxOf v

def classTexts (st : TypeState) (v : TyVar) : List String :=
  ((st.store.unsolvedClasses? v).map (·.names st.classes)).getD []

theorem WellFormed.exists_unsolvedClasses? (h : st.WellFormed)
    (hty : ty.InRange st.store) (hv : v ∈ (st.store.zonk ty).vars) :
    ∃ set, st.store.unsolvedClasses? v = some set :=
  Store.exists_unsolvedClasses? (h.wellFormed.inRange_zonk hty v hv)
    (h.wellFormed.solution?_of_mem_zonk hv)

/-- The classes that are written for the variables of a type. -/
theorem WellFormed.classNames_ofTypes (h : st.WellFormed)
    (hv : v ∈ (st.store.zonk ty).vars) :
    (Writer.ofTypes st [ty]).classNames v = st.classTexts v := by
  have wf := h.wellFormed
  have hnone := wf.solution?_of_mem_zonk hv
  have hroot : st.store.root v = v :=
    wf.root_eq_iff.2 ⟨.refl, fun w hw => by simp [Store.Links, hnone] at hw⟩
  simp only [Writer.classNames, Writer.ofTypes, Store.classes?, hroot,
    classTexts]

theorem getElem?_classTexts (hv : v ∈ (st.store.zonk ty).vars) :
    ((st.store.freeVars ty).map
      st.classTexts)[(st.store.freeVars ty).idxOf v]?.getD [] =
        st.classTexts v := by
  have hmem : v ∈ st.store.freeVars ty := Store.mem_freeVars.2 hv
  simp [List.getElem?_idxOf hmem]

theorem WellFormed.context_ofTypes (h : st.WellFormed) (ty : Ty TyVar) :
    (Writer.ofTypes st [ty]).context =
      contextText (((st.store.freeVars ty).map
        st.classTexts).zipIdx.flatMap fun (names, i) =>
          names.map fun cls => cls ++ " " ++ letters i) := by
  rw [Signature.context_eq, requirements, List.map_flatMap, List.zipIdx_map,
    List.flatMap_map]
  congr 1
  apply List.flatMap_congr
  rintro ⟨v, i⟩ hmem
  have hv : v ∈ (st.store.zonk ty).vars :=
    mem_vars_ofTypes.1 (List.fst_mem_of_mem_zipIdx hmem)
  simp [h.classNames_ofTypes hv, requirementText, Function.comp_def]

/-- The text of a type in a style is that of its numbered form. -/
theorem WellFormed.display_eq (h : st.WellFormed) (style : DisplayStyle)
    (ty : Ty TyVar) :
    st.display style ty = numberedText style
      ((st.store.freeVars ty).map st.classTexts) (st.numbered ty) := by
  cases style with
  | inline =>
      have hvar : ∀ v ∈ (st.store.zonk ty).vars,
          (Writer.ofTypes st [ty]).var v =
            lettered (((st.store.freeVars ty).map
              st.classTexts)[(st.store.freeVars ty).idxOf v]?.getD [])
              ((st.store.freeVars ty).idxOf v) := by
        intro v hv
        rw [getElem?_classTexts hv, ← h.classNames_ofTypes hv]
        exact var_eq_lettered (mem_vars_ofTypes.2 hv)
      simp only [numberedText, numbered, spelled_map, ← spelled_congr hvar]
      exact congrFun (tyApplied_eq_spelled _ _ []) .whole
  | context =>
      have hvar : ∀ v ∈ (st.store.zonk ty).vars,
          ({ Writer.ofTypes st [ty] with inline := false } : Writer).var v =
            fun _ => letters ((st.store.freeVars ty).idxOf v) :=
        fun v hv => var_eq_lettered (mem_vars_ofTypes.2 hv)
      simp only [numberedText, numbered, spelled_map, ← spelled_congr hvar,
        ← h.context_ofTypes]
      rw [display_context_eq, tyApplied_eq_spelled]

/-! ### Renamings -/

theorem foldl_note_map (vs : List TyVar) {seen : List TyVar}
    (hf : Set.InjOn f {v | v ∈ seen ∨ v ∈ vs}) :
    (vs.map f).foldl Store.note (seen.map f) =
      (vs.foldl Store.note seen).map f := by
  induction vs generalizing seen with
  | nil => rfl
  | cons head tail ih =>
      have hmem : f head ∈ seen.map f ↔ head ∈ seen := by
        constructor
        · intro hin
          obtain ⟨v, hv, heq⟩ := List.mem_map.1 hin
          rwa [← hf (.inl hv) (.inr List.mem_cons_self) heq]
        · exact List.mem_map_of_mem
      simp only [List.map_cons, List.foldl_cons]
      by_cases hin : head ∈ seen
      · rw [Store.note, Store.note, if_pos hin, if_pos (hmem.2 hin)]
        apply ih
        apply hf.mono
        grind
      · have hnext : seen.map f ++ [f head] = (seen ++ [head]).map f := by simp
        rw [Store.note, Store.note, if_neg hin, if_neg (mt hmem.1 hin), hnext]
        apply ih
        apply hf.mono
        grind

theorem idxOf_map {vs : List TyVar} (hf : Set.InjOn f {v | v ∈ vs})
    (hv : v ∈ vs) : (vs.map f).idxOf (f v) = vs.idxOf v := by
  induction vs with
  | nil => simp at hv
  | cons head tail ih =>
      by_cases heq : head = v
      · simp [heq]
      · have htail : v ∈ tail := by simpa [Ne.symm heq] using hv
        have hne : f head ≠ f v := fun h =>
          heq (hf List.mem_cons_self hv h)
        have hrest := ih (hf.mono fun w hw => List.mem_cons_of_mem _ hw) htail
        simp [List.idxOf_cons_ne, heq, hne, hrest]

/-- Whether a type stands for the same as another in another state, up to a
renaming of unsolved variables that is one to one and keeps the names of their
classes. -/
structure Renames (st : TypeState) (ty : Ty TyVar) (st' : TypeState)
    (ty' : Ty TyVar) (f : TyVar → TyVar) : Prop where
  zonk : st'.store.zonk ty' = (st.store.zonk ty).map f
  injOn : Set.InjOn f {v | v ∈ (st.store.zonk ty).vars}
  sameNames : ∀ v ∈ (st.store.zonk ty).vars, ∀ set set',
    st.store.unsolvedClasses? v = some set →
      st'.store.unsolvedClasses? (f v) = some set' →
        set.SameNames st.classes st'.classes set'

namespace Renames

theorem freeVars_eq (h : Renames st ty st' ty' f) :
    st'.store.freeVars ty' = (st.store.freeVars ty).map f := by
  have hinj : Set.InjOn f {v | v ∈ [] ∨ v ∈ (st.store.zonk ty).vars} := by
    simpa using h.injOn
  have hmap := foldl_note_map _ hinj
  simpa only [Store.freeVars, Store.addFreeVars_eq, h.zonk, Ty.vars_map,
    List.map_nil] using hmap

theorem numbered_eq (h : Renames st ty st' ty' f) :
    st'.numbered ty' = st.numbered ty := by
  have hinj : Set.InjOn f {v | v ∈ st.store.freeVars ty} := by
    simpa only [Store.mem_freeVars] using h.injOn
  rw [numbered, numbered, h.zonk, h.freeVars_eq, Ty.map_map, Ty.map_eq_bind,
    Ty.map_eq_bind]
  apply Ty.bind_congr
  intro v hv
  rw [idxOf_map hinj (Store.mem_freeVars.2 hv)]

theorem classTexts_eq (h : Renames st ty st' ty' f) (hst : st.WellFormed)
    (hst' : st'.WellFormed) (hty : ty.InRange st.store)
    (hty' : ty'.InRange st'.store) (hv : v ∈ (st.store.zonk ty).vars) :
    st'.classTexts (f v) = st.classTexts v := by
  have hv' : f v ∈ (st'.store.zonk ty').vars := by
    rw [h.zonk]
    exact Ty.mem_vars_map.2 ⟨v, hv, rfl⟩
  obtain ⟨set, hset⟩ := hst.exists_unsolvedClasses? hty hv
  obtain ⟨set', hset'⟩ := hst'.exists_unsolvedClasses? hty' hv'
  have hnames := h.sameNames v hv set set' hset hset'
  simp [classTexts, hset, hset', hnames.names_eq]

end Renames

/-- Types that stand for the same up to a renaming of unsolved variables are
written alike.  A type is written like what it stands for, with letters for
its unsolved variables, different ones for different variables, and never with
the name of a variable in the store. -/
theorem display_canonical (h : st.Arises) (hty : ty.InRange st.store)
    (style : DisplayStyle) :
    (∀ st' ty' f, st'.Arises → ty'.InRange st'.store →
        Renames st ty st' ty' f →
          st'.display style ty' = st.display style ty) ∧
      st.display style (st.store.zonk ty) = st.display style ty ∧
      (st.display style ty = numberedText style
          ((st.store.freeVars ty).map st.classTexts) (st.numbered ty) ∧
        ∀ position v, letters position ≠ st.store.varName v) ∧
      ∀ v ∈ (st.store.zonk ty).vars, ∀ w ∈ (st.store.zonk ty).vars,
        letters ((st.store.freeVars ty).idxOf v) =
          letters ((st.store.freeVars ty).idxOf w) → v = w := by
  have hst := h.wellFormed
  refine ⟨fun st' ty' f h' hty' hrenames => ?_, ?_,
    ⟨hst.display_eq style ty, fun position v =>
      letters_ne_varName position st.store v⟩, fun v hv w hw heq => ?_⟩
  · have hclasses : (st'.store.freeVars ty').map st'.classTexts =
        (st.store.freeVars ty).map st.classTexts := by
      rw [hrenames.freeVars_eq, List.map_map]
      apply List.map_congr_left
      intro v hv
      exact hrenames.classTexts_eq hst h'.wellFormed hty hty'
        (Store.mem_freeVars.1 hv)
    rw [h'.wellFormed.display_eq, hst.display_eq, hclasses,
      hrenames.numbered_eq]
  · have hfree : st.store.freeVars (st.store.zonk ty) =
        st.store.freeVars ty := by
      simp only [Store.freeVars, Store.addFreeVars_eq,
        hst.wellFormed.zonk_zonk]
    rw [hst.display_eq, hst.display_eq, numbered, numbered, hfree,
      hst.wellFormed.zonk_zonk]
  · exact (List.idxOf_inj (Store.mem_freeVars.2 hv)).1
      (letters_injective heq)

def twoClasses (one other : Name) : ClassTable :=
  ⟨#[⟨one, [], [], []⟩, ⟨other, [], [], []⟩]⟩

theorem eq_nonempty : "Eq" ≠ "" := by decide

def showSession : TypeState :=
  let classes := twoClasses ⟨"Eq", eq_nonempty⟩ ⟨"Show", by decide⟩
  let store := (Store.empty.fresh "x" (.ofList classes [⟨0⟩, ⟨1⟩])).2
  ⟨classes, (store.fresh "y" ∅).2⟩

/-- A session with the same classes, added the other way around, where a
variable without a name stands for the lists of one that is in both. -/
def turnedSession : TypeState :=
  let classes := twoClasses ⟨"Show", by decide⟩ ⟨"Eq", eq_nonempty⟩
  let store := (Store.empty.fresh "" ∅).2
  let store := (store.fresh "z" (.ofList classes [⟨0⟩, ⟨1⟩])).2
  ((⟨classes, (store.fresh "" ∅).2⟩ : TypeState).unify (.var ⟨0⟩)
    (.list (.var ⟨1⟩))).2

theorem reachable_twoClasses {one other : Name} (hne : one ≠ other) :
    Reachable ⟨twoClasses one other, .empty⟩ := by
  have hone : empty.classes.add? one [] =
      some ⟨#[⟨one, [], [], []⟩]⟩ := by
    simp [empty, ClassTable.add?, ClassTable.find?, ClassTable.empty]
  have hother : ClassTable.add? ⟨#[⟨one, [], [], []⟩]⟩ other [] =
      some (twoClasses one other) := by
    have htext : one.text ≠ other.text := fun h =>
      hne (Name.text_injective h)
    simp [twoClasses, ClassTable.add?, ClassTable.find?, htext]
  have hfirst : Step empty ⟨⟨#[⟨one, [], [], []⟩]⟩, .empty⟩ :=
    .addClass (by simp) hone
  exact .tail (.single hfirst) (.addClass (by simp) hother)

theorem showSession_reachable : showSession.Reachable :=
  .tail (.tail (reachable_twoClasses (by decide)) (.fresh _ "x" _))
    (.fresh _ "y" ∅)

theorem turnedSession_reachable : turnedSession.Reachable :=
  .tail (.tail (.tail (.tail (reachable_twoClasses (by decide))
    (.fresh _ "" ∅)) (.fresh _ "z" _)) (.fresh _ "" ∅))
      (.unify (by decide) (by decide))

theorem display_canonical_turned :
    showSession.display .context (.arrow (.list (.var ⟨0⟩)) (.var ⟨1⟩)) =
        "(Eq a, Show a) => [a] -> b" ∧
      turnedSession.display .context (.arrow (.var ⟨0⟩) (.var ⟨2⟩)) =
        showSession.display .context
          (.arrow (.list (.var ⟨0⟩)) (.var ⟨1⟩)) := by
  have hvars : (showSession.store.zonk
      (.arrow (.list (.var ⟨0⟩)) (.var ⟨1⟩))).vars = [⟨0⟩, ⟨1⟩] := rfl
  have hrenames : Renames showSession (.arrow (.list (.var ⟨0⟩)) (.var ⟨1⟩))
      turnedSession (.arrow (.var ⟨0⟩) (.var ⟨2⟩))
      fun v => ⟨v.index + 1⟩ := by
    refine ⟨rfl, fun v _ w _ heq => ?_, ?_⟩
    · cases v
      cases w
      simpa using heq
    · simp only [hvars, List.forall_mem_cons]
      refine ⟨fun set set' hset hset' => ?_, fun set set' hset hset' => ?_,
        by simp⟩
      · cases hset
        cases hset'
        exact ClassSet.sameNames_of_mem_iff showSession_reachable.arises.found
          turnedSession_reachable.arises.found (by decide +kernel)
          (by decide +kernel) fun text => Iff.rfl
      · cases hset
        cases hset'
        exact List.Perm.refl _
  exact ⟨by decide +kernel,
    (display_canonical showSession_reachable.arises (by decide) .context).1
      turnedSession _ _ turnedSession_reachable.arises (by decide) hrenames⟩

end TypeState

end HindleyMilner

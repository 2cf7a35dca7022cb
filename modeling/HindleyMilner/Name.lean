/-
Names: the non-empty texts that classes, type constructors, functions and
binders are called by, and the order in which texts are listed.
-/

namespace HindleyMilner

/-- A text that is not empty. -/
structure Name where
  text : String
  nonempty : text ≠ ""
  deriving DecidableEq, Repr

namespace Name

/-- The name with this text; the empty text is no name. -/
def ofString? (text : String) : Option Name :=
  if h : text = "" then none else some ⟨text, h⟩

/-- The name spelled by a first character and the characters after it. -/
def ofChars (first : Char) (rest : List Char) : Name where
  text := String.ofList (first :: rest)
  nonempty := by
    intro h
    have hchars := congrArg String.toList h
    simp at hchars

@[simp] theorem text_ofChars (first : Char) (rest : List Char) :
    (ofChars first rest).text = String.ofList (first :: rest) := rfl

theorem ofString?_text (name : Name) : ofString? name.text = some name := by
  simp [ofString?, name.nonempty]

end Name

/-- Puts a text before the first listed text that is not smaller. -/
def insertText (text : String) : List String → List String
  | [] => [text]
  | head :: tail =>
      if text ≤ head then text :: head :: tail
      else head :: insertText text tail

def sortTexts (texts : List String) : List String :=
  texts.foldr insertText []

theorem insertText_perm (text : String) (texts : List String) :
    (insertText text texts).Perm (text :: texts) := by
  induction texts with
  | nil => exact List.Perm.refl _
  | cons head tail ih =>
      simp only [insertText]
      split
      · exact List.Perm.refl _
      · exact (ih.cons head).trans (List.Perm.swap text head tail)

theorem sortTexts_perm (texts : List String) :
    (sortTexts texts).Perm texts := by
  induction texts with
  | nil => exact List.Perm.refl _
  | cons head tail ih =>
      exact (insertText_perm head (sortTexts tail)).trans (ih.cons head)

end HindleyMilner

import HindleyMilner.Display
import HindleyMilner.Exp

/-
Expressions as Haskell source, with all parentheses.
-/

namespace HindleyMilner

mutual

/-- The source of an expression; the state is needed to write the types of
annotations. -/
def Exp.toHaskell (st : TypeState) : Exp → String
  | .value _ _ text => "(" ++ text ++ ")"
  | .localVar _ binder => binder.name.text
  | .function _ use => use.name.text
  | .hole _ => "undefined"
  | .apply _ func arg =>
      "(" ++ func.toHaskell st ++ " " ++ arg.toHaskell st ++ ")"
  | .lambda _ params body =>
      "(\x5c" ++ " ".intercalate (params.map (·.name.text)) ++ " -> " ++
        body.toHaskell st ++ ")"
  | .letIn _ bindings body =>
      "(let \x7b" ++ "; ".intercalate (bindings.toHaskell st) ++ "\x7d in " ++
        body.toHaskell st ++ ")"
  | .annotated _ inner ty =>
      "(" ++ inner.toHaskell st ++ " :: " ++ st.display .context ty ++ ")"

def Bindings.toHaskell (st : TypeState) : Bindings → List String
  | .nil => []
  | .cons binder bound rest =>
      (binder.name.text ++ " = " ++ bound.toHaskell st) ::
        rest.toHaskell st

end

end HindleyMilner

import LoxScript.Tree.Basic

/-!
# Expressions in reverse Polish notation

`toPolish` writes operands before their operator, so that no parentheses are needed: `(1 + 2) * (4 - 3)`
becomes `1 2 + 4 3 - *`. A call says how many arguments stand before its callee.
-/

namespace LoxScript

/-- Unary minus has a name of its own, since nothing else would tell it from subtraction. -/
def UnaryOp.polishText : UnaryOp → String
  | .negate => "neg"
  | .not => "!"

namespace Expr

variable {ρ : Type}

mutual

def toPolish : Expr ρ → String
  | .literal value => value.text
  | .grouping inner => inner.toPolish
  | .unary op _ operand => operand.toPolish ++ " " ++ op.polishText
  | .binary op _ left right => left.toPolish ++ " " ++ right.toPolish ++ " " ++ op.text
  | .logical op _ left right => left.toPolish ++ " " ++ right.toPolish ++ " " ++ op.text
  | .var name _ => name.text
  | .assign name _ value => value.toPolish ++ " " ++ name.text ++ " ="
  | .call callee _ arguments =>
      " ".intercalate (toPolishAll arguments ++ [callee.toPolish, "call/" ++ toString arguments.length])
  | .get object name => object.toPolish ++ " ." ++ name.text
  | .set object name value => value.toPolish ++ " " ++ object.toPolish ++ " ." ++ name.text ++ " ="
  | .this _ _ => "this"
  | .super _ method _ => "super ." ++ method.text

def toPolishAll : List (Expr ρ) → List String
  | [] => []
  | e :: es => e.toPolish :: toPolishAll es

end

end Expr

end LoxScript

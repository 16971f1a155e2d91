import LoxScript.Tree.Basic

/-!
# Trees as nested lists

`toLisp` writes a tree fully parenthesised, operator first: `-123 * (45.67)` becomes
`(* (- 123) (group 45.67))`.
-/

namespace LoxScript

/-- A head and its parts between parentheses, separated by single spaces. -/
def listText (head : String) (parts : List String) : String :=
  "(" ++ " ".intercalate (head :: parts) ++ ")"

namespace Expr

variable {ρ : Type}

mutual

def toLisp : Expr ρ → String
  | .literal value => value.text
  | .grouping inner => listText "group" [inner.toLisp]
  | .unary op _ operand => listText op.text [operand.toLisp]
  | .binary op _ left right => listText op.text [left.toLisp, right.toLisp]
  | .logical op _ left right => listText op.text [left.toLisp, right.toLisp]
  | .var name _ => name.text
  | .assign name _ value => listText "=" [name.text, value.toLisp]
  | .call callee _ arguments => listText "call" (callee.toLisp :: toLispAll arguments)
  | .get object name => listText "." [object.toLisp, name.text]
  | .set object name value => listText "=" [listText "." [object.toLisp, name.text], value.toLisp]
  | .this _ _ => "this"
  | .super _ method _ => listText "super" [method.text]

def toLispAll : List (Expr ρ) → List String
  | [] => []
  | e :: es => e.toLisp :: toLispAll es

end

end Expr

mutual

def Stmt.toLisp {ρ : Type} : Stmt ρ → String
  | .expression e => listText ";" [e.toLisp]
  | .print e => listText "print" [e.toLisp]
  | .var name none => listText "var" [name.text]
  | .var name (some e) => listText "var" [name.text, "=", e.toLisp]
  | .block body => listText "block" (Stmt.toLispAll body)
  | .function decl => decl.toLisp
  | .classDecl name none methods => listText "class" (name.text :: FunctionDecl.toLispAll methods)
  | .classDecl name (some (super, _)) methods =>
      listText "class" (name.text :: "<" :: super.text :: FunctionDecl.toLispAll methods)
  | .ite condition thenBranch none => listText "if" [condition.toLisp, thenBranch.toLisp]
  | .ite condition thenBranch (some elseBranch) =>
      listText "if-else" [condition.toLisp, thenBranch.toLisp, elseBranch.toLisp]
  | .ret _ none => "(return)"
  | .ret _ (some e) => listText "return" [e.toLisp]
  | .loop condition body => listText "while" [condition.toLisp, body.toLisp]

def FunctionDecl.toLisp {ρ : Type} : FunctionDecl ρ → String
  | .mk name params body =>
      let paramList := "(" ++ " ".intercalate (params.map Name.text) ++ ")"
      listText "fun" (name.text :: paramList :: Stmt.toLispAll body)

def Stmt.toLispAll {ρ : Type} : List (Stmt ρ) → List String
  | [] => []
  | s :: ss => s.toLisp :: Stmt.toLispAll ss

def FunctionDecl.toLispAll {ρ : Type} : List (FunctionDecl ρ) → List String
  | [] => []
  | d :: ds => d.toLisp :: FunctionDecl.toLispAll ds

end

end LoxScript

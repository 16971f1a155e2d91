import LoxScript.Proofs.Tree.Nested
import LoxScript.Tree.Lisp

/-!
# Trees as nested lists

The text of a tree is the text of a nested list.
-/

namespace LoxScript

namespace Nested

theorem text_append_textBehind (n : Nested) (ns : List Nested) :
    n.text ++ textBehind ns = [' '].intercalate ((n :: ns).map text) ++ [')'] := by
  induction ns generalizing n with
  | nil => simp [textBehind]
  | cons m ns ih =>
      rw [textBehind, ih m]
      simp

theorem text_list (ns : List Nested) : (list ns).text = '(' :: ([' '].intercalate (ns.map text) ++ [')']) := by
  cases ns with
  | nil => rfl
  | cons n ns => rw [text, text_append_textBehind]

/-- The text with a head is that of the list with the head as its first word. -/
theorem toList_listText {head : String} {parts : List String} {ns : List Nested}
    (same : parts.map String.toList = ns.map text) :
    (listText head parts).toList = (list (word head :: ns)).text := by
  rw [text_list, List.map_cons, ← same, text]
  simp [listText, String.toList_intercalate]

end Nested

open Nested (word list toList_listText)

namespace Expr

variable {ρ : Type}

mutual

def toNested : Expr ρ → Nested
  | .literal value => word value.text
  | .grouping inner => list [word "group", inner.toNested]
  | .unary op _ operand => list [word op.text, operand.toNested]
  | .binary op _ left right => list [word op.text, left.toNested, right.toNested]
  | .logical op _ left right => list [word op.text, left.toNested, right.toNested]
  | .var name _ => word name.text
  | .assign name _ value => list [word "=", word name.text, value.toNested]
  | .call callee _ arguments => list (word "call" :: callee.toNested :: toNestedAll arguments)
  | .get object name => list [word ".", object.toNested, word name.text]
  | .set object name value => list [word "=", list [word ".", object.toNested, word name.text], value.toNested]
  | .this _ _ => word "this"
  | .super _ method _ => list [word "super", word method.text]

def toNestedAll : List (Expr ρ) → List Nested
  | [] => []
  | e :: es => e.toNested :: toNestedAll es

end

mutual

theorem toList_toLisp (e : Expr ρ) : e.toLisp.toList = e.toNested.text := by
  cases e with
  | literal | var | this => rfl
  | grouping e | unary _ _ e => exact toList_listText (by simp [toList_toLisp e])
  | binary _ _ a b | logical _ _ a b => exact toList_listText (by simp [toList_toLisp a, toList_toLisp b])
  | assign x _ e => exact toList_listText (by simp [toList_toLisp e, Nested.text])
  | call f _ es => exact toList_listText (by simp [toList_toLisp f, toList_toLispAll es])
  | get o x => exact toList_listText (by simp [toList_toLisp o, Nested.text])
  | set o x e =>
      have target : (listText "." [o.toLisp, x.text]).toList = (list [word ".", o.toNested, word x.text]).text :=
        toList_listText (by simp [toList_toLisp o, Nested.text])
      exact toList_listText (by simp [target, toList_toLisp e])
  | super _ m _ => exact toList_listText (by simp [Nested.text])

theorem toList_toLispAll (es : List (Expr ρ)) :
    (toLispAll es).map String.toList = (toNestedAll es).map Nested.text := by
  cases es with
  | nil => rfl
  | cons e es => simp [toLispAll, toNestedAll, toList_toLisp e, toList_toLispAll es]

end

end Expr

variable {ρ : Type}

mutual

def Stmt.toNested : Stmt ρ → Nested
  | .expression e => list [word ";", e.toNested]
  | .print e => list [word "print", e.toNested]
  | .var name none => list [word "var", word name.text]
  | .var name (some e) => list [word "var", word name.text, word "=", e.toNested]
  | .block body => list (word "block" :: Stmt.toNestedAll body)
  | .function decl => decl.toNested
  | .classDecl name none methods => list (word "class" :: word name.text :: FunctionDecl.toNestedAll methods)
  | .classDecl name (some (super, _)) methods =>
      list (word "class" :: word name.text :: word "<" :: word super.text :: FunctionDecl.toNestedAll methods)
  | .ite condition thenBranch none => list [word "if", condition.toNested, thenBranch.toNested]
  | .ite condition thenBranch (some elseBranch) =>
      list [word "if-else", condition.toNested, thenBranch.toNested, elseBranch.toNested]
  | .ret _ none => list [word "return"]
  | .ret _ (some e) => list [word "return", e.toNested]
  | .loop condition body => list [word "while", condition.toNested, body.toNested]

def FunctionDecl.toNested : FunctionDecl ρ → Nested
  | .mk name params body =>
      list (word "fun" :: word name.text :: list (params.map fun p => word p.text) :: Stmt.toNestedAll body)

def Stmt.toNestedAll : List (Stmt ρ) → List Nested
  | [] => []
  | s :: ss => s.toNested :: Stmt.toNestedAll ss

def FunctionDecl.toNestedAll : List (FunctionDecl ρ) → List Nested
  | [] => []
  | d :: ds => d.toNested :: FunctionDecl.toNestedAll ds

end

mutual

theorem Stmt.toList_toLisp (s : Stmt ρ) : s.toLisp.toList = s.toNested.text := by
  cases s with
  | expression e | print e => exact toList_listText (by simp [Expr.toList_toLisp])
  | var x e =>
      cases e with
      | none => exact toList_listText (by simp [Nested.text])
      | some e => exact toList_listText (by simp [Nested.text, Expr.toList_toLisp])
  | block ss => exact toList_listText (Stmt.toList_toLispAll ss)
  | function d => exact FunctionDecl.toList_toLisp d
  | classDecl x c ds =>
      cases c with
      | none => exact toList_listText (by simp [Nested.text, FunctionDecl.toList_toLispAll ds])
      | some p => exact toList_listText (by simp [Nested.text, FunctionDecl.toList_toLispAll ds])
  | ite c t e =>
      cases e with
      | none => exact toList_listText (by simp [Expr.toList_toLisp, Stmt.toList_toLisp t])
      | some e => exact toList_listText (by simp [Expr.toList_toLisp, Stmt.toList_toLisp t, Stmt.toList_toLisp e])
  | ret _ e =>
      cases e with
      | none => simp [Stmt.toLisp, Stmt.toNested, Nested.text, Nested.textBehind]
      | some e => exact toList_listText (by simp [Expr.toList_toLisp])
  | loop c b => exact toList_listText (by simp [Expr.toList_toLisp, Stmt.toList_toLisp b])

theorem FunctionDecl.toList_toLisp (d : FunctionDecl ρ) : d.toLisp.toList = d.toNested.text := by
  cases d with
  | mk x ps b =>
      have params : ("(" ++ " ".intercalate (ps.map Name.text) ++ ")").toList =
          (list (ps.map fun p => word p.text)).text := by
        rw [Nested.text_list]
        simp [String.toList_intercalate, Function.comp_def, Nested.text]
      exact toList_listText (by simp [Nested.text, params, Stmt.toList_toLispAll b])

theorem Stmt.toList_toLispAll (ss : List (Stmt ρ)) :
    (Stmt.toLispAll ss).map String.toList = (Stmt.toNestedAll ss).map Nested.text := by
  cases ss with
  | nil => rfl
  | cons s ss => simp [Stmt.toLispAll, Stmt.toNestedAll, Stmt.toList_toLisp s, Stmt.toList_toLispAll ss]

theorem FunctionDecl.toList_toLispAll (ds : List (FunctionDecl ρ)) :
    (FunctionDecl.toLispAll ds).map String.toList = (FunctionDecl.toNestedAll ds).map Nested.text := by
  cases ds with
  | nil => rfl
  | cons d ds =>
      simp [FunctionDecl.toLispAll, FunctionDecl.toNestedAll, FunctionDecl.toList_toLisp d,
        FunctionDecl.toList_toLispAll ds]

end

end LoxScript

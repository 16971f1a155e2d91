import LoxScript.Tree.Basic

/-!
# Trees that the grammar allows

The shape of trees allows more than the grammar does: in a text, variables are named by identifiers, and only
statements that declare nothing can be branches or bodies of loops.
-/

namespace LoxScript

/-- Names that are not reserved words. -/
def Name.IsIdentifier (n : Name) : Prop :=
  Keyword.ofText? n.text = none

theorem Name.IsIdentifier.ne_keyword {n : Name} (h : n.IsIdentifier) (k : Keyword) : n.text ≠ k.text := by
  intro same
  unfold IsIdentifier at h
  rw [same, Keyword.ofText?_text] at h
  cases h

def Stmt.declared? {ρ : Type} : Stmt ρ → Option Name
  | .var name _ => some name
  | .function decl => some decl.name
  | .classDecl name _ _ => some name
  | .expression _ | .print _ | .block _ | .ite _ _ _ | .ret _ _ | .loop _ _ => none

/-- The variables that a statement declares in the scope in which it stands. A declaration that is a branch or the
body of a loop counts too, though no text has it there. -/
def Stmt.declares {ρ : Type} : Stmt ρ → List Name
  | .var name _ | .classDecl name _ _ => [name]
  | .function decl => [decl.name]
  | .ite _ t none => t.declares
  | .ite _ t (some e) => t.declares ++ e.declares
  | .loop _ body => body.declares
  | .expression _ | .print _ | .block _ | .ret _ _ => []

inductive Expr.Proper : Expr Unit → Prop where
  | literal {v} : Expr.Proper (.literal v)
  | grouping {e} : e.Proper → Expr.Proper (.grouping e)
  | unary {op l e} : e.Proper → Expr.Proper (.unary op l e)
  | binary {op l a b} : a.Proper → b.Proper → Expr.Proper (.binary op l a b)
  | logical {op l a b} : a.Proper → b.Proper → Expr.Proper (.logical op l a b)
  | var {n ref} : n.IsIdentifier → Expr.Proper (.var n ref)
  | assign {n ref e} : n.IsIdentifier → e.Proper → Expr.Proper (.assign n ref e)
  | call {f l es} : f.Proper → (∀ e ∈ es, e.Proper) → Expr.Proper (.call f l es)
  | get {e n} : e.Proper → Expr.Proper (.get e n)
  | set {e n v} : e.Proper → v.Proper → Expr.Proper (.set e n v)
  | this {l ref} : Expr.Proper (.this l ref)
  | super {l m ref} : Expr.Proper (.super l m ref)

mutual

inductive Stmt.Proper : Stmt Unit → Prop where
  | expression {e} : e.Proper → Stmt.Proper (.expression e)
  | print {e} : e.Proper → Stmt.Proper (.print e)
  | var {n e} : n.IsIdentifier → (∀ i ∈ e, i.Proper) → Stmt.Proper (.var n e)
  | block {b} : (∀ s ∈ b, Stmt.Proper s) → Stmt.Proper (.block b)
  | function {d} : FunctionDecl.Proper d → d.name.IsIdentifier → Stmt.Proper (.function d)
  | classDecl {n c ms} : n.IsIdentifier → (∀ p ∈ c, p.1.IsIdentifier) → (∀ d ∈ ms, FunctionDecl.Proper d) →
      Stmt.Proper (.classDecl n c ms)
  | ite {c t e} : c.Proper → t.declared? = none → Stmt.Proper t → (∀ s ∈ e, s.declared? = none) →
      (∀ s ∈ e, Stmt.Proper s) → Stmt.Proper (.ite c t e)
  | ret {l e} : (∀ v ∈ e, v.Proper) → Stmt.Proper (.ret l e)
  | loop {c b} : c.Proper → b.declared? = none → Stmt.Proper b → Stmt.Proper (.loop c b)

inductive FunctionDecl.Proper : FunctionDecl Unit → Prop where
  | mk {n ps b} : (∀ p ∈ ps, p.IsIdentifier) → (∀ s ∈ b, Stmt.Proper s) → FunctionDecl.Proper (.mk n ps b)

end

/-- In a text only the declarations declare anything. -/
theorem Stmt.Proper.declares_eq {t : Stmt Unit} (h : t.Proper) : t.declares = t.declared?.toList := by
  match t with
  | .var _ _ | .function _ | .classDecl _ _ _ | .expression _ | .print _ | .block _ | .ret _ _ => rfl
  | .ite _ t none =>
      cases h with
      | ite _ ht proper _ _ =>
          show t.declares = []
          rw [proper.declares_eq, ht, Option.toList_none]
  | .ite _ t (some e) =>
      cases h with
      | ite _ ht proper he proper' =>
          show t.declares ++ e.declares = []
          rw [proper.declares_eq, ht, (proper' e rfl).declares_eq, he e rfl]
          rfl
  | .loop _ b =>
      cases h with
      | loop _ hb proper =>
          show b.declares = []
          rw [proper.declares_eq, hb, Option.toList_none]

end LoxScript

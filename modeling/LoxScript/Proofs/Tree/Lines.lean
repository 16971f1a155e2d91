import LoxScript.Tree.Basic

/-!
# Lines of trees

`mapLines f` changes every line that a tree keeps and nothing else.
-/

namespace LoxScript

def Name.mapLine (f : Int → Int) (x : Name) : Name :=
  ⟨x.text, f x.line⟩

@[simp] theorem Name.mapLine_text (f : Int → Int) (x : Name) : (x.mapLine f).text = x.text := rfl

@[simp] theorem Name.mapLine_mapLine (f g : Int → Int) (x : Name) : (x.mapLine f).mapLine g = x.mapLine (g ∘ f) := rfl

@[simp] theorem Name.mapLine_id (x : Name) : x.mapLine id = x := rfl

variable {ρ : Type} (f : Int → Int)

namespace Expr

mutual

def mapLines : Expr ρ → Expr ρ
  | .literal value => .literal value
  | .grouping inner => .grouping inner.mapLines
  | .unary op line operand => .unary op (f line) operand.mapLines
  | .binary op line left right => .binary op (f line) left.mapLines right.mapLines
  | .logical op line left right => .logical op (f line) left.mapLines right.mapLines
  | .var name ref => .var (name.mapLine f) ref
  | .assign name ref value => .assign (name.mapLine f) ref value.mapLines
  | .call callee line arguments => .call callee.mapLines (f line) (mapLinesAll arguments)
  | .get object name => .get object.mapLines (name.mapLine f)
  | .set object name value => .set object.mapLines (name.mapLine f) value.mapLines
  | .this line ref => .this (f line) ref
  | .super line method ref => .super (f line) (method.mapLine f) ref

def mapLinesAll : List (Expr ρ) → List (Expr ρ)
  | [] => []
  | e :: es => e.mapLines :: mapLinesAll es

end

theorem mapLinesAll_eq_map (es : List (Expr ρ)) : mapLinesAll f es = es.map (mapLines f) := by
  induction es with
  | nil => rfl
  | cons e es ih => simp [mapLinesAll, ih]

end Expr

mutual

def Stmt.mapLines : Stmt ρ → Stmt ρ
  | .expression e => .expression (e.mapLines f)
  | .print e => .print (e.mapLines f)
  | .var name initializer => .var (name.mapLine f) (initializer.map (Expr.mapLines f))
  | .block body => .block (Stmt.mapLinesAll body)
  | .function decl => .function decl.mapLines
  | .classDecl name superclass methods =>
      .classDecl (name.mapLine f) (superclass.map fun p => (p.1.mapLine f, p.2)) (FunctionDecl.mapLinesAll methods)
  | .ite condition thenBranch elseBranch =>
      .ite (condition.mapLines f) thenBranch.mapLines (Stmt.mapLines? elseBranch)
  | .ret line value => .ret (f line) (value.map (Expr.mapLines f))
  | .loop condition body => .loop (condition.mapLines f) body.mapLines

def FunctionDecl.mapLines : FunctionDecl ρ → FunctionDecl ρ
  | .mk name params body => .mk (name.mapLine f) (params.map (Name.mapLine f)) (Stmt.mapLinesAll body)

def Stmt.mapLinesAll : List (Stmt ρ) → List (Stmt ρ)
  | [] => []
  | s :: ss => s.mapLines :: Stmt.mapLinesAll ss

def Stmt.mapLines? : Option (Stmt ρ) → Option (Stmt ρ)
  | none => none
  | some s => some s.mapLines

def FunctionDecl.mapLinesAll : List (FunctionDecl ρ) → List (FunctionDecl ρ)
  | [] => []
  | d :: ds => d.mapLines :: FunctionDecl.mapLinesAll ds

end

theorem Stmt.mapLinesAll_eq_map (ss : List (Stmt ρ)) : Stmt.mapLinesAll f ss = ss.map (Stmt.mapLines f) := by
  induction ss with
  | nil => rfl
  | cons s ss ih => simp [Stmt.mapLinesAll, ih]

theorem Stmt.mapLines?_eq_map (s : Option (Stmt ρ)) : Stmt.mapLines? f s = s.map (Stmt.mapLines f) := by
  cases s <;> rfl

theorem FunctionDecl.mapLinesAll_eq_map (ds : List (FunctionDecl ρ)) :
    FunctionDecl.mapLinesAll f ds = ds.map (FunctionDecl.mapLines f) := by
  induction ds with
  | nil => rfl
  | cons d ds ih => simp [FunctionDecl.mapLinesAll, ih]

namespace FunctionDecl

variable (d : FunctionDecl ρ)

theorem name_mapLines : (d.mapLines f).name = d.name.mapLine f := by
  cases d
  rfl

theorem params_mapLines : (d.mapLines f).params = d.params.map (Name.mapLine f) := by
  cases d
  rfl

theorem body_mapLines : (d.mapLines f).body = Stmt.mapLinesAll f d.body := by
  cases d
  rfl

theorem isInitializer_mapLines : (d.mapLines f).isInitializer = d.isInitializer := by
  cases d
  rfl

end FunctionDecl

/-! ## Changing lines twice or not at all -/

namespace Expr

variable (g : Int → Int)

mutual

theorem mapLines_mapLines (e : Expr ρ) : (e.mapLines f).mapLines g = e.mapLines (g ∘ f) := by
  cases e with
  | literal | var | this | super => rfl
  | grouping e | unary _ _ e | assign _ _ e | get e _ => simp [mapLines, mapLines_mapLines e]
  | binary _ _ a b | logical _ _ a b | set a _ b => simp [mapLines, mapLines_mapLines a, mapLines_mapLines b]
  | call e _ es => simp [mapLines, mapLines_mapLines e, mapLinesAll_mapLinesAll es]

theorem mapLinesAll_mapLinesAll (es : List (Expr ρ)) :
    mapLinesAll g (mapLinesAll f es) = mapLinesAll (g ∘ f) es := by
  cases es with
  | nil => rfl
  | cons e es => simp [mapLinesAll, mapLines_mapLines e, mapLinesAll_mapLinesAll es]

end

mutual

theorem mapLines_id (e : Expr ρ) : e.mapLines id = e := by
  cases e with
  | literal | var | this | super => rfl
  | grouping e | unary _ _ e | assign _ _ e | get e _ => simp [mapLines, mapLines_id e]
  | binary _ _ a b | logical _ _ a b | set a _ b => simp [mapLines, mapLines_id a, mapLines_id b]
  | call e _ es => simp [mapLines, mapLines_id e, mapLinesAll_id es]

theorem mapLinesAll_id (es : List (Expr ρ)) : mapLinesAll id es = es := by
  cases es with
  | nil => rfl
  | cons e es => simp [mapLinesAll, mapLines_id e, mapLinesAll_id es]

end

end Expr

section

variable (g : Int → Int)

mutual

theorem Stmt.mapLines_mapLines (s : Stmt ρ) : (s.mapLines f).mapLines g = s.mapLines (g ∘ f) := by
  cases s with
  | expression e | print e => simp [Stmt.mapLines, Expr.mapLines_mapLines]
  | var _ e | ret _ e => cases e <;> simp [Stmt.mapLines, Expr.mapLines_mapLines]
  | block ss => simp [Stmt.mapLines, Stmt.mapLinesAll_mapLinesAll ss]
  | function d => simp [Stmt.mapLines, FunctionDecl.mapLines_mapLines d]
  | classDecl _ c ds => cases c <;> simp [Stmt.mapLines, FunctionDecl.mapLinesAll_mapLinesAll ds]
  | ite _ t e => simp [Stmt.mapLines, Expr.mapLines_mapLines, Stmt.mapLines_mapLines t, Stmt.mapLines?_mapLines? e]
  | loop _ b => simp [Stmt.mapLines, Expr.mapLines_mapLines, Stmt.mapLines_mapLines b]

theorem FunctionDecl.mapLines_mapLines (d : FunctionDecl ρ) : (d.mapLines f).mapLines g = d.mapLines (g ∘ f) := by
  cases d with
  | mk n ps b => simp [FunctionDecl.mapLines, Stmt.mapLinesAll_mapLinesAll b]

theorem Stmt.mapLinesAll_mapLinesAll (ss : List (Stmt ρ)) :
    Stmt.mapLinesAll g (Stmt.mapLinesAll f ss) = Stmt.mapLinesAll (g ∘ f) ss := by
  cases ss with
  | nil => rfl
  | cons s ss => simp [Stmt.mapLinesAll, Stmt.mapLines_mapLines s, Stmt.mapLinesAll_mapLinesAll ss]

theorem Stmt.mapLines?_mapLines? (s : Option (Stmt ρ)) :
    Stmt.mapLines? g (Stmt.mapLines? f s) = Stmt.mapLines? (g ∘ f) s := by
  cases s with
  | none => rfl
  | some s => simp [Stmt.mapLines?, Stmt.mapLines_mapLines s]

theorem FunctionDecl.mapLinesAll_mapLinesAll (ds : List (FunctionDecl ρ)) :
    FunctionDecl.mapLinesAll g (FunctionDecl.mapLinesAll f ds) = FunctionDecl.mapLinesAll (g ∘ f) ds := by
  cases ds with
  | nil => rfl
  | cons d ds =>
      simp [FunctionDecl.mapLinesAll, FunctionDecl.mapLines_mapLines d, FunctionDecl.mapLinesAll_mapLinesAll ds]

end

end

mutual

theorem Stmt.mapLines_id (s : Stmt ρ) : s.mapLines id = s := by
  cases s with
  | expression e | print e => simp [Stmt.mapLines, Expr.mapLines_id]
  | var _ e | ret _ e => cases e <;> simp [Stmt.mapLines, Expr.mapLines_id]
  | block ss => simp [Stmt.mapLines, Stmt.mapLinesAll_id ss]
  | function d => simp [Stmt.mapLines, FunctionDecl.mapLines_id d]
  | classDecl _ c ds => cases c <;> simp [Stmt.mapLines, FunctionDecl.mapLinesAll_id ds]
  | ite _ t e => simp [Stmt.mapLines, Expr.mapLines_id, Stmt.mapLines_id t, Stmt.mapLines?_id e]
  | loop _ b => simp [Stmt.mapLines, Expr.mapLines_id, Stmt.mapLines_id b]

theorem FunctionDecl.mapLines_id (d : FunctionDecl ρ) : d.mapLines id = d := by
  cases d with
  | mk n ps b => simp [FunctionDecl.mapLines, Stmt.mapLinesAll_id b, funext Name.mapLine_id]

theorem Stmt.mapLinesAll_id (ss : List (Stmt ρ)) : Stmt.mapLinesAll id ss = ss := by
  cases ss with
  | nil => rfl
  | cons s ss => simp [Stmt.mapLinesAll, Stmt.mapLines_id s, Stmt.mapLinesAll_id ss]

theorem Stmt.mapLines?_id (s : Option (Stmt ρ)) : Stmt.mapLines? id s = s := by
  cases s with
  | none => rfl
  | some s => simp [Stmt.mapLines?, Stmt.mapLines_id s]

theorem FunctionDecl.mapLinesAll_id (ds : List (FunctionDecl ρ)) : FunctionDecl.mapLinesAll id ds = ds := by
  cases ds with
  | nil => rfl
  | cons d ds => simp [FunctionDecl.mapLinesAll, FunctionDecl.mapLines_id d, FunctionDecl.mapLinesAll_id ds]

end

end LoxScript

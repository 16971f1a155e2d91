import LoxScript.Proofs.Scope.Context

/-!
# Putting a program in a block

When the statements of a program are put in a block, the variables that they declare at the top level become
local. References that looked them up among the globals count scopes then: as many as lie between the reference
and the block.
-/

namespace LoxScript

/-! ## References to globals -/

namespace Expr

mutual

/-- The names that an expression looks up among the globals. -/
def globals : Expr Binding → List String
  | .literal _ | .this _ _ | .super _ _ _ => []
  | .grouping e | .unary _ _ e | .get e _ => e.globals
  | .binary _ _ a b | .logical _ _ a b => a.globals ++ b.globals
  | .var n ref => if ref = .global then [n.text] else []
  | .assign n ref v => (if ref = .global then [n.text] else []) ++ v.globals
  | .call f _ es => f.globals ++ globalsAll es
  | .set e _ v => e.globals ++ v.globals

def globalsAll : List (Expr Binding) → List String
  | [] => []
  | e :: es => e.globals ++ globalsAll es

end

theorem mem_globals_var (n : Name) {ref : Binding} (h : ref = .global) : n.text ∈ (var n ref).globals := by
  simp [globals, h]

theorem mem_globals_assign (n : Name) {ref : Binding} (v : Expr Binding) (h : ref = .global) :
    n.text ∈ (assign n ref v).globals := by
  simp [globals, h]

def globals? : Option (Expr Binding) → List String
  | none => []
  | some e => e.globals

theorem mem_globalsAll {x : String} {es : List (Expr Binding)} :
    x ∈ globalsAll es ↔ ∃ e ∈ es, x ∈ e.globals := by
  induction es with
  | nil => simp [globalsAll]
  | cons e es ih => simp [globalsAll, ih]

end Expr

def Stmt.superclassGlobals : Option (Name × Binding) → List String
  | none => []
  | some (n, ref) => if ref = .global then [n.text] else []

theorem Stmt.mem_superclassGlobals (n : Name) {ref : Binding} (h : ref = .global) :
    n.text ∈ Stmt.superclassGlobals (some (n, ref)) := by
  simp [superclassGlobals, h]

mutual

def Stmt.globals : Stmt Binding → List String
  | .expression e | .print e => e.globals
  | .var _ e => Expr.globals? e
  | .block b => Stmt.globalsAll b
  | .function d => d.globals
  | .classDecl _ c ms => Stmt.superclassGlobals c ++ FunctionDecl.globalsAll ms
  | .ite c t e => c.globals ++ (t.globals ++ Stmt.globals? e)
  | .ret _ e => Expr.globals? e
  | .loop c b => c.globals ++ b.globals

def FunctionDecl.globals : FunctionDecl Binding → List String
  | .mk _ _ b => Stmt.globalsAll b

def Stmt.globalsAll : List (Stmt Binding) → List String
  | [] => []
  | s :: ss => s.globals ++ Stmt.globalsAll ss

def Stmt.globals? : Option (Stmt Binding) → List String
  | none => []
  | some s => s.globals

def FunctionDecl.globalsAll : List (FunctionDecl Binding) → List String
  | [] => []
  | d :: ds => d.globals ++ FunctionDecl.globalsAll ds

end

theorem FunctionDecl.mem_globalsAll {x : String} {ds : List (FunctionDecl Binding)} :
    x ∈ FunctionDecl.globalsAll ds ↔ ∃ d ∈ ds, x ∈ d.globals := by
  induction ds with
  | nil => simp [FunctionDecl.globalsAll]
  | cons d ds ih => simp [FunctionDecl.globalsAll, ih]

/-! ## Declarations -/

namespace Stmt

variable {ρ : Type}

/-- The names that statements declare in the scope in which they stand. -/
def declarations (ss : List (Stmt ρ)) : List String :=
  ss.filterMap fun s => s.declared?.map Name.text

/-- Functions and classes may refer to themselves. -/
def selfName? : Stmt ρ → Option String
  | .function d => some d.name.text
  | .classDecl n _ _ => some n.text
  | .expression _ | .print _ | .var _ _ | .block _ | .ite _ _ _ | .ret _ _ | .loop _ _ => none

/-- The statements that follow the declarations of the names `D` refer to a name of `T` only after the end of its
`var` statement, or after the name of the function or class. -/
def InOrder (T : List String) : List String → List (Stmt Binding) → Prop
  | _, [] => True
  | D, s :: ss => (∀ x ∈ s.globals, x ∈ T → x ∈ D ∨ s.selfName? = some x) ∧
      InOrder T ((s.declared?.map Name.text).toList ++ D) ss

instance decidableInOrder (T : List String) : ∀ D ss, Decidable (InOrder T D ss)
  | _, [] => .isTrue trivial
  | D, s :: ss =>
      have := decidableInOrder T ((s.declared?.map Name.text).toList ++ D) ss
      inferInstanceAs (Decidable (_ ∧ _))

theorem selfName?_of_declared {s : Stmt ρ} (h : s.declared? = none) : s.selfName? = none := by
  cases s with
  | expression _ | print _ | block _ | ite _ _ _ | ret _ _ | loop _ _ => rfl
  | var _ _ | function _ | classDecl _ _ _ => cases h

end Stmt

/-! ## The program inside the block -/

/-- A reference under a name of `T` that was global is tied to the block, which is `k` scopes further out. -/
def Binding.enclose (T : List String) (k : Nat) (name : String) (ref : Binding) : Binding :=
  if ref = .global ∧ name ∈ T then .scoped k else ref

namespace Expr

mutual

def enclose (T : List String) (k : Nat) : Expr Binding → Expr Binding
  | .literal v => .literal v
  | .grouping e => .grouping (e.enclose T k)
  | .unary op l e => .unary op l (e.enclose T k)
  | .binary op l a b => .binary op l (a.enclose T k) (b.enclose T k)
  | .logical op l a b => .logical op l (a.enclose T k) (b.enclose T k)
  | .var n ref => .var n (ref.enclose T k n.text)
  | .assign n ref v => .assign n (ref.enclose T k n.text) (v.enclose T k)
  | .call f l es => .call (f.enclose T k) l (encloseAll T k es)
  | .get e n => .get (e.enclose T k) n
  | .set e n v => .set (e.enclose T k) n (v.enclose T k)
  | .this l ref => .this l ref
  | .super l m ref => .super l m ref

def encloseAll (T : List String) (k : Nat) : List (Expr Binding) → List (Expr Binding)
  | [] => []
  | e :: es => e.enclose T k :: encloseAll T k es

end

theorem encloseAll_eq_map (T : List String) (k : Nat) (es : List (Expr Binding)) :
    encloseAll T k es = es.map (enclose T k) := by
  induction es with
  | nil => rfl
  | cons e es ih => simp only [encloseAll, List.map_cons, ih]

end Expr

def Binding.classDepth (hasSuperclass : Bool) (k : Nat) : Nat :=
  (if hasSuperclass then k + 1 else k) + 1

mutual

def Stmt.enclose (T : List String) (k : Nat) : Stmt Binding → Stmt Binding
  | .expression e => .expression (e.enclose T k)
  | .print e => .print (e.enclose T k)
  | .var n e => .var n (e.map (Expr.enclose T k))
  | .block b => .block (Stmt.encloseAll T (k + 1) b)
  | .function d => .function (d.enclose T (k + 1))
  | .classDecl n c ms => .classDecl n (c.map fun p => (p.1, p.2.enclose T k p.1.text))
      (FunctionDecl.encloseAll T (Binding.classDepth c.isSome k + 1) ms)
  | .ite c t e => .ite (c.enclose T k) (t.enclose T k) (Stmt.enclose? T k e)
  | .ret l e => .ret l (e.map (Expr.enclose T k))
  | .loop c b => .loop (c.enclose T k) (b.enclose T k)

/-- The scope of the parameters and the body lies `k` scopes inside the block. -/
def FunctionDecl.enclose (T : List String) (k : Nat) : FunctionDecl Binding → FunctionDecl Binding
  | .mk n ps b => .mk n ps (Stmt.encloseAll T k b)

def Stmt.encloseAll (T : List String) (k : Nat) : List (Stmt Binding) → List (Stmt Binding)
  | [] => []
  | s :: ss => s.enclose T k :: Stmt.encloseAll T k ss

def Stmt.enclose? (T : List String) (k : Nat) : Option (Stmt Binding) → Option (Stmt Binding)
  | none => none
  | some s => some (s.enclose T k)

def FunctionDecl.encloseAll (T : List String) (k : Nat) : List (FunctionDecl Binding) → List (FunctionDecl Binding)
  | [] => []
  | d :: ds => d.enclose T k :: FunctionDecl.encloseAll T k ds

end

theorem FunctionDecl.encloseAll_eq_map (T : List String) (k : Nat) (ds : List (FunctionDecl Binding)) :
    FunctionDecl.encloseAll T k ds = ds.map (FunctionDecl.enclose T k) := by
  induction ds with
  | nil => rfl
  | cons d ds ih => simp only [FunctionDecl.encloseAll, List.map_cons, ih]

theorem FunctionDecl.enclose_name (T : List String) (k : Nat) (d : FunctionDecl Binding) :
    (d.enclose T k).name = d.name := by
  cases d
  rfl

theorem Stmt.declared?_enclose (T : List String) (k : Nat) (s : Stmt Binding) :
    (s.enclose T k).declared? = s.declared? := by
  cases s with
  | function d => exact congrArg some (d.enclose_name T (k + 1))
  | expression _ | print _ | var _ _ | block _ | classDecl _ _ _ | ite _ _ _ | ret _ _ | loop _ _ => rfl

theorem ClassContext.ofDeclaration_enclose (T : List String) (k : Nat) (n : Name) (c : Option (Name × Binding)) :
    ClassContext.ofDeclaration n (c.map fun p => (p.1, p.2.enclose T k p.1.text)) = .ofDeclaration n c := by
  cases c <;> rfl

/-! ## Only the notes at references differ -/

mutual

theorem Expr.forget_enclose (T : List String) (k : Nat) (e : Expr Binding) : (e.enclose T k).forget = e.forget := by
  match e with
  | .literal _ | .this _ _ | .super _ _ _ | .var _ _ => rfl
  | .grouping e | .unary _ _ e | .get e _ => rw [Expr.enclose, Expr.forget, Expr.forget, e.forget_enclose]
  | .binary _ _ a b | .logical _ _ a b =>
      rw [Expr.enclose, Expr.forget, Expr.forget, a.forget_enclose, b.forget_enclose]
  | .assign n ref v => rw [Expr.enclose, Expr.forget, Expr.forget, v.forget_enclose]
  | .call f l es => rw [Expr.enclose, Expr.forget, Expr.forget, f.forget_enclose, Expr.forgetAll_encloseAll]
  | .set e n v => rw [Expr.enclose, Expr.forget, Expr.forget, e.forget_enclose, v.forget_enclose]

theorem Expr.forgetAll_encloseAll (T : List String) (k : Nat) (es : List (Expr Binding)) :
    Expr.forgetAll (Expr.encloseAll T k es) = Expr.forgetAll es := by
  match es with
  | [] => rfl
  | e :: es => rw [Expr.encloseAll, Expr.forgetAll, Expr.forgetAll, e.forget_enclose, Expr.forgetAll_encloseAll]

end

theorem Expr.forget?_enclose (T : List String) (k : Nat) (e : Option (Expr Binding)) :
    (e.map (Expr.enclose T k)).map Expr.forget = e.map Expr.forget := by
  cases e with
  | none => rfl
  | some e => exact congrArg some (e.forget_enclose T k)

mutual

theorem Stmt.forget_enclose (T : List String) (k : Nat) (s : Stmt Binding) : (s.enclose T k).forget = s.forget := by
  match s with
  | .expression e | .print e => rw [Stmt.enclose, Stmt.forget, Stmt.forget, e.forget_enclose]
  | .var n e => rw [Stmt.enclose, Stmt.forget, Stmt.forget, Expr.forget?_enclose]
  | .block b => rw [Stmt.enclose, Stmt.forget, Stmt.forget, Stmt.forgetAll_encloseAll]
  | .function d => rw [Stmt.enclose, Stmt.forget, Stmt.forget, d.forget_enclose]
  | .classDecl n c ms =>
      rw [Stmt.enclose, Stmt.forget, Stmt.forget, FunctionDecl.forgetAll_encloseAll, Option.map_map]
      rfl
  | .ite c t e =>
      rw [Stmt.enclose, Stmt.forget, Stmt.forget, c.forget_enclose, t.forget_enclose, Stmt.forget?_enclose]
  | .ret l e => rw [Stmt.enclose, Stmt.forget, Stmt.forget, Expr.forget?_enclose]
  | .loop c b => rw [Stmt.enclose, Stmt.forget, Stmt.forget, c.forget_enclose, b.forget_enclose]

theorem FunctionDecl.forget_enclose (T : List String) (k : Nat) (d : FunctionDecl Binding) :
    (d.enclose T k).forget = d.forget := by
  match d with
  | .mk n ps b => rw [FunctionDecl.enclose, FunctionDecl.forget, FunctionDecl.forget, Stmt.forgetAll_encloseAll]

theorem Stmt.forgetAll_encloseAll (T : List String) (k : Nat) (ss : List (Stmt Binding)) :
    Stmt.forgetAll (Stmt.encloseAll T k ss) = Stmt.forgetAll ss := by
  match ss with
  | [] => rfl
  | s :: ss => rw [Stmt.encloseAll, Stmt.forgetAll, Stmt.forgetAll, s.forget_enclose, Stmt.forgetAll_encloseAll]

theorem Stmt.forget?_enclose (T : List String) (k : Nat) (s : Option (Stmt Binding)) :
    Stmt.forget? (Stmt.enclose? T k s) = Stmt.forget? s := by
  match s with
  | none => rfl
  | some s => exact congrArg some (s.forget_enclose T k)

theorem FunctionDecl.forgetAll_encloseAll (T : List String) (k : Nat) (ds : List (FunctionDecl Binding)) :
    FunctionDecl.forgetAll (FunctionDecl.encloseAll T k ds) = FunctionDecl.forgetAll ds := by
  match ds with
  | [] => rfl
  | d :: ds =>
      rw [FunctionDecl.encloseAll, FunctionDecl.forgetAll, FunctionDecl.forgetAll, d.forget_enclose,
        FunctionDecl.forgetAll_encloseAll]

end

end LoxScript

import LoxScript.Proofs.Scope.Context

/-!
# Renaming a local variable

The renaming of one variable of one scope changes its declaration and exactly the references that are tied to
this scope under its name. How many scopes lie between a piece of the program and the scope of the variable is
counted on the way in; there is no such number for pieces that are not inside.
-/

namespace LoxScript

/-- A variable named `old` is called `new` instead. -/
structure Renaming where
  old : String
  new : String

namespace Renaming

variable (σ : Renaming)

def swap (x : String) : String :=
  if x = σ.old then σ.new else if x = σ.new then σ.old else x

def name (n : Name) : Name :=
  if n.text = σ.old then ⟨σ.new, n.line⟩ else n

/-- A declaration in a scope that lies `k` scopes inside the scope of the variable. -/
def declared (k : Option Nat) (n : Name) : Name :=
  if k = some 0 then σ.name n else n

/-- A reference that is tied to the variable is renamed. -/
def used (k : Option Nat) (n : Name) (ref : Binding) : Name :=
  if k.map Binding.scoped = some ref then σ.name n else n

theorem swap_swap (x : String) : σ.swap (σ.swap x) = x := by
  unfold swap
  by_cases h : x = σ.old
  · subst h
    by_cases h' : σ.new = σ.old <;> simp [h']
  · by_cases h' : x = σ.new
    · subst h'
      simp [h]
    · simp [h, h']

theorem swap_inj {x y : String} (h : σ.swap x = σ.swap y) : x = y := by
  rw [← σ.swap_swap x, h, σ.swap_swap]

theorem swap_eq_iff {x y : String} : σ.swap x = y ↔ x = σ.swap y := by
  constructor
  · rintro rfl
    exact (σ.swap_swap x).symm
  · rintro rfl
    exact σ.swap_swap y

theorem swap_of_ne {x : String} (h : x ≠ σ.old) (h' : x ≠ σ.new) : σ.swap x = x := by
  simp [swap, h, h']

theorem swap_old : σ.swap σ.old = σ.new := by
  simp [swap]

theorem name_text {n : Name} (h : n.text ≠ σ.new) : (σ.name n).text = σ.swap n.text := by
  unfold name swap
  by_cases hn : n.text = σ.old
  · simp [hn]
  · simp [hn, h]

theorem name_of_ne {n : Name} (h : n.text ≠ σ.old) : σ.name n = n := by
  simp [name, h]

theorem declared_none (n : Name) : σ.declared none n = n := by
  simp [declared]

theorem declared_inner (k : Option Nat) (n : Name) : σ.declared (k.map (· + 1)) n = n := by
  cases k <;> simp [declared]

theorem declared_of_ne {σ : Renaming} {k : Nat} {n : Name} (h : k = 0 → n.text ≠ σ.old) :
    σ.declared (some k) n = n := by
  unfold declared
  split
  · next hk => exact σ.name_of_ne (h (Option.some.inj hk))
  · rfl

theorem used_none (n : Name) (ref : Binding) : σ.used none n ref = n := by
  simp [used]

structure Plain : Prop where
  old : Keyword.ofText? σ.old = none
  new : Keyword.ofText? σ.new = none

variable {σ}

theorem Plain.swap_keyword (h : σ.Plain) (k : Keyword) : σ.swap k.text = k.text := by
  have old : (⟨σ.old, 0⟩ : Name).IsIdentifier := h.old
  have new : (⟨σ.new, 0⟩ : Name).IsIdentifier := h.new
  exact σ.swap_of_ne (old.ne_keyword k).symm (new.ne_keyword k).symm

theorem Plain.name (h : σ.Plain) {n : Name} (hn : n.IsIdentifier) : (σ.name n).IsIdentifier := by
  unfold Renaming.name
  split
  · exact h.new
  · exact hn

theorem Plain.used (h : σ.Plain) {n : Name} (hn : n.IsIdentifier) (k : Option Nat) (ref : Binding) :
    (σ.used k n ref).IsIdentifier := by
  unfold Renaming.used
  split
  · exact h.name hn
  · exact hn

def inClass (hasSuperclass : Bool) (k : Option Nat) : Option Nat :=
  (if hasSuperclass then k.map (· + 1) else k).map (· + 1)

end Renaming

/-! ## The renamed program -/

namespace Expr

mutual

def rename (σ : Renaming) (k : Option Nat) : Expr Binding → Expr Binding
  | .literal v => .literal v
  | .grouping e => .grouping (e.rename σ k)
  | .unary op l e => .unary op l (e.rename σ k)
  | .binary op l a b => .binary op l (a.rename σ k) (b.rename σ k)
  | .logical op l a b => .logical op l (a.rename σ k) (b.rename σ k)
  | .var n ref => .var (σ.used k n ref) ref
  | .assign n ref v => .assign (σ.used k n ref) ref (v.rename σ k)
  | .call f l es => .call (f.rename σ k) l (renameAll σ k es)
  | .get e n => .get (e.rename σ k) n
  | .set e n v => .set (e.rename σ k) n (v.rename σ k)
  | .this l ref => .this l ref
  | .super l m ref => .super l m ref

def renameAll (σ : Renaming) (k : Option Nat) : List (Expr Binding) → List (Expr Binding)
  | [] => []
  | e :: es => e.rename σ k :: renameAll σ k es

end

theorem renameAll_eq_map (σ : Renaming) (k : Option Nat) (es : List (Expr Binding)) :
    renameAll σ k es = es.map (rename σ k) := by
  induction es with
  | nil => rfl
  | cons e es ih => simp only [renameAll, List.map_cons, ih]

end Expr

mutual

/-- Variables are renamed where they are declared. Functions and classes keep their names. -/
def Stmt.rename (σ : Renaming) (k : Option Nat) : Stmt Binding → Stmt Binding
  | .expression e => .expression (e.rename σ k)
  | .print e => .print (e.rename σ k)
  | .var n e => .var (σ.declared k n) (e.map (Expr.rename σ k))
  | .block b => .block (Stmt.renameAll σ (k.map (· + 1)) b)
  | .function d => .function (d.rename σ (k.map (· + 1)))
  | .classDecl n c ms => .classDecl n (c.map fun p => (σ.used k p.1 p.2, p.2))
      (FunctionDecl.renameAll σ ((Renaming.inClass c.isSome k).map (· + 1)) ms)
  | .ite c t e => .ite (c.rename σ k) (t.rename σ k) (Stmt.rename? σ k e)
  | .ret l e => .ret l (e.map (Expr.rename σ k))
  | .loop c b => .loop (c.rename σ k) (b.rename σ k)

/-- The scope of the parameters and the body lies `k` scopes inside the scope of the variable. -/
def FunctionDecl.rename (σ : Renaming) (k : Option Nat) : FunctionDecl Binding → FunctionDecl Binding
  | .mk n ps b => .mk n (ps.map (σ.declared k)) (Stmt.renameAll σ k b)

def Stmt.renameAll (σ : Renaming) (k : Option Nat) : List (Stmt Binding) → List (Stmt Binding)
  | [] => []
  | s :: ss => s.rename σ k :: Stmt.renameAll σ k ss

def Stmt.rename? (σ : Renaming) (k : Option Nat) : Option (Stmt Binding) → Option (Stmt Binding)
  | none => none
  | some s => some (s.rename σ k)

def FunctionDecl.renameAll (σ : Renaming) (k : Option Nat) : List (FunctionDecl Binding) → List (FunctionDecl Binding)
  | [] => []
  | d :: ds => d.rename σ k :: FunctionDecl.renameAll σ k ds

end

def Stmt.DeclaresVar (name : String) (ss : List (Stmt Binding)) : Prop :=
  ∃ n e, Stmt.var n e ∈ ss ∧ n.text = name

mutual

/-- One local variable of a statement is renamed: one that a `var` statement declares in a block or in the body
of a function, or a parameter. -/
inductive Stmt.Renames (σ : Renaming) : Stmt Binding → Stmt Binding → Prop where
  | scope {b} : Stmt.DeclaresVar σ.old b → Stmt.Renames σ (.block b) (.block (Stmt.renameAll σ (some 0) b))
  | block {b b'} : Stmts.Renames σ b b' → Stmt.Renames σ (.block b) (.block b')
  | function {d d'} : FunctionDecl.Renames σ d d' → Stmt.Renames σ (.function d) (.function d')
  | classDecl {n c ms ms'} : FunctionDecls.Renames σ ms ms' → Stmt.Renames σ (.classDecl n c ms) (.classDecl n c ms')
  | thenBranch {c t t' e} : Stmt.Renames σ t t' → Stmt.Renames σ (.ite c t e) (.ite c t' e)
  | elseBranch {c t e e'} : Stmt.Renames σ e e' → Stmt.Renames σ (.ite c t (some e)) (.ite c t (some e'))
  | loop {c b b'} : Stmt.Renames σ b b' → Stmt.Renames σ (.loop c b) (.loop c b')

inductive FunctionDecl.Renames (σ : Renaming) : FunctionDecl Binding → FunctionDecl Binding → Prop where
  | scope {d} : (∃ p ∈ d.params, p.text = σ.old) ∨ Stmt.DeclaresVar σ.old d.body →
      FunctionDecl.Renames σ d (d.rename σ (some 0))
  | body {n ps b b'} : Stmts.Renames σ b b' → FunctionDecl.Renames σ (.mk n ps b) (.mk n ps b')

inductive Stmts.Renames (σ : Renaming) : List (Stmt Binding) → List (Stmt Binding) → Prop where
  | head {s s' ss} : Stmt.Renames σ s s' → Stmts.Renames σ (s :: ss) (s' :: ss)
  | tail {s ss ss'} : Stmts.Renames σ ss ss' → Stmts.Renames σ (s :: ss) (s :: ss')

inductive FunctionDecls.Renames (σ : Renaming) : List (FunctionDecl Binding) → List (FunctionDecl Binding) → Prop where
  | head {d d' ds} : FunctionDecl.Renames σ d d' → FunctionDecls.Renames σ (d :: ds) (d' :: ds)
  | tail {d ds ds'} : FunctionDecls.Renames σ ds ds' → FunctionDecls.Renames σ (d :: ds) (d :: ds')

end

/-! ## Names that occur in a program -/

namespace Expr

variable {ρ : Type}

mutual

def names : Expr ρ → List String
  | .literal _ | .this _ _ | .super _ _ _ => []
  | .grouping e | .unary _ _ e | .get e _ => e.names
  | .binary _ _ a b | .logical _ _ a b => a.names ++ b.names
  | .var n _ => [n.text]
  | .assign n _ v => n.text :: v.names
  | .call f _ es => f.names ++ namesAll es
  | .set e _ v => e.names ++ v.names

def namesAll : List (Expr ρ) → List String
  | [] => []
  | e :: es => e.names ++ namesAll es

end

def names? : Option (Expr ρ) → List String
  | none => []
  | some e => e.names

end Expr

mutual

def Stmt.names {ρ : Type} : Stmt ρ → List String
  | .expression e | .print e => e.names
  | .var n e => n.text :: Expr.names? e
  | .block b => Stmt.namesAll b
  | .function d => d.name.text :: d.names
  | .classDecl n c ms => n.text :: ((c.map fun p => p.1.text).toList ++ FunctionDecl.namesAll ms)
  | .ite c t e => c.names ++ (t.names ++ Stmt.names? e)
  | .ret _ e => Expr.names? e
  | .loop c b => c.names ++ b.names

/-- The name of a function is left out, for it is a variable only in a declaration. -/
def FunctionDecl.names {ρ : Type} : FunctionDecl ρ → List String
  | .mk _ ps b => ps.map Name.text ++ Stmt.namesAll b

def Stmt.namesAll {ρ : Type} : List (Stmt ρ) → List String
  | [] => []
  | s :: ss => s.names ++ Stmt.namesAll ss

def Stmt.names? {ρ : Type} : Option (Stmt ρ) → List String
  | none => []
  | some s => s.names

def FunctionDecl.namesAll {ρ : Type} : List (FunctionDecl ρ) → List String
  | [] => []
  | d :: ds => d.names ++ FunctionDecl.namesAll ds

end

theorem Expr.mem_namesAll {ρ : Type} {x : String} {es : List (Expr ρ)} :
    x ∈ Expr.namesAll es ↔ ∃ e ∈ es, x ∈ e.names := by
  induction es with
  | nil => simp [Expr.namesAll]
  | cons e es ih => simp [Expr.namesAll, ih]

theorem FunctionDecl.mem_namesAll {ρ : Type} {x : String} {ds : List (FunctionDecl ρ)} :
    x ∈ FunctionDecl.namesAll ds ↔ ∃ d ∈ ds, x ∈ d.names := by
  induction ds with
  | nil => simp [FunctionDecl.namesAll]
  | cons d ds ih => simp [FunctionDecl.namesAll, ih]

theorem FunctionDecl.renameAll_eq_map (σ : Renaming) (k : Option Nat) (ds : List (FunctionDecl Binding)) :
    FunctionDecl.renameAll σ k ds = ds.map (FunctionDecl.rename σ k) := by
  induction ds with
  | nil => rfl
  | cons d ds ih => simp only [FunctionDecl.renameAll, List.map_cons, ih]

theorem FunctionDecl.rename_name (σ : Renaming) (k : Option Nat) (d : FunctionDecl Binding) :
    (d.rename σ k).name = d.name := by
  cases d
  rfl

theorem Stmt.rename_declared? (σ : Renaming) (k : Option Nat) {s : Stmt Binding} (h : s.declared? = none) :
    (s.rename σ k).declared? = none := by
  cases s with
  | expression _ | print _ | block _ | ite _ _ _ | ret _ _ | loop _ _ => rfl
  | var _ _ | function _ | classDecl _ _ _ => cases h

/-! ## Names do not depend on the notes at references -/

section Forget

variable {ρ : Type}

mutual

theorem Expr.names_forget (e : Expr ρ) : e.forget.names = e.names := by
  match e with
  | .literal _ | .this _ _ | .super _ _ _ | .var _ _ => rfl
  | .grouping e | .unary _ _ e | .get e _ => exact e.names_forget
  | .binary _ _ a b | .logical _ _ a b => rw [Expr.forget, Expr.names, Expr.names, a.names_forget, b.names_forget]
  | .assign n _ v => rw [Expr.forget, Expr.names, Expr.names, v.names_forget]
  | .call f _ es => rw [Expr.forget, Expr.names, Expr.names, f.names_forget, Expr.namesAll_forgetAll]
  | .set e _ v => rw [Expr.forget, Expr.names, Expr.names, e.names_forget, v.names_forget]

theorem Expr.namesAll_forgetAll (es : List (Expr ρ)) : Expr.namesAll (Expr.forgetAll es) = Expr.namesAll es := by
  match es with
  | [] => rfl
  | e :: es => rw [Expr.forgetAll, Expr.namesAll, Expr.namesAll, e.names_forget, Expr.namesAll_forgetAll]

end

theorem Expr.names?_forget (e : Option (Expr ρ)) : Expr.names? (e.map Expr.forget) = Expr.names? e := by
  cases e with
  | none => rfl
  | some e => exact e.names_forget

mutual

theorem Stmt.names_forget (s : Stmt ρ) : s.forget.names = s.names := by
  match s with
  | .expression e | .print e => exact e.names_forget
  | .var n e => rw [Stmt.forget, Stmt.names, Stmt.names, Expr.names?_forget]
  | .block b => exact Stmt.namesAll_forgetAll b
  | .function d =>
      rw [Stmt.forget, Stmt.names, Stmt.names, d.names_forget]
      cases d
      rfl
  | .classDecl n c ms =>
      rw [Stmt.forget, Stmt.names, Stmt.names, FunctionDecl.namesAll_forgetAll]
      cases c <;> rfl
  | .ite c t e =>
      rw [Stmt.forget, Stmt.names, Stmt.names, c.names_forget, Stmt.names_forget, Stmt.names?_forget]
  | .ret _ e => exact Expr.names?_forget e
  | .loop c b => rw [Stmt.forget, Stmt.names, Stmt.names, c.names_forget, Stmt.names_forget]

theorem FunctionDecl.names_forget (d : FunctionDecl ρ) : d.forget.names = d.names := by
  match d with
  | .mk n ps b => rw [FunctionDecl.forget, FunctionDecl.names, FunctionDecl.names, Stmt.namesAll_forgetAll]

theorem Stmt.namesAll_forgetAll (ss : List (Stmt ρ)) : Stmt.namesAll (Stmt.forgetAll ss) = Stmt.namesAll ss := by
  match ss with
  | [] => rfl
  | s :: ss => rw [Stmt.forgetAll, Stmt.namesAll, Stmt.namesAll, s.names_forget, Stmt.namesAll_forgetAll]

theorem Stmt.names?_forget (s : Option (Stmt ρ)) : Stmt.names? (Stmt.forget? s) = Stmt.names? s := by
  match s with
  | none => rfl
  | some s => exact s.names_forget

theorem FunctionDecl.namesAll_forgetAll (ds : List (FunctionDecl ρ)) :
    FunctionDecl.namesAll (FunctionDecl.forgetAll ds) = FunctionDecl.namesAll ds := by
  match ds with
  | [] => rfl
  | d :: ds =>
      rw [FunctionDecl.forgetAll, FunctionDecl.namesAll, FunctionDecl.namesAll, d.names_forget,
        FunctionDecl.namesAll_forgetAll]

end

end Forget

/-! ## Code outside the scope of the variable -/

mutual

theorem Expr.rename_none (σ : Renaming) (e : Expr Binding) : e.rename σ none = e := by
  match e with
  | .literal _ | .this _ _ | .super _ _ _ => rfl
  | .var n ref => rw [Expr.rename, σ.used_none]
  | .grouping e | .unary _ _ e | .get e _ => rw [Expr.rename, e.rename_none]
  | .binary _ _ a b | .logical _ _ a b => rw [Expr.rename, a.rename_none, b.rename_none]
  | .assign n ref v => rw [Expr.rename, σ.used_none, v.rename_none]
  | .call f l es => rw [Expr.rename, f.rename_none, Expr.renameAll_none]
  | .set e n v => rw [Expr.rename, e.rename_none, v.rename_none]

theorem Expr.renameAll_none (σ : Renaming) (es : List (Expr Binding)) : Expr.renameAll σ none es = es := by
  match es with
  | [] => rfl
  | e :: es => rw [Expr.renameAll, e.rename_none, Expr.renameAll_none]

end

theorem Expr.map_rename_none (σ : Renaming) (e : Option (Expr Binding)) : e.map (Expr.rename σ none) = e := by
  cases e with
  | none => rfl
  | some e => exact congrArg some (e.rename_none σ)

theorem Renaming.inClass_none (hasSuperclass : Bool) : Renaming.inClass hasSuperclass none = none := by
  cases hasSuperclass <;> rfl

mutual

theorem Stmt.rename_none (σ : Renaming) (s : Stmt Binding) : s.rename σ none = s := by
  match s with
  | .expression e | .print e => rw [Stmt.rename, e.rename_none]
  | .var n e => rw [Stmt.rename, σ.declared_none, Expr.map_rename_none]
  | .block b => rw [Stmt.rename, Option.map_none, Stmt.renameAll_none]
  | .function d => rw [Stmt.rename, Option.map_none, FunctionDecl.rename_none]
  | .classDecl n c ms =>
      rw [Stmt.rename, Renaming.inClass_none, Option.map_none, FunctionDecl.renameAll_none]
      cases c with
      | none => rfl
      | some p => rw [Option.map_some, σ.used_none]
  | .ite c t e => rw [Stmt.rename, c.rename_none, Stmt.rename_none, Stmt.rename?_none]
  | .ret l e => rw [Stmt.rename, Expr.map_rename_none]
  | .loop c b => rw [Stmt.rename, c.rename_none, Stmt.rename_none]

theorem FunctionDecl.rename_none (σ : Renaming) (d : FunctionDecl Binding) : d.rename σ none = d := by
  match d with
  | .mk n ps b =>
      have parameters : σ.declared none = id := funext σ.declared_none
      rw [FunctionDecl.rename, parameters, List.map_id, Stmt.renameAll_none]

theorem Stmt.renameAll_none (σ : Renaming) (ss : List (Stmt Binding)) : Stmt.renameAll σ none ss = ss := by
  match ss with
  | [] => rfl
  | s :: ss => rw [Stmt.renameAll, Stmt.rename_none, Stmt.renameAll_none]

theorem Stmt.rename?_none (σ : Renaming) (s : Option (Stmt Binding)) : Stmt.rename? σ none s = s := by
  match s with
  | none => rfl
  | some s => rw [Stmt.rename?, Stmt.rename_none]

theorem FunctionDecl.renameAll_none (σ : Renaming) (ds : List (FunctionDecl Binding)) :
    FunctionDecl.renameAll σ none ds = ds := by
  match ds with
  | [] => rfl
  | d :: ds => rw [FunctionDecl.renameAll, FunctionDecl.rename_none, FunctionDecl.renameAll_none]

end

end LoxScript

import LoxScript.Proofs.Tree.Proper
import LoxScript.Scope.Resolve

/-!
# Well-scoped programs

When a resolved program refers to the right variables and breaks none of the rules of scoping. Nothing here is
computed by resolution: the rules say of every place what surrounds it and which binding a reference there has.
A predicate `P` may be asked of every piece of the program in its surroundings.
-/

namespace LoxScript

/-- What surrounds a place of a program: its scopes, innermost first, and the innermost function and class. -/
structure Context where
  scopes : List Scope
  function : FunctionContext
  classContext : ClassContext

def ScopeState.context (s : ScopeState) : Context :=
  ⟨s.scopes, s.function, s.classContext⟩

inductive Node (ρ : Type) where
  | expr (e : Expr ρ)
  | stmt (s : Stmt ρ)

/-- How a use of `name` finds its variable. -/
def Binding.ofScopes (name : String) (scopes : List Scope) : Binding :=
  match distance? name scopes with
  | none => .global
  | some distance => .scoped distance

namespace Context

def top : Context := ⟨[], .outside, .outside⟩

def push (Γ : Context) (scope : Scope) : Context :=
  { Γ with scopes := scope :: Γ.scopes }

/-- Enters a name into the innermost scope, unless that is the global one. -/
def mark (Γ : Context) (name : String) (passed : Bool) : Context :=
  match Γ.scopes with
  | [] => Γ
  | scope :: outer => { Γ with scopes := scope.insert name passed :: outer }

def after {ρ : Type} (Γ : Context) (s : Stmt ρ) : Context :=
  s.declared?.elim Γ fun name => Γ.mark name.text true

def afterAll {ρ : Type} (Γ : Context) (ss : List (Stmt ρ)) : Context :=
  ss.foldl after Γ

def pop (Γ : Context) : Context :=
  { Γ with scopes := Γ.scopes.tail }

@[simp] theorem pop_push (Γ : Context) (scope : Scope) : (Γ.push scope).pop = Γ := rfl

@[simp] theorem pop_mark (Γ : Context) (name : String) (passed : Bool) : (Γ.mark name passed).pop = Γ.pop := by
  obtain ⟨scopes, _, _⟩ := Γ
  cases scopes with
  | nil => rfl
  | cons scope outer => rfl

@[simp] theorem mark_mark (Γ : Context) (name : String) (passed passed' : Bool) :
    (Γ.mark name passed).mark name passed' = Γ.mark name passed' := by
  obtain ⟨scopes, _, _⟩ := Γ
  cases scopes with
  | nil => rfl
  | cons scope outer => simp [mark]

@[simp] theorem pop_after {ρ : Type} (Γ : Context) (s : Stmt ρ) : (Γ.after s).pop = Γ.pop := by
  unfold after
  cases s.declared? with
  | none => rfl
  | some name => exact pop_mark Γ name.text true

@[simp] theorem pop_afterAll {ρ : Type} (Γ : Context) (ss : List (Stmt ρ)) : (Γ.afterAll ss).pop = Γ.pop := by
  induction ss generalizing Γ with
  | nil => rfl
  | cons s ss ih => exact (ih (Γ.after s)).trans (pop_after Γ s)

theorem after_of_declared {ρ : Type} (Γ : Context) {s : Stmt ρ} (h : s.declared? = none) : Γ.after s = Γ := by
  simp [after, h]

/-- The rule for declarations: a name is declared once in a scope. -/
structure MayDeclare (Γ : Context) (name : Name) : Prop where
  identifier : name.IsIdentifier
  fresh : ∀ scope ∈ Γ.scopes.head?, scope.contains name.text = false

/-- The rule for uses: a local variable is not read in its own initializer. -/
structure Reads (Γ : Context) (name : Name) (ref : Binding) : Prop where
  passed : (Γ.scopes.head?.bind fun scope => scope.find? name.text) ≠ some false
  bound : ref = .ofScopes name.text Γ.scopes

def MayDeclareAll (Γ : Context) : List Name → Prop
  | [] => True
  | name :: names => Γ.MayDeclare name ∧ (Γ.mark name.text true).MayDeclareAll names

theorem MayDeclareAll.identifier {Γ : Context} {names : List Name} (h : Γ.MayDeclareAll names) :
    ∀ n ∈ names, n.IsIdentifier := by
  induction names generalizing Γ with
  | nil => simp
  | cons name names ih =>
      intro n hn
      rcases List.mem_cons.1 hn with rfl | hn
      · exact h.1.identifier
      · exact ih h.2 n hn

def markAll (Γ : Context) (names : List Name) : Context :=
  names.foldl (fun Γ name => Γ.mark name.text true) Γ

theorem markAll_append (Γ : Context) (names names' : List Name) :
    Γ.markAll (names ++ names') = (Γ.markAll names).markAll names' :=
  List.foldl_append

@[simp] theorem pop_markAll (Γ : Context) (names : List Name) : (Γ.markAll names).pop = Γ.pop := by
  induction names generalizing Γ with
  | nil => rfl
  | cons name names ih => exact (ih (Γ.mark name.text true)).trans (pop_mark Γ name.text true)

/-- What surrounds the code that follows a statement of a text, by what the statement declares. -/
theorem after_eq_markAll (Γ : Context) {t : Stmt Unit} (h : t.Proper) : Γ.after t = Γ.markAll t.declares := by
  rw [h.declares_eq]
  unfold after
  cases t.declared? <;> rfl

theorem mark_ne_nil {Γ : Context} (h : Γ.scopes ≠ []) (name : String) (passed : Bool) :
    (Γ.mark name passed).scopes ≠ [] := by
  obtain ⟨scopes, _, _⟩ := Γ
  cases scopes with
  | nil => exact h
  | cons scope outer => simp [mark]

theorem after_ne_nil {Γ : Context} (h : Γ.scopes ≠ []) {ρ : Type} (s : Stmt ρ) : (Γ.after s).scopes ≠ [] := by
  unfold after
  cases s.declared? with
  | none => exact h
  | some n => exact mark_ne_nil h n.text true

theorem markAll_ne_nil {Γ : Context} (h : Γ.scopes ≠ []) (ps : List Name) : (Γ.markAll ps).scopes ≠ [] := by
  induction ps generalizing Γ with
  | nil => exact h
  | cons p ps ih => exact ih (mark_ne_nil h p.text true)

theorem length_mark (Γ : Context) (name : String) (passed : Bool) :
    (Γ.mark name passed).scopes.length = Γ.scopes.length := by
  obtain ⟨scopes, _, _⟩ := Γ
  cases scopes <;> rfl

theorem length_markAll (Γ : Context) (names : List Name) : (Γ.markAll names).scopes.length = Γ.scopes.length := by
  induction names generalizing Γ with
  | nil => rfl
  | cons name names ih => exact (ih (Γ.mark name.text true)).trans (Γ.length_mark name.text true)

def inFunction (Γ : Context) (kind : FunctionContext) : Context :=
  { Γ.push .empty with function := kind }

def inClass (Γ : Context) (kind : ClassContext) (hasSuperclass : Bool) : Context :=
  let Γ := { Γ with classContext := kind }
  (if hasSuperclass then Γ.push superScope else Γ).push thisScope

end Context

variable (P : Context → Node Binding → Prop)

inductive Expr.Scoped (Γ : Context) : Expr Binding → Prop where
  | literal {v} : P Γ (.expr (.literal v)) → Expr.Scoped Γ (.literal v)
  | grouping {e} : P Γ (.expr (.grouping e)) → e.Scoped Γ → Expr.Scoped Γ (.grouping e)
  | unary {op l e} : P Γ (.expr (.unary op l e)) → e.Scoped Γ → Expr.Scoped Γ (.unary op l e)
  | binary {op l a b} : P Γ (.expr (.binary op l a b)) → a.Scoped Γ → b.Scoped Γ →
      Expr.Scoped Γ (.binary op l a b)
  | logical {op l a b} : P Γ (.expr (.logical op l a b)) → a.Scoped Γ → b.Scoped Γ →
      Expr.Scoped Γ (.logical op l a b)
  | var {n ref} : P Γ (.expr (.var n ref)) → n.IsIdentifier → Γ.Reads n ref → Expr.Scoped Γ (.var n ref)
  | assign {n ref e} : P Γ (.expr (.assign n ref e)) → n.IsIdentifier →
      ref = .ofScopes n.text Γ.scopes → e.Scoped Γ → Expr.Scoped Γ (.assign n ref e)
  | call {f l es} : P Γ (.expr (.call f l es)) → f.Scoped Γ → (∀ e ∈ es, e.Scoped Γ) →
      Expr.Scoped Γ (.call f l es)
  | get {e n} : P Γ (.expr (.get e n)) → e.Scoped Γ → Expr.Scoped Γ (.get e n)
  | set {e n v} : P Γ (.expr (.set e n v)) → e.Scoped Γ → v.Scoped Γ → Expr.Scoped Γ (.set e n v)
  | this {l ref} : P Γ (.expr (.this l ref)) → Γ.classContext ≠ .outside →
      ref = .ofScopes Keyword.thisWord.text Γ.scopes → Expr.Scoped Γ (.this l ref)
  | super {l m ref} : P Γ (.expr (.super l m ref)) → Γ.classContext = .derived →
      ref = .ofScopes Keyword.superWord.text Γ.scopes → Expr.Scoped Γ (.super l m ref)

mutual

inductive Stmt.Scoped : Context → Stmt Binding → Prop where
  | expression {Γ e} : P Γ (.stmt (.expression e)) → e.Scoped P Γ → Stmt.Scoped Γ (.expression e)
  | print {Γ e} : P Γ (.stmt (.print e)) → e.Scoped P Γ → Stmt.Scoped Γ (.print e)
  | var {Γ n e} : P Γ (.stmt (.var n e)) → Γ.MayDeclare n →
      (∀ i ∈ e, i.Scoped P (Γ.mark n.text false)) → Stmt.Scoped Γ (.var n e)
  | block {Γ b} : P Γ (.stmt (.block b)) → Stmts.Scoped (Γ.push .empty) b → Stmt.Scoped Γ (.block b)
  | function {Γ d} : P Γ (.stmt (.function d)) → Γ.MayDeclare d.name →
      FunctionDecl.Scoped .function (Γ.mark d.name.text true) d → Stmt.Scoped Γ (.function d)
  | classDecl {Γ n c ms} : P Γ (.stmt (.classDecl n c ms)) → Γ.MayDeclare n →
      (∀ p ∈ c, p.1.text ≠ n.text ∧ p.1.IsIdentifier ∧ (Γ.mark n.text true).Reads p.1 p.2) →
      (∀ d ∈ ms, FunctionDecl.Scoped (.ofMethod d)
        ((Γ.mark n.text true).inClass (.ofDeclaration n c) c.isSome) d) →
      Stmt.Scoped Γ (.classDecl n c ms)
  | ite {Γ c t e} : P Γ (.stmt (.ite c t e)) → c.Scoped P Γ → t.declared? = none → Stmt.Scoped Γ t →
      (∀ s ∈ e, s.declared? = none) → (∀ s ∈ e, Stmt.Scoped Γ s) → Stmt.Scoped Γ (.ite c t e)
  | ret {Γ l e} : P Γ (.stmt (.ret l e)) → Γ.function ≠ .outside →
      (e.isSome → Γ.function ≠ .initializer) → (∀ v ∈ e, v.Scoped P Γ) → Stmt.Scoped Γ (.ret l e)
  | loop {Γ c b} : P Γ (.stmt (.loop c b)) → c.Scoped P Γ → b.declared? = none → Stmt.Scoped Γ b →
      Stmt.Scoped Γ (.loop c b)

inductive FunctionDecl.Scoped : FunctionContext → Context → FunctionDecl Binding → Prop where
  | mk {k Γ n ps b} : (Γ.inFunction k).MayDeclareAll ps → Stmts.Scoped ((Γ.inFunction k).markAll ps) b →
      FunctionDecl.Scoped k Γ (.mk n ps b)

inductive Stmts.Scoped : Context → List (Stmt Binding) → Prop where
  | nil {Γ} : Stmts.Scoped Γ []
  | cons {Γ s ss} : Stmt.Scoped Γ s → Stmts.Scoped (Γ.after s) ss → Stmts.Scoped Γ (s :: ss)

end

section

variable {P}

theorem Stmt.Scoped.mayDeclare {Γ : Context} {s : Stmt Binding} {n : Name} (h : s.Scoped P Γ)
    (hn : s.declared? = some n) : Γ.MayDeclare n := by
  cases h with
  | var _ h _ | function _ h _ | classDecl _ h _ _ =>
      cases hn
      exact h
  | expression | print | block | ite | ret | loop => cases hn

theorem Stmts.Scoped.identifier {Γ : Context} {ss : List (Stmt Binding)} (h : Stmts.Scoped P Γ ss) :
    ∀ s ∈ ss, ∀ n, s.declared? = some n → n.IsIdentifier := by
  induction ss generalizing Γ with
  | nil => simp
  | cons s ss ih =>
      cases h with
      | cons hs hss =>
          intro t ht n hd
          rcases List.mem_cons.1 ht with rfl | ht
          · exact (hs.mayDeclare hd).identifier
          · exact ih hss t ht n hd

end

/-- Nothing is asked of the pieces of a program but to be well scoped. -/
def Unlabelled (_ : Context) (_ : Node Binding) : Prop := True

/-! ## Trees without notes -/

namespace Expr

variable {ρ : Type}

mutual

/-- An expression without the notes at its references. -/
def forget : Expr ρ → Expr Unit
  | .literal v => .literal v
  | .grouping e => .grouping e.forget
  | .unary op l e => .unary op l e.forget
  | .binary op l a b => .binary op l a.forget b.forget
  | .logical op l a b => .logical op l a.forget b.forget
  | .var n _ => .var n ()
  | .assign n _ e => .assign n () e.forget
  | .call f l es => .call f.forget l (forgetAll es)
  | .get e n => .get e.forget n
  | .set e n v => .set e.forget n v.forget
  | .this l _ => .this l ()
  | .super l m _ => .super l m ()

def forgetAll : List (Expr ρ) → List (Expr Unit)
  | [] => []
  | e :: es => e.forget :: forgetAll es

end

end Expr

mutual

def Stmt.forget {ρ : Type} : Stmt ρ → Stmt Unit
  | .expression e => .expression e.forget
  | .print e => .print e.forget
  | .var n e => .var n (e.map Expr.forget)
  | .block b => .block (Stmt.forgetAll b)
  | .function d => .function d.forget
  | .classDecl n c ms => .classDecl n (c.map fun p => (p.1, ())) (FunctionDecl.forgetAll ms)
  | .ite c t e => .ite c.forget t.forget (Stmt.forget? e)
  | .ret l e => .ret l (e.map Expr.forget)
  | .loop c b => .loop c.forget b.forget

def FunctionDecl.forget {ρ : Type} : FunctionDecl ρ → FunctionDecl Unit
  | .mk n ps b => .mk n ps (Stmt.forgetAll b)

def Stmt.forgetAll {ρ : Type} : List (Stmt ρ) → List (Stmt Unit)
  | [] => []
  | s :: ss => s.forget :: Stmt.forgetAll ss

def Stmt.forget? {ρ : Type} : Option (Stmt ρ) → Option (Stmt Unit)
  | none => none
  | some s => some s.forget

def FunctionDecl.forgetAll {ρ : Type} : List (FunctionDecl ρ) → List (FunctionDecl Unit)
  | [] => []
  | d :: ds => d.forget :: FunctionDecl.forgetAll ds

end

theorem Stmt.forgetAll_eq_map {ρ : Type} (ss : List (Stmt ρ)) : Stmt.forgetAll ss = ss.map Stmt.forget := by
  induction ss with
  | nil => rfl
  | cons s ss ih => simp only [Stmt.forgetAll, List.map_cons, ih]

end LoxScript

import LoxScript.Report.Place
import LoxScript.Table
import LoxScript.Tree.Basic

/-!
# Scopes

Before a program runs, every reference to a local variable is tied to the scope that declares it, by counting
the scopes in between. The global scope is not among the scopes counted here: a name that no scope declares
is looked up among the globals when the program runs.
-/

namespace LoxScript

/-- A scope says of each name declared in it whether its initializer has been passed. -/
abbrev Scope := Table Bool

inductive FunctionContext where
  | outside | function | initializer | method
  deriving DecidableEq, Repr

inductive ClassContext where
  | outside | base | derived
  deriving DecidableEq, Repr

inductive ScopeError where
  | alreadyDeclared
  | ownInitializer
  | inheritsFromItself
  | returnOutsideFunction
  | returnFromInitializer
  | thisOutsideClass
  | superOutsideClass
  | superWithoutSuperclass
  deriving DecidableEq, Repr

def ScopeError.message : ScopeError → String
  | alreadyDeclared => "Already a variable with this name in this scope."
  | ownInitializer => "Can't read local variable in its own initializer."
  | inheritsFromItself => "A class can't inherit from itself."
  | returnOutsideFunction => "Can't return from top-level code."
  | returnFromInitializer => "Can't return a value from an initializer."
  | thisOutsideClass => "Can't use 'this' outside of a class."
  | superOutsideClass => "Can't use 'super' outside of a class."
  | superWithoutSuperclass => "Can't use 'super' in a class with no superclass."

inductive ReferenceForm where
  | var | assign | this | super
  deriving DecidableEq, Repr

structure Reference where
  form : ReferenceForm
  name : Name
  distance : Nat
  deriving DecidableEq, Repr

/-- Where resolution stands: the scopes around the current place, innermost first, and what it found. -/
structure ScopeState where
  scopes : List Scope
  function : FunctionContext
  classContext : ClassContext
  errors : Array (Located ScopeError)
  references : Array Reference

abbrev Resolver := StateM ScopeState

/-- How many scopes lie between the innermost one and the one that declares `name`. -/
def distance? (name : String) : List Scope → Option Nat
  | [] => none
  | scope :: outer => if scope.contains name then some 0 else (distance? name outer).map (· + 1)

theorem distance?_lt {name : String} {scopes : List Scope} {d : Nat}
    (h : distance? name scopes = some d) : d < scopes.length := by
  induction scopes generalizing d with
  | nil => simp [distance?] at h
  | cons scope outer ih =>
      simp only [distance?] at h
      split at h
      · cases h
        simp
      · obtain ⟨e, he, rfl⟩ := Option.map_eq_some_iff.1 h
        have := ih he
        simp only [List.length_cons]
        omega

namespace Resolver

variable {α : Type}

def reportAt (name : Name) (cause : ScopeError) : Resolver Unit :=
  modify fun s => { s with errors := s.errors.push ⟨cause, name.line, .atLexeme name.text⟩ }

def reportAtKeyword (line : Int) (k : Keyword) (cause : ScopeError) : Resolver Unit :=
  reportAt ⟨k.text, line⟩ cause

def inScope (scope : Scope) (body : Resolver α) : Resolver α := do
  modify fun s => { s with scopes := scope :: s.scopes }
  let a ← body
  modify fun s => { s with scopes := s.scopes.tail }
  return a

def inFunction (context : FunctionContext) (body : Resolver α) : Resolver α := do
  let enclosing := (← get).function
  modify fun s => { s with function := context }
  let a ← body
  modify fun s => { s with function := enclosing }
  return a

def inClass (context : ClassContext) (body : Resolver α) : Resolver α := do
  let enclosing := (← get).classContext
  modify fun s => { s with classContext := context }
  let a ← body
  modify fun s => { s with classContext := enclosing }
  return a

def setInnermost (name : String) (passed : Bool) : Resolver Unit :=
  modify fun s =>
    match s.scopes with
    | [] => s
    | scope :: outer => { s with scopes := scope.insert name passed :: outer }

/-- Enters a name into the innermost scope; from here on it hides outer variables of that name. -/
def declare (name : Name) : Resolver Unit := do
  match (← get).scopes with
  | [] => return ()
  | scope :: _ =>
      if scope.contains name.text then
        reportAt name .alreadyDeclared
      setInnermost name.text false

def define (name : Name) : Resolver Unit :=
  setInnermost name.text true

def declareAndDefine (name : Name) : Resolver Unit := do
  declare name
  define name

def bind (form : ReferenceForm) (name : Name) : Resolver Binding := do
  match distance? name.text (← get).scopes with
  | none => return .global
  | some distance =>
      modify fun s => { s with references := s.references.push ⟨form, name, distance⟩ }
      return .scoped distance

/-- Ties a use of a variable. A local variable cannot be used before its initializer is passed. -/
def bindVariable (name : Name) : Resolver Binding := do
  let passed := (← get).scopes.head?.bind fun scope => scope.find? name.text
  if passed = some false then
    reportAt name .ownInitializer
  bind .var name

/-- Ties a use of `this`. Outside all classes it is an error and stays untied. -/
def bindThis (line : Int) : Resolver Binding := do
  match (← get).classContext with
  | .outside =>
      reportAtKeyword line .thisWord .thisOutsideClass
      return .global
  | .base | .derived => bind .this ⟨Keyword.thisWord.text, line⟩

def bindSuper (line : Int) : Resolver Binding := do
  match (← get).classContext with
  | .outside => reportAtKeyword line .superWord .superOutsideClass
  | .base => reportAtKeyword line .superWord .superWithoutSuperclass
  | .derived => pure ()
  bind .super ⟨Keyword.superWord.text, line⟩

end Resolver

end LoxScript

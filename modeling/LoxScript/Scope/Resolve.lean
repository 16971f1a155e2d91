import LoxScript.Scope.Basic

/-!
# Resolving a program

Resolution walks a tree once, in the order of evaluation except that the value of a property assignment comes
before its object, and notes at each reference how to find its variable. Errors never stop it.
-/

namespace LoxScript

open Resolver

namespace Expr

mutual

def resolve : Expr Unit → Resolver (Expr Binding)
  | .literal value => return .literal value
  | .grouping inner => return .grouping (← inner.resolve)
  | .unary op line operand => return .unary op line (← operand.resolve)
  | .binary op line left right => do
      let left ← left.resolve
      let right ← right.resolve
      return .binary op line left right
  | .logical op line left right => do
      let left ← left.resolve
      let right ← right.resolve
      return .logical op line left right
  | .var name _ => return .var name (← bindVariable name)
  | .assign name _ value => do
      let value ← value.resolve
      let ref ← bind .assign name
      return .assign name ref value
  | .call callee line arguments => do
      let callee ← callee.resolve
      let arguments ← resolveAll arguments
      return .call callee line arguments
  | .get object name => return .get (← object.resolve) name
  | .set object name value => do
      let value ← value.resolve
      let object ← object.resolve
      return .set object name value
  | .this line _ => return .this line (← bindThis line)
  | .super line method _ => return .super line method (← bindSuper line)

def resolveAll : List (Expr Unit) → Resolver (List (Expr Binding))
  | [] => return []
  | e :: es => do
      let e ← e.resolve
      let es ← resolveAll es
      return e :: es

end

def resolve? : Option (Expr Unit) → Resolver (Option (Expr Binding))
  | none => return none
  | some e => return some (← e.resolve)

end Expr

/-- Ties the superclass of the class `name`. A class that names itself is an error and stays untied. -/
def Resolver.bindSuperclass (name : Name) (superclass : Name × Unit) : Resolver (Name × Binding) := do
  let superclass := superclass.1
  if superclass.text = name.text then
    reportAt superclass .inheritsFromItself
    return (superclass, .global)
  else
    return (superclass, ← bindVariable superclass)

/-- What kind of class a declaration makes. Naming itself does not give a class a superclass. -/
def ClassContext.ofDeclaration {ρ : Type} (name : Name) : Option (Name × ρ) → ClassContext
  | none => .base
  | some (superclass, _) => if superclass.text = name.text then .base else .derived

def FunctionContext.ofMethod {ρ : Type} (method : FunctionDecl ρ) : FunctionContext :=
  if method.isInitializer then .initializer else .method

def superScope : Scope := Table.singleton Keyword.superWord.text true

def thisScope : Scope := Table.singleton Keyword.thisWord.text true

/-- Works inside the scopes of a class body: one for `super` if a superclass is named, and one for `this`. -/
def Resolver.inClassScopes {α : Type} (hasSuperclass : Bool) (body : Resolver α) : Resolver α :=
  if hasSuperclass then inScope superScope (inScope thisScope body) else inScope thisScope body

mutual

def Stmt.resolve : Stmt Unit → Resolver (Stmt Binding)
  | .expression e => return .expression (← e.resolve)
  | .print e => return .print (← e.resolve)
  | .var name initializer => do
      declare name
      let initializer ← Expr.resolve? initializer
      define name
      return .var name initializer
  | .block body => return .block (← inScope Table.empty (Stmt.resolveAll body))
  | .function decl => do
      declareAndDefine decl.name
      return .function (← decl.resolve .function)
  | .classDecl name superclass methods => do
      declareAndDefine name
      let bound ←
        match superclass with
        | none => pure none
        | some superclass => some <$> bindSuperclass name superclass
      let methods ← inClass (.ofDeclaration name superclass)
        (inClassScopes superclass.isSome (FunctionDecl.resolveMethods methods))
      return .classDecl name bound methods
  | .ite condition thenBranch elseBranch => do
      let condition ← condition.resolve
      let thenBranch ← thenBranch.resolve
      let elseBranch ← Stmt.resolve? elseBranch
      return .ite condition thenBranch elseBranch
  | .ret line value => do
      if (← get).function = .outside then
        reportAtKeyword line .returnWord .returnOutsideFunction
      if value.isSome && (← get).function = .initializer then
        reportAtKeyword line .returnWord .returnFromInitializer
      return .ret line (← Expr.resolve? value)
  | .loop condition body => do
      let condition ← condition.resolve
      let body ← body.resolve
      return .loop condition body

def FunctionDecl.resolve (context : FunctionContext) : FunctionDecl Unit → Resolver (FunctionDecl Binding)
  | .mk name params body => do
      let body ← inFunction context (inScope Table.empty do
        params.forM declareAndDefine
        Stmt.resolveAll body)
      return .mk name params body

def Stmt.resolveAll : List (Stmt Unit) → Resolver (List (Stmt Binding))
  | [] => return []
  | s :: ss => do
      let s ← s.resolve
      let ss ← Stmt.resolveAll ss
      return s :: ss

def Stmt.resolve? : Option (Stmt Unit) → Resolver (Option (Stmt Binding))
  | none => return none
  | some s => return some (← s.resolve)

def FunctionDecl.resolveMethods : List (FunctionDecl Unit) → Resolver (List (FunctionDecl Binding))
  | [] => return []
  | d :: ds => do
      let d' ← d.resolve (.ofMethod d)
      let ds ← FunctionDecl.resolveMethods ds
      return d' :: ds

end

/-- A resolved tree, the errors found in it, and the references that were tied to a scope, in the order in
which they were met. -/
structure Resolved (α : Type) where
  value : α
  errors : List (Located ScopeError)
  references : List Reference

namespace Resolver

def start : ScopeState :=
  { scopes := [], function := .outside, classContext := .outside, errors := #[], references := #[] }

def run {α : Type} (r : Resolver α) : Resolved α :=
  let (a, s) := StateT.run r start
  ⟨a, s.errors.toList, s.references.toList⟩

end Resolver

def Stmt.resolveProgram (program : List (Stmt Unit)) : Resolved (List (Stmt Binding)) :=
  Resolver.run (Stmt.resolveAll program)

def Expr.resolveAlone (e : Expr Unit) : Resolved (Expr Binding) :=
  Resolver.run e.resolve

end LoxScript

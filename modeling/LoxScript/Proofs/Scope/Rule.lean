import LoxScript.Proofs.Tree.Proper
import LoxScript.Scope.Basic

/-!
# The lexical rules

Each rule asks something of one kind of place in a program and of what stands around it. The places are listed with
their surroundings, without a state that is carried from one to the next, and what a rule forbids is read off them.
-/

namespace LoxScript

/-! ## Places and their surroundings -/

inductive Surrounding where
  | block
  | function
  | method (name : Name)
  | classBody (name : Name) (superclass : Option Name)
  /-- The initializer of a variable. -/
  | initializer (name : Name)

namespace Surrounding

def isCallable : Surrounding → Bool
  | function | method _ => true
  | block | classBody _ _ | initializer _ => false

/-- Whether the statements inside declare their variables there, and not further out. -/
def isScope : Surrounding → Bool
  | block | function | method _ => true
  | classBody _ _ | initializer _ => false

def class? : Surrounding → Option (Name × Option Name)
  | classBody name superclass => some (name, superclass)
  | block | function | method _ | initializer _ => none

def initializes : Surrounding → Bool
  | method name => name.text == FunctionDecl.initializerName
  | block | function | classBody _ _ | initializer _ => false

/-- The variable whose initializer a place is in, if it is not a global one. -/
def initialized? : List Surrounding → Option Name
  | initializer name :: outer => if outer.any isScope then some name else none
  | _ => none

end Surrounding

inductive Site where
  | ret (line : Int) (hasValue : Bool)
  | this (line : Int)
  | super (line : Int)
  | variable (name : Name)
  | classDecl (name : Name) (superclass : Option Name)
  /-- A scope, with the names that are declared in it, in order. -/
  | scope (names : List Name)

/-- A site, with what stands around it, innermost first. -/
structure Occurrence where
  around : List Surrounding
  site : Site

namespace Expr

mutual

def sites : Expr Unit → List Site
  | .literal _ => []
  | .grouping e => e.sites
  | .unary _ _ e => e.sites
  | .binary _ _ a b => a.sites ++ b.sites
  | .logical _ _ a b => a.sites ++ b.sites
  | .var name _ => [.variable name]
  | .assign _ _ value => value.sites
  | .call callee _ arguments => callee.sites ++ sitesAll arguments
  | .get object _ => object.sites
  | .set object _ value => object.sites ++ value.sites
  | .this line _ => [.this line]
  | .super line _ _ => [.super line]

def sitesAll : List (Expr Unit) → List Site
  | [] => []
  | e :: es => e.sites ++ sitesAll es

end

def occurrences (around : List Surrounding) (e : Expr Unit) : List Occurrence :=
  e.sites.map (Occurrence.mk around)

def occurrences? (around : List Surrounding) (e : Option (Expr Unit)) : List Occurrence :=
  e.elim [] (occurrences around)

end Expr

def Stmt.declaredAll (ss : List (Stmt Unit)) : List Name :=
  ss.filterMap Stmt.declared?

mutual

def Stmt.occurrences (around : List Surrounding) : Stmt Unit → List Occurrence
  | .expression e => e.occurrences around
  | .print e => e.occurrences around
  | .var name initializer => Expr.occurrences? (.initializer name :: around) initializer
  | .block body =>
      ⟨.block :: around, .scope (Stmt.declaredAll body)⟩ :: Stmt.occurrencesAll (.block :: around) body
  | .function decl => decl.occurrences .function around
  | .classDecl name superclass methods =>
      ⟨around, .classDecl name (superclass.map Prod.fst)⟩ ::
        superclass.elim [] (fun superclass => [⟨around, .variable superclass.1⟩]) ++
        FunctionDecl.occurrencesMethods (.classBody name (superclass.map Prod.fst) :: around) methods
  | .ite condition thenBranch elseBranch =>
      condition.occurrences around ++ thenBranch.occurrences around ++ Stmt.occurrences? around elseBranch
  | .ret line value => ⟨around, .ret line value.isSome⟩ :: Expr.occurrences? around value
  | .loop condition body => condition.occurrences around ++ body.occurrences around

/-- Parameters and body share one scope. -/
def FunctionDecl.occurrences (kind : Surrounding) (around : List Surrounding) : FunctionDecl Unit → List Occurrence
  | .mk _ params body =>
      ⟨kind :: around, .scope (params ++ Stmt.declaredAll body)⟩ :: Stmt.occurrencesAll (kind :: around) body

def Stmt.occurrencesAll (around : List Surrounding) : List (Stmt Unit) → List Occurrence
  | [] => []
  | s :: ss => s.occurrences around ++ Stmt.occurrencesAll around ss

def Stmt.occurrences? (around : List Surrounding) : Option (Stmt Unit) → List Occurrence
  | none => []
  | some s => s.occurrences around

/-- The names of methods are declared in no scope. -/
def FunctionDecl.occurrencesMethods (around : List Surrounding) : List (FunctionDecl Unit) → List Occurrence
  | [] => []
  | d :: ds => d.occurrences (.method d.name) around ++ FunctionDecl.occurrencesMethods around ds

end

/-! ## The rules -/

/-- The names in a list that are the same as an earlier one. -/
def Name.repeated (names : List Name) : List Name :=
  (names.zipIdx.filter fun (name, i) => (names.take i).any (·.text == name.text)).map Prod.fst

def ScopeError.at (cause : ScopeError) (name : Name) : Located ScopeError :=
  ⟨cause, name.line, .atLexeme name.text⟩

def ScopeError.atKeyword (cause : ScopeError) (line : Int) (k : Keyword) : Located ScopeError :=
  cause.at ⟨k.text, line⟩

/-- What the rules forbid at a site with these surroundings. -/
def Site.violations (around : List Surrounding) : Site → List (Located ScopeError)
  | .ret line hasValue =>
      (if around.any Surrounding.isCallable then []
        else [ScopeError.returnOutsideFunction.atKeyword line .returnWord]) ++
      (if hasValue && (around.find? Surrounding.isCallable).any Surrounding.initializes then
        [ScopeError.returnFromInitializer.atKeyword line .returnWord]
      else [])
  | .this line =>
      match around.findSome? Surrounding.class? with
      | none => [ScopeError.thisOutsideClass.atKeyword line .thisWord]
      | some _ => []
  | .super line =>
      match around.findSome? Surrounding.class? with
      | none => [ScopeError.superOutsideClass.atKeyword line .superWord]
      | some (_, none) => [ScopeError.superWithoutSuperclass.atKeyword line .superWord]
      | some (name, some superclass) =>
          if superclass.text = name.text then [ScopeError.superWithoutSuperclass.atKeyword line .superWord] else []
  | .variable name =>
      if ∃ own ∈ Surrounding.initialized? around, own.text = name.text then [ScopeError.ownInitializer.at name] else []
  | .classDecl name superclass =>
      match superclass with
      | some superclass => if superclass.text = name.text then [ScopeError.inheritsFromItself.at superclass] else []
      | none => []
  | .scope names => (Name.repeated names).map ScopeError.alreadyDeclared.at

def Occurrence.violations (o : Occurrence) : List (Located ScopeError) :=
  o.site.violations o.around

def Stmt.violations (program : List (Stmt Unit)) : List (Located ScopeError) :=
  (Stmt.occurrencesAll [] program).flatMap Occurrence.violations

end LoxScript

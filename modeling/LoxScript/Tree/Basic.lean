import LoxScript.Literal
import LoxScript.Token.Basic

/-!
# Programs as trees

Expressions and statements carry a note `ρ` at every place that refers to a variable. A tree straight from
the text has no notes (`ρ = Unit`); a resolved tree says at each reference how to find the variable
(`ρ = Binding`). Lines are kept only where an error message may need them.
-/

namespace LoxScript

/-- An identifier as it stands in the text. -/
structure Name where
  text : String
  line : Int
  deriving DecidableEq, Repr, Inhabited

inductive UnaryOp where
  | negate
  | not
  deriving DecidableEq, Repr

namespace UnaryOp

def symbol : UnaryOp → Symbol
  | negate => .minus
  | not => .bang

def text (op : UnaryOp) : String :=
  op.symbol.text

end UnaryOp

inductive BinaryOp where
  | equal | notEqual
  | greater | greaterEqual | less | lessEqual
  | minus | plus
  | slash | star
  deriving DecidableEq, Repr

namespace BinaryOp

def symbol : BinaryOp → Symbol
  | equal => .equalEqual
  | notEqual => .bangEqual
  | greater => .greater
  | greaterEqual => .greaterEqual
  | less => .less
  | lessEqual => .lessEqual
  | minus => .minus
  | plus => .plus
  | slash => .slash
  | star => .star

def text (op : BinaryOp) : String :=
  op.symbol.text

end BinaryOp

inductive LogicalOp where
  | and
  | or
  deriving DecidableEq, Repr

namespace LogicalOp

def keyword : LogicalOp → Keyword
  | and => .andWord
  | or => .orWord

def text (op : LogicalOp) : String :=
  op.keyword.text

end LogicalOp

inductive Expr (ρ : Type) where
  | literal (value : Literal)
  | grouping (inner : Expr ρ)
  | unary (op : UnaryOp) (line : Int) (operand : Expr ρ)
  | binary (op : BinaryOp) (line : Int) (left right : Expr ρ)
  | logical (op : LogicalOp) (line : Int) (left right : Expr ρ)
  | var (name : Name) (ref : ρ)
  | assign (name : Name) (ref : ρ) (value : Expr ρ)
  /-- A call, with the line of its closing parenthesis. -/
  | call (callee : Expr ρ) (line : Int) (arguments : List (Expr ρ))
  | get (object : Expr ρ) (name : Name)
  | set (object : Expr ρ) (name : Name) (value : Expr ρ)
  | this (line : Int) (ref : ρ)
  | super (line : Int) (method : Name) (ref : ρ)
  deriving Repr, Inhabited

mutual

inductive Stmt (ρ : Type) where
  | expression (e : Expr ρ)
  | print (e : Expr ρ)
  | var (name : Name) (initializer : Option (Expr ρ))
  | block (body : List (Stmt ρ))
  | function (decl : FunctionDecl ρ)
  | classDecl (name : Name) (superclass : Option (Name × ρ)) (methods : List (FunctionDecl ρ))
  | ite (condition : Expr ρ) (thenBranch : Stmt ρ) (elseBranch : Option (Stmt ρ))
  | ret (line : Int) (value : Option (Expr ρ))
  | loop (condition : Expr ρ) (body : Stmt ρ)

inductive FunctionDecl (ρ : Type) where
  | mk (name : Name) (params : List Name) (body : List (Stmt ρ))

end

instance {ρ : Type} : Inhabited (Stmt ρ) := ⟨.block []⟩

instance {ρ : Type} : Inhabited (FunctionDecl ρ) := ⟨.mk default [] []⟩

namespace FunctionDecl

variable {ρ : Type}

def name : FunctionDecl ρ → Name
  | mk name _ _ => name

def params : FunctionDecl ρ → List Name
  | mk _ params _ => params

def body : FunctionDecl ρ → List (Stmt ρ)
  | mk _ _ body => body

def initializerName : String := "init"

def isInitializer (d : FunctionDecl ρ) : Bool :=
  d.name.text == initializerName

end FunctionDecl

/-- Where a reference finds its variable: by name among the globals, or a number of scopes further out. -/
inductive Binding where
  | global
  | scoped (distance : Nat)
  deriving DecidableEq, Repr, Inhabited

namespace Stmt

variable {ρ : Type}

/-- A counting loop written with the statements that remain: the initializer opens a scope around a loop whose
body ends with the increment. An absent condition is always true. -/
def forLoop (initializer : Option (Stmt ρ)) (condition increment : Option (Expr ρ)) (body : Stmt ρ) :
    Stmt ρ :=
  let body :=
    match increment with
    | none => body
    | some increment => .block [body, .expression increment]
  let loop := Stmt.loop (condition.getD (.literal (.bool true))) body
  match initializer with
  | none => loop
  | some initializer => .block [initializer, loop]

end Stmt

end LoxScript

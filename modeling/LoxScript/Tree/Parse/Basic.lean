import LoxScript.Report.Place
import LoxScript.Tree.Basic

/-!
# Reading tokens

A parser consumes tokens from the front of a list and collects errors. It can be rejected by the text, which
the enclosing declaration recovers from, or run out of the fuel that bounds its recursion, which never
happens when there is more fuel than tokens.
-/

namespace LoxScript

inductive CallableKind where
  | function
  | method
  deriving DecidableEq, Repr

def CallableKind.text : CallableKind → String
  | function => "function"
  | method => "method"

inductive NameRole where
  | classDecl | superclass | callable (kind : CallableKind) | parameter | var | property | superclassMethod
  deriving DecidableEq, Repr

def NameRole.text : NameRole → String
  | classDecl => "class name"
  | superclass => "superclass name"
  | callable kind => kind.text ++ " name"
  | parameter => "parameter name"
  | var => "variable name"
  | property => "property name after '.'"
  | superclassMethod => "superclass method name"

/-- The part of the text next to which a symbol is expected. -/
inductive Clause where
  | classBody | callableName (kind : CallableKind) | parameters | callableBody (kind : CallableKind)
  | variableDeclaration | forWord | loopCondition | forClauses | ifWord | ifCondition | value | returnValue
  | whileWord | condition | block | expression | arguments | superWord
  deriving DecidableEq, Repr

def Clause.text : Clause → String
  | classBody => "class body"
  | callableName kind => kind.text ++ " name"
  | parameters => "parameters"
  | callableBody kind => kind.text ++ " body"
  | variableDeclaration => "variable declaration"
  | forWord => "'for'"
  | loopCondition => "loop condition"
  | forClauses => "for clauses"
  | ifWord => "'if'"
  | ifCondition => "if condition"
  | value => "value"
  | returnValue => "return value"
  | whileWord => "'while'"
  | condition => "condition"
  | block => "block"
  | expression => "expression"
  | arguments => "arguments"
  | superWord => "'super'"

/-- Most parameters a function may have and most arguments a call may have. -/
def maxArguments : Nat := 32

inductive SyntaxError where
  | noExpression
  | noEndOfExpression
  | noName (role : NameRole)
  | noSymbolBefore (s : Symbol) (clause : Clause)
  | noSymbolAfter (s : Symbol) (clause : Clause)
  | tooManyParameters
  | tooManyArguments
  | invalidTarget
  deriving DecidableEq, Repr

namespace SyntaxError

def message : SyntaxError → String
  | noExpression => "Expect expression."
  | noEndOfExpression => "Expect end of expression."
  | noName role => "Expect " ++ role.text ++ "."
  | noSymbolBefore s clause => "Expect '" ++ s.text ++ "' before " ++ clause.text ++ "."
  | noSymbolAfter s clause => "Expect '" ++ s.text ++ "' after " ++ clause.text ++ "."
  | tooManyParameters => "Can't have more than " ++ toString maxArguments ++ " parameters."
  | tooManyArguments => "Can't have more than " ++ toString maxArguments ++ " arguments."
  | invalidTarget => "Invalid assignment target."

end SyntaxError

def Token.name? (t : Token) : Option Name :=
  match t.kind with
  | .identifier name => some ⟨name, t.line⟩
  | _ => none

structure ParseState where
  rest : List Token
  endLine : Int
  errors : Array (Located SyntaxError)

inductive ParseFailure where
  /-- The text breaks the grammar, and the error is already among those found. -/
  | rejected
  | outOfFuel
  deriving DecidableEq, Repr

abbrev Parser := EStateM ParseFailure ParseState

structure Parsed (α : Type) where
  value : α
  errors : List (Located SyntaxError)

namespace Parser

variable {α β σ : Type}

def remaining : Parser (List Token) := do
  return (← get).rest

def nextKind? : Parser (Option Token.Kind) := do
  return (← remaining).head?.map Token.kind

def advance : Parser Unit :=
  modify fun s => { s with rest := s.rest.tail }

/-- Notes an error at a token that has been read. -/
def reportAt (t : Token) (cause : SyntaxError) : Parser Unit :=
  modify fun s => { s with errors := s.errors.push ⟨cause, t.line, .atLexeme t.lexeme⟩ }

/-- Notes an error at the next token or at the end of the text. -/
def report (cause : SyntaxError) : Parser Unit := do
  match ← remaining with
  | t :: _ => reportAt t cause
  | [] => modify fun s => { s with errors := s.errors.push ⟨cause, s.endLine, .atEnd⟩ }

/-- Notes an error at the next token and gives up. -/
def reject (cause : SyntaxError) : Parser α := do
  report cause
  throw .rejected

def accept? (f : Token → Option α) : Parser (Option α) := do
  match ← remaining with
  | [] => return none
  | t :: _ =>
      match f t with
      | none => return none
      | some a =>
          advance
          return some a

def symbol? (s : Symbol) : Parser (Option Token) :=
  accept? fun t => if t.isSymbol s then some t else none

def symbol (s : Symbol) (otherwise : SyntaxError) : Parser Token := do
  match ← symbol? s with
  | some t => return t
  | none => reject otherwise

def symbolAfter (s : Symbol) (clause : Clause) : Parser Token :=
  symbol s (.noSymbolAfter s clause)

def symbolBefore (s : Symbol) (clause : Clause) : Parser Token :=
  symbol s (.noSymbolBefore s clause)

def atSymbol (s : Symbol) : Parser Bool := do
  return (← nextKind?) == some (.symbol s)

def atEnd : Parser Bool := do
  return (← remaining).isEmpty

def name (role : NameRole) : Parser Name := do
  match ← accept? Token.name? with
  | some name => return name
  | none => reject (.noName role)

def repeating (step : σ → Parser (σ ⊕ β)) : Nat → σ → Parser β
  | 0, _ => throw .outOfFuel
  | fuel + 1, s => do
      match ← step s with
      | .inl s => repeating step fuel s
      | .inr b => return b

/-- At least one item, separated by commas. Beyond `maxArguments` each further item is an error, but is read
all the same. -/
def commaSeparated (fuel : Nat) (item : Parser α) (tooMany : SyntaxError) : Parser (List α) :=
  let step (items : Array α) : Parser (Array α ⊕ List α) := do
    if maxArguments ≤ items.size then
      report tooMany
    let items := items.push (← item)
    match ← symbol? .comma with
    | some _ => return .inl items
    | none => return .inr items.toList
  repeating step fuel #[]

/-- Skips to just past a semicolon or just before a word that begins a statement. `last` is the token read
most recently. -/
def skipStatement (last : Token) : List Token → List Token
  | [] => []
  | t :: rest =>
      if last.isSymbol .semicolon || t.startsStatement then t :: rest else skipStatement t rest

/-- Where reading resumes after an error at the front of the given tokens. At least that token is skipped. -/
def synchronize : List Token → List Token
  | [] => []
  | t :: rest => skipStatement t rest

/-- Recovers from a rejection by skipping the rest of the broken statement. -/
def recovering (p : Parser α) : Parser (Option α) := fun s =>
  match p s with
  | .ok a s => .ok (some a) s
  | .error .rejected s => .ok none { s with rest := synchronize s.rest }
  | .error .outOfFuel s => .error .outOfFuel s

/-- Runs a parser on a list of tokens, with `fallback` as the value of a rejected text. -/
def run (p : Parser α) (fallback : α) (ts : TokenList) : Parsed α :=
  match p ⟨ts.tokens, ts.endLine, #[]⟩ with
  | .ok a s => ⟨a, s.errors.toList⟩
  | .error _ s => ⟨fallback, s.errors.toList⟩

end Parser

end LoxScript

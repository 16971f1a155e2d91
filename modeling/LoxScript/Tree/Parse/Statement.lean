import LoxScript.Tree.Parse.Expression

/-!
# Reading statements and declarations

A declaration that breaks the grammar is dropped, and reading resumes with the next statement, so that one
pass finds the errors of all declarations.
-/

namespace LoxScript

namespace Parser

def expressionStatement (fuel : Nat) : Parser (Stmt Unit) := do
  let e ← expression fuel
  let _ ← symbolAfter .semicolon .expression
  return .expression e

def printStatement (fuel : Nat) : Parser (Stmt Unit) := do
  let e ← expression fuel
  let _ ← symbolAfter .semicolon .value
  return .print e

def varDeclaration (fuel : Nat) : Parser (Stmt Unit) := do
  let name ← name .var
  let initializer ← do
    match ← symbol? .equal with
    | some _ => some <$> expression fuel
    | none => pure none
  let _ ← symbolAfter .semicolon .variableDeclaration
  return .var name initializer

def expressionUnless (fuel : Nat) (s : Symbol) : Parser (Option (Expr Unit)) := do
  if ← atSymbol s then
    return none
  else
    some <$> expression fuel

/-- A return statement, after its first word, which stands on `line`. -/
def returnStatement (fuel : Nat) (line : Int) : Parser (Stmt Unit) := do
  let value ← expressionUnless fuel .semicolon
  let _ ← symbolAfter .semicolon .returnValue
  return .ret line value

def ifStatement (fuel : Nat) (statement : Parser (Stmt Unit)) : Parser (Stmt Unit) := do
  let _ ← symbolAfter .leftParen .ifWord
  let condition ← expression fuel
  let _ ← symbolAfter .rightParen .ifCondition
  let thenBranch ← statement
  match ← accept? fun t => if t.isKeyword .elseWord then some () else none with
  | some _ => return .ite condition thenBranch (some (← statement))
  | none => return .ite condition thenBranch none

def whileStatement (fuel : Nat) (statement : Parser (Stmt Unit)) : Parser (Stmt Unit) := do
  let _ ← symbolAfter .leftParen .whileWord
  let condition ← expression fuel
  let _ ← symbolAfter .rightParen .condition
  return .loop condition (← statement)

def forInitializer (fuel : Nat) : Parser (Option (Stmt Unit)) := do
  match ← symbol? .semicolon with
  | some _ => return none
  | none =>
      match ← accept? fun t => if t.isKeyword .varWord then some () else none with
      | some _ => some <$> varDeclaration fuel
      | none => some <$> expressionStatement fuel

def forStatement (fuel : Nat) (statement : Parser (Stmt Unit)) : Parser (Stmt Unit) := do
  let _ ← symbolAfter .leftParen .forWord
  let initializer ← forInitializer fuel
  let condition ← expressionUnless fuel .semicolon
  let _ ← symbolAfter .semicolon .loopCondition
  let increment ← expressionUnless fuel .rightParen
  let _ ← symbolAfter .rightParen .forClauses
  let body ← statement
  return Stmt.forLoop initializer condition increment body

/-- Declarations up to the end of the text, or up to a closing brace if there is one before. Broken ones are
left out. -/
def declarations (fuel : Nat) (stopAtBrace : Bool) (declaration : Parser (Option (Stmt Unit))) :
    Parser (List (Stmt Unit)) :=
  let step (done : Array (Stmt Unit)) : Parser (Array (Stmt Unit) ⊕ List (Stmt Unit)) := do
    if (← atEnd) || (stopAtBrace && (← atSymbol .rightBrace)) then
      return .inr done.toList
    else
      match ← declaration with
      | some s => return .inl (done.push s)
      | none => return .inl done
  repeating step fuel #[]

def block (fuel : Nat) (declaration : Parser (Option (Stmt Unit))) : Parser (List (Stmt Unit)) := do
  let body ← declarations fuel true declaration
  let _ ← symbolAfter .rightBrace .block
  return body

def parameters (fuel : Nat) : Parser (List Name) := do
  if ← atSymbol .rightParen then
    return []
  else
    commaSeparated fuel (name .parameter) .tooManyParameters

def callable (fuel : Nat) (kind : CallableKind) (block : Parser (List (Stmt Unit))) :
    Parser (FunctionDecl Unit) := do
  let name ← name (.callable kind)
  let _ ← symbolAfter .leftParen (.callableName kind)
  let params ← parameters fuel
  let _ ← symbolAfter .rightParen .parameters
  let _ ← symbolBefore .leftBrace (.callableBody kind)
  return .mk name params (← block)

def superclass : Parser (Option (Name × Unit)) := do
  match ← symbol? .less with
  | some _ =>
      let name ← name .superclass
      return some (name, ())
  | none => return none

def methods (fuel : Nat) (block : Parser (List (Stmt Unit))) : Parser (List (FunctionDecl Unit)) :=
  let step (done : Array (FunctionDecl Unit)) :
      Parser (Array (FunctionDecl Unit) ⊕ List (FunctionDecl Unit)) := do
    if (← atEnd) || (← atSymbol .rightBrace) then
      return .inr done.toList
    else
      return .inl (done.push (← callable fuel .method block))
  repeating step fuel #[]

def classDeclaration (fuel : Nat) (block : Parser (List (Stmt Unit))) : Parser (Stmt Unit) := do
  let name ← name .classDecl
  let superclass ← superclass
  let _ ← symbolBefore .leftBrace .classBody
  let methods ← methods fuel block
  let _ ← symbolAfter .rightBrace .classBody
  return .classDecl name superclass methods

mutual

def statement : Nat → Parser (Stmt Unit)
  | 0 => throw .outOfFuel
  | fuel + 1 => do
      match ← remaining with
      | [] => expressionStatement fuel
      | t :: _ =>
          match t.kind with
          | .keyword .forWord =>
              advance
              forStatement fuel (statement fuel)
          | .keyword .ifWord =>
              advance
              ifStatement fuel (statement fuel)
          | .keyword .printWord =>
              advance
              printStatement fuel
          | .keyword .returnWord =>
              advance
              returnStatement fuel t.line
          | .keyword .whileWord =>
              advance
              whileStatement fuel (statement fuel)
          | .symbol .leftBrace =>
              advance
              return .block (← block fuel (recovering (declaration fuel)))
          | _ => expressionStatement fuel

def declaration : Nat → Parser (Stmt Unit)
  | 0 => throw .outOfFuel
  | fuel + 1 => do
      match ← nextKind? with
      | some (.keyword .classWord) =>
          advance
          classDeclaration fuel (block fuel (recovering (declaration fuel)))
      | some (.keyword .funWord) =>
          advance
          return .function (← callable fuel .function (block fuel (recovering (declaration fuel))))
      | some (.keyword .varWord) =>
          advance
          varDeclaration fuel
      | _ => statement fuel

end

def program (fuel : Nat) : Parser (List (Stmt Unit)) :=
  declarations fuel false (recovering (declaration fuel))

end Parser

def Stmt.parse (ts : TokenList) : Parsed (List (Stmt Unit)) :=
  Parser.run (Parser.program ts.fuel) [] ts

end LoxScript

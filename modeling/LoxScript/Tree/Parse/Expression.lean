import LoxScript.Tree.Parse.Basic

/-!
# Reading expressions

From loosest to tightest an expression is an assignment, one of the six levels of two-sided operators, a
sign, a chain of calls and property accesses, or a single operand. Two-sided operators group to the left,
assignments and signs to the right.
-/

namespace LoxScript

inductive Level where
  | disjunction | conjunction | equality | comparison | term | factor
  deriving DecidableEq, Repr

/-- All levels, loosest first. -/
def Level.all : List Level :=
  [.disjunction, .conjunction, .equality, .comparison, .term, .factor]

inductive Join where
  | logical (op : LogicalOp)
  | binary (op : BinaryOp)
  deriving DecidableEq, Repr

namespace Join

def level : Join → Level
  | logical .or => .disjunction
  | logical .and => .conjunction
  | binary .equal | binary .notEqual => .equality
  | binary .greater | binary .greaterEqual | binary .less | binary .lessEqual => .comparison
  | binary .minus | binary .plus => .term
  | binary .slash | binary .star => .factor

def kind : Join → Token.Kind
  | logical op => .keyword op.keyword
  | binary op => .symbol op.symbol

def ofKind? : Token.Kind → Option Join
  | .keyword .orWord => some (logical .or)
  | .keyword .andWord => some (logical .and)
  | .symbol .equalEqual => some (binary .equal)
  | .symbol .bangEqual => some (binary .notEqual)
  | .symbol .greater => some (binary .greater)
  | .symbol .greaterEqual => some (binary .greaterEqual)
  | .symbol .less => some (binary .less)
  | .symbol .lessEqual => some (binary .lessEqual)
  | .symbol .minus => some (binary .minus)
  | .symbol .plus => some (binary .plus)
  | .symbol .slash => some (binary .slash)
  | .symbol .star => some (binary .star)
  | _ => none

theorem ofKind?_kind (j : Join) : ofKind? j.kind = some j := by
  rcases j with op | op <;> cases op <;> rfl

theorem kind_of_ofKind? {k : Token.Kind} {j : Join} (h : ofKind? k = some j) : j.kind = k := by
  unfold ofKind? at h
  split at h <;> cases h <;> rfl

def build {ρ : Type} (line : Int) (left right : Expr ρ) : Join → Expr ρ
  | logical op => .logical op line left right
  | binary op => .binary op line left right

end Join

def UnaryOp.ofKind? : Token.Kind → Option UnaryOp
  | .symbol .minus => some .negate
  | .symbol .bang => some .not
  | _ => none

theorem UnaryOp.ofKind?_symbol (op : UnaryOp) : ofKind? (.symbol op.symbol) = some op := by
  cases op <;> rfl

namespace Parser

/-- A single operand: a literal, a name, or an expression between parentheses. -/
def operand (expression : Parser (Expr Unit)) : Parser (Expr Unit) := do
  match ← remaining with
  | [] => reject .noExpression
  | t :: _ =>
      match t.kind with
      | .keyword .falseWord =>
          advance
          return .literal (.bool false)
      | .keyword .trueWord =>
          advance
          return .literal (.bool true)
      | .keyword .nilWord =>
          advance
          return .literal .nil
      | .number value =>
          advance
          return .literal (.number value)
      | .string contents =>
          advance
          return .literal (.string contents)
      | .keyword .superWord =>
          advance
          let _ ← symbolAfter .dot .superWord
          let method ← name .superclassMethod
          return .super t.line method ()
      | .keyword .thisWord =>
          advance
          return .this t.line ()
      | .identifier text =>
          advance
          return .var ⟨text, t.line⟩ ()
      | .symbol .leftParen =>
          advance
          let inner ← expression
          let _ ← symbolAfter .rightParen .expression
          return .grouping inner
      | _ => reject .noExpression

def arguments (fuel : Nat) (expression : Parser (Expr Unit)) : Parser (List (Expr Unit)) := do
  if ← atSymbol .rightParen then
    return []
  else
    commaSeparated fuel expression .tooManyArguments

/-- An operand followed by any number of argument lists and property names. -/
def callChain (fuel : Nat) (expression : Parser (Expr Unit)) : Parser (Expr Unit) := do
  let step (e : Expr Unit) : Parser (Expr Unit ⊕ Expr Unit) := do
    match ← symbol? .leftParen with
    | some _ =>
        let arguments ← arguments fuel expression
        let close ← symbolAfter .rightParen .arguments
        return .inl (.call e close.line arguments)
    | none =>
        match ← symbol? .dot with
        | some _ =>
            let name ← name .property
            return .inl (.get e name)
        | none => return .inr e
  repeating step fuel (← operand expression)

def signed (self calls : Parser (Expr Unit)) : Parser (Expr Unit) := do
  match ← accept? fun t => (UnaryOp.ofKind? t.kind).map fun op => (op, t.line) with
  | some (op, line) => return .unary op line (← self)
  | none => calls

def joined (fuel : Nat) (level : Level) (operand : Parser (Expr Unit)) : Parser (Expr Unit) := do
  let operator? (t : Token) : Option (Join × Int) :=
    match Join.ofKind? t.kind with
    | some j => if j.level = level then some (j, t.line) else none
    | none => none
  let step (left : Expr Unit) : Parser (Expr Unit ⊕ Expr Unit) := do
    match ← accept? operator? with
    | some (j, line) =>
        let right ← operand
        return .inl (j.build line left right)
    | none => return .inr left
  repeating step fuel (← operand)

/-- Operands joined by the operators of the given levels, the first of which binds loosest. -/
def joinedAll (fuel : Nat) (operand : Parser (Expr Unit)) : List Level → Parser (Expr Unit)
  | [] => operand
  | level :: tighter => joined fuel level (joinedAll fuel operand tighter)

/-- What the assignment of `value` to the expression on the left of `=` becomes. -/
def assignTo? (target value : Expr Unit) : Option (Expr Unit) :=
  match target with
  | .var name _ => some (.assign name () value)
  | .get object name => some (.set object name value)
  | _ => none

/-- An assignment or an expression that binds tighter. A target that cannot be assigned to is an error, but
reading goes on as if the target stood alone. -/
def assignment (self target : Parser (Expr Unit)) : Parser (Expr Unit) := do
  let left ← target
  match ← symbol? .equal with
  | none => return left
  | some equals =>
      let value ← self
      match assignTo? left value with
      | some e => return e
      | none =>
          reportAt equals .invalidTarget
          return left

mutual

def expression : Nat → Parser (Expr Unit)
  | 0 => throw .outOfFuel
  | fuel + 1 => assignment (expression fuel) (joinedAll fuel (unary fuel) Level.all)

def unary : Nat → Parser (Expr Unit)
  | 0 => throw .outOfFuel
  | fuel + 1 => signed (unary fuel) (callChain fuel (expression fuel))

end

/-- A single expression that spans the whole text. -/
def wholeExpression (fuel : Nat) : Parser (Expr Unit) := do
  let e ← expression fuel
  if ← atEnd then
    return e
  else
    reject .noEndOfExpression

end Parser

def TokenList.fuel (ts : TokenList) : Nat :=
  4 * ts.tokens.length + 4

def Expr.parse? (ts : TokenList) : Parsed (Option (Expr Unit)) :=
  Parser.run (some <$> Parser.wholeExpression ts.fuel) none ts

end LoxScript

import LoxScript.Number.Notation

/-!
# Tokens

A token's `kind` says all that the grammar needs: which symbol or reserved word it is, the name of an
identifier, the value of a literal. The lexeme is the exact text it was read from, and the line is the one on
which it ends.
-/

namespace LoxScript

inductive Symbol where
  | leftParen | rightParen | leftBrace | rightBrace
  | comma | dot | minus | plus | semicolon | slash | star
  | bang | bangEqual | equal | equalEqual | greater | greaterEqual | less | lessEqual
  deriving DecidableEq, Repr

namespace Symbol

def text : Symbol → String
  | leftParen => "("
  | rightParen => ")"
  | leftBrace => "\x7b"
  | rightBrace => "\x7d"
  | comma => ","
  | dot => "."
  | minus => "-"
  | plus => "+"
  | semicolon => ";"
  | slash => "/"
  | star => "*"
  | bang => "!"
  | bangEqual => "!="
  | equal => "="
  | equalEqual => "=="
  | greater => ">"
  | greaterEqual => ">="
  | less => "<"
  | lessEqual => "<="

def tag : Symbol → String
  | leftParen => "LEFT_PAREN"
  | rightParen => "RIGHT_PAREN"
  | leftBrace => "LEFT_BRACE"
  | rightBrace => "RIGHT_BRACE"
  | comma => "COMMA"
  | dot => "DOT"
  | minus => "MINUS"
  | plus => "PLUS"
  | semicolon => "SEMICOLON"
  | slash => "SLASH"
  | star => "STAR"
  | bang => "BANG"
  | bangEqual => "BANG_EQUAL"
  | equal => "EQUAL"
  | equalEqual => "EQUAL_EQUAL"
  | greater => "GREATER"
  | greaterEqual => "GREATER_EQUAL"
  | less => "LESS"
  | lessEqual => "LESS_EQUAL"

/-- Symbols that are complete after one character, whatever follows. -/
def ofChar? : Char → Option Symbol
  | '(' => some leftParen
  | ')' => some rightParen
  | '\x7b' => some leftBrace
  | '\x7d' => some rightBrace
  | ',' => some comma
  | '.' => some dot
  | '-' => some minus
  | '+' => some plus
  | ';' => some semicolon
  | '*' => some star
  | _ => none

/-- Symbols that a following `=` extends: the extended one and the one that stands alone. -/
def extensible? : Char → Option (Symbol × Symbol)
  | '!' => some (bangEqual, bang)
  | '=' => some (equalEqual, equal)
  | '<' => some (lessEqual, less)
  | '>' => some (greaterEqual, greater)
  | _ => none

theorem text_ofChar? {c : Char} {s : Symbol} (h : ofChar? c = some s) : s.text.toList = [c] := by
  unfold ofChar? at h
  split at h <;> simp_all <;> subst h <;> rfl

theorem text_extensible? {c : Char} {long short : Symbol}
    (h : extensible? c = some (long, short)) :
    long.text.toList = [c, '='] ∧ short.text.toList = [c] := by
  unfold extensible? at h
  split at h <;> simp_all <;> obtain ⟨rfl, rfl⟩ := h <;> exact ⟨rfl, rfl⟩

end Symbol

inductive Keyword where
  | andWord | classWord | elseWord | falseWord | forWord | funWord | ifWord | nilWord
  | orWord | printWord | returnWord | superWord | thisWord | trueWord | varWord | whileWord
  deriving DecidableEq, Repr

namespace Keyword

def text : Keyword → String
  | andWord => "and"
  | classWord => "class"
  | elseWord => "else"
  | falseWord => "false"
  | forWord => "for"
  | funWord => "fun"
  | ifWord => "if"
  | nilWord => "nil"
  | orWord => "or"
  | printWord => "print"
  | returnWord => "return"
  | superWord => "super"
  | thisWord => "this"
  | trueWord => "true"
  | varWord => "var"
  | whileWord => "while"

def tag : Keyword → String
  | andWord => "AND"
  | classWord => "CLASS"
  | elseWord => "ELSE"
  | falseWord => "FALSE"
  | forWord => "FOR"
  | funWord => "FUN"
  | ifWord => "IF"
  | nilWord => "NIL"
  | orWord => "OR"
  | printWord => "PRINT"
  | returnWord => "RETURN"
  | superWord => "SUPER"
  | thisWord => "THIS"
  | trueWord => "TRUE"
  | varWord => "VAR"
  | whileWord => "WHILE"

def all : List Keyword :=
  [andWord, classWord, elseWord, falseWord, forWord, funWord, ifWord, nilWord,
    orWord, printWord, returnWord, superWord, thisWord, trueWord, varWord, whileWord]

def ofText? (s : String) : Option Keyword :=
  all.find? fun k => k.text == s

theorem ofText?_text (k : Keyword) : ofText? k.text = some k := by
  cases k <;> decide

theorem text_of_ofText? {s : String} {k : Keyword} (h : ofText? s = some k) : k.text = s := by
  simpa using List.find?_some h

def startsStatement : Keyword → Bool
  | classWord | funWord | varWord | forWord | ifWord | whileWord | printWord | returnWord => true
  | _ => false

end Keyword

namespace Token

inductive Kind where
  | symbol (s : Symbol)
  | keyword (k : Keyword)
  | identifier (name : String)
  | string (contents : String)
  | number (value : Float)
  deriving DecidableEq, Repr

def Kind.tag : Kind → String
  | .symbol s => s.tag
  | .keyword k => k.tag
  | .identifier _ => "IDENTIFIER"
  | .string _ => "STRING"
  | .number _ => "NUMBER"

def Kind.literalText : Kind → String
  | .string contents => contents
  | .number value => Number.fullText value
  | .symbol _ | .keyword _ | .identifier _ => "None"

end Token

structure Token where
  kind : Token.Kind
  lexeme : String
  line : Int
  deriving DecidableEq, Repr

namespace Token

def describe (t : Token) : String :=
  t.kind.tag ++ " " ++ t.lexeme ++ " " ++ t.kind.literalText

def isSymbol (t : Token) (s : Symbol) : Bool :=
  t.kind = .symbol s

def isKeyword (t : Token) (k : Keyword) : Bool :=
  t.kind = .keyword k

def startsStatement (t : Token) : Bool :=
  match t.kind with
  | .keyword k => k.startsStatement
  | _ => false

end Token

/-- The tokens of a text together with the line on which the text ends. -/
structure TokenList where
  tokens : List Token
  endLine : Int
  deriving DecidableEq, Repr

namespace TokenList

def endTag : String := "EOF"

def describe (ts : TokenList) : List String :=
  ts.tokens.map Token.describe ++ [endTag ++ "  None"]

end TokenList

end LoxScript

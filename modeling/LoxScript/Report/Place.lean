/-!
# Places in a text

Errors found before a program runs are tied to a line and, beyond the lexical ones, to the token at which
they were found or to the end of the text.
-/

namespace LoxScript

inductive Place where
  /-- The line alone. -/
  | line
  | atLexeme (lexeme : String)
  | atEnd
  deriving DecidableEq, Repr

namespace Place

def text : Place → String
  | line => ""
  | atLexeme lexeme => " at '" ++ lexeme ++ "'"
  | atEnd => " at end"

end Place

structure Located (ε : Type) where
  cause : ε
  line : Int
  place : Place
  deriving DecidableEq, Repr

end LoxScript

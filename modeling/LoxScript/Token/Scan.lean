import LoxScript.Report.Place
import LoxScript.Token.Piece

/-!
# The tokens and the lexical errors of a text

Both are read off the pieces once each piece knows the line on which it ends. Scanning never stops early:
every faulty piece gives one error, and all other tokens are still there.
-/

namespace LoxScript

inductive LexicalError where
  | unexpectedCharacter (c : Char)
  | openString
  | openComment
  deriving DecidableEq, Repr

namespace LexicalError

def message : LexicalError → String
  | unexpectedCharacter c => "Unexpected character: " ++ c.toString
  | openString => "Unterminated string."
  | openComment => "Unterminated block comment."

def isOpen : LexicalError → Bool
  | unexpectedCharacter _ => false
  | openString | openComment => true

end LexicalError

namespace Piece

/-- Gives each piece the line on which it ends, when the first one begins on `line`. -/
def locate (line : Int) : List Piece → List (Piece × Int)
  | [] => []
  | p :: ps =>
      let line := line + p.newlines
      (p, line) :: locate line ps

def token? (located : Piece × Int) : Option Token :=
  match located.1 with
  | lexeme kind text => some ⟨kind, .ofList text, located.2⟩
  | _ => none

def fault? : Piece → Option LexicalError
  | unexpected c => some (.unexpectedCharacter c)
  | openString _ => some .openString
  | openComment _ => some .openComment
  | _ => none

def error? (located : Piece × Int) : Option (Located LexicalError) :=
  located.1.fault?.map fun cause => ⟨cause, located.2, .line⟩

theorem locate_append (line : Int) (ps qs : List Piece) :
    locate line (ps ++ qs) =
      locate line ps ++ locate (line + (ps.flatMap text).count '\n') qs := by
  induction ps generalizing line with
  | nil => simp [locate]
  | cons p ps ih => simp [locate, ih, newlines, Int.add_assoc]

end Piece

structure Scan where
  list : TokenList
  errors : List (Located LexicalError)
  deriving DecidableEq, Repr

namespace Scan

def ofChars (text : List Char) : Scan :=
  let located := Piece.locate 1 (pieces text)
  { list := ⟨located.filterMap Piece.token?, 1 + text.count '\n'⟩
    errors := located.filterMap Piece.error? }

def ofString (source : String) : Scan :=
  ofChars source.toList

end Scan

end LoxScript

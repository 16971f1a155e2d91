import LoxScript.Report.Place
import LoxScript.Run.Error

/-!
# Reports

What is said about an error: found before the program ran, raised while it ran, or tied to no place at all. A
report is composed twice: as the plain text that is kept of it, and piece by piece as it is shown, where a way to
write styled texts is given for the pieces that stand out.
-/

namespace LoxScript

inductive Style where
  | bold
  /-- Bold and red. -/
  | alarm
  deriving DecidableEq, Repr

namespace Style

def bold.mark : String := "\x1b[1m"
def red.mark : String := "\x1b[31m"
def reset.mark : String := "\x1b[0m"

def decorate : Style → String → String
  | bold, text => bold.mark ++ text ++ reset.mark
  | alarm, text => bold.mark ++ red.mark ++ text ++ reset.mark

def plain (_ : Style) (text : String) : String := text

end Style

inductive Report where
  | static (line : Int) (place : Place) (message : String)
  | runtime (error : RuntimeError)
  /-- An error without a place. `internal` marks those that no program should be able to cause. -/
  | general (message : String) (internal : Bool)
  deriving DecidableEq, Repr

namespace Report

def ofLocated {ε : Type} (message : ε → String) (e : Located ε) : Report :=
  static e.line e.place (message e.cause)

def lineText (line : Int) : String :=
  "[line " ++ toString line ++ "]"

/-- The canonical line of an error found before the program runs. -/
def staticText (line : Int) (place message : String) : String :=
  "[line " ++ toString line ++ "] Error" ++ place ++ ": " ++ message

/-- The plain text that is kept of a report. -/
def text : Report → String
  | static line place message => staticText line place.text message
  | runtime error => error.message ++ "\n[line " ++ toString error.line ++ "]"
  | general message internal => (if internal then "[internal] " else "") ++ "error: " ++ message

/-- The text of a report as it is shown, given how styled pieces are written. -/
def shown (paint : Style → String → String) : Report → String
  | static line place message =>
      paint .bold (lineText line ++ " ") ++ paint .alarm ("Error" ++ place.text ++ ":") ++ (" " ++ message)
  | runtime error => paint .alarm error.message ++ ("\n" ++ lineText error.line)
  | general message internal =>
      (if internal then paint .alarm "[internal] " else "") ++ paint .alarm "error: " ++ message

def isStatic : Report → Bool
  | static _ _ _ => true
  | runtime _ | general _ _ => false

end Report

end LoxScript

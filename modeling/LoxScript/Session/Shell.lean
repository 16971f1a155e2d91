import LoxScript.Session.Basic
import LoxScript.Text.Blank

/-!
# Interactive input

Lines are collected until their brackets are closed and no string or comment is left open; the collected text
is then run as one unit. A line that consists of a command word alone is a command, though most commands are
recognised only when no unfinished line is pending.
-/

namespace LoxScript

namespace TokenList

def isOpener (t : Token) : Bool :=
  t.isSymbol .leftParen || t.isSymbol .leftBrace

def isCloser (t : Token) : Bool :=
  t.isSymbol .rightParen || t.isSymbol .rightBrace

def hasOpenBracket (ts : TokenList) : Bool :=
  decide (ts.tokens.countP isCloser < ts.tokens.countP isOpener)

end TokenList

/-- Whether a text needs more lines: a string, a comment or a bracket is open at its end. -/
def needsMore (text : String) : Bool :=
  let scan := Scan.ofString text
  scan.errors.any (fun e => e.cause.isOpen) || scan.list.hasOpenBracket

def joinLine (pending line : String) : String :=
  if pending.isEmpty then line else pending ++ "\n" ++ line

structure Shell where
  session : Session
  /-- The unfinished lines read so far. -/
  pending : String

namespace Shell

inductive Request where
  | leave
  | exit
  | help
  | nothing
  | source

def start (session : Session) : Shell := ⟨session, ""⟩

def isPending (s : Shell) : Bool :=
  !s.pending.isEmpty

def prompt (s : Shell) : String :=
  if s.isPending then ". " else "> "

def endOfInput : String := "EOF"

/-- The end of input always leaves. Other commands, and blank lines, are source text while an unfinished line
is pending. -/
def request (s : Shell) (line : String) : Request :=
  let word := Text.strip line
  if word = endOfInput then .leave
  else if s.isPending then .source
  else if word = "exit" then .exit
  else if word = "help" then .help
  else if word.isEmpty then .nothing
  else .source

def intro : String :=
  "Lox interpreter :: Python backend\nType 'help' for more information, 'exit' or Ctrl-D to leave."

def helpText : String :=
  "Welcome to the lox interpreter!\n\n" ++
  "Lox is a small dynamically typed scripting language with first-class functions, \n" ++
  "closures and classes. Statements end with ';'. Try typing 'var a = 1;' and then \n" ++
  "'print a + 2;'. A bare expression such as 'a * 10;' echoes its value. Unclosed \n" ++
  "braces continue on the next line."

def print (s : Shell) (line : String) : Shell :=
  { s with session := { s.session with console := s.session.console.print line } }

/-- Takes a line of source text: runs the unit that it completes, or waits for more. -/
def source (s : Shell) (line : String) : Shell :=
  let text := joinLine s.pending line
  if needsMore text then { s with pending := text }
  else ⟨(Session.guarded (s.session.runLine text)).1, ""⟩

/-- Takes a line of input; the second component says whether the shell is left. -/
def feed (s : Shell) (line : String) : Shell × Bool :=
  match s.request line with
  | .leave => (s.print "", true)
  | .exit => (s, true)
  | .help => (s.print helpText, false)
  | .nothing => (s, false)
  | .source => (s.source line, false)

def write (s : Shell) (text : String) : Shell :=
  { s with session := { s.session with console := s.session.console.write text } }

/-- Feeds lines until the shell is left. Before each line the prompt is shown; after the last line the end of
input is fed. -/
def feedAll (s : Shell) : List String → Shell
  | [] => ((s.write s.prompt).feed endOfInput).1
  | line :: lines =>
      match (s.write s.prompt).feed line with
      | (s, true) => s
      | (s, false) => s.feedAll lines

end Shell

end LoxScript

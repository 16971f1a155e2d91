import LoxScript.Report.Console
import LoxScript.Run.Evaluate
import LoxScript.Scope.Resolve
import LoxScript.Text.Line
import LoxScript.Token.Scan
import LoxScript.Tree.Lisp
import LoxScript.Tree.Parse.Statement

/-!
# Sessions

A session runs one text after another; global variables stay from text to text. A text is scanned and parsed,
resolved, and run, and errors found in one of these phases keep the next from starting. An error flag that is
still up from an earlier text counts as well.
-/

namespace LoxScript

structure Session where
  console : Console
  machine : Machine
  /-- Whether programs are shown as trees instead of being run. -/
  showTree : Bool
  limits : Limits

inductive Ending (α : Type) where
  | done (a : α)
  | escaped (e : Escape)

inductive ExitCode where
  | success
  /-- An error was found before running. -/
  | dataError
  /-- The script could not be read. -/
  | noInput
  /-- An error arose while running. -/
  | software
  deriving DecidableEq, Repr

def ExitCode.toNat : ExitCode → Nat
  | success => 0
  | dataError => 65
  | noInput => 66
  | software => Console.softwareFailure

/-- How a stop that is no runtime error leaves a run. -/
def Stop.escape : Stop → Escape
  | .error e => .runtime e
  | .overflow => .overflow
  | .exhausted => .unforeseen "Exhausted" "too many iterations"
  | .returning _ => .unforeseen "Fault" "return outside of a function"
  | .fault _ => .unforeseen "Fault" "broken reference"

namespace Session

def start (showTree : Bool) (limits : Limits) (clock : Nat → Float) : Session :=
  { console := .fresh, machine := .start clock, showTree := showTree, limits := limits }

def report (s : Session) (rs : List Report) : Session :=
  { s with console := s.console.reportAll rs }

/-- Scans and parses a text; gives its statements unless the error flag is up. -/
def parse (s : Session) (source : String) : Session × Option (List (Stmt Unit)) :=
  let scan := Scan.ofString source
  let s := s.report (scan.errors.map (Report.ofLocated LexicalError.message))
  let parsed := Stmt.parse scan.list
  let s := s.report (parsed.errors.map (Report.ofLocated SyntaxError.message))
  (s, if s.console.hadError then none else some parsed.value)

/-- Resolves a program; gives the resolved program unless the error flag is up. -/
def resolve (s : Session) (program : List (Stmt Unit)) : Session × Option (List (Stmt Binding)) :=
  let resolved := Stmt.resolveProgram program
  let s := s.report (resolved.errors.map (Report.ofLocated ScopeError.message))
  (s, if s.console.hadError then none else some resolved.value)

/-- Runs a resolved program. A runtime error is reported and ends it; a deeper failure escapes. -/
def interpret (s : Session) (program : List (Stmt Binding)) : Session × Ending Value :=
  let (result, m) := s.machine.run s.limits program
  let console := m.printed.foldl Console.print s.console
  let s := { s with console := console, machine := { m with printed := #[] } }
  match result with
  | .ok v => (s, .done v)
  | .error (.error e) => (s.report [.runtime e], .done .nil)
  | .error stop => (s, .escaped stop.escape)

/-- Runs a text; the value is that of its last statement, and nil after any error. -/
def run (s : Session) (source : String) : Session × Ending Value :=
  match s.parse source with
  | (s, none) => (s, .done .nil)
  | (s, some program) =>
      if s.showTree then
        ({ s with console := (program.map Stmt.toLisp).foldl Console.print s.console }, .done .nil)
      else
        match s.resolve program with
        | (s, none) => (s, .done .nil)
        | (s, some program) => s.interpret program

/-- Runs one unit of interactive input: shows a value other than nil, and forgets static errors. -/
def runLine (s : Session) (source : String) : Session × Ending Value :=
  match s.run source with
  | (s, .escaped e) => (s, .escaped e)
  | (s, .done v) =>
      let console := if v = .nil then s.console else s.console.print (s.machine.heap.display v)
      ({ s with console := console.reset }, .done v)

def runFile (s : Session) (path : String) (contents : Option String) : Session × Ending ExitCode :=
  match contents with
  | none =>
      let (console, code) := s.console.raise ("'" ++ path ++ "' could not be opened") false
      let s := { s with console := console }
      match code with
      | some code => (s, .escaped (.exit code))
      | none => (s, .done .noInput)
  | some text =>
      match s.run (.ofList (Text.normalizeNewlines text.toList)) with
      | (s, .escaped e) => (s, .escaped e)
      | (s, .done _) =>
          if s.console.hadError then (s, .done .dataError)
          else if s.console.hadRuntimeError then (s, .done .software)
          else (s, .done .success)

/-- Guards an action: what escapes from it is reported. The value is there only if nothing escaped. -/
def guarded {α : Type} (ended : Session × Ending α) : Session × Option α :=
  match ended with
  | (s, .done a) => (s, some a)
  | (s, .escaped e) => ({ s with console := (s.console.leave (some e)).1 }, none)

def atTopLevel (s : Session) : Bool :=
  s.machine.chain == Heap.globalChain

/-- The global variables, in order of name. -/
def globals (s : Session) : List (String × Slot) :=
  s.machine.heap.frames[Heap.globalFrame]?.elim [] Table.sorted

end Session

end LoxScript

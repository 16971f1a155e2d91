import LoxScript.Report.Basic

/-!
# The console

Program output and error reports go to one stream, in the order in which they arise. The console also keeps
two flags: whether an error was found before running, and whether one arose while running. Whether the stream
is shown in colour is decided only when it is rendered.
-/

namespace LoxScript

inductive Entry where
  | written (text : String)
  | reported (report : Report)
  deriving DecidableEq, Repr

namespace Entry

def render (colored : Bool) : Entry → String
  | written text => text
  | reported r => r.shown (if colored then Style.decorate else Style.plain) ++ "\n"

def report? : Entry → Option Report
  | written _ => none
  | reported r => some r

end Entry

structure Console where
  /-- Whether an error without a place ends the process. -/
  fatal : Bool
  hadError : Bool
  hadRuntimeError : Bool
  entries : Array Entry
  deriving DecidableEq, Repr

/-- How a guarded action ended that may have been left by an exceptional event. -/
inductive Escape where
  /-- A request to end the process. -/
  | exit (code : Nat)
  | interrupt
  | overflow
  | runtime (error : RuntimeError)
  | general (message : String) (internal : Bool)
  /-- A rejected text; its errors are reported already. -/
  | rejected
  /-- Any other event, with its name. -/
  | unforeseen (name message : String)
  deriving DecidableEq, Repr

inductive Aftermath where
  | passedOn
  | suppressed
  | processExit (code : Nat)
  deriving DecidableEq, Repr

namespace Console

def fresh : Console :=
  { fatal := false, hadError := false, hadRuntimeError := false, entries := #[] }

def write (c : Console) (text : String) : Console :=
  { c with entries := c.entries.push (.written text) }

def print (c : Console) (line : String) : Console :=
  c.write (line ++ "\n")

def report (c : Console) (r : Report) : Console :=
  { c with
    entries := c.entries.push (.reported r)
    hadError := c.hadError || r.isStatic
    hadRuntimeError := c.hadRuntimeError || !r.isStatic }

def reportAll (c : Console) (rs : List Report) : Console :=
  rs.foldl report c

/-- Forgets that an error was found before running. Runtime errors are never forgotten. -/
def reset (c : Console) : Console :=
  { c with hadError := false }

def softwareFailure : Nat := 70

/-- Reports an error without a place; the second component is the exit code if the process ends here. -/
def raise (c : Console) (message : String) (internal : Bool) : Console × Option Nat :=
  (c.report (.general message internal), if c.fatal then some softwareFailure else none)

/-- Reports what made a guarded action stop, and says whether it stays inside the guard. -/
def leave (c : Console) : Option Escape → Console × Aftermath
  | none => (c, .passedOn)
  | some (.exit _) => (c, .passedOn)
  | some .interrupt => general c "keyboard interrupt" false .suppressed
  | some .overflow => general c "Stack overflow." false .suppressed
  | some (.runtime error) => (c.report (.runtime error), .suppressed)
  | some (.general message internal) => general c message internal .suppressed
  | some .rejected => general c "parse error" false .suppressed
  | some (.unforeseen name message) =>
      general c ("unknown error: '" ++ name ++ ": " ++ message ++ "'") true .passedOn
where
  general (c : Console) (message : String) (internal : Bool) (otherwise : Aftermath) : Console × Aftermath :=
    let (c, code) := c.raise message internal
    (c, (code.map Aftermath.processExit).getD otherwise)

def reports (c : Console) : List Report :=
  c.entries.toList.filterMap Entry.report?

def runtimeErrors (c : Console) : List RuntimeError :=
  c.reports.filterMap fun
    | .runtime error => some error
    | _ => none

def render (colored : Bool) (c : Console) : String :=
  String.join (c.entries.toList.map (Entry.render colored))

end Console

end LoxScript

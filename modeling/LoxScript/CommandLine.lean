import LoxScript.Session.Shell
import LoxScript.Text.Digit

/-!
# The command line

A script is run if one is named, otherwise lines are read from standard input. Long options may be shortened
as long as they stay unambiguous; after `--` nothing is an option.
-/

namespace LoxScript

namespace CommandLine

inductive Flag where
  | help
  | ast
  | noColor
  deriving DecidableEq, Repr

def Flag.long : Flag → String
  | help => "--help"
  | ast => "--ast"
  | noColor => "--no-color"

def Flag.all : List Flag := [.help, .ast, .noColor]

inductive Argument where
  | flag (f : Flag)
  /-- An option with a value, though no option takes one. -/
  | flagWithValue
  | unknownOption
  | ambiguousOption
  | positional (text : String)
  deriving DecidableEq, Repr

def isDigits (cs : List Char) : Bool :=
  !cs.isEmpty && cs.all Text.isDecimalDigit

def dropFinalNewline (cs : List Char) : List Char :=
  if cs.getLast? = some '\n' then cs.dropLast else cs

/-- Whether an argument reads as a negative number, such as `-5` or `-.5`. The digits may be those of any
script, and a single newline may follow them. -/
def isNegativeNumber (cs : List Char) : Bool :=
  match dropFinalNewline cs with
  | '-' :: number =>
      isDigits number ||
        match number.dropWhile Text.isDecimalDigit with
        | '.' :: fraction => isDigits fraction
        | _ => false
  | _ => false

def classifyUnknown (text : String) : Argument :=
  let cs := text.toList
  if isNegativeNumber cs || cs.contains ' ' then .positional text else .unknownOption

def classifyLong (text : String) : Argument :=
  let cs := text.toList
  let stem := cs.takeWhile (· != '=')
  let hasValue := cs.contains '='
  match Flag.all.find? fun f => f.long.toList = stem with
  | some f => if hasValue then .flagWithValue else .flag f
  | none =>
      match Flag.all.filter fun f => stem.isPrefixOf f.long.toList with
      | [] => classifyUnknown text
      | [f] => if hasValue then .flagWithValue else .flag f
      | _ => .ambiguousOption

/-- An argument that begins with a single dash. The one short option may be repeated in place, and an equals
sign may stand before the repetitions. All else behind it counts as a value, also an equals sign at the end. -/
def classifyShort (text : String) : Argument :=
  match text.toList with
  | ['-'] => .positional text
  | ['-', 'h', '='] => .flagWithValue
  | '-' :: 'h' :: '=' :: more | '-' :: 'h' :: more =>
      if more.all (· == 'h') then .flag .help else .flagWithValue
  | _ => classifyUnknown text

def classify (text : String) : Argument :=
  match text.toList with
  | '-' :: '-' :: _ => classifyLong text
  | '-' :: _ => classifyShort text
  | _ => .positional text

structure Options where
  file : Option String
  showTree : Bool
  colored : Bool
  deriving DecidableEq, Repr

inductive Invocation where
  /-- Leave at once with this exit code. -/
  | exit (code : Nat)
  | start (options : Options)
  deriving DecidableEq, Repr

def usageError : Nat := 2

/-- Arguments read so far: whether any was superfluous, and whether the last one was the file. -/
structure Progress where
  options : Options
  superfluous : Bool
  afterFile : Bool

namespace Progress

def start : Progress :=
  { options := ⟨none, false, true⟩, superfluous := false, afterFile := false }

def addPositional (p : Progress) (text : String) : Progress :=
  match p.options.file with
  | none => { p with options := { p.options with file := some text }, afterFile := true }
  | some _ => { p with superfluous := true, afterFile := false }

def addUnknown (p : Progress) : Progress :=
  { p with superfluous := true, afterFile := false }

/-- The mark that ends the options counts as superfluous unless the file is next to it. -/
def addSeparator (p : Progress) : Progress :=
  if p.options.file.isSome && !p.afterFile then p.addUnknown else { p with afterFile := false }

def finish (p : Progress) : Invocation :=
  if p.superfluous then .exit usageError else .start p.options

end Progress

def interpret (p : Progress) : List String → Invocation
  | [] => p.finish
  | "--" :: rest => (rest.foldl Progress.addPositional p.addSeparator).finish
  | text :: rest =>
      match classify text with
      | .flag .help => .exit 0
      | .flag .ast => interpret { p with options := { p.options with showTree := true }, afterFile := false } rest
      | .flag .noColor =>
          interpret { p with options := { p.options with colored := false }, afterFile := false } rest
      | .flagWithValue | .ambiguousOption => .exit usageError
      | .unknownOption => interpret p.addUnknown rest
      | .positional text => interpret (p.addPositional text) rest

/-- What the arguments ask for. An ambiguous option is a fault before anything else is considered. -/
def parse (arguments : List String) : Invocation :=
  let mayBeOptions := arguments.takeWhile (· != "--")
  if mayBeOptions.any fun text => classify text = .ambiguousOption then .exit usageError
  else interpret Progress.start arguments

/-- Runs a session to its end: the final console and the exit code. `read?` gives the text of a file that can
be read. -/
def run (options : Options) (read? : String → Option String) (input : String) (clock : Nat → Float) :
    Console × ExitCode :=
  let session := Session.start options.showTree .standard clock
  match options.file with
  | some path =>
      let (session, code) := Session.guarded (session.runFile path (read? path))
      (session.console, code.getD .software)
  | none =>
      let session := { session with console := session.console.print Shell.intro }
      (((Shell.start session).feedAll (Text.lines input)).session.console, .success)

end CommandLine

end LoxScript

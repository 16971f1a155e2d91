import LoxScript.CommandLine

/-!
# The program

Reads files and standard input and shows what the library answers. Output appears as soon as each line of
interactive input has been dealt with.
-/

namespace LoxScript

namespace Program

def flush (colored : Bool) (s : Session) : IO Session := do
  let stdout ← IO.getStdout
  stdout.putStr (s.console.render colored)
  stdout.flush
  return { s with console := { s.console with entries := #[] } }

/-- Reads and feeds lines until the shell is left. -/
partial def converse (colored : Bool) (input : IO.FS.Stream) (shell : Shell) : IO Unit := do
  let shell := shell.write shell.prompt
  let session ← flush colored shell.session
  let line ← input.getLine
  let line := if line.isEmpty then Shell.endOfInput else (line.dropSuffix '\n').toString
  let (shell, left) := { shell with session := session }.feed line
  let session ← flush colored shell.session
  unless left do
    converse colored input { shell with session := session }

def readFile? (path : String) : IO (Option String) := do
  try
    return some (← IO.FS.readFile path)
  catch _ =>
    return none

/-- Clock readings, a microsecond apart from each other. -/
def clockFrom (start : Float) (k : Nat) : Float :=
  start + Float.ofNat k * 0.000001

def run (options : CommandLine.Options) : IO UInt32 := do
  let clock := clockFrom (Float.ofNat (← IO.monoMsNow) / 1000)
  let session := Session.start options.showTree .standard clock
  match options.file with
  | some path =>
      let (session, code) := Session.guarded (session.runFile path (← readFile? path))
      let _ ← flush options.colored session
      return (code.getD .software).toNat.toUInt32
  | none =>
      let session := { session with console := session.console.print Shell.intro }
      converse options.colored (← IO.getStdin) (Shell.start session)
      return ExitCode.success.toNat.toUInt32

end Program

end LoxScript

def main (arguments : List String) : IO UInt32 :=
  match LoxScript.CommandLine.parse arguments with
  | .exit code => return code.toUInt32
  | .start options => LoxScript.Program.run options

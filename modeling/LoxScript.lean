import LoxScript.Main
import LoxScript.Tree.Polish
import LoxScript.Proofs.Tree.Parse
import LoxScript.Proofs.Scope.Context
import LoxScript.Proofs.Scope.Visit
import LoxScript.Proofs.Scope.Sound
import LoxScript.Proofs.Scope.Complete
import LoxScript.Proofs.Scope.Record
import LoxScript.Proofs.Scope.Moved
import LoxScript.Proofs.Scope.Rule
import LoxScript.Proofs.Scope.Violation
import LoxScript.Proofs.Lockstep.Access
import LoxScript.Proofs.Lockstep.Basic
import LoxScript.Proofs.Lockstep.Combine
import LoxScript.Proofs.Lockstep.Store
import LoxScript.Proofs.Lockstep.Operation
import LoxScript.Proofs.Lockstep.Call
import LoxScript.Proofs.Lockstep.Evaluate
import LoxScript.Proofs.Lockstep.Ends
import LoxScript.Proofs.Environment.Fits
import LoxScript.Proofs.Environment.Agreement
import LoxScript.Proofs.Environment.Sound
import LoxScript.Proofs.Environment.Moment
import LoxScript.Proofs.Environment.Link
import LoxScript.Proofs.Environment.Write
import LoxScript.Proofs.Environment.Trace
import LoxScript.Proofs.Environment.Chain
import LoxScript.Proofs.Rename.Basic
import LoxScript.Proofs.Rename.Scoped
import LoxScript.Proofs.Rename.Alike
import LoxScript.Proofs.Enclose.Basic
import LoxScript.Proofs.Enclose.Scoped
import LoxScript.Proofs.Enclose.Run
import LoxScript.Proofs.Enclose.Alike
import LoxScript.Proofs.Loop.Without
import LoxScript.Proofs.Loop.Padded
import LoxScript.Proofs.Loop.Basic
import LoxScript.Proofs.Loop.Run
import LoxScript.Proofs.Loop.Alike
import LoxScript.Proofs.Loop.Desugar
import LoxScript.Proofs.Method.Activation
import LoxScript.Proofs.Method.Heap
import LoxScript.Proofs.Method.Keep
import LoxScript.Proofs.Method.Evaluate
import LoxScript.Proofs.Token.Append
import LoxScript.Proofs.Token.Comment
import LoxScript.Proofs.Token.Lexeme
import LoxScript.Proofs.Token.Split
import LoxScript.Proofs.Token.Account
import LoxScript.Proofs.Token.Join
import LoxScript.Proofs.Token.Automaton
import LoxScript.Proofs.Token.Literal
import LoxScript.Proofs.Grammar.Spelled
import LoxScript.Proofs.Grammar.Finds
import LoxScript.Proofs.Grammar.Sound
import LoxScript.Proofs.Grammar.Complete
import LoxScript.Proofs.Grammar.Shape
import LoxScript.Proofs.Grammar.Basic
import LoxScript.Proofs.Grammar.Derived
import LoxScript.Proofs.Grammar.Language
import LoxScript.Proofs.Grammar.Balance
import LoxScript.Proofs.Grammar.Fuel
import LoxScript.Proofs.Grammar.Progress
import LoxScript.Proofs.Grammar.Append
import LoxScript.Proofs.Number.Text
import LoxScript.Proofs.Number.Rounding
import LoxScript.Proofs.Number.Bits
import LoxScript.Proofs.Number.Numeral
import LoxScript.Proofs.Number.Shortest
import LoxScript.Proofs.Number.Layout
import LoxScript.Proofs.Number.Positional
import LoxScript.Proofs.Tree.Nested
import LoxScript.Proofs.Tree.Lisp
import LoxScript.Proofs.Tree.Atoms
import LoxScript.Proofs.Tree.Legible
import LoxScript.Proofs.Tree.Decode
import LoxScript.Proofs.Tree.Lossless
import LoxScript.Proofs.Tree.Stack
import LoxScript.Proofs.Tree.Polish
import LoxScript.Proofs.Run.Lines
import LoxScript.Proofs.Run.Moved
import LoxScript.Proofs.Run.Origin
import LoxScript.Proofs.Session.Reached
import LoxScript.Proofs.Session.Safety
import LoxScript.Proofs.Session.Phases
import LoxScript.Proofs.Session.Moment
import LoxScript.Proofs.Session.Append
import LoxScript.Proofs.Session.Interactive
import LoxScript.Proofs.Session.Units
import LoxScript.Proofs.Session.State
import LoxScript.Proofs.Session.Link
import LoxScript.Proofs.Session.Variable
import LoxScript.Proofs.Session.Method
import LoxScript.Proofs.Session.Loop
import LoxScript.Proofs.Colour.Clean
import LoxScript.Proofs.Colour.Source
import LoxScript.Proofs.Colour.Machine
import LoxScript.Proofs.Colour.Run
import LoxScript.Proofs.Colour.Erase
import LoxScript.Proofs.Colour.Handler
import LoxScript.Proofs.Colour.Session
import LoxScript.Proofs.Colour.Live

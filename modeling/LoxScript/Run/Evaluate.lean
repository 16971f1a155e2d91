import LoxScript.Run.Machine
import LoxScript.Run.Operation

/-!
# Evaluating expressions and executing statements

What an expression and a statement do is defined for any way to run their parts, so that recursion stays in
one place: it is on the depth that is left, and at depth zero the run stops with an overflow.
-/

namespace LoxScript

/-- How much a run may consume. Only a run is limited: a text is scanned, parsed and resolved however deeply it is
nested. -/
structure Limits where
  /-- How deeply expressions, statements and calls may be nested while they run. -/
  depth : Nat
  /-- How often the body of one loop may be repeated. -/
  iterations : Nat
  deriving DecidableEq, Repr

/-- Enough for every program that is not endless. -/
def Limits.standard : Limits :=
  { depth := 5000, iterations := 1000000000000000000 }

namespace Run

def operate (lexeme : String) (line : Int) : Except RuntimeCause Value → Run Value
  | .ok v => return v
  | .error cause => fail cause lexeme line

def evaluateAll (evaluate : Expr Binding → Run Value) : List (Expr Binding) → Run (List Value)
  | [] => return []
  | e :: es => do
      let v ← evaluate e
      let vs ← evaluateAll evaluate es
      return v :: vs

def executeAll (execute : Stmt Binding → Run Value) : List (Stmt Binding) → Run Unit
  | [] => return ()
  | s :: ss => do
      let _ ← execute s
      executeAll execute ss

def executeBlock (execute : Stmt Binding → Run Value) (chain : Chain) (frame : Frame)
    (body : List (Stmt Binding)) : Run Unit := do
  let id ← newFrame frame
  inChain (id :: chain) (executeAll execute body)

/-- Calls a function with as many arguments as it has parameters. An initializer always gives its instance. -/
def callClosure (execute : Stmt Binding → Run Value) (c : Closure) (arguments : List Value) : Run Value := do
  let frame := Table.ofList ((c.decl.params.map Name.text).zip (arguments.map Slot.value))
  let result ← catchReturn (executeBlock execute c.chain frame c.decl.body)
  if c.isInitializer then
    lookUpOwn c.chain 0 Keyword.thisWord.text
  else
    return result.getD .nil

/-- A method whose environment also binds `this`. -/
def bindMethod (id : InstanceId) (method : Closure) : Run Closure := do
  let frame ← newFrame (Table.singleton Keyword.thisWord.text (.value (.instanceRef id)))
  return { method with chain := frame :: method.chain }

def instantiate (execute : Stmt Binding → Run Value) (id : ClassId) (arguments : List Value) : Run Value := do
  let object ← newInstance id
  match (← get).heap.initializer? id with
  | none => return .instanceRef object
  | some method =>
      let bound ← bindMethod object method
      let _ ← callClosure execute bound arguments
      return .instanceRef object

/-- Calls a value. The number of arguments is checked after all of them are evaluated. -/
def call (execute : Stmt Binding → Run Value) (callee : Value) (arguments : List Value) (line : Int) :
    Run Value := do
  match (← get).heap.arity? callee with
  | none => fail .notCallable Symbol.rightParen.text line
  | some arity =>
      if arguments.length ≠ arity then
        fail (.wrongArity arity arguments.length) Symbol.rightParen.text line
      else
        match callee with
        | .native .clock => readClock
        | .native (.idle _ _) => return .nil
        | .closureRef id => callClosure execute (← closureAt id) arguments
        | .classRef id => instantiate execute id arguments
        | .plain _ | .instanceRef _ => throw (.fault .danglingReference)

/-- Reads a property. Fields hide methods; a method comes bound to the instance, as a new function. -/
def getProperty (object : Value) (name : Name) : Run Value := do
  match object with
  | .instanceRef id =>
      let i ← instanceAt id
      match i.fields.find? name.text with
      | some v => return v
      | none =>
          match (← get).heap.method? i.classId name.text with
          | some method => newClosure (← bindMethod id method)
          | none => failAt (.undefinedProperty name.text) name
  | _ => failAt .noProperties name

/-- The method of the superclass, bound to the present instance. The frame of `this` lies just inside the
frame of `super`. -/
def getSuper (method : Name) (ref : Binding) : Run Value := do
  match ref with
  | .global => throw (.fault .unresolvedSuper)
  | .scoped distance =>
      let chain := (← get).chain
      let superclass ← lookUpOwn chain distance Keyword.superWord.text
      let object ← lookUpOwn chain ((distance : Int) - 1) Keyword.thisWord.text
      match superclass, object with
      | .classRef superclass, .instanceRef id =>
          match (← get).heap.method? superclass method.text with
          | some m => newClosure (← bindMethod id m)
          | none => failAt (.undefinedProperty method.text) method
      | _, _ => throw (.fault .danglingReference)

def superclassOf : Option (Name × Binding) → Run (Option ClassId)
  | none => return none
  | some (name, ref) => do
      match ← lookUp name ref with
      | .classRef id => return some id
      | _ => failAt .superclassNotClass name

/-- Methods are declared in the environment of their class, inside a scope for `super` if it has a
superclass. -/
def methodChain (superclass : Option ClassId) : Run Chain := do
  let chain := (← get).chain
  match superclass with
  | none => return chain
  | some id =>
      let frame ← newFrame (Table.singleton Keyword.superWord.text (.value (.classRef id)))
      return frame :: chain

def methodTable (chain : Chain) (methods : List (FunctionDecl Binding)) : Table Closure :=
  Table.ofList (methods.map fun d => (d.name.text, ⟨d, chain, d.isInitializer⟩))

/-- Declares a class. Its name is bound, to nil, before its methods are made. -/
def declareClass (name : Name) (superclass : Option (Name × Binding)) (methods : List (FunctionDecl Binding)) :
    Run Unit := do
  let superclass ← superclassOf superclass
  define name.text (.value .nil)
  let chain ← methodChain superclass
  let made ← newClass ⟨name.text, superclass, methodTable chain methods⟩
  let m ← get
  let id ← access (m.heap.frames.holder m.chain name)
  modifyHeap (·.define id name.text (.value made))

/-- Evaluates an expression, given how to evaluate its parts and how to execute the bodies of functions. -/
def evaluateStep (evaluate : Expr Binding → Run Value) (execute : Stmt Binding → Run Value) :
    Expr Binding → Run Value
  | .literal value => return .plain value
  | .grouping inner => evaluate inner
  | .unary op line operand => do
      let v ← evaluate operand
      operate op.text line (op.apply v)
  | .binary op line left right => do
      let l ← evaluate left
      let r ← evaluate right
      operate op.text line (op.apply l r)
  | .logical op _ left right => do
      let l ← evaluate left
      if op.decidedBy l then return l else evaluate right
  | .var name ref => lookUp name ref
  | .assign name ref value => do
      let v ← evaluate value
      store name ref v
      return v
  | .call callee line arguments => do
      let f ← evaluate callee
      let vs ← evaluateAll evaluate arguments
      call execute f vs line
  | .get object name => do
      let o ← evaluate object
      getProperty o name
  | .set object name value => do
      match ← evaluate object with
      | .instanceRef id =>
          let v ← evaluate value
          modifyHeap (·.setField id name.text v)
          return v
      | _ => failAt .noFields name
  | .this line ref => lookUp ⟨Keyword.thisWord.text, line⟩ ref
  | .super _ method ref => getSuper method ref

/-- Executes a statement, given how to evaluate and execute its parts. Only an expression statement has a value
of its own. -/
def executeStep (iterations : Nat) (evaluate : Expr Binding → Run Value) (execute : Stmt Binding → Run Value) :
    Stmt Binding → Run Value
  | .expression e => evaluate e
  | .print e => do
      let v ← evaluate e
      print v
      return .nil
  | .var name none => do
      define name.text .uninitialized
      return .nil
  | .var name (some e) => do
      let v ← evaluate e
      define name.text (.value v)
      return .nil
  | .block body => do
      executeBlock execute (← get).chain .empty body
      return .nil
  | .function decl => do
      let f ← newClosure ⟨decl, (← get).chain, false⟩
      define decl.name.text (.value f)
      return .nil
  | .classDecl name superclass methods => do
      declareClass name superclass methods
      return .nil
  | .ite condition thenBranch elseBranch => do
      let c ← evaluate condition
      if c.isTruthy then
        let _ ← execute thenBranch
      else
        match elseBranch with
        | some s => let _ ← execute s
        | none => pure ()
      return .nil
  | .ret _ none => throw (.returning .nil)
  | .ret _ (some e) => do
      let v ← evaluate e
      throw (.returning v)
  | .loop condition body => do
      repeatWhile
        (do return (← evaluate condition).isTruthy)
        (do let _ ← execute body)
        iterations
      return .nil

mutual

def evaluate (iterations : Nat) : Nat → Expr Binding → Run Value
  | 0, _ => throw .overflow
  | depth + 1, e => evaluateStep (evaluate iterations depth) (execute iterations depth) e

def execute (iterations : Nat) : Nat → Stmt Binding → Run Value
  | 0, _ => throw .overflow
  | depth + 1, s => executeStep iterations (evaluate iterations depth) (execute iterations depth) s

end

def program (limits : Limits) : Value → List (Stmt Binding) → Run Value
  | last, [] => return last
  | _, s :: ss => do
      let v ← execute limits.iterations limits.depth s
      program limits v ss

end Run

def Machine.run (m : Machine) (limits : Limits) (program : List (Stmt Binding)) : Except Stop Value × Machine :=
  match Run.program limits .nil program m with
  | .ok v m => (.ok v, m)
  | .error stop m => (.error stop, m)

def Machine.evaluate (m : Machine) (limits : Limits) (e : Expr Binding) : Except Stop Value × Machine :=
  match Run.evaluate limits.iterations limits.depth e m with
  | .ok v m => (.ok v, m)
  | .error stop m => (.error stop, m)

end LoxScript

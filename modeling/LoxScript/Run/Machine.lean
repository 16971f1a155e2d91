import LoxScript.Run.Error
import LoxScript.Run.Heap

/-!
# The machine that runs programs

The state of a run: the heap, the current environment and what was printed. Running a piece of program ends
with a value, or stops early for one of five reasons. `inChain` brings the machine back to the environment it
came from whatever the reason.
-/

namespace LoxScript

structure Machine where
  heap : Heap
  /-- The current environment. -/
  chain : Chain
  printed : Array String
  /-- The readings that the clock will give. -/
  clock : Nat → Float
  /-- How often the clock was read. -/
  ticks : Nat

def Machine.start (clock : Nat → Float) : Machine :=
  { heap := .start, chain := Heap.globalChain, printed := #[], clock := clock, ticks := 0 }

/-- Things that no resolved program does. -/
inductive Fault where
  | access (error : AccessError)
  | unresolvedSuper
  | danglingReference
  | returnOutsideFunction
  deriving DecidableEq, Repr

/-- Why running stops early. -/
inductive Stop where
  /-- A return statement was executed. -/
  | returning (v : Value)
  | error (e : RuntimeError)
  /-- Calls and expressions are nested too deeply. -/
  | overflow
  /-- A loop has used up its iterations. -/
  | exhausted
  | fault (f : Fault)
  deriving DecidableEq, Repr

abbrev Run := EStateM Stop Machine

namespace Run

variable {α : Type}

def fail (cause : RuntimeCause) (lexeme : String) (line : Int) : Run α :=
  throw (.error ⟨cause, lexeme, line⟩)

def failAt (cause : RuntimeCause) (name : Name) : Run α :=
  fail cause name.text name.line

/-- Stops if a variable could not be reached. Only names that are missing or hold no value are errors of the
program. -/
def access : Except AccessError α → Run α
  | .ok a => return a
  | .error (.undefined name) => failAt (.undefinedVariable name.text) name
  | .error (.uninitialized name) => failAt (.uninitializedVariable name.text) name
  | .error e => throw (.fault (.access e))

/-- Runs `body` in another environment and then returns to the present one, however `body` ends. -/
def inChain (chain : Chain) (body : Run α) : Run α := fun m =>
  let here := m.chain
  match body { m with chain := chain } with
  | .ok a m => .ok a { m with chain := here }
  | .error stop m => .error stop { m with chain := here }

/-- Runs the body of a function; gives the value of the return statement that ended it, if one did. -/
def catchReturn (body : Run Unit) : Run (Option Value) := fun m =>
  match body m with
  | .ok _ m => .ok none m
  | .error (.returning v) m => .ok (some v) m
  | .error stop m => .error stop m

def repeatWhile (condition : Run Bool) (body : Run Unit) : Nat → Run Unit
  | 0 => throw .exhausted
  | budget + 1 => do
      if ← condition then
        body
        repeatWhile condition body budget
      else
        return ()

def modifyHeap (f : Heap → Heap) : Run Unit :=
  modify fun m => { m with heap := f m.heap }

/-- Adds an object to the heap; gives its number. -/
def allocate (add : Heap → Nat × Heap) : Run Nat :=
  modifyGet fun m =>
    let (id, heap) := add m.heap
    (id, { m with heap := heap })

def newFrame (frame : Frame) : Run FrameId :=
  allocate (·.addFrame frame)

def newClosure (c : Closure) : Run Value := do
  return .closureRef (← allocate (·.addClosure c))

def newClass (c : ClassObject) : Run Value := do
  return .classRef (← allocate (·.addClass c))

def newInstance (classId : ClassId) : Run InstanceId :=
  allocate (·.addInstance classId)

def define (name : String) (slot : Slot) : Run Unit := do
  match (← get).chain with
  | [] => throw (.fault .danglingReference)
  | id :: _ => modifyHeap (·.define id name slot)

def lookUp (name : Name) (ref : Binding) : Run Value := do
  let m ← get
  match ref with
  | .global => access (m.heap.frames.get Heap.globalChain name)
  | .scoped distance => access (m.heap.frames.getAt m.chain distance name)

def store (name : Name) (ref : Binding) (v : Value) : Run Unit := do
  let m ← get
  let id ← access <|
    match ref with
    | .global => m.heap.frames.holder Heap.globalChain name
    | .scoped distance => Frames.ancestor m.chain distance
  modifyHeap (·.define id name.text (.value v))

/-- Reads one of the variables that the machine itself binds, which always hold a value. -/
def lookUpOwn (chain : Chain) (distance : Int) (name : String) : Run Value := do
  match ← access ((← get).heap.frames.slotAt chain distance name) with
  | .value v => return v
  | .uninitialized => throw (.fault .danglingReference)

def instanceAt (id : InstanceId) : Run Instance := do
  match (← get).heap.instances[id]? with
  | some i => return i
  | none => throw (.fault .danglingReference)

def closureAt (id : ClosureId) : Run Closure := do
  match (← get).heap.closures[id]? with
  | some c => return c
  | none => throw (.fault .danglingReference)

def print (v : Value) : Run Unit :=
  modify fun m => { m with printed := m.printed.push (m.heap.display v) }

def readClock : Run Value := do
  let m ← get
  set { m with ticks := m.ticks + 1 }
  return .number (m.clock m.ticks)

end Run

end LoxScript

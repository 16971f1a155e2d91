import LoxScript.Run.Environment

/-!
# Objects

The heap keeps frames, functions, classes and instances under consecutive numbers. Objects are only ever
added, so a class always has a larger number than its superclass.
-/

namespace LoxScript

structure Closure where
  decl : FunctionDecl Binding
  chain : Chain
  isInitializer : Bool

def Closure.arity (c : Closure) : Nat :=
  c.decl.params.length

structure ClassObject where
  name : String
  superclass : Option ClassId
  methods : Table Closure

structure Instance where
  classId : ClassId
  fields : Table Value

structure Heap where
  frames : Frames
  closures : Array Closure
  classes : Array ClassObject
  instances : Array Instance

namespace Heap

def globalFrame : FrameId := 0

/-- The environment of top-level code. -/
def globalChain : Chain := [globalFrame]

def start : Heap :=
  { frames := #[Table.singleton Native.clock.name (.value (.native .clock))]
    closures := #[], classes := #[], instances := #[] }

def addFrame (h : Heap) (frame : Frame) : FrameId × Heap :=
  (h.frames.size, { h with frames := h.frames.push frame })

def addClosure (h : Heap) (c : Closure) : ClosureId × Heap :=
  (h.closures.size, { h with closures := h.closures.push c })

def addClass (h : Heap) (c : ClassObject) : ClassId × Heap :=
  (h.classes.size, { h with classes := h.classes.push c })

def addInstance (h : Heap) (id : ClassId) : InstanceId × Heap :=
  (h.instances.size, { h with instances := h.instances.push ⟨id, .empty⟩ })

def define (h : Heap) (id : FrameId) (name : String) (slot : Slot) : Heap :=
  { h with frames := h.frames.define id name slot }

def setField (h : Heap) (id : InstanceId) (name : String) (v : Value) : Heap :=
  { h with instances := h.instances.modify id fun i => { i with fields := i.fields.insert name v } }

/-- The method `name` of a class, its own or else an inherited one. Superclasses are older than their
subclasses. -/
def method? (h : Heap) (id : ClassId) (name : String) : Option Closure :=
  match h.classes[id]? with
  | none => none
  | some c =>
      match c.methods.find? name with
      | some m => some m
      | none =>
          match c.superclass with
          | none => none
          | some superclass => if superclass < id then h.method? superclass name else none
termination_by id

/-- Methods depend on the classes alone. -/
theorem method?_congr {h h' : Heap} (same : h.classes = h'.classes) (id : ClassId) (name : String) :
    h.method? id name = h'.method? id name := by
  induction id using Nat.strongRecOn with
  | ind id ih =>
      rw [method?, method?, same]
      cases h'.classes[id]? with
      | none => rfl
      | some c =>
          dsimp only
          cases c.methods.find? name with
          | some m => rfl
          | none =>
              dsimp only
              cases c.superclass with
              | none => rfl
              | some superclass =>
                  dsimp only
                  split
                  · next older => exact ih superclass older
                  · rfl

def initializer? (h : Heap) (id : ClassId) : Option Closure :=
  h.method? id FunctionDecl.initializerName

/-- The number of arguments a value takes when it is called; none if it cannot be called. -/
def arity? (h : Heap) : Value → Option Nat
  | .native _ => some 0
  | .closureRef id => h.closures[id]?.map Closure.arity
  | .classRef id => some ((h.initializer? id).elim 0 Closure.arity)
  | .plain _ | .instanceRef _ => none

def className (h : Heap) (id : ClassId) : String :=
  h.classes[id]?.elim "" ClassObject.name

def display (h : Heap) : Value → String
  | .plain l => l.text
  | .native f => "<native fn " ++ f.name ++ ">"
  | .closureRef id => "<fn " ++ h.closures[id]?.elim "" (fun c => c.decl.name.text) ++ ">"
  | .classRef id => h.className id
  | .instanceRef id => h.instances[id]?.elim "" (fun i => h.className i.classId) ++ " instance"

end Heap

end LoxScript
